import HotStuff.Proofs.Deployment

/-!
# Rehearsals

A script for the correct members of a deployment says which of them is to follow which cue, one
after the other. Playing it computes the world it leads to, unless an input turns out to be forged.
The deployments here run with the transparent scheme.

## Main results

* `Deployment.reaches_of_play`: what a script leads to can come about.
* `World.collisionFree_of_ballots`: freedom from collisions, from the payloads that were voted for.
-/

namespace HotStuff

/-- A deployment with the transparent scheme, in which the key of a member is its secret. -/
def Deployment.transparent (committee : Committee) (faulty : Finset MemberId) : Deployment where
  scheme := .transparent
  committee := committee
  faulty := faulty
  keypair m := .ofSecret .transparent ⟨m.1.key⟩
  timeout _ := 10
  keypair_member _ := rfl

/-- A correct member with a number. -/
def Deployment.member {committee : Committee} {faulty : Finset MemberId} (n : UInt8)
    (h : MemberId.numbered n ∈ committee.members ∧ MemberId.numbered n ∉ faulty) :
    (Deployment.transparent committee faulty).Correct :=
  ⟨.numbered n, h⟩

/-- What is claimed of all correct members can be computed. -/
instance {d : Deployment} {P : d.Correct → Prop} [hP : DecidablePred P] : Decidable (∀ m, P m) :=
  have (m : MemberId) (h : m ∈ d.committee.members ∧ m ∉ d.faulty) : Decidable (P ⟨m, h⟩) :=
    hP ⟨m, h⟩
  decidable_of_iff
    (∀ m ∈ d.committee.members, ∀ h : m ∈ d.committee.members ∧ m ∉ d.faulty, P ⟨m, h⟩)
    ⟨fun hall m => hall m.1 m.2.1 m.2, fun hall m _ h => hall ⟨m, h⟩⟩

namespace World

variable {d : Deployment} {σ : Type} (w : World d σ)

/-- Whether a seal proves a vote can be computed: there is at most one member to ask. -/
instance (b : Ballot) (s : Seal) : Decidable (w.evidence.voted b s) :=
  if h : s.signer ∈ d.committee.members ∧ s.signer ∉ d.faulty then
    decidable_of_iff (b ∈ ballotsOf (w.history ⟨s.signer, h⟩))
      ⟨fun hb m hm => (Subtype.ext hm : (⟨s.signer, h⟩ : d.Correct) = m) ▸ hb,
        fun hall => hall _ rfl⟩
  else isTrue fun m hm => absurd (hm ▸ m.2) h

/-- Whether a signer made a statement can be computed. -/
instance (signer : MemberId) (st : Statement) : Decidable (w.evidence.stated signer st) :=
  if h : signer ∈ d.committee.members ∧ signer ∉ d.faulty then
    decidable_of_iff (st ∈ statementsOf (w.history ⟨signer, h⟩))
      ⟨fun hst m hm => (Subtype.ext hm : (⟨signer, h⟩ : d.Correct) = m) ▸ hst,
        fun hall => hall _ rfl⟩
  else isTrue fun m hm => absurd (hm ▸ m.2) h

/-- Whether an input is backed can be computed. -/
instance (input : Input) : Decidable (w.evidence.Backs d.scheme input) :=
  decidable_of_iff
    ((∀ signed ∈ input.statement?, d.scheme.statementValid signed →
        w.evidence.stated signed.signer signed.body) ∧
      (∀ cert ∈ input.certificate?, ∀ s ∈ cert.seals, d.scheme.sealValid cert.ballot s →
        w.evidence.voted cert.ballot s) ∧
      ∀ v ∈ input.vote?, d.scheme.voteValid v → w.evidence.voted v.ballot v.stamp)
    ⟨fun h => ⟨h.1, h.2.1, h.2.2⟩, fun h => ⟨h.statement, h.certificate, h.vote⟩⟩

variable {w} in
/-- The payloads voted for have no collision if they are among some that have none. -/
theorem collisionFree_of_ballots {ps : List Payload}
    (hinjective : ∀ p ∈ ps, ∀ q ∈ ps, d.scheme.payloadDigest p = d.scheme.payloadDigest q → p = q)
    (hroot : ∀ p ∈ ps, d.scheme.payloadDigest p ≠ d.scheme.genesisDigest)
    (hballots : ∀ m, ∀ b ∈ ballotsOf (w.history m), b.payload ∈ ps) :
    d.scheme.CollisionFree d.scheme.genesisDigest w.Supported := by
  have hsupported : ∀ p, w.Supported p → p ∈ ps := by
    rintro p ⟨m, v, hvoted⟩
    exact hballots m _ hvoted
  exact ⟨fun p q hp hq => hinjective p (hsupported p hp) q (hsupported q hq),
    fun p hp => hroot p (hsupported p hp)⟩

end World

/-! ### Scripts for several members -/

namespace World

variable {d : Deployment}

/-- All correct members in their first process, on empty stores in memory. -/
def start (d : Deployment) : World d MemoryStore := ⟨fun m => .fresh (d.context m), fun _ => []⟩

/-- The world after a member has followed a cue, if what it was handed is not forged. -/
def follow (w : World d MemoryStore) (m : d.Correct) (cue : Cue) : Option (World d MemoryStore) :=
  ((w.core m).follow (d.context m) (fun _ => w.evidence.Backs d.scheme) (w.history m) cue).map
    fun (ts, core) => w.after m ts core

/-- **What a script leads to.** -/
def play : World d MemoryStore → List (d.Correct × Cue) → Option (World d MemoryStore)
  | w, [] => some w
  | w, (m, cue) :: script => (w.follow m cue).bind fun w' => play w' script

end World

namespace Deployment

variable {d : Deployment} {w w' : World d MemoryStore}

/-- The world in which all correct members have just been created can come about. -/
theorem reaches_start (d : Deployment) : d.Reaches (World.start d) :=
  .boot fun m => ⟨rfl, {}, rfl, Core.create_fresh (d.context m)⟩

/-- **What a script leads to can come about.** -/
theorem reaches_of_play {script : List (d.Correct × Cue)} (hreaches : d.Reaches w)
    (hplay : w.play script = some w') : d.Reaches w' := by
  induction script generalizing w with
  | nil =>
      obtain rfl := Option.some.inj hplay
      exact hreaches
  | cons step script ih =>
      obtain ⟨m, cue⟩ := step
      obtain ⟨next, hfollow, hrest⟩ := Option.bind_eq_some_iff.mp hplay
      obtain ⟨⟨ts, core⟩, hcue, rfl⟩ := Option.map_eq_some_iff.mp hfollow
      exact ih (.step hreaches (Step.of_follow hcue)) hrest

/-- What is computed of the world that a script leads to holds of a world that can come about. -/
theorem exists_reaches {P : World d MemoryStore → Prop} [DecidablePred P]
    {script : List (d.Correct × Cue)}
    (h : ((World.start d).play script).map (fun w => decide (P w)) = some true) :
    ∃ w, d.Reaches w ∧ P w := by
  obtain ⟨w, hplay, hP⟩ := Option.map_eq_some_iff.mp h
  exact ⟨w, reaches_of_play (reaches_start d) hplay, of_decide_eq_true hP⟩

end Deployment

end HotStuff
