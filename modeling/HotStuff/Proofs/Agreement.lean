import HotStuff.Proofs.Ordering
import HotStuff.Proofs.Rehearsal

/-!
# Agreement

Members agree when no two of them execute different payloads on the same parent. With the default
quorum and up to `maxFaulty` faulty members they do as long as decisions stand, and decisions stand
exactly as long as none is overturned. But a faulty leader can bring members to overturn one, and
then they need not agree. Correct leaders do not, since `Leader.slot?` has them propose again what
is certified on their committed digest: without faulty members there is agreement under every
quorum, and no member returns to a digest it has left.

## Main results

* `decisions_stand_iff_not_overturned`: agreement of the members as long as decisions stand.
* `disagreement_of_swap`: a run with one faulty member of four, a swap, and two decisions.
* `agreement_of_correct_members`: agreement without faulty members.
-/

namespace HotStuff

variable {d : Deployment} {σ : Type}

namespace World

variable (w : World d σ)

/-- **Agreement.** No two correct members execute different payloads on the same parent. -/
def Agrees : Prop :=
  ∀ m n p q, p ∈ executedOf (w.history m) → q ∈ executedOf (w.history n) → p.parent = q.parent →
    p = q

/-- The digests that a member has committed, one before each of its turns and the one it has now. -/
def committed (m : d.Correct) : List Digest :=
  (w.history m).map (fun t => t.before.replica.state.committed) ++
    [(w.core m).replica.state.committed]

/-- **No way back.** A member that has a digest committed at two times had it all the
time between. -/
def NeverReturns : Prop :=
  ∀ (m : d.Correct) (i j k : Nat) (c : Digest), i ≤ j → j ≤ k → (w.committed m)[i]? = some c →
    (w.committed m)[k]? = some c → (w.committed m)[j]? = some c

/-- Members propose only in the slot that they have at that time. -/
def KeepsToSlots [StateStore σ] : Prop :=
  ∀ m, ∀ t ∈ w.history m, ∀ slot, t.input.slot? = some slot →
    t.before.slot? (d.context m) = some slot

instance [StateStore σ] : Decidable w.KeepsToSlots :=
  decidable_of_iff (∀ m, ∀ t ∈ w.history m, ∀ slot ∈ t.input.slot?,
    t.before.slot? (d.context m) = some slot) Iff.rfl

end World

variable [StateStore σ] [LawfulStore σ] {w : World d σ}

namespace World.Sound

variable (hw : w.Sound)

include hw

/-- Members agree if decisions stand, since they execute what was decided. -/
theorem agrees (hstand : w.DecisionsStand) : w.Agrees := by
  intro m n p q hp hq hparent
  obtain ⟨u, hdecided⟩ := (hw.reaches.course m).certified_of_executed hp
  obtain ⟨v, hdecided'⟩ := (hw.reaches.course n).certified_of_executed hq
  rcases UInt64.le_total u v with hle | hle
  · exact hstand u v p q hle hdecided (hw.prepared hdecided') hparent
  · exact (hstand v u q p hle hdecided' (hw.prepared hdecided) hparent.symm).symm

/-- Everything that a member has committed descends from genesis. -/
theorem leads_of_mem_committed {m : d.Correct} {c : Digest} (hc : c ∈ w.committed m) :
    d.scheme.Leads w.Supported d.scheme.genesisDigest c := by
  have hcourse := hw.reaches.course m
  rcases List.mem_append.mp hc with hc | hc
  · obtain ⟨t, ht, rfl⟩ := List.mem_map.mp hc
    obtain ⟨h₁, h₂, hsplit⟩ := List.append_of_mem ht
    rw [hsplit] at hcourse
    exact hw.leads_committed hcourse.split.1
  · exact List.mem_singleton.mp hc ▸ hw.leads_committed hcourse

variable (hnone : ∀ m, ∀ t ∈ w.history m, ¬ w.Overturns t)

include hnone

/-- Of two digests that a member has committed, the earlier leads to the later. -/
theorem pairwise_committed (m : d.Correct) :
    (w.committed m).Pairwise (d.scheme.Leads w.Supported) := by
  have hcourse := hw.reaches.course m
  refine hcourse.pairwise_committed fun t ht => ?_
  have hforward : d.scheme.Leads (w.DecidedBefore View.last) t.before.replica.state.committed
      t.after.replica.state.committed :=
    hw.forward (fun v _ => hw.ordered hnone v) hcourse ht (View.le_last _)
  exact hforward.mono fun _ hp => hw.supported_of_decided hp

/-- **No member returns to a digest** that it has left: the digests that it has committed lead from
each to the next, and nothing leads back. -/
theorem neverReturns : w.NeverReturns := by
  intro m i j k c hij hjk hi hk
  obtain ⟨hlt, hc⟩ := List.getElem?_eq_some_iff.mp hk
  have hj : j < (w.committed m).length := Nat.lt_of_le_of_lt hjk hlt
  have hpairwise := List.pairwise_iff_getElem.mp (hw.pairwise_committed hnone m)
  rcases Nat.lt_or_eq_of_le hij with hij | rfl
  · rcases Nat.lt_or_eq_of_le hjk with hjk | rfl
    · obtain ⟨hfirst, hc'⟩ := List.getElem?_eq_some_iff.mp hi
      have hforth := hpairwise i j hfirst hj hij
      have hback := hpairwise j k hj hlt hjk
      rw [hc'] at hforth
      rw [hc] at hback
      have hroot := hw.leads_of_mem_committed (List.mem_of_getElem? hi)
      rw [List.getElem?_eq_getElem hj, hw.free.leads_antisymm hroot hforth hback]
    · exact hk
  · exact hi

end World.Sound

/-! ### With faulty members -/

/-- **Agreement as long as decisions stand.** With the default quorum and as many faulty members as
that tolerates, decisions stand exactly in the runs in which no correct member overturns one, and
there the members agree. -/
theorem decisions_stand_iff_not_overturned (hreaches : d.Reaches w)
    (hquorum : d.committee.quorum = Committee.defaultQuorum d.committee.size)
    (hfaulty : d.faulty.card ≤ Committee.maxFaulty d.committee.size)
    (hfree : d.scheme.CollisionFree d.scheme.genesisDigest w.Supported) :
    (w.DecisionsStand ↔ ∀ m, ∀ t ∈ w.history m, ¬ w.Overturns t) ∧
      (w.DecisionsStand → w.Agrees) := by
  have hfew : d.committee.size + d.faulty.card < 2 * d.committee.quorum := by
    have hlt := Committee.lt_two_mul_defaultQuorum d.committee.size_pos
    rw [hquorum]
    omega
  have hw : w.Sound := ⟨hreaches, hfew, hfree⟩
  exact ⟨hw.decisionsStand_iff, hw.agrees⟩

namespace Swapping

/-- One member of four is faulty. It leads the views 3, 7 and 11. -/
def deployment : Deployment := .transparent .four {.numbered 3}

def first : deployment.Correct := Deployment.member 0 (by decide)

def second : deployment.Correct := Deployment.member 1 (by decide)

def third : deployment.Correct := Deployment.member 2 (by decide)

/-- A payload on the genesis digest. -/
def payload : Payload := ⟨Scheme.transparent.genesisDigest, [80]⟩

/-- Another payload on the genesis digest. -/
def other : Payload := ⟨Scheme.transparent.genesisDigest, [88]⟩

/-- A certificate with the seal of the faulty member. -/
def cert (phase : Phase) (view : View) (p : Payload) (voters : List UInt8) : Certificate :=
  .numbered ⟨phase, view, p⟩ (voters ++ [3])

/-- The faulty leader says something in a view, to some members only. -/
def tell (receivers : List deployment.Correct) (view : View) (phase : Phase) (p : Payload)
    (justify : Certificate) : List (deployment.Correct × Cue) :=
  receivers.map fun m => (m, .input (.numbered 3 view phase p justify))

/-- In view 3 the first two members lock on the payload, and the first decides it. In view 7 the
payload is certified again, with the vote of the third. -/
def decision : List (deployment.Correct × Cue) :=
  tell [first, second] 3 .prepare payload Scheme.transparent.genesis ++
    tell [first, second] 3 .preCommit payload (cert .prepare 3 payload [0, 1]) ++
    tell [first, second] 3 .commit payload (cert .preCommit 3 payload [0, 1]) ++
    tell [first] 3 .decide payload (cert .commit 3 payload [0, 1]) ++
    tell [second, third] 7 .prepare payload (cert .prepare 3 payload [0, 1])

/-- The second member decides the payload too, late. -/
def catchUp : List (deployment.Correct × Cue) :=
  tell [second] 3 .decide payload (cert .commit 3 payload [0, 1])

/-- In view 11 the other payload is proposed on the certificate of view 7. The second member swaps,
and decides it with the third. -/
def swap : List (deployment.Correct × Cue) :=
  tell [second, third] 11 .prepare other (cert .prepare 7 payload [1, 2]) ++
    tell [second, third] 11 .preCommit other (cert .prepare 11 other [1, 2]) ++
    tell [second, third] 11 .commit other (cert .preCommit 11 other [1, 2]) ++
    tell [second] 11 .decide other (cert .commit 11 other [1, 2])

/-- The two payloads have no collision. -/
theorem collisionFree {w : World deployment MemoryStore}
    (hballots : ∀ m, ∀ b ∈ ballotsOf (w.history m), b.payload ∈ [payload, other]) :
    deployment.scheme.CollisionFree deployment.scheme.genesisDigest w.Supported := by
  refine World.collisionFree_of_ballots ?_ ?_ hballots
  · decide
  · decide

end Swapping

open Swapping in
/-- Where the second member catches up instead of swapping, decisions stand, and the two members
agree. -/
theorem agreement_of_catching_up :
    ∃ w : World deployment MemoryStore, deployment.Reaches w ∧
      deployment.committee.quorum = Committee.defaultQuorum deployment.committee.size ∧
      deployment.faulty.card ≤ Committee.maxFaulty deployment.committee.size ∧
      deployment.scheme.CollisionFree deployment.scheme.genesisDigest w.Supported ∧
      executedOf (w.history first) = [payload] ∧ executedOf (w.history second) = [payload] ∧
      w.DecisionsStand ∧ w.Agrees := by
  obtain ⟨w, hreaches, hfirst, hsecond, hballots, hlocks⟩ := Deployment.exists_reaches
    (P := fun w => executedOf (w.history first) = [payload] ∧
      executedOf (w.history second) = [payload] ∧
      (∀ m, ∀ b ∈ ballotsOf (w.history m), b.payload ∈ [payload, other]) ∧
      ∀ m, ∀ t ∈ w.history m, ∀ lock ∈ t.before.replica.state.locked, ∀ st ∈ t.proposal?,
        st.payload = lock.payload)
    (show ((World.start deployment).play (decision ++ catchUp)).map _ = some true by decide +kernel)
  have hfree := collisionFree hballots
  obtain ⟨hiff, hagrees⟩ := decisions_stand_iff_not_overturned hreaches rfl (by decide) hfree
  have hstand : w.DecisionsStand := by
    refine hiff.mpr ?_
    rintro m t ht ⟨lock, st, hswaps, -, -⟩
    exact hswaps.other (hlocks m t ht lock hswaps.locked st hswaps.proposed)
  exact ⟨w, hreaches, rfl, by decide, hfree, hfirst, hsecond, hstand, hagrees hstand⟩

open Swapping in
/-- **A swap and a fork.** One faulty leader of four members has two correct ones execute two
payloads on the genesis digest. -/
theorem disagreement_of_swap :
    ∃ w : World deployment MemoryStore, deployment.Reaches w ∧
      deployment.committee.quorum = Committee.defaultQuorum deployment.committee.size ∧
      deployment.faulty.card ≤ Committee.maxFaulty deployment.committee.size ∧
      deployment.scheme.CollisionFree deployment.scheme.genesisDigest w.Supported ∧
      executedOf (w.history first) = [payload] ∧ executedOf (w.history second) = [other] ∧
      ¬ w.Agrees := by
  obtain ⟨w, hreaches, hfirst, hsecond, hballots⟩ := Deployment.exists_reaches
    (P := fun w => executedOf (w.history first) = [payload] ∧
      executedOf (w.history second) = [other] ∧
      ∀ m, ∀ b ∈ ballotsOf (w.history m), b.payload ∈ [payload, other])
    (show ((World.start deployment).play (decision ++ swap)).map _ = some true by decide +kernel)
  refine ⟨w, hreaches, rfl, by decide, collisionFree hballots, hfirst, hsecond, ?_⟩
  intro hagrees
  have hsame := hagrees first second payload other (by simp [hfirst]) (by simp [hsecond]) rfl
  exact absurd hsame (by decide)

/-! ### Without faulty members -/

omit [StateStore σ] [LawfulStore σ] in
/-- A proposal for a slot is what the certificate of the slot certifies, or has another parent. -/
theorem Turn.payload_of_slot {m : d.Correct} {t : Turn σ} {st : Statement} {slot : Slot}
    {data : Bytes} (hslot : t.before.slot? (d.context m) = some slot)
    (hinput : t.input = .propose slot data) (hproposal : t.proposal? = some st)
    (hphase : st.justify.phase = .prepare)
    (hparent : st.justify.payload.parent = st.payload.parent) :
    st.justify.payload = st.payload := by
  rw [Turn.proposal?, hinput] at hproposal
  obtain rfl := Option.some.inj hproposal
  obtain ⟨-, -, -, hagain | ⟨hfresh, hother⟩⟩ := Leader.slot?_spec hslot
  · simp only [hagain, Option.getD_some]
  · simp only [hfresh, Option.getD_none] at hparent
    exact absurd hparent (hother hphase)

/-- **Correct leaders do not bring members to swap.** -/
theorem not_swaps_of_keepsToSlots (hreaches : d.Reaches w) (hcorrect : d.faulty = ∅)
    (hslots : w.KeepsToSlots) (m : d.Correct) {t : Turn σ} (ht : t ∈ w.history m)
    {lock : Certificate} {st : Statement} : ¬ t.Swaps lock st := by
  intro hswaps
  obtain ⟨st', ⟨hproposal', hstated⟩, haccepts, -, -⟩ :=
    ((hreaches.course m).lawful ht).proposal_of_vote hswaps.voted rfl
  obtain rfl := Option.some.inj (hswaps.proposed.symm.trans hproposal')
  -- The leader is correct, so it has proposed this itself, in a slot that it had.
  let leader : d.Correct :=
    ⟨(d.context m).leader st.view, List.get_mem _ _, by rw [hcorrect]; exact Finset.notMem_empty _⟩
  obtain ⟨t', ht', horigin, slot, data, hinput⟩ :=
    (hreaches.conduct leader).origin st (hstated leader rfl) haccepts.phase
  have hslot := hslots leader t' ht' slot (by rw [hinput]; rfl)
  have hparent : st.justify.payload.parent = st.payload.parent := by
    rw [hswaps.again, hswaps.sibling]
  have hsame := Turn.payload_of_slot hslot hinput horigin hswaps.phase hparent
  exact hswaps.other (hsame.symm.trans hswaps.again)

/-- **Agreement of correct members.** Without faulty members, and with proposals only in the slots
that members have, they agree under every quorum, and none returns to a digest it has left. -/
theorem agreement_of_correct_members (hreaches : d.Reaches w) (hcorrect : d.faulty = ∅)
    (hslots : w.KeepsToSlots)
    (hfree : d.scheme.CollisionFree d.scheme.genesisDigest w.Supported) :
    w.Agrees ∧ w.NeverReturns := by
  have hfew : d.committee.size + d.faulty.card < 2 * d.committee.quorum := by
    rw [hcorrect, Finset.card_empty, Nat.add_zero]
    exact d.committee.lt_two_mul_quorum
  have hw : w.Sound := ⟨hreaches, hfew, hfree⟩
  have hnone : ∀ m, ∀ t ∈ w.history m, ¬ w.Overturns t := by
    rintro m t ht ⟨lock, st, hswaps, -, -⟩
    exact not_swaps_of_keepsToSlots hreaches hcorrect hslots m ht hswaps
  have hstand := hw.decisionsStand_iff.mpr hnone
  exact ⟨hw.agrees hstand, hw.neverReturns hnone⟩

namespace Pairing

/-- Two members, none of them faulty. The first leads view 0. -/
def deployment : Deployment :=
  .transparent ⟨[.numbered 0, .numbered 1], 2, by decide, by decide, by decide⟩ ∅

def leader : deployment.Correct := Deployment.member 0 (by decide)

def follower : deployment.Correct := Deployment.member 1 (by decide)

/-- The payload that the leader proposes. -/
def payload : Payload := ⟨Scheme.transparent.genesisDigest, [80]⟩

/-- The follower hears from the leader. -/
def hears (phase : Phase) (justify : Certificate) : deployment.Correct × Cue :=
  (follower, .input (.numbered 0 0 phase payload justify))

/-- The leader hears the vote of the follower. -/
def counts (phase : Phase) : deployment.Correct × Cue :=
  let vote := Scheme.transparent.castVote (.numbered 1) ⟨phase, 0, payload⟩
  (leader, .input (.message (.vote vote)))

/-- A certificate with the seals of both. -/
def cert (phase : Phase) : Certificate := .numbered ⟨phase, 0, payload⟩ [0, 1]

/-- View 0 from the announcements of both members to the decision. -/
def round : List (deployment.Correct × Cue) :=
  let genesis := Scheme.transparent.genesis
  [(leader, .input .start), (follower, .input .start),
    (leader, .input (.numbered 1 0 .newView genesis.payload genesis)),
    (leader, .propose payload.data),
    hears .prepare genesis, counts .prepare, hears .preCommit (cert .prepare), counts .preCommit,
    hears .commit (cert .preCommit), counts .commit, hears .decide (cert .commit)]

end Pairing

open Pairing in
/-- Two members go through a view together, and execute the same payload. -/
theorem agreement_of_pair :
    ∃ w : World deployment MemoryStore, deployment.Reaches w ∧ deployment.faulty = ∅ ∧
      w.KeepsToSlots ∧
      deployment.scheme.CollisionFree deployment.scheme.genesisDigest w.Supported ∧
      executedOf (w.history leader) = [payload] ∧ executedOf (w.history follower) = [payload] ∧
      w.Agrees ∧ w.NeverReturns := by
  obtain ⟨w, hreaches, hleader, hfollower, hballots, hslots⟩ := Deployment.exists_reaches
    (P := fun w => executedOf (w.history leader) = [payload] ∧
      executedOf (w.history follower) = [payload] ∧
      (∀ m, ∀ b ∈ ballotsOf (w.history m), b.payload ∈ [payload]) ∧ w.KeepsToSlots)
    (show ((World.start deployment).play round).map _ = some true by decide +kernel)
  have hfree : deployment.scheme.CollisionFree deployment.scheme.genesisDigest w.Supported := by
    refine World.collisionFree_of_ballots ?_ ?_ hballots
    · decide
    · decide
  exact ⟨w, hreaches, rfl, hslots, hfree, hleader, hfollower,
    agreement_of_correct_members hreaches rfl hslots hfree⟩

end HotStuff
