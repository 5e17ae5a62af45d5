import HotStuff.Proofs.History

/-!
# Scenarios

A run that is written down as a list of cues can be computed. The scheme it runs with is
transparent: a digest is the text itself, and a signature shows the key of its signer and
a checksum of what was signed. So the facts of a concrete run, good or bad, are settled
by evaluation.

## Main definitions

* `Scheme.transparent`: the scheme.
* `Cue`, `Core.play`: a script for one member, and what it comes to.

## Main results

* `Run.of_play`: what a script comes to is a run.
-/

namespace HotStuff

namespace Scheme

/-- A checksum of a byte string. -/
def checksum (bytes : Bytes) : Nat :=
  bytes.foldl (fun n b => (n * 257 + b.toNat + 1) % Nat.pow 2 64) 0

/-- The bytes of a transparent signature: the key, and a checksum of what is signed. -/
def transparentSignature (key message : Bytes) : Bytes :=
  key ++ Bytes.bigEndian 8 (checksum message)

/-- **A transparent scheme.** Secrets are keys, digests are texts, and signatures can be read. -/
def transparent : Scheme where
  digestLength := 1
  hash bytes := ⟨bytes⟩
  publicKey secret := ⟨secret.seed⟩
  sign secret message := ⟨Bytes.toVector 64 (transparentSignature secret.bytes message)⟩
  verify member message signature :=
    signature.bytes.take 40 == transparentSignature member.bytes message

end Scheme

/-- The secret of the member with a number. -/
def Secret.numbered (n : UInt8) : Secret := ⟨Vector.replicate 32 n⟩

/-- The key pair of the member with a number. -/
def Keypair.numbered (n : UInt8) : Keypair .transparent := .ofSecret .transparent (.numbered n)

/-- The member with a number. -/
def MemberId.numbered (n : UInt8) : MemberId := (Keypair.numbered n).member

/-- The context of a numbered member of a committee. -/
def Context.numbered (committee : Committee) (n : UInt8)
    (h : MemberId.numbered n ∈ committee.members) : Context :=
  ⟨.transparent, committee, .numbered n, 10, h⟩

/-- The committee of one member. -/
def Committee.alone : Committee := ⟨[.numbered 0], 1, by decide, by decide, by decide⟩

/-- The member of the committee of one. -/
def Context.alone : Context := .numbered .alone 0 (by decide)

/-- The committee of four members, which tolerates a faulty one. -/
def Committee.four : Committee :=
  ⟨[.numbered 0, .numbered 1, .numbered 2, .numbered 3], 3, by decide, by decide, by decide⟩

/-- Member 0 is one of the four. -/
theorem Committee.zero_mem_four : .numbered 0 ∈ Committee.four.members := by decide

/-- Member 1 is one of the four. -/
theorem Committee.one_mem_four : .numbered 1 ∈ Committee.four.members := by decide

/-- A certificate of numbered members. -/
def Certificate.numbered (ballot : Ballot) (ns : List UInt8) : Certificate :=
  ⟨ballot, ns.map fun n => Scheme.transparent.sealBallot (.numbered n) ballot⟩

/-- A statement under the seal of a numbered member. -/
def Message.numbered (n : UInt8) (st : Statement) : Message :=
  .ofStatement (Scheme.transparent.signStatement (.numbered n) st)

/-- What a numbered leader says in a view. -/
def Input.numbered (n : UInt8) (view : View) (phase : Phase) (payload : Payload)
    (justify : Certificate) : Input :=
  .message (.numbered n ⟨view, phase, payload, justify⟩)

/-- A core over an empty store in memory. -/
def Core.fresh (ctx : Context) : Core MemoryStore :=
  let state := ReplicaState.initial ctx.scheme.genesisDigest
  ⟨Replica.persist ⟨{}, state⟩, .empty, .empty, .of ctx state, .start state.view state.height⟩

/-- On an empty store a process begins with a fresh core. -/
theorem Core.create_fresh (ctx : Context) :
    Core.create ctx ({} : MemoryStore) = .ok (.fresh ctx) := rfl

/-! ### Scripts -/

/-- What a script asks of a member next. -/
inductive Cue where
  | input (input : Input)
  /-- To propose data in the slot that there is now. -/
  | propose (data : Bytes)
  | restart

section Play

variable {σ : Type} [StateStore σ] (ctx : Context) (admits : List (Turn σ) → Input → Prop)
  [∀ h input, Decidable (admits h input)]

/-- What a member does on an input, with the turns it takes, if the input is admitted. -/
def Core.attempt (h : List (Turn σ)) (core : Core σ) (input : Input) :
    Option (List (Turn σ) × Core σ) :=
  match core.react ctx 0 input with
  | .ok (core', _) => if admits h input then some (core.turns ctx 0 input, core') else none
  | .error _ => none

/-- What a member does on a cue. -/
def Core.follow (h : List (Turn σ)) (core : Core σ) : Cue → Option (List (Turn σ) × Core σ)
  | .input input => core.attempt ctx admits h input
  | .propose data =>
      (core.slot? ctx).bind fun slot => core.attempt ctx admits h (.propose slot data)
  | .restart => (Core.create ctx core.replica.store).toOption.map fun core' => ([], core')

/-- What a script comes to. -/
def Core.play : List (Turn σ) → Core σ → List Cue → Option (List (Turn σ) × Core σ)
  | h, core, [] => some (h, core)
  | h, core, cue :: cues =>
    match core.follow ctx admits h cue with
    | some (ts, core') => play (h ++ ts) core' cues
    | none => none

variable {ctx admits} {h h' ts : List (Turn σ)} {first core core' : Core σ}

/-- An attempt that succeeds is a step on an admitted input. -/
theorem Step.of_attempt {input : Input} (h' : core.attempt ctx admits h input = some (ts, core')) :
    Step ctx (admits h) core ts core' := by
  rw [Core.attempt] at h'
  split at h'
  · next hreact =>
      split at h'
      · next hadmits =>
          obtain ⟨rfl, rfl⟩ := Prod.mk.inj (Option.some.inj h')
          exact .react hadmits hreact
      · cases h'
  · cases h'

/-- What a member does on a cue is a step. -/
theorem Step.of_follow {cue : Cue} (hfollow : core.follow ctx admits h cue = some (ts, core')) :
    Step ctx (admits h) core ts core' := by
  cases cue with
  | input input => exact .of_attempt hfollow
  | propose data =>
      obtain ⟨slot, -, hattempt⟩ := Option.bind_eq_some_iff.mp hfollow
      exact .of_attempt hattempt
  | restart =>
      obtain ⟨created, hcreate, heq⟩ := Option.map_eq_some_iff.mp hfollow
      obtain ⟨rfl, rfl⟩ := Prod.mk.inj heq
      cases hresult : Core.create ctx core.replica.store with
      | error cause =>
          rw [hresult] at hcreate
          cases hcreate
      | ok created' =>
          rw [hresult] at hcreate
          obtain rfl := Option.some.inj hcreate
          exact .restart hresult

/-- **What a script comes to is a run.** -/
theorem Run.of_play {cues : List Cue} (hrun : Run ctx admits first h core)
    (hplay : core.play ctx admits h cues = some (h', core')) : Run ctx admits first h' core' := by
  induction cues generalizing h core with
  | nil =>
      obtain ⟨rfl, rfl⟩ := Prod.mk.inj (Option.some.inj hplay)
      exact hrun
  | cons cue cues ih =>
      rw [Core.play] at hplay
      split at hplay
      · next hfollow => exact ih (.step hrun (Step.of_follow hfollow)) hplay
      · cases hplay

/-- What is computed of a script holds of a run. -/
theorem Run.exists_play {P : List (Turn σ) → Core σ → Prop} [∀ h core, Decidable (P h core)]
    {cues : List Cue} (h : (core.play ctx admits [] cues).map
      (fun played => decide (P played.1 played.2)) = some true) :
    ∃ h core', Run ctx admits core h core' ∧ P h core' := by
  obtain ⟨⟨h', core'⟩, hplay, hP⟩ := Option.map_eq_some_iff.mp h
  exact ⟨h', core', Run.of_play .boot hplay, of_decide_eq_true hP⟩

/-- Whether an input keeps to the member's own seals can be computed. -/
instance (h : List (Turn σ)) (input : Input) : Decidable (OwnSeals ctx h input) :=
  decidable_of_iff (∀ signed ∈ input.statement?, signed.signer = ctx.me →
    ctx.scheme.statementValid signed → signed.body ∈ statementsOf h) Iff.rfl

end Play

end HotStuff
