import Mathlib.Logic.Function.Basic
import HotStuff.Proofs.Grounds

/-!
# Deployments

The correct members of a committee run side by side; the others are faulty. Nothing is said about
what the faulty members do, or what happens to messages on their way: at any time any correct
member may be handed any input at all, stop or be restarted, as long as the valid seals of correct
members in the input are on what these have voted for and stated by then. Loss, repetition and
reordering of messages are inputs that do not come, come again, or come late.

## Main definitions

* `Deployment`, `World`: the committee with its correct members, and all that they have done so far.
* `World.evidence`: what a valid seal proves in a world.
* `Deployment.Reaches`: the worlds that can come about.

## Main results

* `Deployment.Reaches.conduct`: each correct member conducts itself, on the evidence of the world.
* `Deployment.exists_common_voter`: some correct member has voted for both of two certified ballots.
-/

namespace HotStuff

/-- **A deployment**: a committee some of whose members are faulty. The others hold their
key pairs. -/
structure Deployment where
  scheme : Scheme
  committee : Committee
  faulty : Finset MemberId
  keypair : {m // m ∈ committee.members ∧ m ∉ faulty} → Keypair scheme
  timeout : {m // m ∈ committee.members ∧ m ∉ faulty} → Millis
  /-- Every correct member has its own key pair. -/
  keypair_member : ∀ m, (keypair m).member = m.1

namespace Deployment

/-- The members that are not faulty. -/
def Correct (d : Deployment) : Type := {m // m ∈ d.committee.members ∧ m ∉ d.faulty}

variable (d : Deployment)

instance : DecidableEq d.Correct :=
  inferInstanceAs (DecidableEq {m // m ∈ d.committee.members ∧ m ∉ d.faulty})

/-- What a correct member runs with. -/
def context (m : d.Correct) : Context where
  scheme := d.scheme
  committee := d.committee
  keypair := d.keypair m
  timeout := d.timeout m
  me_mem := (d.keypair_member m).symm ▸ m.2.1

/-- A correct member runs under its own id. -/
@[simp] theorem context_me (m : d.Correct) : (d.context m).me = m.1 := d.keypair_member m

end Deployment

/-- **The correct members**, each with its history. -/
structure World (d : Deployment) (σ : Type) where
  core : d.Correct → Core σ
  history : d.Correct → List (Turn σ)

namespace World

variable {d : Deployment} {σ : Type} (w : World d σ)

/-- The world after some turns of a member. -/
def after (m : d.Correct) (ts : List (Turn σ)) (core : Core σ) : World d σ :=
  ⟨Function.update w.core m core, Function.update w.history m (w.history m ++ ts)⟩

/-- **What a valid seal proves**: the seal of a correct member, that it has voted for the ballot or
made the statement. -/
def evidence : Evidence where
  voted b s := ∀ m : d.Correct, s.signer = m.1 → b ∈ ballotsOf (w.history m)
  stated signer st := ∀ m : d.Correct, signer = m.1 → st ∈ statementsOf (w.history m)

/-- A ballot that is certified in the world. -/
def Certified (b : Ballot) : Prop := w.evidence.Certified d.committee d.scheme b

/-- A payload that was decided in a view before `view`. -/
def DecidedBefore (view : View) (p : Payload) : Prop :=
  w.evidence.DecidedBefore d.committee d.scheme view p

/-- A payload that some correct member has voted for. -/
def Supported (p : Payload) : Prop :=
  ∃ (m : d.Correct) (v : View), ⟨.prepare, v, p⟩ ∈ ballotsOf (w.history m)

/-- The course of a member through some of its turns, from the genesis digest on. -/
abbrev CourseOf (m : d.Correct) (h : List (Turn σ)) (s : ReplicaState) : Prop :=
  Course (d.context m) w.evidence (.initial d.scheme.genesisDigest) h s

/-- All members are in their first process, on stores without a saved state. -/
def Fresh [StateStore σ] : Prop :=
  ∀ m, w.history m = [] ∧ ∃ store, StateStore.load store = .ok none ∧
    Core.create (d.context m) store = .ok (w.core m)

variable {w}

/-- Histories only grow. -/
theorem history_after (m : d.Correct) (ts : List (Turn σ)) (core : Core σ) (n : d.Correct) :
    ∃ ts', (w.after m ts core).history n = w.history n ++ ts' := by
  by_cases heq : n = m
  · subst heq
    exact ⟨ts, Function.update_self ..⟩
  · exact ⟨[], (Function.update_of_ne heq ..).trans (List.append_nil _).symm⟩

/-- What was proved stays proved. -/
theorem backs_after (m : d.Correct) (ts : List (Turn σ)) (core : Core σ) {input : Input}
    (hbacks : w.evidence.Backs d.scheme input) :
    (w.after m ts core).evidence.Backs d.scheme input := by
  refine hbacks.mono ?_ ?_
  · intro b s hvoted n hsigner
    obtain ⟨ts', heq⟩ := history_after (w := w) m ts core n
    rw [heq, ballotsOf_append]
    exact List.mem_append_left _ (hvoted n hsigner)
  · intro signer st hstated n hsigner
    obtain ⟨ts', heq⟩ := history_after (w := w) m ts core n
    rw [heq, statementsOf_append]
    exact List.mem_append_left _ (hstated n hsigner)

/-- What a member has done itself is proved by its seal. -/
theorem evidence_covers (w : World d σ) (m : d.Correct) :
    w.evidence.Covers (d.context m) (w.history m) := by
  refine ⟨?_, ?_⟩
  · intro b hb s hsigner n hn
    obtain rfl : m = n := Subtype.ext ((d.context_me m).symm.trans (hsigner.symm.trans hn))
    exact hb
  · intro st hst n hn
    obtain rfl : m = n := Subtype.ext ((d.context_me m).symm.trans hn)
    exact hst

/-- What a world backs is admissible for each member. -/
theorem admissible_of_backs {m : d.Correct} {input : Input}
    (hbacks : w.evidence.Backs d.scheme input) :
    Admissible (d.context m) w.evidence (w.history m) input := by
  refine ⟨hbacks, ?_⟩
  intro signed hin hme hvalid
  exact hbacks.statement signed hin hvalid m (hme.trans (d.context_me m))

end World

namespace Deployment

/-- **The worlds that can come about**: from the first processes on, one correct member after the
other takes a step, on an input in which no seal of a correct member is forged. -/
inductive Reaches {σ : Type} [StateStore σ] (d : Deployment) : World d σ → Prop
  | boot {w : World d σ} (hfresh : w.Fresh) : Reaches d w
  | step {w : World d σ} {m : d.Correct} {ts : List (Turn σ)} {core : Core σ}
      (hreaches : Reaches d w)
      (hstep : Step (d.context m) (w.evidence.Backs d.scheme) (w.core m) ts core) :
      Reaches d (w.after m ts core)

variable {d : Deployment} {σ : Type} [StateStore σ] {w : World d σ}

namespace Reaches

/-- The life of each correct member is a run of its own, on the evidence of the world. -/
theorem run (hreaches : d.Reaches w) (m : d.Correct) :
    ∃ store first, StateStore.load store = .ok none ∧
      Core.create (d.context m) store = .ok first ∧
      Run (d.context m) (Admissible (d.context m) w.evidence) first (w.history m) (w.core m) := by
  induction hreaches with
  | boot hfresh =>
      obtain ⟨hhistory, store, hload, hcreate⟩ := hfresh m
      rw [hhistory]
      exact ⟨store, _, hload, hcreate, .boot⟩
  | @step w n ts core hreaches hstep ih =>
      obtain ⟨store, first, hload, hcreate, hrun⟩ := ih
      refine ⟨store, first, hload, hcreate, ?_⟩
      have hrun' : Run (d.context m) (Admissible (d.context m) (w.after n ts core).evidence) first
          (w.history m) (w.core m) := by
        refine hrun.mono ?_
        intro h input hadmissible
        exact ⟨World.backs_after n ts core hadmissible.toBacks, hadmissible.own⟩
      by_cases heq : m = n
      · subst heq
        rw [show (w.after m ts core).history m = w.history m ++ ts from Function.update_self ..,
          show (w.after m ts core).core m = core from Function.update_self ..]
        refine .step hrun' (hstep.mono ?_)
        intro input hbacks
        exact ⟨World.backs_after m ts core hbacks, (World.admissible_of_backs hbacks).own⟩
      · rw [show (w.after n ts core).history m = w.history m from Function.update_of_ne heq ..,
          show (w.after n ts core).core m = w.core m from Function.update_of_ne heq ..]
        exact hrun'

variable [LawfulStore σ]

/-- **Each correct member conducts itself**, on the evidence of the world. -/
theorem conduct (hreaches : d.Reaches w) (m : d.Correct) :
    Conduct (d.context m) w.evidence (.initial d.scheme.genesisDigest) (w.history m)
      (w.core m) := by
  obtain ⟨store, first, hload, hcreate, hrun⟩ := hreaches.run m
  have hconduct := Run.conduct hcreate hrun (w.evidence_covers m)
  rwa [Core.create_of_empty hload hcreate] at hconduct

/-- The history of each correct member takes its course from an empty chain to the state it is
in. -/
theorem course (hreaches : d.Reaches w) (m : d.Correct) :
    w.CourseOf m (w.history m) (w.core m).replica.state :=
  (hreaches.conduct m).course

end Reaches

omit [StateStore σ] in
/-- **Quorum intersection.** Some correct member has voted for both of two certified ballots. -/
theorem exists_common_voter
    (hfew : d.committee.size + d.faulty.card < 2 * d.committee.quorum) {b b' : Ballot}
    (h : w.Certified b) (h' : w.Certified b') :
    ∃ m : d.Correct, b ∈ ballotsOf (w.history m) ∧ b' ∈ ballotsOf (w.history m) := by
  obtain ⟨cert, rfl, hcertifies, hvoted⟩ := h
  obtain ⟨cert', rfl, hcertifies', hvoted'⟩ := h'
  obtain ⟨s, hs, s', hs', hsigner, hcorrect⟩ :=
    Committee.exists_common_signer hfew hcertifies hcertifies'
  let m : d.Correct := ⟨s.signer, hcertifies.member s hs, hcorrect⟩
  exact ⟨m, hvoted s hs m rfl, hvoted' s' hs' m hsigner.symm⟩

omit [StateStore σ] in
/-- Some correct member has voted for a certified ballot. -/
theorem exists_voter (hfew : d.committee.size + d.faulty.card < 2 * d.committee.quorum)
    {b : Ballot} (h : w.Certified b) : ∃ m : d.Correct, b ∈ ballotsOf (w.history m) := by
  obtain ⟨m, hvoted, -⟩ := exists_common_voter hfew h h
  exact ⟨m, hvoted⟩

/-- **One payload per view.** Two certified ballots of one view are on one payload. -/
theorem Reaches.payload_eq [LawfulStore σ] (hreaches : d.Reaches w)
    (hfew : d.committee.size + d.faulty.card < 2 * d.committee.quorum) {b b' : Ballot}
    (h : w.Certified b) (h' : w.Certified b') (hview : b.view = b'.view) :
    b.payload = b'.payload := by
  obtain ⟨m, hvoted, hvoted'⟩ := exists_common_voter hfew h h'
  have hvoting : Voting (ballotsOf (w.history m)) (w.core m).replica.state :=
    (hreaches.course m).voting rfl
  exact hvoting.payload_eq b hvoted b' hvoted' hview

end Deployment

end HotStuff
