import HotStuff.Proofs.Repetition
import HotStuff.Proofs.Standing

/-!
# Progress Never Runs Backwards

A replica moves by view and by phase, counts what it commits, and holds two certificates. None of
this is ever taken back: not by a cascade of messages to itself, not by a commit that cannot leave
the last view, and not by a restart, which enters the view after the saved one with all that was
saved. Only the phases that follow a certificate write one; what gives up a view, enters one, votes
on a proposal or catches up leaves both alone.

What belongs to an earlier view comes too late. It is refused, except for a decision that extends
the chain, which is committed whatever its view is.

## Main definitions

* `ReplicaState.Precedes`: one state comes before another.
* `statesIn`: the states of a member in a history, in their order.
* `Message.Decides`: a decision that extends the chain.
* `Turn.IgnoresLate`: a turn ignores what comes too late.

## Main results

* `Move.precedes`, `Replica.Follows.precedes`: no move of a replica goes back.
* `Core.consider_late`: what comes too late is refused.
* `progress_never_runs_backwards`: so it is through all processes of a member.
-/

namespace HotStuff

/-! ### The order of states -/

/-- **A certificate is kept up**: it is not dropped, and none of an earlier view takes its place. -/
def Certificate.KeptUp (held later : Option Certificate) : Prop :=
  ∀ cert, held = some cert → ∃ cert', later = some cert' ∧ cert.view ≤ cert'.view

/-- **One state comes before another**, by view and phase, by height, and by both certificates. -/
structure ReplicaState.Precedes (s s' : ReplicaState) : Prop where
  place : s'.Attains s.view s.phase
  height : s.height ≤ s'.height
  prepared : Certificate.KeptUp s.prepared s'.prepared
  locked : Certificate.KeptUp s.locked s'.locked

/-- The same certificates are held. -/
def ReplicaState.SameCertificates (s s' : ReplicaState) : Prop :=
  s'.prepared = s.prepared ∧ s'.locked = s.locked

namespace Certificate.KeptUp

variable {held later last : Option Certificate}

/-- A certificate that stays is kept up. -/
theorem refl (held : Option Certificate) : KeptUp held held :=
  fun cert hheld => ⟨cert, hheld, UInt64.le_refl _⟩

/-- A certificate that is kept up in two steps is kept up. -/
theorem trans (h : KeptUp held later) (h' : KeptUp later last) : KeptUp held last := by
  intro cert hheld
  obtain ⟨cert', hlater, hle⟩ := h cert hheld
  obtain ⟨cert'', hlast, hle'⟩ := h' cert' hlater
  exact ⟨cert'', hlast, UInt64.le_trans hle hle'⟩

/-- The newer of two certificates is no older than the one held. -/
theorem newer (held : Option Certificate) (offered : Certificate) :
    KeptUp held (some (ReplicaState.newer held offered)) := by
  rintro cert rfl
  refine ⟨_, rfl, ?_⟩
  rw [ReplicaState.newer]
  split
  · exact UInt64.le_refl _
  · next hnot => exact UInt64.not_lt.mp hnot

end Certificate.KeptUp

namespace ReplicaState

variable {s s' s'' : ReplicaState} {ctx : Context}

namespace Precedes

/-- A state precedes itself, as a replica that does nothing does not run backwards. -/
theorem refl (s : ReplicaState) : s.Precedes s :=
  ⟨s.attains_self, UInt64.le_refl _, .refl _, .refl _⟩

/-- The order of states is transitive, so what each step keeps a whole run keeps. -/
theorem trans (h : s.Precedes s') (h' : s'.Precedes s'') : s.Precedes s'' :=
  ⟨h.place.trans h'.place, UInt64.le_trans h.height h'.height, h.prepared.trans h'.prepared,
    h.locked.trans h'.locked⟩

/-- What only moves on, by view, phase or height, goes forward. -/
theorem of_same (hplace : s'.Attains s.view s.phase) (hheight : s.height ≤ s'.height)
    (hsame : s.SameCertificates s') : s.Precedes s' :=
  ⟨hplace, hheight, hsame.1 ▸ .refl _, hsame.2 ▸ .refl _⟩

end Precedes

/-- Entering a later view goes forward. -/
theorem precedes_enter {view : View} (hlater : s.view < view) : s.Precedes (s.enter view) :=
  .of_same (Or.inl hlater) (UInt64.le_refl _) ⟨rfl, rfl⟩

/-- Accepting a proposal goes forward: it is of no earlier view, and in the replica's own view
nothing was accepted before it. -/
theorem precedes_accept {trusted : Certificate → Prop} {st : Statement}
    (haccepts : s.Accepts ctx trusted st) : s.Precedes (s.accept st) := by
  refine .of_same ?_ (UInt64.le_refl _) ⟨rfl, rfl⟩
  rcases UInt64.lt_or_eq_of_le haccepts.notStale with hlt | heq
  · exact Or.inl hlt
  · exact Or.inr ⟨heq, haccepts.fresh heq.symm ▸ Nat.zero_le _⟩

/-- The next phase of a view comes after the one before it. -/
theorem attains_next {phase : Phase} (hview : s.view = s'.view) (hphase : s.phase = phase)
    (hnext : phase.successor = some s'.phase) : s'.Attains s.view s.phase := by
  have hrank : s'.phase.rank = phase.rank + 1 := Phase.rank_of_successor hnext
  exact Or.inr ⟨hview, by rw [hphase, hrank]; exact Nat.le_succ _⟩

/-- Taking up the certificate of the Prepare phase goes forward. -/
theorem precedes_preCommit (hphase : s.phase = .prepare) (cert : Certificate) :
    s.Precedes (s.preCommit cert) :=
  ⟨attains_next rfl hphase rfl, UInt64.le_refl _, .newer _ _, .refl _⟩

/-- Locking goes forward: the lock is the newer of the certificate and the lock before. -/
theorem precedes_lock (hphase : s.phase = .preCommit) (cert : Certificate) :
    s.Precedes (s.lock cert) :=
  ⟨attains_next rfl hphase rfl, UInt64.le_refl _, .refl _, .newer _ _⟩

/-- Committing moves the tip and the height, and leaves both certificates as they are. -/
theorem sameCertificates_commit (s : ReplicaState) (scheme : Scheme) (cert : Certificate)
    (height : Height) : s.SameCertificates (s.commit scheme cert height) := by
  rcases s.commit_cases scheme cert height with ⟨_, -, -, h⟩ | ⟨-, h⟩
  · rw [h]
    exact ⟨rfl, rfl⟩
  · rw [h]
    exact ⟨rfl, rfl⟩

/-- A commit counts one more, and leaves the view or stays in it. -/
theorem precedes_commit {scheme : Scheme} {cert : Certificate} {height : Height}
    (hheight : Height.next? s.height = some height) : s.Precedes (s.commit scheme cert height) := by
  refine .of_same (s.attains_commit scheme cert height) ?_
    (s.sameCertificates_commit scheme cert height)
  rw [commit_height, UInt64.le_iff_toNat_le, Height.toNat_of_next? hheight]
  exact Nat.le_succ _

/-- A decision in sequence goes from the lock to the commit. -/
theorem precedes_decide {scheme : Scheme} {cert : Certificate} {height : Height}
    (hphase : s.phase = .commit) (hheight : Height.next? s.height = some height) :
    s.Precedes (commit { s with phase := .decide } scheme cert height) := by
  have hdecided : s.Precedes { s with phase := .decide } :=
    .of_same (attains_next rfl hphase rfl) (UInt64.le_refl _) ⟨rfl, rfl⟩
  exact hdecided.trans (precedes_commit hheight)

end ReplicaState

/-! ### Moves -/

/-- **No move of a replica goes back.** -/
theorem Move.precedes {ctx : Context} {trusted : Certificate → Prop} {heard : Statement → Prop}
    {s s' : ReplicaState} {ds : List Deed} (h : Move ctx trusted heard s ds s') :
    s.Precedes s' := by
  cases h with
  | rest => exact .refl s
  | enter hlater => exact ReplicaState.precedes_enter hlater
  | accept _ haccepts => exact ReplicaState.precedes_accept haccepts
  | preCommit hphase => exact ReplicaState.precedes_preCommit hphase _
  | lock hphase => exact ReplicaState.precedes_lock hphase _
  | decide hphase _ _ _ hheight => exact ReplicaState.precedes_decide hphase hheight
  | catchUp _ _ _ _ hheight => exact ReplicaState.precedes_commit hheight

/-- No phase that is applied goes back, whatever its statement is worth. -/
theorem Replica.Follows.precedes {ctx : Context} {st : Statement} {s s' : ReplicaState}
    {ds : List Deed} (h : Follows ctx st s ds s') : s.Precedes s' := by
  cases h with
  | preCommit hphase => exact ReplicaState.precedes_preCommit hphase _
  | lock hphase => exact ReplicaState.precedes_lock hphase _
  | decide hphase _ hheight => exact ReplicaState.precedes_decide hphase hheight

/-- **No turn goes back.** -/
theorem Turn.precedes_of_kind {σ : Type} [StateStore σ] [LawfulStore σ] {ctx : Context} {t : Turn σ}
    (hkind : t.Kind ctx) (hsound : t.before.votes.Sound ctx Evidence.none.voted) :
    t.before.replica.state.Precedes t.after.replica.state := by
  rcases (Turn.role_of_kind hkind).moves hsound with hmove | ⟨st, -, hfollows⟩
  · exact hmove.precedes
  · exact hfollows.precedes

/-! ### Handlers that write no certificate -/

namespace Replica

variable {σ : Type} [StateStore σ] {ctx : Context} (r : Replica σ)

/-- Entering a view leaves both certificates as they are. -/
theorem enterView_certificates (view : View) :
    r.state.SameCertificates (r.enterView ctx view).1.state := by
  by_cases h : view ≤ r.state.view
  · rw [enterView_of_le h]
    exact ⟨rfl, rfl⟩
  · rw [enterView_of_lt (UInt64.not_le.mp h)]
    exact ⟨rfl, rfl⟩

/-- A timeout leaves both certificates as they are. -/
theorem onTimeout_certificates : r.state.SameCertificates (r.onTimeout ctx).1.state := by
  rw [onTimeout]
  split
  · next next _ =>
      have hentered : r.state.SameCertificates (r.enterView ctx next).1.state :=
        r.enterView_certificates next
      exact hentered
  · exact ⟨rfl, rfl⟩

variable {r} {msg : SignedStatement} {answer : Replica σ × List Action}

/-- A proposal leaves both certificates as they are, also when it is accepted. -/
theorem onPrepare_certificates (h : r.onPrepare ctx msg = .ok answer) :
    r.state.SameCertificates answer.1.state := by
  rw [(onPrepare_accepts h).2]
  exact ⟨rfl, rfl⟩

/-- A decision out of sequence is committed, and its certificate is not kept. -/
theorem catchUp_certificates (hout : r.outOfSequence msg.body)
    (h : r.onPhase ctx msg = .ok answer) : r.state.SameCertificates answer.1.state := by
  rcases onPhase_ok h with ⟨-, -, hcommit⟩ | ⟨hcheck, -⟩
  · obtain ⟨height, -, hstate, -⟩ := commit_spec hcommit
    rw [hstate]
    exact r.state.sameCertificates_commit ctx.scheme msg.body.justify height
  · -- A decision that passes the checks of its phase is in sequence.
    obtain ⟨hdecide, hnot⟩ := of_decide_eq_true hout
    simp only [checkPhase, guard_throw_eq_ok, not_not] at hcheck
    obtain ⟨hhere, hnext, -⟩ := hcheck
    rw [hdecide, ← Phase.predecessor_eq_some_iff] at hnext
    exact absurd ⟨hhere, (Option.some.inj hnext).symm⟩ hnot

end Replica

/-! ### Messages that come too late -/

/-- **A decision that extends the chain**: a Decide on a valid Commit certificate, over a payload
whose parent is the tip. -/
def Message.Decides (ctx : Context) (tip : Digest) (message : Message) : Prop :=
  ∃ signed, message = .statement .decide signed ∧ signed.body.phase = .decide ∧
    (signed.body.justify.phase = .commit ∧ signed.body.justify.view = signed.body.view ∧
      signed.body.justify.payload = signed.body.payload) ∧
    ctx.verify signed.body.justify = .ok () ∧ signed.body.payload.parent = tip

/-- **A turn ignores what comes too late**: a message of an earlier view changes neither replica nor
collector, unless it is a decision that extends the chain. -/
def Turn.IgnoresLate {σ : Type} (ctx : Context) (t : Turn σ) : Prop :=
  ∀ message, t.input = .message message → message.view < t.before.replica.state.view →
    (t.after.replica = t.before.replica ∧ t.after.votes = t.before.votes) ∨
      message.Decides ctx t.before.replica.state.committed

namespace Core

variable {σ : Type} [StateStore σ] {ctx : Context} {core core' : Core σ} {now : Instant}
  {message : Message}

/-- What the leader says after its proposal is refused when it comes too late, unless it is a
decision that extends the chain. -/
theorem answer_late {signed : SignedStatement}
    (hlate : signed.body.view < core.replica.state.view) :
    (∃ cause, core.answer (core.replica.onPhase ctx signed) = .ok (.error cause, core)) ∨
      (Message.ofStatement signed).Decides ctx core.replica.state.committed := by
  rcases core.replica.onPhase_cases signed with
    ⟨cause, hrefused⟩ | ⟨-, ⟨hout, hcheck, -⟩ | ⟨-, hcheck, -⟩⟩
  · exact Or.inl ⟨cause, answer_refused hrefused⟩
  · right
    have hphase : signed.body.phase = .decide := (of_decide_eq_true hout).1
    obtain ⟨hcert, hparent, hvalid⟩ := Replica.checkDecision_ok hcheck
    exact ⟨signed, by rw [Message.ofStatement, hphase], hphase, hcert, hvalid, hparent⟩
  · simp only [Replica.checkPhase, guard_throw_eq_ok, not_not] at hcheck
    exact absurd hcheck.1 (UInt64.ne_of_lt hlate)

/-- **What comes too late is refused**, unless it is a decision that extends the chain. -/
theorem consider_late (hlate : message.view < core.replica.state.view) :
    (∃ cause, core.consider ctx message = .ok (.error cause, core)) ∨
      message.Decides ctx core.replica.state.committed := by
  rcases core.consider_cases message with hrefused | hauthorised
  · exact Or.inl hrefused
  have hpermitted := hauthorised.permitted
  cases message with
  | vote vote => exact absurd hpermitted.2 (UInt64.ne_of_lt hlate)
  | statement envelope signed =>
  have henvelope : checkEnvelope envelope signed = .ok () := if_pos hpermitted.1
  cases envelope with
  | newView => exact absurd hlate (UInt64.not_lt.mpr hpermitted.2.2)
  | prepare =>
      cases hprepare : core.replica.onPrepare ctx signed with
      | error cause =>
          refine Or.inl ⟨cause, ?_⟩
          simp only [consider, henvelope]
          exact answer_refused (by rw [hprepare, Outcome.ofCheck])
      | ok answer =>
          have hhere := (Replica.onPrepare_accepts hprepare).1.notStale
          exact absurd hlate (UInt64.not_lt.mpr hhere)
  | preCommit | commit | decide =>
      have hanswer := @answer_late _ _ ctx core signed hlate
      rw [Message.ofStatement, hpermitted.1] at hanswer
      simpa only [consider, henvelope] using hanswer

/-- A message that comes too late changes neither replica nor collector, unless it is a decision
that extends the chain. -/
theorem dispatch_late {said : List Action}
    (h : core.dispatch ctx now message = .ok (core', said))
    (hlate : message.view < core.replica.state.view) :
    (core'.replica = core.replica ∧ core'.votes = core.votes) ∨
      message.Decides ctx core.replica.state.committed := by
  refine (consider_late hlate).imp_left ?_
  rintro ⟨cause, hrefused⟩
  obtain ⟨answer, mid, hconsider, -, hreplica, hvotes⟩ := dispatch_ok h
  obtain ⟨-, rfl⟩ := Prod.mk.inj (Except.ok.inj (hrefused.symm.trans hconsider))
  exact ⟨hreplica, hvotes⟩

end Core

/-! ### Runs -/

/-- **The states of a member** in a history, in their order: that of its first process, and those
before and after each turn. -/
def statesIn {σ : Type} (first : Core σ) (h : List (Turn σ)) : List ReplicaState :=
  first.replica.state ::
    h.flatMap fun t => [t.before.replica.state, t.after.replica.state]

section Runs

variable {σ : Type} [StateStore σ] {ctx : Context} {first core : Core σ} {h : List (Turn σ)}

omit [StateStore σ] in
/-- One more turn adds the state before it and the state after it. -/
theorem statesIn_concat (first : Core σ) (h : List (Turn σ)) (t : Turn σ) :
    statesIn first (h ++ [t]) =
      statesIn first h ++ [t.before.replica.state, t.after.replica.state] := by
  simp [statesIn]

/-- A list that ends below an element stays in order when something above that is put on. -/
theorem pairwise_concat {α : Type} {R : α → α → Prop} {l : List α} {a : α} (h : l.Pairwise R)
    (hall : ∀ b ∈ l, R b a) : (l ++ [a]).Pairwise R :=
  List.pairwise_append.mpr ⟨h, List.pairwise_singleton R a, by simpa using hall⟩

/-- **Through all of its processes** a member only goes forward. -/
theorem Run.pairwise_precedes [LawfulStore σ] {admits : List (Turn σ) → Input → Prop} {store : σ}
    (hcreate : Core.create ctx store = .ok first) (hrun : Run ctx admits first h core) :
    (statesIn first h ++ [core.replica.state]).Pairwise ReplicaState.Precedes := by
  have hordered : (statesIn first h).Pairwise ReplicaState.Precedes ∧
      ∀ s ∈ statesIn first h, s.Precedes core.replica.state := by
    refine (Run.kept_induction hcreate hrun (P := fun h core =>
      (statesIn first h).Pairwise ReplicaState.Precedes ∧
        ∀ s ∈ statesIn first h, s.Precedes core.replica.state) ?_ ?_ ?_ ?_).2
    · simp [statesIn, ReplicaState.Precedes.refl]
    · rintro h t ⟨hpairs, hbelow⟩ hkept hkind
      have hstep := Turn.precedes_of_kind hkind hkept.sound
      have hbelow' : ∀ s ∈ statesIn first h ++ [t.before.replica.state],
          s.Precedes t.after.replica.state := by
        intro s hs
        rcases List.mem_append.mp hs with hs | hs
        · exact (hbelow s hs).trans hstep
        · exact List.mem_singleton.mp hs ▸ hstep
      rw [statesIn_concat, ← List.singleton_append, ← List.append_assoc]
      refine ⟨pairwise_concat (pairwise_concat hpairs hbelow) hbelow', ?_⟩
      intro s hs
      rcases List.mem_append.mp hs with hs | hs
      · exact hbelow' s hs
      · exact List.mem_singleton.mp hs ▸ .refl _
    · rintro h core core' hP ⟨status, metrics, rfl⟩
      exact hP
    · rintro h core core' view ⟨hpairs, hbelow⟩ hlater hstate -
      refine ⟨hpairs, fun s hs => (hbelow s hs).trans ?_⟩
      rw [hstate]
      exact ReplicaState.precedes_enter hlater
  exact pairwise_concat hordered.1 hordered.2

/-- **What comes too late for a member** is ignored in every turn. -/
theorem Run.ignoresLate {admits : List (Turn σ) → Input → Prop}
    (hrun : Run ctx admits first h core) : ∀ t ∈ h, t.IgnoresLate ctx := by
  refine hrun.induction (P := fun h _ => ∀ t ∈ h, t.IgnoresLate ctx) ?_ ?_ ?_ ?_
  · rintro h core input now core' said hbefore - htake t ht
    rcases List.mem_append.mp ht with ht | ht
    · exact hbefore t ht
    · obtain rfl := List.mem_singleton.mp ht
      rintro message rfl hlate
      exact Core.dispatch_late htake hlate
  · simp
  · exact fun _ _ _ hbefore _ => hbefore
  · exact fun _ _ _ hbefore _ => hbefore

/-- A member is at rest between its steps. -/
theorem Run.atRest {admits : List (Turn σ) → Input → Prop} {store : σ}
    (hcreate : Core.create ctx store = .ok first) (hrun : Run ctx admits first h core) :
    core.AtRest ctx := by
  induction hrun with
  | boot => exact Core.atRest_of_create hcreate
  | step _ hstep ih =>
      cases hstep with
      | react _ hreact => exact ih.react hreact
      | stop _ _ hcreate' => exact Core.atRest_of_create hcreate'
      | restart hcreate' => exact Core.atRest_of_create hcreate'

/-- **Progress never runs backwards.** Whatever comes to a member, through all processes on one
store that saves: between any two of its states, in the middle of an input too, neither view and
phase nor the height go back, and both certificates are kept up. Four handlers leave both
certificates alone. What comes too late changes neither replica nor collector, in the turn that it
is handled in; as a message from outside it is only counted as dropped. The exception is a decision
that extends the chain. -/
theorem progress_never_runs_backwards [LawfulStore σ] {store : σ}
    (hcreate : Core.create ctx store = .ok first)
    (hrun : Run ctx (fun _ _ => True) first h core) :
    (statesIn first h ++ [core.replica.state]).Pairwise ReplicaState.Precedes ∧
    (∀ r : Replica σ,
      r.state.SameCertificates (r.onTimeout ctx).1.state ∧
      (∀ view, r.state.SameCertificates (r.enterView ctx view).1.state) ∧
      ∀ msg answer, (r.onPrepare ctx msg = .ok answer ∨
          r.outOfSequence msg.body ∧ r.onPhase ctx msg = .ok answer) →
        r.state.SameCertificates answer.1.state) ∧
    (∀ t ∈ h, t.IgnoresLate ctx) ∧
    ∀ now message, message.view < core.replica.state.view →
      (∃ metrics, core.handle ctx now message = .ok ({ core with metrics }, [])) ∨
        message.Decides ctx core.replica.state.committed := by
  refine ⟨hrun.pairwise_precedes hcreate, fun r => ⟨r.onTimeout_certificates,
    r.enterView_certificates, ?_⟩, hrun.ignoresLate, ?_⟩
  · rintro msg answer (hprepare | ⟨hout, hphase⟩)
    · exact Replica.onPrepare_certificates hprepare
    · exact Replica.catchUp_certificates hout hphase
  · intro now message hlate
    refine (Core.consider_late hlate).imp_left ?_
    rintro ⟨cause, hrefused⟩
    exact ⟨_, (hrun.atRest hcreate).handle_refused hrefused⟩

end Runs

namespace Returning

/-- A member is taken up to the lock in view 2 and restarted. Then the leader of view 2 says once
more what it said, and decides. -/
def script : List Cue :=
  Overtaking.locking ++ [.restart] ++ Overtaking.locking ++ [Overtaking.decision]

/-- A vote for view 0. -/
def vote : Message :=
  .vote (Scheme.transparent.castVote (.numbered 2) ⟨.prepare, 0, Overtaking.payload⟩)

end Returning

open Overtaking in
/-- A restarted member is in view 3 with both certificates. It drops what it has heard before, and
commits the decision of view 2. -/
theorem progress_never_runs_backwards_of_restart :
    ∃ h core, Core.create ctx ({} : MemoryStore) = .ok (.fresh ctx) ∧
      Run ctx (fun _ _ => True) (Core.fresh ctx) h core ∧
      (core.replica.state.view = 3 ∧ core.replica.state.height = 1 ∧
        core.replica.state.prepared = some (cert .prepare 2) ∧
        core.replica.state.locked = some (cert .preCommit 2) ∧
        core.metrics.dropped.get? "Prepare" = some 1) ∧
      (statesIn (Core.fresh ctx) h ++ [core.replica.state]).Pairwise ReplicaState.Precedes ∧
      (∀ t ∈ h, t.IgnoresLate ctx) ∧ Returning.vote.view < core.replica.state.view ∧
      ∃ metrics, core.handle ctx 0 Returning.vote = .ok ({ core with metrics }, []) := by
  obtain ⟨h, core, hrun, hshown⟩ := Run.exists_play
    (P := fun _ core => core.replica.state.view = 3 ∧ core.replica.state.height = 1 ∧
        core.replica.state.prepared = some (cert .prepare 2) ∧
        core.replica.state.locked = some (cert .preCommit 2) ∧
        core.metrics.dropped.get? "Prepare" = some 1)
    (show ((Core.fresh ctx).play ctx (fun _ _ => True) [] Returning.script).map _ = some true by
      decide +kernel)
  have hlate : Returning.vote.view < core.replica.state.view := by
    rw [hshown.1]
    decide
  obtain ⟨hstates, -, hturns, hhandle⟩ :=
    progress_never_runs_backwards (Core.create_fresh ctx) hrun
  refine ⟨h, core, Core.create_fresh ctx, hrun, hshown, hstates, hturns, hlate, ?_⟩
  rcases hhandle 0 Returning.vote hlate with hdropped | ⟨signed, hdecide, -⟩
  · exact hdropped
  · cases hdecide

end HotStuff
