import HotStuff.Proofs.Following
import HotStuff.Proofs.Upkeep

/-!
# What a Member States

A statement leaves a member in three ways: it announces the view that it is in, proposes in a view
that it leads, or goes on to a later phase on a certificate that a vote has completed. What is said
here of these statements is what their receivers check; whatever the member is handed, and whoever
has its seal.

## Main definitions

* `Replica.announcement`: what a replica says on entering its view.
* `Turn.States`: a statement of a turn, by the way in which it is made.

## Main results

* `Turn.Kind.states`: every statement of a turn is made in one of the ways.
* `Run.states`: so is every statement of a run.
-/

namespace HotStuff

/-- What a replica says on entering its view. -/
def Replica.announcement {σ : Type} (ctx : Context) (r : Replica σ) : SignedStatement :=
  ctx.sign ⟨r.state.view, .newView, (r.highCertificate ctx).payload, r.highCertificate ctx⟩

/-- **The statements of a turn.** -/
inductive Turn.States {σ : Type} (ctx : Context) (t : Turn σ) : Phase → SignedStatement → Prop
  /-- The view is announced on entering it, or once more without anything else being done. -/
  | entry (hhere : t.after.replica.state.phase = .newView ∨ t.after.replica = t.before.replica) :
      States ctx t .newView (t.after.replica.announcement ctx)
  | proposal {prepare} (hphase : prepare.body.phase = .prepare) : States ctx t .prepare prepare
  /-- A vote completes a certificate, and the next phase is reached. -/
  | later {vote : Vote} {cert : Certificate} {next : Phase}
      (hinput : t.input = .message (.vote vote)) (hleads : ctx.leads cert.view)
      (hvoted : cert.phase.Voted) (hnext : cert.phase.successor = some next)
      (hvalid : ctx.verify cert = .ok ()) :
      States ctx t next (ctx.sign (cert.statement next))

/-! ### Answers of the replica -/

namespace Replica

variable {σ : Type} {ctx : Context} {r : Replica σ} {answer : Replica σ × List Action}

/-- **An answer states nothing but the view entered**: any statement in it announces the view in
which the replica then waits for a proposal. -/
def Enters (ctx : Context) (answer : Replica σ × List Action) : Prop :=
  ∀ envelope signed, .statement envelope signed ∈ messagesIn answer.2 →
    envelope = .newView ∧ signed = answer.1.announcement ctx ∧ answer.1.state.phase = .newView

/-- An answer without messages states nothing. -/
theorem enters_of_silent (hsilent : messagesIn answer.2 = []) : Enters ctx answer := by
  intro _ _ hsaid
  rw [hsilent] at hsaid
  cases hsaid

/-- A vote is not a statement. -/
theorem enters_of_vote {phase : Phase} {payload : Payload} (entered : List Action)
    (hsilent : messagesIn entered = []) :
    Enters ctx (r, entered ++ [r.vote ctx phase payload, rearm ctx]) := by
  intro _ _ hsaid
  rw [messagesIn_append, hsilent] at hsaid
  cases List.mem_singleton.mp hsaid

/-- The announcement of the view is all that a round begins with. -/
theorem eq_of_mem_startRound {message : Message} (h : message ∈ messagesIn (r.startRound ctx)) :
    message = .statement .newView (r.announcement ctx) :=
  List.mem_singleton.mp h

variable [StateStore σ]

/-- Entering a view states no more than the view. -/
theorem enterView_enters (r : Replica σ) (view : View) : Enters ctx (r.enterView ctx view) := by
  by_cases h : view ≤ r.state.view
  · rw [enterView_of_le h]
    exact enters_of_silent rfl
  · rw [enterView_of_lt (UInt64.not_le.mp h)]
    intro envelope signed hsaid
    obtain ⟨rfl, rfl⟩ := Message.statement.inj (eq_of_mem_startRound hsaid)
    exact ⟨rfl, rfl, rfl⟩

/-- A timeout states no more than the view that is entered. -/
theorem onTimeout_enters (r : Replica σ) : Enters ctx (r.onTimeout ctx) := by
  rw [onTimeout]
  split
  · next next _ =>
      have hentered : Enters ctx (r.enterView ctx next) := enterView_enters r next
      exact hentered
  · exact enters_of_silent rfl

/-- A proposal is answered with a vote, which states nothing. -/
theorem onPrepare_enters {msg : SignedStatement} (h : r.onPrepare ctx msg = .ok answer) :
    Enters ctx answer := by
  simp only [onPrepare, bind_eq_ok] at h
  obtain ⟨⟨⟩, -, h⟩ := h
  obtain rfl := Except.ok.inj h
  exact enters_of_vote _ (r.advanceTo_quiet msg.body.view).2

/-- Leaving a view states no more than the view that is entered. -/
theorem leave_enters (r : Replica σ) (view : View) : Enters ctx (r.leave ctx view) := by
  rw [leave]
  split
  · split
    · exact enterView_enters r _
    · exact enters_of_silent rfl
  · exact enters_of_silent rfl

/-- A commit states no more than the view that is entered after it. -/
theorem commit_enters {cert : Certificate} (h : r.commit ctx cert = .ok answer) :
    Enters ctx answer := by
  rw [commit] at h
  split at h
  · cases h
  · next height _ =>
      obtain rfl := Except.ok.inj h
      let committed : Replica σ := { r with state := { r.state with
        committed := ctx.scheme.payloadDigest cert.payload, height } }
      have hleft : Enters ctx (committed.leave ctx cert.view) := leave_enters committed cert.view
      exact hleft

/-- A phase is answered with a vote, or with a commit. -/
theorem applyPhase_enters {st : Statement} (h : r.applyPhase ctx st = .ok answer) :
    Enters ctx answer := by
  rw [applyPhase] at h
  simp only at h
  split at h
  · cases h
  split at h
  · obtain rfl := Except.ok.inj h
    exact enters_of_vote [] rfl
  · obtain rfl := Except.ok.inj h
    exact enters_of_vote [] rfl
  · exact commit_enters h
  · cases h
  · cases h

/-- A certificate that is accepted is answered with a vote, or with a commit. -/
theorem onPhase_enters {msg : SignedStatement} (h : r.onPhase ctx msg = .ok answer) :
    Enters ctx answer := by
  rcases onPhase_ok h with ⟨-, -, hcommit⟩ | ⟨-, happly⟩
  · exact commit_enters hcommit
  · exact applyPhase_enters happly

end Replica

/-! ### Turns -/

/-- What is announced is said on its certificate. -/
theorem Leader.Announces.eq_statement {ctx : Context} {genuine : Ballot → Seal → Prop}
    {c : Collector} {here : View} {st : Statement} (h : Announces ctx genuine c here st) :
    st = st.justify.statement st.phase := by
  obtain ⟨view, phase, payload, justify⟩ := st
  have hview : justify.view = view := h.justify_view
  have hpayload : justify.payload = payload := h.justify_payload
  rw [← hview, ← hpayload]
  rfl

variable {σ : Type} [StateStore σ] {ctx : Context} {t : Turn σ}

omit [StateStore σ] in
/-- An answer of the replica states the view entered. -/
theorem Turn.states_of_enters {own : List Action}
    (h : Replica.Enters ctx (t.after.replica, own)) {envelope : Phase} {signed : SignedStatement}
    (hsaid : .statement envelope signed ∈ messagesIn own) : t.States ctx envelope signed := by
  obtain ⟨rfl, rfl, hphase⟩ := h envelope signed hsaid
  exact .entry (Or.inl hphase)

/-- **Every statement of a turn is made in one of the ways.** -/
theorem Turn.Kind.states (hkind : t.Kind ctx)
    (hsound : t.before.votes.Sound ctx Evidence.none.voted) {envelope : Phase}
    {signed : SignedStatement} (hmem : .statement envelope signed ∈ messagesIn t.said) :
    t.States ctx envelope signed := by
  have hidle (hsaid : t.said = []) : t.States ctx envelope signed := by
    rw [hsaid] at hmem
    cases hmem
  cases hkind with
  | announced _ hsaid hreplica =>
      rw [hsaid, ← hreplica] at hmem
      obtain ⟨rfl, rfl⟩ := Message.statement.inj (Replica.eq_of_mem_startRound hmem)
      exact .entry (Or.inr hreplica)
  | timedOut _ hanswer =>
      exact Turn.states_of_enters (hanswer ▸ Replica.onTimeout_enters t.before.replica) hmem
  | refused hsaid => exact hidle hsaid
  | @entered _ entry _ _ hanswer =>
      rcases hanswer with hanswer | ⟨-, hsaid⟩
      · exact Turn.states_of_enters
          (hanswer ▸ Replica.enterView_enters t.before.replica entry.view) hmem
      · exact hidle hsaid
  | accepted _ _ hanswer => exact Turn.states_of_enters (Replica.onPrepare_enters hanswer) hmem
  | followed _ _ hanswer => exact Turn.states_of_enters (Replica.onPhase_enters hanswer) hmem
  | counted _ _ _ hsaid => exact hidle hsaid
  | @certified vote next own hinput hcount hown hsaid =>
      have hown : Replica.Enters ctx (t.after.replica, own) := by
        rcases hown with happly | ⟨-, rfl⟩
        · exact Replica.applyPhase_enters happly
        · exact Replica.enters_of_silent rfl
      rw [hsaid] at hmem
      rcases List.mem_cons.mp hmem with heq | hmem
      · obtain ⟨rfl, rfl⟩ := Message.statement.inj heq
        obtain ⟨-, -, hannounces⟩ := Leader.onVote_spec hsound hcount fun _ => trivial
        have hnext := hannounces signed rfl
        obtain ⟨st, rfl⟩ := Leader.said_of_onVote hcount
        have hlater : t.States ctx st.phase (ctx.sign (st.justify.statement st.phase)) :=
          .later hinput ((hnext.justify_view.trans hnext.view).symm ▸ hnext.leads) hnext.voted
            (Phase.predecessor_eq_some_iff.mp hnext.phase) hnext.trusted.valid
        have heq : st = st.justify.statement st.phase := hnext.eq_statement
        rwa [← heq] at hlater
      · exact Turn.states_of_enters hown hmem
  | @offered slot data prepare own _ _ hpropose hown hsaid =>
      have hown : Replica.Enters ctx (t.after.replica, own) := by
        rcases hown with hprepare | ⟨-, rfl⟩
        · exact Replica.onPrepare_enters hprepare
        · exact Replica.enters_of_silent rfl
      rw [hsaid] at hmem
      rcases List.mem_cons.mp hmem with heq | hmem
      · obtain ⟨rfl, rfl⟩ := Message.statement.inj heq
        exact .proposal (by rw [(Leader.propose_ok hpropose).1])
      · exact Turn.states_of_enters hown hmem

/-- **Every statement of a member is made in one of the ways**, through all of its processes. -/
theorem Run.states [LawfulStore σ] {admits : List (Turn σ) → Input → Prop} {store : σ}
    {first core : Core σ} {h : List (Turn σ)} (hcreate : Core.create ctx store = .ok first)
    (hrun : Run ctx admits first h core) (ht : t ∈ h) {envelope : Phase} {signed : SignedStatement}
    (hmem : .statement envelope signed ∈ messagesIn t.said) : t.States ctx envelope signed := by
  refine Run.forall_turns hcreate hrun (Q := fun t => ∀ envelope signed,
    .statement envelope signed ∈ messagesIn t.said → t.States ctx envelope signed) ?_ t ht _ _ hmem
  exact fun _ hkept hkind _ _ hmem => hkind.states hkept.sound hmem

end HotStuff
