import HotStuff.Proofs.Changes
import HotStuff.Proofs.InPlace

/-!
# Counters at Their Limits

A store can hold any view and any height, so a replica may be resumed next to the end of both. The
view is advanced with a check: after the last one there is none to resume in, and none to time out
to. Two things are not looked after. The height is counted without a check, when the digest of the
payload has been written already; and a decision in the last view commits, cannot leave the view,
and does not arm the timer again.

## Main definitions

* `Replica.decision?`: the certificate that a call decides on.
* `Replica.Overdraws`: a call decides where a counter has come to its end.
* `Replica.Exhausts`, `Replica.Keeps`: a call meets the end of a counter, and how it should do so.

## Main results

* `Replica.perform_eq_error_iff`: only a decision overflows, and only at the last height.
* `counters_keep_iff_not_overdrawn`: what becomes of the counters of a resumed replica.
-/

namespace HotStuff

/-- Only the last view has no next one. -/
theorem View.next?_eq_none_iff {view : View} : View.next? view = none ↔ view = View.last := by
  rw [View.next?]
  split
  · next hlast => exact iff_of_true rfl hlast
  · next hnot => exact iff_of_false (Option.some_ne_none _) hnot

namespace Replica

variable {σ : Type} [StateStore σ] (ctx : Context) (r : Replica σ)

/-! ### Decisions -/

/-- The checks on a Decide, in sequence or out of it. -/
def checkDecide (data : Statement) : Except Error Unit :=
  if r.outOfSequence data then r.checkDecision ctx data else r.checkPhase ctx data

/-- **The certificate that a call decides on**, if it does: that of a Decide which passes the
checks, in sequence or out of it, or of the leader's own Decide in its turn. -/
def decision? : Call → Option Certificate
  | .phase msg =>
    if msg.body.phase = .decide ∧ ¬ ctx.leads msg.body.view ∧ (ctx.verifySigned msg).isOk ∧
        (checkLeader ctx msg).isOk ∧ (r.checkDecide ctx msg.body).isOk then
      some msg.body.justify
    else none
  | .apply st =>
    if st.view = r.state.view ∧ r.state.phase = .commit ∧ st.phase = .decide then some st.justify
    else none
  | _ => none

variable {ctx r} {r' : Replica σ} {call : Call} {said : List Action} {cert : Certificate}

/-- A check that passes. -/
theorem eq_ok_of_isOk {ε : Type} {x : Except ε Unit} (h : x.isOk) : x = .ok () := by
  cases x with
  | error => cases h
  | ok => rfl

/-- In the Commit phase the decision of the view is a commit, and the phase is written before it. -/
theorem applyPhase_of_decide {st : Statement} (hview : st.view = r.state.view)
    (hhere : r.state.phase = .commit) (hphase : st.phase = .decide) :
    r.applyPhase ctx st =
      commit ctx { r with state := { r.state with phase := .decide } } st.justify := by
  have hfits : ¬ (st.view ≠ r.state.view ∨ r.state.phase.successor ≠ some st.phase) := by
    rw [hhere, hphase]
    exact not_or.mpr ⟨not_not.mpr hview, not_not.mpr rfl⟩
  simp only [applyPhase, if_neg hfits]
  rw [hphase]

/-- **A call that decides is answered with the commit**, in the phase it is in or in Decide. -/
theorem answer_of_decision (h : r.decision? ctx call = some cert) :
    ∃ phase, r.answer ctx call =
      commit ctx { r with state := { r.state with phase } } cert := by
  cases call with
  | announce | enter | timeout | prepare => cases h
  | phase msg =>
      rw [decision?] at h
      split at h
      · next hdecides =>
          obtain rfl := Option.some.inj h
          obtain ⟨hphase, hleads, hsigned, hleader, hcheck⟩ := hdecides
          simp only [answer, onPhase, if_neg hleads, eq_ok_of_isOk hsigned,
            eq_ok_of_isOk hleader]
          by_cases hout : r.outOfSequence msg.body
          · rw [checkDecide, if_pos hout] at hcheck
            simp only [if_pos hout, eq_ok_of_isOk hcheck]
            exact ⟨r.state.phase, rfl⟩
          · rw [checkDecide, if_neg hout] at hcheck
            have hhere : msg.body.view = r.state.view ∧ r.state.phase = .commit := by
              simpa [outOfSequence, hphase] using hout
            simp only [if_neg hout, eq_ok_of_isOk hcheck]
            exact ⟨.decide, applyPhase_of_decide hhere.1 hhere.2 hphase⟩
      · cases h
  | apply st =>
      rw [decision?] at h
      split at h
      · next hdecides =>
          obtain rfl := Option.some.inj h
          exact ⟨.decide, applyPhase_of_decide hdecides.1 hdecides.2.1 hdecides.2.2⟩
      · cases h

/-! ### Overflows -/

/-- The height is all that a commit can fail on. -/
theorem commit_eq_error {failure : Failure} (h : r.commit ctx cert = .error failure) :
    failure = .overflow .add ∧ Height.next? r.state.height = none := by
  rw [commit] at h
  split at h
  · next hheight => exact ⟨(Except.error.inj h).symm, hheight⟩
  · cases h

/-- Only a decision in its turn overflows among the phases that are applied. -/
theorem applyPhase_eq_overflow {st : Statement} {o : Overflow}
    (h : r.applyPhase ctx st = .error (.overflow o)) :
    st.view = r.state.view ∧ r.state.phase = .commit ∧ st.phase = .decide ∧
      o = .add ∧ Height.next? r.state.height = none := by
  by_cases hfits : st.view ≠ r.state.view ∨ r.state.phase.successor ≠ some st.phase
  · rw [applyPhase, if_pos hfits] at h
    cases h
  simp only [applyPhase, if_neg hfits] at h
  obtain ⟨hview, hnext⟩ := not_or.mp hfits
  cases hphase : st.phase with
  | newView | prepare | preCommit | commit =>
      rw [hphase] at h
      cases h
  | decide =>
      rw [hphase] at h hnext
      have hhere : Phase.predecessor .decide = some r.state.phase :=
        Phase.predecessor_eq_some_iff.mpr (not_not.mp hnext)
      obtain ⟨ho, hheight⟩ := commit_eq_error h
      exact ⟨not_not.mp hview, (Option.some.inj hhere).symm, rfl, Failure.overflow.inj ho, hheight⟩

/-- **Only a decision overflows**, at the last height. -/
theorem answer_eq_overflow {o : Overflow} (h : r.answer ctx call = .error (.overflow o)) :
    (∃ cert, r.decision? ctx call = some cert) ∧ o = .add ∧ Height.next? r.state.height = none := by
  cases call with
  | announce | enter | timeout => cases h
  | prepare msg =>
      rw [answer] at h
      cases hprepare : r.onPrepare ctx msg with
      | ok answer =>
          rw [hprepare] at h
          cases h
      | error cause =>
          rw [hprepare] at h
          cases h
  | phase msg =>
      -- The checks are made one after the other; none of them overflows.
      rw [answer, onPhase] at h
      by_cases hleads : ctx.leads msg.body.view
      · simp only [if_pos hleads] at h
        cases h
      simp only [if_neg hleads] at h
      cases hsigned : ctx.verifySigned msg with
      | error cause =>
          rw [hsigned] at h
          cases h
      | ok _ =>
      cases hleader : checkLeader ctx msg with
      | error cause =>
          rw [hsigned, hleader] at h
          cases h
      | ok _ =>
      simp only [hsigned, hleader] at h
      by_cases hout : r.outOfSequence msg.body
      · simp only [if_pos hout] at h
        cases hcheck : r.checkDecision ctx msg.body with
        | error cause =>
            rw [hcheck] at h
            cases h
        | ok _ =>
            rw [hcheck] at h
            obtain ⟨ho, hheight⟩ := commit_eq_error h
            refine ⟨⟨msg.body.justify, ?_⟩, Failure.overflow.inj ho, hheight⟩
            rw [decision?, if_pos]
            exact ⟨(of_decide_eq_true hout).1, hleads, by rw [hsigned]; rfl, by rw [hleader]; rfl,
              by rw [checkDecide, if_pos hout, hcheck]; rfl⟩
      · simp only [if_neg hout] at h
        cases hcheck : r.checkPhase ctx msg.body with
        | error cause =>
            rw [hcheck] at h
            cases h
        | ok _ =>
            rw [hcheck] at h
            obtain ⟨-, -, hphase, ho, hheight⟩ := applyPhase_eq_overflow h
            refine ⟨⟨msg.body.justify, ?_⟩, ho, hheight⟩
            rw [decision?, if_pos]
            exact ⟨hphase, hleads, by rw [hsigned]; rfl, by rw [hleader]; rfl,
              by rw [checkDecide, if_neg hout, hcheck]; rfl⟩
  | apply st =>
      obtain ⟨hview, hhere, hphase, ho, hheight⟩ := applyPhase_eq_overflow h
      exact ⟨⟨st.justify, if_pos ⟨hview, hhere, hphase⟩⟩, ho, hheight⟩

/-- **A call overflows** exactly where it decides at the last height. -/
theorem perform_eq_error_iff {o : Overflow} :
    r.perform ctx call = .error o ↔
      o = .add ∧ Height.next? r.state.height = none ∧ (r.decision? ctx call).isSome := by
  constructor
  · intro h
    rw [perform] at h
    split at h
    · cases h
    · cases h
    · next o' hanswer =>
        obtain rfl := Except.error.inj h
        obtain ⟨⟨cert, hdecides⟩, ho, hheight⟩ := answer_eq_overflow hanswer
        exact ⟨ho, hheight, hdecides ▸ rfl⟩
  · rintro ⟨rfl, hheight, hdecides⟩
    obtain ⟨cert, hdecides⟩ := Option.isSome_iff_exists.mp hdecides
    obtain ⟨phase, hanswer⟩ := answer_of_decision hdecides
    have hover : commit ctx { r with state := { r.state with phase } } cert =
        .error (.overflow .add) := by
      rw [commit, show Height.next? r.state.height = none from hheight]
    rw [perform, hanswer, hover]

/-! ### Sequences of calls -/

/-- What a call does is a change of state. -/
theorem perform_change (h : r.perform ctx call = .ok (r', said)) :
    Change ctx r.state (deedsIn said) r'.state := by
  rw [perform] at h
  split at h
  · next hanswer =>
      obtain rfl := Except.ok.inj h
      exact answer_change hanswer
  · obtain ⟨rfl, rfl⟩ := Prod.mk.inj (Except.ok.inj h)
    exact .rest
  · cases h

/-- **Calls one after the other** never go back to an earlier view, and count what they execute. -/
theorem performAll_spec {calls : List Call} (h : r.performAll ctx calls = .ok (r', said)) :
    r.state.view ≤ r'.state.view ∧ Counts r.state.height (heightsIn said) r'.state.height := by
  induction calls generalizing r said with
  | nil =>
      obtain ⟨rfl, rfl⟩ := Prod.mk.inj (Except.ok.inj h)
      exact ⟨UInt64.le_refl _, .nil _⟩
  | cons call calls ih =>
      obtain ⟨⟨mid, out⟩, hperform, h⟩ := bind_eq_ok.mp h
      obtain ⟨⟨last, later⟩, hrest, h⟩ := bind_eq_ok.mp h
      obtain ⟨rfl, rfl⟩ := Prod.mk.inj (Except.ok.inj h)
      have hchange := perform_change hperform
      obtain ⟨hview, hcounts⟩ := ih hrest
      rw [heightsIn_append]
      exact ⟨UInt64.le_trans hchange.precedes.place.view_le hview, hchange.counts.append hcounts⟩

/-! ### The ends of the counters -/

variable (ctx r)

/-- **A call that overdraws a counter**: it decides, and there is no next height, or no view after
the one decided. -/
def Overdraws (call : Call) : Prop :=
  ∃ cert, r.decision? ctx call = some cert ∧
    (Height.next? r.state.height = none ∨ View.next? cert.view = none)

/-- **A call that meets the end of a counter**: the timeout of the last view, a proposal for it, or
a decision that overdraws. -/
inductive Exhausts : Call → Prop
  | timeout (hlast : View.next? r.state.view = none) : Exhausts .timeout
  | prepare {msg} (hlast : View.next? msg.body.view = none) : Exhausts (.prepare msg)
  | decision {other} (h : r.Overdraws ctx other) : Exhausts other

/-- **Keeping within the counters.** The call is performed, does not go back to an earlier view, and
counts what it executes. Where it meets the end of a counter, the state is unchanged, or the view is
kept and the timer armed again. -/
structure Keeps (call : Call) (r' : Replica σ) (said : List Action) : Prop where
  performs : r.perform ctx call = .ok (r', said)
  forward : r.state.view ≤ r'.state.view
  counts : Counts r.state.height (heightsIn said) r'.state.height
  waits : r.Exhausts ctx call →
    r'.state = r.state ∨ r'.state.view = r.state.view ∧ rearm ctx ∈ said

variable {ctx r}

/-- A proposal for the last view is refused. -/
theorem perform_prepare_last {msg : SignedStatement} (hlast : View.next? msg.body.view = none) :
    r.perform ctx (.prepare msg) = .ok (r, []) := by
  rw [perform, answer]
  cases hprepare : r.onPrepare ctx msg with
  | error cause => rfl
  | ok answer =>
      obtain ⟨haccepts, -⟩ := onPrepare_accepts hprepare
      exact absurd (View.next?_eq_none_iff.mp hlast) haccepts.notLast

/-- **In the last view a timeout only waits on.** -/
theorem perform_timeout_last (hlast : View.next? r.state.view = none) :
    r.perform ctx .timeout = .ok (r, [.notify (.timedOut r.state.view), rearm ctx]) := by
  rw [perform, answer, onTimeout, hlast]

/-- A decision in the last view commits, and that is all that it does. -/
theorem perform_decision_last {height : Height} (hdecides : r.decision? ctx call = some cert)
    (hheight : Height.next? r.state.height = some height) (hlast : View.next? cert.view = none) :
    ∃ digest r', r.perform ctx call = .ok (r', [.execute cert.view height cert.payload,
        .notify (.committed cert.view height digest)]) ∧
      r'.state.view = r.state.view ∧ r'.state.height = height := by
  obtain ⟨phase, hanswer⟩ := answer_of_decision hdecides
  have hcommit : commit ctx { r with state := { r.state with phase } } cert =
      .ok (persist ⟨r.store, { r.state with
        phase, committed := ctx.scheme.payloadDigest cert.payload, height }⟩,
        [.execute cert.view height cert.payload,
          .notify (.committed cert.view height (ctx.scheme.payloadDigest cert.payload))]) := by
    rw [commit, show Height.next? r.state.height = some height from hheight]
    simp only [leave, hlast]
  exact ⟨_, _, perform_of_answer (hanswer.trans hcommit), rfl, rfl⟩

/-- **A call keeps within the counters** exactly if it does not overdraw one. -/
theorem keeps_iff_not_overdraws :
    (∃ r' said, r.Keeps ctx call r' said) ↔ ¬ r.Overdraws ctx call := by
  constructor
  · rintro ⟨r', said, hkeeps⟩ hover
    obtain ⟨cert, hdecides, hend⟩ := id hover
    cases hheight : Height.next? r.state.height with
    | none =>
        have herror : r.perform ctx call = .error .add :=
          perform_eq_error_iff.mpr ⟨rfl, hheight, hdecides ▸ rfl⟩
        cases hkeeps.performs.symm.trans herror
    | some height =>
        have hlast : View.next? cert.view = none := hend.resolve_left (by simp [hheight])
        obtain ⟨digest, r'', hperform, -, hnext⟩ := perform_decision_last hdecides hheight hlast
        obtain ⟨rfl, rfl⟩ := Prod.mk.inj (Except.ok.inj (hkeeps.performs.symm.trans hperform))
        rcases hkeeps.waits (.decision hover) with hsame | ⟨-, harmed⟩
        · have hcounted := Height.toNat_of_next? hheight
          rw [← hnext, hsame] at hcounted
          omega
        · simp [rearm] at harmed
  · intro hnot
    cases hperform : r.perform ctx call with
    | error o =>
        obtain ⟨-, hheight, hdecides⟩ := perform_eq_error_iff.mp hperform
        obtain ⟨cert, hdecides⟩ := Option.isSome_iff_exists.mp hdecides
        exact absurd ⟨cert, hdecides, Or.inl hheight⟩ hnot
    | ok result =>
        obtain ⟨r', said⟩ := result
        have hchange := perform_change hperform
        refine ⟨r', said, hperform, hchange.precedes.place.view_le, hchange.counts, fun hend => ?_⟩
        cases hend with
        | timeout hlast =>
            obtain ⟨rfl, -⟩ := Prod.mk.inj
              (Except.ok.inj (hperform.symm.trans (perform_timeout_last hlast)))
            exact Or.inl rfl
        | prepare hlast =>
            obtain ⟨rfl, -⟩ := Prod.mk.inj
              (Except.ok.inj (hperform.symm.trans (perform_prepare_last hlast)))
            exact Or.inl rfl
        | decision hover => exact absurd hover hnot

end Replica

/-- **The counters of a resumed replica.** Whatever state a store holds, in its last view there is
nothing to resume; otherwise a replica is resumed in the next view, with the height that was saved.
Calls to it never go back to an earlier view, and what they execute is counted without a gap. Each
call keeps within the counters exactly if it does not overdraw one, and it overflows exactly if it
decides at the last height. -/
theorem counters_keep_iff_not_overdrawn {σ : Type} [StateStore σ] {ctx : Context} {store : σ}
    {saved : SavedState} (hload : StateStore.load store = .ok (some saved)) :
    (saved.view = View.last ∧
      Replica.create ctx store = .error (.viewOutOfRange saved.view saved.view)) ∨
    ∃ first : Replica σ, Replica.create ctx store = .ok first ∧
      first.state.view.toNat = saved.view.toNat + 1 ∧ first.state.height = saved.height ∧
      ∀ calls r said, first.performAll ctx calls = .ok (r, said) →
        first.state.view ≤ r.state.view ∧
        Counts saved.height (heightsIn said) r.state.height ∧
        ∀ call, ((∃ r' out, r.Keeps ctx call r' out) ↔ ¬ r.Overdraws ctx call) ∧
          ∀ o, r.perform ctx call = .error o ↔
            o = .add ∧ Height.next? r.state.height = none ∧ (r.decision? ctx call).isSome := by
  cases hnext : View.next? saved.view with
  | none =>
      refine Or.inl ⟨View.next?_eq_none_iff.mp hnext, ?_⟩
      simp only [Replica.create, hload, ReplicaState.resume, hnext, bind, Except.bind]
  | some view =>
      have hresume : ReplicaState.resume saved = .ok
          ⟨view, .newView, saved.prepared, saved.locked, none, saved.committed, saved.height⟩ := by
        rw [ReplicaState.resume, hnext]
      refine Or.inr ⟨_, bind_eq_ok.mpr ⟨_, hload, bind_eq_ok.mpr ⟨_, hresume, rfl⟩⟩,
        View.toNat_of_next? hnext, rfl, fun calls r said hcalls => ?_⟩
      obtain ⟨hview, hcounts⟩ := Replica.performAll_spec hcalls
      exact ⟨hview, hcounts,
        fun call => ⟨Replica.keeps_iff_not_overdraws, fun o => Replica.perform_eq_error_iff⟩⟩

namespace LastView

/-- The second of four members. -/
def ctx : Context := .numbered .four 1 Committee.one_mem_four

/-- The payload on the genesis digest. -/
def payload : Payload := ⟨Scheme.transparent.genesisDigest, [80]⟩

/-- Some progress without certificates. -/
def saved (view : View) (height : Height) : SavedState :=
  ⟨view, none, none, Scheme.transparent.genesisDigest, height⟩

/-- A replica in the last view, with the heights that are left from `height` on. -/
def resumed (height : Height) : Replica MemoryStore :=
  Replica.persist ⟨⟨some (saved (View.last - 1) height)⟩,
    ⟨View.last, .newView, none, none, none, Scheme.transparent.genesisDigest, height⟩⟩

/-- A process takes up in the last view from a saved state of the view before it. -/
theorem create_resumed (height : Height) :
    Replica.create ctx (⟨some (saved (View.last - 1) height)⟩ : MemoryStore) =
      .ok (resumed height) := rfl

/-- The decision of a view, from its leader. -/
def decision (leader : UInt8) (view : View) : SignedStatement :=
  Scheme.transparent.signStatement (.numbered leader)
    ⟨view, .decide, payload, .numbered ⟨.commit, view, payload⟩ [0, 2, 3]⟩

end LastView

open LastView in
/-- A replica is resumed in the last view with one height left, and uses it for a decision of view
0. It still keeps within the counters on a timeout, though there is no view to go to; the next
decision would overdraw the height. -/
theorem counters_keep_in_last_view :
    StateStore.load (⟨some (saved (View.last - 1) (View.last - 1))⟩ : MemoryStore) =
      .ok (some (saved (View.last - 1) (View.last - 1))) ∧
    ∃ r said, (resumed (View.last - 1)).performAll ctx [.phase (decision 0 0)] = .ok (r, said) ∧
      heightsIn said = [View.last] ∧ Counts (View.last - 1) [View.last] r.state.height ∧
      ∃ r' out, r.Keeps ctx .timeout r' out ∧ r'.state.view = View.last ∧
        .resetTimer ctx.timeout ∈ out := by
  have hload : StateStore.load (⟨some (saved (View.last - 1) (View.last - 1))⟩ : MemoryStore) =
      .ok (some (saved (View.last - 1) (View.last - 1))) := rfl
  refine ⟨hload, ?_⟩
  rcases @counters_keep_iff_not_overdrawn _ _ ctx _ _ hload with ⟨hlast, -⟩ | hresumed
  · exact absurd hlast (by decide)
  obtain ⟨first, hcreate, -, -, hkeeps⟩ := hresumed
  obtain rfl := Except.ok.inj ((create_resumed _).symm.trans hcreate)
  have hplayed : ((resumed (View.last - 1)).performAll ctx [.phase (decision 0 0)]).map
      (fun result => (heightsIn result.2, result.1.state.view)) = .ok ([View.last], View.last) := by
    decide +kernel
  obtain ⟨⟨r, said⟩, hcalls, hresult⟩ := map_eq_ok.mp hplayed
  obtain ⟨hheights, hview⟩ := Prod.mk.inj hresult
  obtain ⟨-, hcounts, hnext⟩ := hkeeps _ r said hcalls
  have hlast : View.next? r.state.view = none := View.next?_eq_none_iff.mpr hview
  have hnot : ¬ r.Overdraws ctx .timeout :=
    fun ⟨_, hdecides, _⟩ => Option.some_ne_none _ hdecides.symm
  obtain ⟨r', out, htimeout⟩ := (hnext .timeout).1.mpr hnot
  obtain ⟨hstays, hout⟩ := Prod.mk.inj
    (Except.ok.inj (htimeout.performs.symm.trans (Replica.perform_timeout_last hlast)))
  refine ⟨r, said, hcalls, hheights, hheights ▸ hcounts, r', out, htimeout, hstays ▸ hview, ?_⟩
  rw [hout]
  exact List.mem_cons_of_mem _ (List.mem_singleton_self _)

open LastView in
/-- A replica is resumed at the last height. A decision overflows the height, half-way: by then the
digest of the payload has been written. One resumed in the last view with a height left commits a
decision of that view, and stays there without arming the timer again. -/
theorem height_overflows_half_way :
    (∃ half, (resumed View.last).perform ctx (.phase (decision 0 0)) = .error .add ∧
      (InPlace.onPhase ctx (decision 0 0)).run (resumed View.last) =
        .error (.overflow .add) half ∧
      half.state.committed ≠ (resumed View.last).state.committed ∧
      half.state.height = (resumed View.last).state.height) ∧
    ∃ r said,
      (resumed (View.last - 1)).perform ctx (.phase (decision 3 View.last)) = .ok (r, said) ∧
      r.state.height = View.last ∧ r.state.view = View.last ∧ .resetTimer ctx.timeout ∉ said := by
  constructor
  · have hover : (resumed View.last).perform ctx (.phase (decision 0 0)) = .error .add :=
      Replica.perform_eq_error_iff.mpr ⟨rfl, by decide, by decide +kernel⟩
    have hhalf : (match (InPlace.onPhase ctx (decision 0 0)).run (resumed View.last) with
        | .error failure half => some (failure, half.state.committed, half.state.height)
        | .ok _ _ => none) =
        some (.overflow .add, Scheme.transparent.payloadDigest payload, View.last) := by
      decide +kernel
    split at hhalf
    · next failure half hrun =>
        simp only [Option.some.injEq, Prod.mk.injEq] at hhalf
        obtain ⟨rfl, hdigest, hheight⟩ := hhalf
        refine ⟨half, hover, hrun, ?_, hheight⟩
        rw [hdigest]
        decide
    · cases hhalf
  · have hplayed : ((resumed (View.last - 1)).perform ctx (.phase (decision 3 View.last))).map
        (fun result => (result.1.state.height, result.1.state.view,
          decide (.resetTimer ctx.timeout ∉ result.2))) = .ok (View.last, View.last, true) := by
      decide +kernel
    obtain ⟨⟨r, said⟩, hperform, hresult⟩ := map_eq_ok.mp hplayed
    simp only [Prod.mk.injEq, decide_eq_true_eq] at hresult
    obtain ⟨hheight, hview, harmed⟩ := hresult
    exact ⟨r, said, hperform, hheight, hview, harmed⟩

end HotStuff
