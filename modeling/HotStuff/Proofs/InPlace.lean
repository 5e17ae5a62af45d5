import HotStuff.Proofs.Resting

/-!
# Handlers in Place

A replica answers with a new state, so a refusal has none to spoil. A machine that keeps one state
and writes to it field by field has to make sure of that: what was written before a refusal would
stay. The handlers are written down here as such a machine performs them, every read and write in
its turn, with the store saved where it is saved. They come to the same answers, and no refusal
comes after a write. Only the height can stop a handler halfway, where it would leave 64 bits.

## Main definitions

* `Handler`: a computation that reads and writes one replica.
* `Handler.Performs`: it comes to a given outcome, and a refusal finds the replica as it was.

## Main results

* `InPlace.onPrepare_performs`, `InPlace.onPhase_performs`, `InPlace.applyPhase_performs`: the
  handlers of a replica can be performed in place.
-/

namespace HotStuff

/-- **A handler in place**: it reads and writes one replica, and what it has written stays, however
it ends. -/
abbrev Handler (σ α : Type) := EStateM Failure (Replica σ) α

namespace Handler

variable {σ α : Type}

/-- Writes to the state. -/
def write (f : ReplicaState → ReplicaState) : Handler σ Unit :=
  modify fun r => { r with state := f r.state }

/-- Saves the state. -/
def save [StateStore σ] : Handler σ Unit := modify Replica.persist

/-- Ends with a refusal where a check does. -/
def check : Except Error Unit → Handler σ Unit
  | .ok () => pure ()
  | .error cause => throw (.refused cause)

/-- **Performing in place** what has a given outcome for a replica. The handler comes to the answer,
and its state is then the replica of the answer; where the outcome is a refusal, it refuses for the
same cause and its state is as it was, store included. -/
def Performs (h : Handler σ α) (r : Replica σ) : Outcome (Replica σ × α) → Prop
  | .ok (r', a) => h.run r = .ok a r'
  | .error (.refused cause) => h.run r = .error (.refused cause) r
  | .error (.overflow o) => ∃ r', h.run r = .error (.overflow o) r'

variable {h h' : Handler σ α} {r r' : Replica σ} {outcome : Outcome (Replica σ × α)}

/-- **A refusal in place is the outcome, and changes nothing.** -/
theorem Performs.of_refused {cause : Error} (hperforms : h.Performs r outcome)
    (hrun : h.run r = .error (.refused cause) r') :
    outcome = .error (.refused cause) ∧ r' = r := by
  match outcome, hperforms with
  | .ok _, hok => cases hrun.symm.trans hok
  | .error (.refused _), hrefused =>
      cases hrun.symm.trans hrefused
      exact ⟨rfl, rfl⟩
  | .error (.overflow _), ⟨_, hover⟩ => cases hrun.symm.trans hover

/-- Only what a handler does on the replica matters. -/
theorem Performs.congr (hperforms : h'.Performs r outcome) (hrun : h.run r = h'.run r) :
    h.Performs r outcome := by
  match outcome, hperforms with
  | .ok _, hok => exact hrun.trans hok
  | .error (.refused _), hrefused => exact hrun.trans hrefused
  | .error (.overflow _), ⟨r'', hover⟩ => exact ⟨r'', hrun.trans hover⟩

/-- What was written before a handler does not matter where nothing is refused any more. -/
theorem Performs.of_run (hperforms : h'.Performs r' outcome) (hrun : h.run r = h'.run r')
    (hnot : ∀ cause, outcome ≠ .error (.refused cause)) : h.Performs r outcome := by
  match outcome, hperforms with
  | .ok _, hok => exact hrun.trans hok
  | .error (.refused cause), _ => exact absurd rfl (hnot cause)
  | .error (.overflow _), ⟨r'', hover⟩ => exact ⟨r'', hrun.trans hover⟩

/-- A check may stand in front of what is performed in place. -/
theorem Performs.after_check {x : Except Error Unit}
    (hperforms : x = .ok () → h.Performs r outcome) :
    Performs (check x >>= fun _ => h) r (Outcome.ofCheck x >>= fun _ => outcome) := by
  cases x with
  | error cause => exact rfl
  | ok _ => exact hperforms rfl

end Handler

namespace InPlace

open Handler

variable {σ : Type} [StateStore σ] (ctx : Context)

/-- Moves to a later view; any other one changes nothing. -/
def advanceTo (view : View) : Handler σ (List Action) := do
  if view ≤ (← get).state.view then return []
  write fun s => { s with view }
  write fun s => { s with phase := .newView }
  write fun s => { s with proposal := none }
  save
  return [.notify (.viewChanged view (ctx.leader view))]

/-- Moves to a later view and announces it. -/
def enterView (view : View) : Handler σ (List Action) := do
  let actions ← advanceTo ctx view
  if actions.isEmpty then return []
  return actions ++ (← get).startRound ctx

/-- Commits the payload of a Commit certificate. The digest is written before the height is
counted. -/
def commit (cert : Certificate) : Handler σ (List Action) := do
  let digest := ctx.scheme.payloadDigest cert.payload
  write fun s => { s with committed := digest }
  match Height.next? (← get).state.height with
  | none => throw (.overflow .add)
  | some height =>
    write fun s => { s with height }
    let done : List Action :=
      [.execute cert.view height cert.payload, .notify (.committed cert.view height digest)]
    match View.next? cert.view with
    | some next =>
      if (← get).state.view < next then return done ++ (← enterView ctx next)
      save
      return done
    | none =>
      save
      return done

/-- Applies a phase of the current view whose message is known to be good. -/
def applyPhase (data : Statement) : Handler σ (List Action) := do
  let here := (← get).state
  if data.view ≠ here.view ∨ here.phase.successor ≠ some data.phase then
    throw (.refused (.unexpectedPhase data.phase here.phase))
  match data.phase with
  | .preCommit =>
    write fun s => { s with prepared := some (ReplicaState.newer s.prepared data.justify) }
    write fun s => { s with phase := .preCommit }
    save
    return [(← get).vote ctx .preCommit data.payload, Replica.rearm ctx]
  | .commit =>
    write fun s => { s with locked := some (ReplicaState.newer s.locked data.justify) }
    write fun s => { s with phase := .commit }
    save
    return [(← get).vote ctx .commit data.payload, Replica.rearm ctx]
  | .decide =>
    write fun s => { s with phase := .decide }
    commit ctx data.justify
  | .newView | .prepare => throw (.refused (.unexpectedPhase data.phase here.phase))

/-- Votes on a proposal. -/
def onPrepare (msg : SignedStatement) : Handler σ (List Action) := do
  check ((← get).checkPrepare ctx msg)
  let entered ← advanceTo ctx msg.body.view
  write fun s => { s with phase := .prepare }
  write fun s => { s with proposal := some msg.body.payload }
  return entered ++ [(← get).vote ctx .prepare msg.body.payload, Replica.rearm ctx]

/-- Follows the leader after its proposal. -/
def onPhase (msg : SignedStatement) : Handler σ (List Action) := do
  let data := msg.body
  if ctx.leads data.view then throw (.refused (.invalidProposal (.ownPhase data.phase data.view)))
  check (ctx.verifySigned msg)
  check (Replica.checkLeader ctx msg)
  if (← get).outOfSequence data then
    check ((← get).checkDecision ctx data)
    commit ctx data.justify
  else
    check ((← get).checkPhase ctx data)
    applyPhase ctx data

/-! ### What the handlers come to -/

variable {ctx} (r : Replica σ)

omit [StateStore σ] in
/-- A write changes the state and is never refused. -/
theorem run_write (f : ReplicaState → ReplicaState) :
    (write f : Handler σ Unit).run r = .ok () { r with state := f r.state } := rfl

/-- Saving hands the state to the store, and is never refused: a failed save is only reported. -/
theorem run_save : (save : Handler σ Unit).run r = .ok () r.persist := rfl

/-- Moving to a view is never refused. -/
theorem run_advanceTo (view : View) :
    (advanceTo ctx view).run r = .ok (r.advanceTo ctx view).2 (r.advanceTo ctx view).1 := by
  rw [Replica.advanceTo]
  by_cases h : view ≤ r.state.view
  · simp only [advanceTo, EStateM.run_bind, EStateM.run_get, if_pos h, EStateM.run_pure]
  · simp only [advanceTo, EStateM.run_bind, EStateM.run_get, if_neg h, run_write, run_save,
      EStateM.run_pure]

/-- Entering a view is never refused. -/
theorem run_enterView (view : View) :
    (enterView ctx view).run r = .ok (r.enterView ctx view).2 (r.enterView ctx view).1 := by
  simp only [enterView, EStateM.run_bind, run_advanceTo, Replica.enterView]
  by_cases h : (r.advanceTo ctx view).2.isEmpty
  · simp only [h, if_true, EStateM.run_pure]
  · simp only [h, Bool.false_eq_true, if_false, EStateM.run_bind, EStateM.run_get, EStateM.run_pure]

omit [StateStore σ] in
/-- Stopping leaves the replica as it was written up to there. -/
theorem run_stop {α : Type} (failure : Failure) :
    (throw failure : Handler σ α).run r = .error failure r := rfl

/-- **A commit** is performed in place. Where the height would leave 64 bits, the digest has been
written by then. -/
theorem commit_performs (cert : Certificate) :
    (commit ctx cert).Performs r (r.commit ctx cert) := by
  rw [Replica.commit]
  cases hheight : Height.next? r.state.height with
  | none =>
      refine ⟨{ r with state := { r.state with
        committed := ctx.scheme.payloadDigest cert.payload } }, ?_⟩
      simp only [commit, EStateM.run_bind, EStateM.run_get, run_write, hheight, run_stop]
  | some height =>
      simp only [Performs, commit, EStateM.run_bind, EStateM.run_get, run_write, hheight,
        Replica.leave]
      cases hnext : View.next? cert.view with
      | none => simp only [EStateM.run_bind, run_save, EStateM.run_pure]
      | some next =>
          by_cases hlater : r.state.view < next
          · simp only [EStateM.run_bind, EStateM.run_get, if_pos hlater, run_enterView,
              EStateM.run_pure, List.cons_append, List.nil_append]
          · simp only [EStateM.run_bind, EStateM.run_get, if_neg hlater, run_save,
              EStateM.run_pure]

/-- Nothing is refused in a commit. -/
theorem commit_not_refused (cert : Certificate) (cause : Error) :
    r.commit ctx cert ≠ .error (.refused cause) := by
  rw [Replica.commit]
  split <;> simp

/-- **Applying a phase** is performed in place: it is refused before anything is written. -/
theorem applyPhase_performs (data : Statement) :
    (applyPhase ctx data).Performs r (r.applyPhase ctx data) := by
  by_cases hfits : data.view ≠ r.state.view ∨ r.state.phase.successor ≠ some data.phase
  · simp only [Replica.applyPhase, if_pos hfits, refuse, Performs]
    simp only [applyPhase, EStateM.run_bind, EStateM.run_get, if_pos hfits, run_stop]
  simp only [Replica.applyPhase, if_neg hfits]
  cases hphase : data.phase with
  | newView | prepare | preCommit | commit =>
      simp only [refuse, Performs]
      simp only [applyPhase, EStateM.run_bind, EStateM.run_get, if_neg hfits]
      rw [hphase]
      rfl
  | decide =>
      let decided : Replica σ := { r with state := { r.state with phase := .decide } }
      have hrun : (applyPhase ctx data).run r = (commit ctx data.justify).run decided := by
        simp only [applyPhase, EStateM.run_bind, EStateM.run_get, if_neg hfits]
        rw [hphase]
        rfl
      exact (commit_performs decided data.justify).of_run hrun (commit_not_refused decided _)

/-- **A proposal** is voted on in place: it is refused before the replica moves to its view. -/
theorem onPrepare_performs (msg : SignedStatement) :
    (onPrepare ctx msg).Performs r (Outcome.ofCheck (r.onPrepare ctx msg)) := by
  cases hcheck : r.checkPrepare ctx msg with
  | error cause =>
      have hrefused : r.onPrepare ctx msg = .error cause := by
        rw [Replica.onPrepare, hcheck]
        rfl
      rw [hrefused]
      simp only [Outcome.ofCheck, Performs, onPrepare, EStateM.run_bind, EStateM.run_get, hcheck]
      rfl
  | ok _ =>
      simp only [Replica.onPrepare, hcheck]
      simp only [Outcome.ofCheck, Performs, onPrepare, EStateM.run_bind, EStateM.run_get, hcheck,
        run_advanceTo, run_write, EStateM.run_pure]
      rfl

/-- **A later phase** is followed in place: the checks come first, and what is applied after them
writes nothing before its own refusal. -/
theorem onPhase_performs (msg : SignedStatement) :
    (onPhase ctx msg).Performs r (r.onPhase ctx msg) := by
  by_cases hleads : ctx.leads msg.body.view
  · simp only [onPhase, Replica.onPhase, if_pos hleads]
    rfl
  simp only [onPhase, Replica.onPhase, if_neg hleads]
  refine .after_check fun _ => .after_check fun _ => ?_
  by_cases hout : r.outOfSequence msg.body
  · rw [if_pos hout]
    have hcommit : Performs (check (r.checkDecision ctx msg.body) >>= fun _ =>
        commit ctx msg.body.justify) r _ := .after_check fun _ => commit_performs r msg.body.justify
    refine hcommit.congr ?_
    simp only [EStateM.run_bind, EStateM.run_get, if_pos hout]
  · rw [if_neg hout]
    have happly : Performs (check (r.checkPhase ctx msg.body) >>= fun _ =>
        applyPhase ctx msg.body) r _ := .after_check fun _ => applyPhase_performs r msg.body
    refine happly.congr ?_
    simp only [EStateM.run_bind, EStateM.run_get, if_neg hout]

end InPlace

end HotStuff
