import HotStuff.Store

/-!
# The Replica

Every member runs a replica, the leader of a view too. It checks what the leader says in each phase,
votes, locks, commits, and moves to the next view on a decision or a timeout. A handler either
refuses a message and changes nothing, or returns the changed replica with the actions to take.

## Acceptance

A proposal is accepted if the leader of its view signed it, the replica is not past that view and
has not voted in it, the payload extends the committed chain, and the proposal is safe with respect
to the lock: it is the locked payload, extends it, or brings a certificate newer than the lock.

PreCommit, Commit and Decide are accepted in their order in the local view, on the certificate of
the phase before over the accepted payload. A Decide out of sequence is applied if its Commit
certificate is valid and extends the committed chain.

## Main definitions

* `Replica.create`: a fresh replica, or one that resumes from its store.
* `Replica.startRound`, `Replica.onPrepare`, `Replica.onPhase`, `Replica.onTimeout`: the handlers.
* `Replica.applyPhase`: a phase whose message needs no check, as the leader's own.
-/

namespace HotStuff

/-- The state of a replica. -/
structure ReplicaState where
  view : View
  phase : Phase
  /-- The highest Prepare certificate seen. -/
  prepared : Option Certificate
  /-- The PreCommit certificate that the replica is locked on. -/
  locked : Option Certificate
  /-- The payload voted for in this view. -/
  proposal : Option Payload
  /-- The digest of the payload committed last. -/
  committed : Digest
  height : Height
  deriving DecidableEq, Repr

namespace ReplicaState

/-- The part of the state that is saved. -/
def saved (s : ReplicaState) : SavedState :=
  ⟨s.view, s.prepared, s.locked, s.committed, s.height⟩

/-- The state before the first view. -/
def initial (genesis : Digest) : ReplicaState := ⟨0, .newView, none, none, none, genesis, 0⟩

/-- **Resuming.** The state after a restart: in the view after the saved one, so that no view is
voted in twice. After the last view there is none. -/
def resume (saved : SavedState) : Except Error ReplicaState :=
  match View.next? saved.view with
  | some view =>
    .ok ⟨view, .newView, saved.prepared, saved.locked, none, saved.committed, saved.height⟩
  | none => .error (.viewOutOfRange saved.view saved.view)

/-- The certificate that the replica hands to the next leader. -/
def highCertificate (scheme : Scheme) (s : ReplicaState) : Certificate :=
  s.prepared.getD scheme.genesis

/-- The newer of a held and an offered certificate; of two of the same view the offered one. -/
def newer (held : Option Certificate) (offered : Certificate) : Certificate :=
  match held with
  | some c => if offered.view < c.view then c else offered
  | none => offered

/-- **Safety of a proposal.** Whether the lock allows a vote for the proposal. -/
def checkSafe (scheme : Scheme) (s : ReplicaState) (data : Statement) : Except Error Unit :=
  match s.locked with
  | none => .ok ()
  | some lock =>
    if data.payload = lock.payload ∨ data.payload.parent = scheme.payloadDigest lock.payload ∨
        lock.view < data.justify.view then
      .ok ()
    else .error (.invalidProposal (.conflictsWithLock lock.view))

end ReplicaState

/-- A replica together with its store. -/
structure Replica (σ : Type) where
  store : σ
  state : ReplicaState

namespace Replica

variable {σ : Type} [StateStore σ] (ctx : Context) (r : Replica σ)

/-- Saves the state. A store that refuses is left to itself. -/
def persist : Replica σ := { r with store := (StateStore.save r.store r.state.saved).2 }

/-- A replica over a store: resumed if the store holds a state, fresh if not. -/
def create (store : σ) : Except Error (Replica σ) := do
  let state ← match ← StateStore.load store with
    | some saved => ReplicaState.resume saved
    | none => pure (ReplicaState.initial ctx.scheme.genesisDigest)
  return persist ⟨store, state⟩

/-- The certificate that the replica hands to the next leader. -/
def highCertificate : Certificate := r.state.highCertificate ctx.scheme

/-- Puts the deadline off by the configured time. -/
def rearm : Action := .resetTimer ctx.timeout

/-- A vote in the current view, to its leader. -/
def vote (phase : Phase) (payload : Payload) : Action :=
  .send (ctx.leader r.state.view) (.vote (ctx.castVote ⟨phase, r.state.view, payload⟩))

/-! ### Views -/

/-- Announces the current view to its leader. -/
def startRound : List Action :=
  let justify := r.highCertificate ctx
  let announcement := ctx.sign ⟨r.state.view, .newView, justify.payload, justify⟩
  [.send (ctx.leader r.state.view) (.statement .newView announcement), rearm ctx]

/-- Moves to a later view; any other one changes nothing. -/
def advanceTo (view : View) : Replica σ × List Action :=
  if view ≤ r.state.view then (r, [])
  else
    (persist { r with state := { r.state with view, phase := .newView, proposal := none } },
      [.notify (.viewChanged view (ctx.leader view))])

/-- Moves to a later view and announces it. -/
def enterView (view : View) : Replica σ × List Action :=
  let (moved, actions) := r.advanceTo ctx view
  (moved, if actions.isEmpty then [] else actions ++ moved.startRound ctx)

/-- **Giving up a view.** The replica enters the next one; in the last view it can only wait on. -/
def onTimeout : Replica σ × List Action :=
  let gone := Action.notify (.timedOut r.state.view)
  match View.next? r.state.view with
  | some next =>
    let (moved, actions) := r.enterView ctx next
    (moved, gone :: actions)
  | none => (r, [gone, rearm ctx])

/-! ### Proposals -/

/-- The leader of a view has to speak for it. -/
def checkLeader (msg : SignedStatement) : Except Error Unit :=
  if msg.signer = ctx.leader msg.body.view then .ok ()
  else .error (.notLeader msg.signer msg.body.view)

/-- A proposal builds on the genesis certificate or on a valid Prepare certificate of an earlier
view. -/
def checkJustify (data : Statement) : Except Error Unit :=
  let justify := data.justify
  if justify = ctx.scheme.genesis then .ok ()
  else if justify.phase ≠ .prepare then
    .error (.invalidCertificate (.proposalPhase justify.phase))
  else if data.view ≤ justify.view then
    .error (.invalidCertificate (.proposalView justify.view data.view))
  else ctx.verify justify

/-- The checks on a proposal, in their order. -/
def checkPrepare (msg : SignedStatement) : Except Error Unit := do
  let data := msg.body
  let here := r.state
  if data.phase ≠ .prepare then throw (.unexpectedPhase data.phase here.phase)
  ctx.verifySigned msg
  checkLeader ctx msg
  if data.view < here.view then throw (.staleView data.view here.view)
  if data.view = here.view ∧ here.phase ≠ .newView then
    throw (.unexpectedPhase .prepare here.phase)
  checkViewBound data.view here.view data.justify.view
  checkJustify ctx data
  if data.payload.parent ≠ here.committed then
    throw (.invalidProposal (.parentMismatch data.payload.parent here.committed))
  here.checkSafe ctx.scheme data

/-- **Voting on a proposal.** An accepted proposal for a later view takes the replica
there first. -/
def onPrepare (msg : SignedStatement) : Except Error (Replica σ × List Action) := do
  r.checkPrepare ctx msg
  let (moved, entered) := r.advanceTo ctx msg.body.view
  let accepted : Replica σ :=
    { moved with
      state := { moved.state with phase := .prepare, proposal := some msg.body.payload } }
  return (accepted, entered ++ [accepted.vote ctx .prepare msg.body.payload, rearm ctx])

/-! ### Later phases -/

/-- Leaves a view for the next one, unless the replica is past it, and saves the state. -/
def leave (view : View) : Replica σ × List Action :=
  match View.next? view with
  | some next => if r.state.view < next then r.enterView ctx next else (r.persist, [])
  | none => (r.persist, [])

/-- **Committing.** Commits the payload of a Commit certificate and enters the view after it, unless
the replica is past that view. The height has to stay within 64 bits. -/
def commit (cert : Certificate) : Outcome (Replica σ × List Action) :=
  match Height.next? r.state.height with
  | none => .error (.overflow .add)
  | some height =>
    let digest := ctx.scheme.payloadDigest cert.payload
    let committed : Replica σ := { r with state := { r.state with committed := digest, height } }
    let (moved, actions) := committed.leave ctx cert.view
    .ok (moved, .execute cert.view height cert.payload ::
      .notify (.committed cert.view height digest) :: actions)

/-- Applies a phase of the current view whose message is known to be good. -/
def applyPhase (data : Statement) : Outcome (Replica σ × List Action) :=
  let here := r.state
  if data.view ≠ here.view ∨ here.phase.successor ≠ some data.phase then
    refuse (.unexpectedPhase data.phase here.phase)
  else
    match data.phase with
    | .preCommit =>
      let next := persist { r with state := { here with
        prepared := some (ReplicaState.newer here.prepared data.justify), phase := .preCommit } }
      .ok (next, [next.vote ctx .preCommit data.payload, rearm ctx])
    | .commit =>
      let next := persist { r with state := { here with
        locked := some (ReplicaState.newer here.locked data.justify), phase := .commit } }
      .ok (next, [next.vote ctx .commit data.payload, rearm ctx])
    | .decide => commit ctx { r with state := { here with phase := .decide } } data.justify
    | .newView | .prepare => refuse (.unexpectedPhase data.phase here.phase)

/-- The checks on a decision out of sequence, in their order. -/
def checkDecision (data : Statement) : Except Error Unit := do
  let cert := data.justify
  if cert.phase ≠ .commit ∨ cert.view ≠ data.view ∨ cert.payload ≠ data.payload then
    throw (.invalidCertificate (.decisionNotJustified data.view))
  if data.payload.parent ≠ r.state.committed then
    throw (.invalidProposal (.decisionMismatch r.state.committed))
  ctx.verify cert

/-- The checks on a phase in sequence, in their order. -/
def checkPhase (data : Statement) : Except Error Unit := do
  let here := r.state
  if data.view ≠ here.view then throw (.viewMismatch data.view here.view)
  if here.phase.successor ≠ some data.phase then
    throw (.unexpectedPhase data.phase here.phase)
  let expected := data.phase.predecessor
  let justify := data.justify
  if some justify.phase ≠ expected ∨ justify.view ≠ data.view ∨ justify.payload ≠ data.payload then
    throw (.invalidCertificate (.phaseNotJustified data.phase expected data.view))
  if here.proposal ≠ some data.payload then throw (.invalidProposal .payloadMismatch)
  ctx.verify justify

/-- Whether a statement is a decision that the replica has no preceding phase for. -/
def outOfSequence (data : Statement) : Bool :=
  decide (data.phase = .decide ∧ ¬ (data.view = r.state.view ∧ r.state.phase = .commit))

/-- **Following the leader.** Handles what the leader says after its proposal. -/
def onPhase (msg : SignedStatement) : Outcome (Replica σ × List Action) := do
  let data := msg.body
  if ctx.leads data.view then refuse (.invalidProposal (.ownPhase data.phase data.view))
  Outcome.ofCheck (ctx.verifySigned msg)
  Outcome.ofCheck (checkLeader ctx msg)
  if r.outOfSequence data then
    Outcome.ofCheck (r.checkDecision ctx data)
    r.commit ctx data.justify
  else
    Outcome.ofCheck (r.checkPhase ctx data)
    r.applyPhase ctx data

end Replica

end HotStuff
