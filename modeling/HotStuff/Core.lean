import HotStuff.Leader
import HotStuff.Liveness
import HotStuff.Metrics

/-!
# The Core of a Member

A `Core` joins the replica with the leader's collector. What a member sends to itself, its own votes
and announcements while it leads, is delivered on the spot; the actions that are left go out. A
refused message has no effect but on the count of messages dropped.

## Main definitions

* `Core.create`: a core over a store.
* `Core.start`, `Core.handle`, `Core.onTimeout`, `Core.propose`: its inputs.
* `Core.settle`: delivery to itself.
-/

namespace HotStuff

/-- How far a member has come. -/
structure Status where
  view : View
  phase : Phase
  height : Height
  committed : Digest
  leader : MemberId
  isLeader : Bool
  /-- The view of the lock. -/
  lockedView : Option View
  deriving DecidableEq, Repr

/-- The progress that a state shows. -/
def Status.of (ctx : Context) (state : ReplicaState) : Status where
  view := state.view
  phase := state.phase
  height := state.height
  committed := state.committed
  leader := ctx.leader state.view
  isLeader := ctx.leads state.view
  lockedView := state.locked.map Certificate.view

/-- A member: its replica, what it collects as a leader, and what it shows. -/
structure Core (σ : Type) where
  replica : Replica σ
  votes : Collector
  liveness : Liveness
  status : Status
  metrics : Metrics

namespace Core

variable {σ : Type} [StateStore σ] (ctx : Context)

/-- A core over a store. -/
def create (store : σ) : Except Error (Core σ) := do
  let replica ← Replica.create ctx store
  return {
    replica, votes := .empty, liveness := .empty
    status := Status.of ctx replica.state
    metrics := Metrics.start replica.state.view replica.state.height }

variable (core : Core σ)

/-- The slot that the local member may propose in now. -/
def slot? : Option Slot := Leader.slot? ctx core.votes core.replica.state

/-! ### Messages -/

/-- A member enters a view. A quorum that entered a later view takes the replica there. -/
def onNewView (msg : SignedStatement) : Except Error (Core σ × List Action) := do
  let here := core.replica.state.view
  let (entry, votes) ← Leader.onNewView ctx core.votes here msg
  let recorded := { core with votes }
  if entry.quorumReached && here < entry.view then
    let (replica, actions) := core.replica.enterView ctx entry.view
    return ({ recorded with replica }, actions)
  else return (recorded, [])

/-- Counts a vote. A certificate it completes is announced, and the replica follows it at once; one
that cannot follow stays as it is. -/
def onVote (vote : Vote) : Except Overflow (Except Error (List Action) × Core σ) :=
  let (said, votes) := Leader.onVote ctx core.votes core.replica.state.view vote
  let counted := { core with votes }
  match said with
  | .error cause => .ok (.error cause, counted)
  | .ok none => .ok (.ok [], counted)
  | .ok (some next) =>
    let justify := next.body.justify
    let announced : List Action :=
      [.notify (.certified justify.view justify.phase), .broadcast (.ofStatement next)]
    match core.replica.applyPhase ctx next.body with
    | .ok (replica, actions) => .ok (.ok (announced ++ actions), { counted with replica })
    | .error (.refused _) => .ok (.ok announced, counted)
    | .error (.overflow o) => .error o

/-- The envelope has to name the phase of the statement in it. -/
def checkEnvelope (envelope : Phase) (signed : SignedStatement) : Except Error Unit :=
  if signed.body.phase = envelope then .ok ()
  else .error (.invalidProposal (.envelopeMismatch envelope signed.body.phase))

/-- A replica's answer as one of the core. -/
def answer (core : Core σ) :
    Outcome (Replica σ × List Action) → Except Overflow (Except Error (List Action) × Core σ)
  | .ok (replica, actions) => .ok (.ok actions, { core with replica })
  | .error (.refused cause) => .ok (.error cause, core)
  | .error (.overflow o) => .error o

/-- Hands a message to the handler of its kind. -/
def consider : Message → Except Overflow (Except Error (List Action) × Core σ)
  | .vote vote => core.onVote ctx vote
  | .statement envelope signed =>
    match checkEnvelope envelope signed with
    | .error cause => .ok (.error cause, core)
    | .ok () =>
      match envelope with
      | .newView =>
        match core.onNewView ctx signed with
        | .ok (core', actions) => .ok (.ok actions, core')
        | .error cause => .ok (.error cause, core)
      | .prepare => core.answer (Outcome.ofCheck (core.replica.onPrepare ctx signed))
      | .preCommit | .commit | .decide => core.answer (core.replica.onPhase ctx signed)

/-- **One message.** An accepted message shows that its signer is alive; a refused one is counted as
dropped. -/
def dispatch (now : Instant) (message : Message) : Except Overflow (Core σ × List Action) := do
  match ← core.consider ctx message with
  | (.ok actions, core') =>
    let liveness := core'.liveness.record ctx.committee now message.signer
    return ({ core' with liveness }, actions)
  | (.error _, core') =>
    return ({ core' with metrics := core'.metrics.messageDropped message.kind }, [])

/-! ### Delivery to itself -/

/-- The actions before the first message to `me`, and that message with the actions after it. -/
def splitAtSelf (me : MemberId) : List Action → List Action × Option (Message × List Action)
  | [] => ([], none)
  | .send receiver message :: rest =>
    if receiver = me then ([], some (message, rest))
    else
      let (before, found) := splitAtSelf me rest
      (.send receiver message :: before, found)
  | action :: rest =>
    let (before, found) := splitAtSelf me rest
    (action :: before, found)

/-- **Delivery to itself.** Takes the actions from the front; a message to the local
member is handled in place, and what comes of it joins the queue at its end. The number
bounds the deliveries. -/
def settle (now : Instant) : Nat → Core σ → List Action → Except Overflow (Core σ × List Action)
  | 0, core, queue => .ok (core, queue)
  | deliveries + 1, core, queue =>
    match splitAtSelf ctx.me queue with
    | (out, none) => .ok (core, out)
    | (out, some (message, rest)) => do
      let (core', said) ← core.dispatch ctx now message
      let (settled, later) ← settle now deliveries core' (rest ++ said)
      return (settled, out ++ later)

/-- More deliveries to itself than one input can bring about: three votes and the announcement of
the next view. -/
def maxDeliveries : Nat := 64

/-- Settles the actions of an input, forgets the views that are over, and counts what goes out. -/
def route (now : Instant) (actions : List Action) : Except Overflow (Core σ × List Action) := do
  let (settled, out) ← settle ctx now maxDeliveries core actions
  let state := settled.replica.state
  return ({ settled with
    votes := settled.votes.pruneBelow state.view
    status := Status.of ctx state
    metrics := settled.metrics.observe out }, out)

/-! ### Inputs -/

/-- Announces the current view to its leader. -/
def start (now : Instant) : Except Overflow (Core σ × List Action) :=
  core.route ctx now (core.replica.startRound ctx)

/-- Handles a message from outside. -/
def handle (now : Instant) (message : Message) : Except Overflow (Core σ × List Action) := do
  let (core', actions) ← core.dispatch ctx now message
  core'.route ctx now actions

/-- Gives up the current view. -/
def onTimeout (now : Instant) : Except Overflow (Core σ × List Action) :=
  let (replica, actions) := core.replica.onTimeout ctx
  route ctx { core with replica } now actions

/-- **The proposal for a slot.** What the member says in a slot and what it is afterwards: it votes
for its own proposal, if it can. A slot of another view than the one to propose in went stale;
nothing comes of it, nor of one whose ballot is taken. -/
def offer (slot : Slot) (data : Bytes) : Option (Core σ × List Action) :=
  if (core.slot? ctx).map Slot.view ≠ some slot.view then none
  else
    match Leader.propose ctx core.votes slot core.replica.state.committed data with
    | .error _ => none
    | .ok (prepare, votes) =>
      let announced : Action := .broadcast (.statement .prepare prepare)
      match core.replica.onPrepare ctx prepare with
      | .ok (replica, actions) => some ({ core with votes, replica }, announced :: actions)
      | .error _ => some ({ core with votes }, [announced])

/-- **Proposing.** Proposes in a slot, if that is still the one to propose in. -/
def propose (now : Instant) (slot : Slot) (data : Bytes) :
    Except Overflow (Core σ × List Action) :=
  match core.offer ctx slot data with
  | none => .ok (core, [])
  | some (core', actions) => core'.route ctx now actions

end Core

end HotStuff
