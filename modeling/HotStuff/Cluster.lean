import HotStuff.Core

/-!
# A Cluster

All members of a committee, one queue for the messages between them, and the things that can happen
to both: messages are delivered in any order, repeated or lost, members time out, crash and come
back. Time stands still. Every command is a total function on clusters that also returns what it
logged.

## Main definitions

* `Cluster.make`: fresh members, each with a store in memory.
* `Cluster.step`: one command.
* `Cluster.drain`: delivery in the order of the queue until it is empty.
-/

namespace HotStuff

/-- A member of a cluster. -/
structure ClusterNode where
  ctx : Context
  core : Core MemoryStore
  /-- A member that is down takes part in nothing. -/
  isUp : Bool := true
  /-- The data of the payloads committed, oldest first. -/
  executed : List Bytes := []

/-- A message on its way to the member with a given index. -/
structure Delivery where
  receiver : Nat
  message : Message

/-- What a command logs. Members appear by their indices. -/
inductive LogEntry where
  | sent (sender receiver : Nat) (message : Message) (lost : Bool)
  | executed (node : Nat) (view : View) (height : Height) (data : Bytes)
  | timer (node : Nat)
  | event (node : Nat) (event : Event)
  /-- A message reached a member that is down. -/
  | down (node : Nat)
  /-- A member proposes. -/
  | slot (node : Nat) (view : View) (fresh : Bool)

/-- The members and the messages between them. -/
structure Cluster where
  nodes : List ClusterNode
  queue : List Delivery := []
  /-- The kinds of messages that are lost when they are sent. -/
  losing : List String := []

/-- What can be done to a cluster. Positions in the queue count modulo its length, members modulo
their number. -/
inductive Command where
  /-- Every member that is up announces its view. -/
  | start
  /-- Hands one message to its receiver. -/
  | deliver (i : Nat)
  /-- Delivers from the front of the queue until it is empty. -/
  | deliverAll
  /-- Delivers from the end of the queue until it is empty. -/
  | deliverNewest
  /-- Appends a copy of a message. -/
  | duplicate (i : Nat)
  | drop (i : Nat)
  /-- Every member that is up and has a slot proposes the text made of a tag and the view. -/
  | tick (tag : String)
  | timeout (node : Nat)
  | timeoutAll
  | crash (node : Nat)
  | recover (node : Nat)
  /-- A new core on the same store, which announces its view. -/
  | restart (node : Nat)
  /-- From now on messages of these kinds are lost. -/
  | lose (kinds : List String)
  /-- Appends a message from outside. -/
  | inject (node : Nat) (message : Message)

namespace Cluster

/-- A committee's members with their secrets, all fresh. -/
def make (config : Config) (secrets : List Secret) : Outcome Cluster := do
  let nodes ← secrets.mapM fun secret => do
    let ctx ← Context.make config secret
    let core ← Outcome.ofCheck (Core.create ctx ({} : MemoryStore))
    return { ctx, core : ClusterNode }
  return { nodes }

variable (c : Cluster)

/-! ### Actions -/

/-- The index of a member. -/
def indexOf? (m : MemberId) : Option Nat := c.nodes.findIdx? fun n => n.ctx.me == m

/-- Puts a message into the queue, unless its kind is being lost. -/
def send (sender receiver : Nat) (message : Message) : Cluster × List LogEntry :=
  let lost := c.losing.contains message.kind
  (if lost then c else { c with queue := c.queue ++ [⟨receiver, message⟩] },
    [.sent sender receiver message lost])

/-- Does one thing after the other and joins what they log. -/
def sequence {α : Type} (f : Cluster → α → Cluster × List LogEntry) (c : Cluster) (xs : List α) :
    Cluster × List LogEntry :=
  xs.foldl
    (fun (c, log) x =>
      let (c', more) := f c x
      (c', log ++ more))
    (c, [])

/-- Carries out an action of the member at `i`. -/
def carryOut (i : Nat) (c : Cluster) : Action → Cluster × List LogEntry
  | .send receiver message =>
    match c.indexOf? receiver with
    | some receiver => c.send i receiver message
    | none => (c, [])
  | .broadcast message =>
    sequence (fun c receiver => c.send i receiver message) c
      ((List.range c.nodes.length).filter (· ≠ i))
  | .execute view height payload =>
    ({ c with
        nodes := c.nodes.modify i fun n => { n with executed := n.executed ++ [payload.data] } },
      [.executed i view height payload.data])
  | .resetTimer _ => (c, [.timer i])
  | .notify event => (c, [.event i event])

/-- Gives an input to the core of the member at `i` and carries out what it answers. -/
def input (i : Nat) (f : ClusterNode → Except Overflow (Core MemoryStore × List Action)) :
    Except Overflow (Cluster × List LogEntry) := do
  match c.nodes[i]? with
  | none => return (c, [])
  | some node =>
    let (core, actions) ← f node
    return sequence (carryOut i) { c with nodes := c.nodes.set i { node with core } } actions

/-- Gives an input to every member that is up, in their order. -/
def inputAll (f : Cluster → Nat → Except Overflow (Cluster × List LogEntry)) :
    Except Overflow (Cluster × List LogEntry) :=
  (List.range c.nodes.length).foldlM
    (fun (c, log) i => do
      if (c.nodes[i]?).any ClusterNode.isUp then
        let (c', more) ← f c i
        return (c', log ++ more)
      else return (c, log))
    (c, [])

/-! ### Commands -/

/-- Announces the view of the member at `i`. -/
def startAt (i : Nat) : Except Overflow (Cluster × List LogEntry) :=
  c.input i fun node => node.core.start node.ctx 0

/-- Gives up the view of the member at `i`. -/
def timeoutAt (i : Nat) : Except Overflow (Cluster × List LogEntry) :=
  c.input i fun node => node.core.onTimeout node.ctx 0

/-- Lets the member at `i` propose, if it has a slot; the data depends on the view. -/
def proposeWith (data : View → Bytes) (i : Nat) : Except Overflow (Cluster × List LogEntry) := do
  match c.nodes[i]? with
  | none => return (c, [])
  | some node =>
    match node.core.slot? node.ctx with
    | none => return (c, [])
    | some slot =>
      let (c', log) ← c.input i fun node => node.core.propose node.ctx 0 slot (data slot.view)
      return (c', .slot i slot.view slot.needsPayload :: log)

/-- Lets the member at `i` propose, if it has a slot, the text made of a tag and the view. -/
def proposeAt (tag : String) (i : Nat) : Except Overflow (Cluster × List LogEntry) :=
  c.proposeWith (fun view => utf8 (tag ++ toString view)) i

/-- Hands a message to its receiver. -/
def receive (d : Delivery) : Except Overflow (Cluster × List LogEntry) :=
  match c.nodes[d.receiver]? with
  | none => .ok (c, [])
  | some node =>
    if node.isUp then c.input d.receiver fun node => node.core.handle node.ctx 0 d.message
    else .ok (c, [.down d.receiver])

/-- Takes the message at a position out of the queue and hands it to its receiver. -/
def deliver (i : Nat) : Except Overflow (Cluster × List LogEntry) :=
  let at_ := i % c.queue.length
  match c.queue[at_]? with
  | none => .ok (c, [])
  | some d => receive { c with queue := c.queue.eraseIdx at_ } d

/-- **Draining the queue.** Delivers the message at the position that `pick` takes from the length
of the queue, until the queue is empty; the number bounds the deliveries. -/
def drain (pick : Nat → Nat) : Nat → Cluster → Except Overflow (Cluster × List LogEntry)
  | 0, c => .ok (c, [])
  | deliveries + 1, c =>
    if c.queue.isEmpty then .ok (c, [])
    else do
      let (c', log) ← c.deliver (pick c.queue.length)
      let (c'', more) ← drain pick deliveries c'
      return (c'', log ++ more)

/-- How many messages are delivered before draining gives up. -/
def maxDeliveries : Nat := 1000000

/-- The core of the member at `i` is made anew on its store, and announces its view. -/
def restartAt (i : Nat) : Outcome (Cluster × List LogEntry) := do
  match c.nodes[i]? with
  | none => return (c, [])
  | some node =>
    let core ← Outcome.ofCheck (Core.create node.ctx node.core.replica.store)
    let renewed := { c with nodes := c.nodes.set i { node with core } }
    Outcome.ofChecked (renewed.startAt i)

/-- Marks the member at `i` as up or down. -/
def setUp (i : Nat) (isUp : Bool) : Cluster :=
  { c with nodes := c.nodes.modify i fun n => { n with isUp } }

/-- **One command.** -/
def step : Command → Outcome (Cluster × List LogEntry)
  | .start => Outcome.ofChecked (c.inputAll startAt)
  | .deliver i => Outcome.ofChecked (c.deliver i)
  | .deliverAll => Outcome.ofChecked (drain (fun _ => 0) maxDeliveries c)
  | .deliverNewest => Outcome.ofChecked (drain (fun n => n - 1) maxDeliveries c)
  | .duplicate i =>
    .ok ({ c with queue := c.queue ++ (c.queue[i % c.queue.length]?).toList }, [])
  | .drop i => .ok ({ c with queue := c.queue.eraseIdx (i % c.queue.length) }, [])
  | .tick tag => Outcome.ofChecked (c.inputAll fun c i => c.proposeAt tag i)
  | .timeout i =>
    let node := i % c.nodes.length
    if (c.nodes[node]?).any ClusterNode.isUp then Outcome.ofChecked (c.timeoutAt node)
    else .ok (c, [])
  | .timeoutAll => Outcome.ofChecked (c.inputAll timeoutAt)
  | .crash i => .ok (c.setUp (i % c.nodes.length) false, [])
  | .recover i => .ok (c.setUp (i % c.nodes.length) true, [])
  | .restart i => c.restartAt (i % c.nodes.length)
  | .lose kinds => .ok ({ c with losing := kinds }, [])
  | .inject i message =>
    .ok ({ c with queue := c.queue ++ [⟨i % c.nodes.length, message⟩] }, [])

end Cluster

end HotStuff
