import HotStuff.Devnet
import HotStuff.Node.Config
import HotStuff.Store.File

/-!
# Hosting Members

A node starts an engine for each of its hosted members, all of them on one local network, and lets
time pass until the first of them has come far enough. Each member keeps its state in a file of its
own, or in memory if the node has no directory for saved states.

A member joins the network before its engine is created, and it does not join with an inbox that
cannot be made: there the start ends, with the first member.

## Main definitions

* `Node.host`, `Node.hostAll`: the members join, and their engines are created.
* `Node.start`: the node of a configuration.
* `Node.runUntilHeight`: lets time pass until enough is committed.
* `Node.stop`: stops all engines.
-/

namespace HotStuff

/-- Where the state of a hosted member is saved. -/
inductive NodeStore where
  | file (store : FileStore)
  | memory (store : MemoryStore)

namespace NodeStore

/-- The store of a member. -/
def ofConfig (config : NodeConfig) (disk : Disk) (m : MemberId) : NodeStore :=
  match config.statePath? m with
  | some path => .file ⟨path, disk⟩
  | none => .memory {}

instance : StateStore NodeStore where
  load
    | .file store => StateStore.load store
    | .memory store => StateStore.load store
  save
    | .file store, state =>
      let (result, store) := StateStore.save store state
      (result, .file store)
    | .memory store, state =>
      let (result, store) := StateStore.save store state
      (result, .memory store)

/-- What a store leaves on a disk: its files as they are in the store. -/
def settle (disk : Disk) : NodeStore → Disk
  | .memory _ => disk
  | .file store =>
    [store.path, store.scratch].foldl
      (fun d path =>
        match store.disk.entries.get? path with
        | some entry => ⟨d.entries.insert path entry⟩
        | none => d.remove path)
      disk

end NodeStore

/-- The engines of the hosted members on their network, and the disk as it was at the start. -/
structure Node where
  net : Devnet NodeStore
  disk : Disk

namespace Node

/-- What a member proposes in a view: the name of the network and the number of the view. -/
def payload (network : String) (view : View) : Bytes :=
  utf8 (network ++ "/view-" ++ toString view)

/-- The engine of a hosted member. -/
def engine (config : NodeConfig) (disk : Disk) (secret : Secret) :
    Except NodeFault (Engine NodeStore) :=
  let m := config.member secret
  match Engine.create config.consensus secret (NodeStore.ofConfig config disk m)
      (payload config.network) 0 with
  | .ok e => .ok e
  | .error failure => .error (.noEngine m failure)

/-- Makes the directory for saved states. -/
def prepare (config : NodeConfig) (disk : Disk) : Except NodeFault Disk :=
  match config.dataDir with
  | none => .ok disk
  | some directory =>
    match disk.createDirectories directory with
    | .ok disk => .ok disk
    | .error _ => .error (.noDirectory directory)

/-- Lets a hosted member join the network, and creates its engine. -/
def host (config : NodeConfig) (disk : Disk) (n : Network) (secret : Secret) :
    Except NodeFault (Network × Engine NodeStore) :=
  match n.join (config.member secret) config.mailboxSize.toNat with
  | .ok n => do return (n, ← engine config disk secret)
  | .error fault => .error (.noInbox fault)

/-- Hosts one member after the other. -/
def hostAll (config : NodeConfig) (disk : Disk) :
    List Secret → Network → Except NodeFault (Network × List (Engine NodeStore))
  | [], n => .ok (n, [])
  | secret :: rest, n => do
    let (n, e) ← host config disk n secret
    let (n, es) ← hostAll config disk rest n
    return (n, e :: es)

/-- **Starting.** The node of a configuration, which need not have been validated. -/
def start (config : NodeConfig) (disk : Disk) : Except NodeFault Node := do
  let disk ← prepare config disk
  let secrets ← config.secrets
  let (network, engines) ← hostAll config disk secrets .empty
  if engines.isEmpty then throw .noMembers
  let net ← NodeConfig.ofConsensus (Devnet.launch { engines, network })
  return { net, disk }

/-- Whether an event is a commit at a height or above. -/
def reaches (target : Height) : Event → Bool
  | .committed _ height _ => target ≤ height
  | _ => false

/-- **Running.** Lets time pass until the first hosted member commits at a height or above, or up
to a limit, if there is one. The result is whether it did; the number bounds the due times. -/
def runUntilHeight (node : Node) (target : Option Height) (limit : Option Instant) (times : Nat) :
    Except Overflow (Bool × Node) := do
  let done (d : Devnet NodeStore) : Bool :=
    match target with
    | some height => d.engines.head?.any fun e => e.events.any (reaches height)
    | none => false
  let (reached, net) ← Devnet.runUntil done limit times node.net
  return (reached, { node with net })

/-- Stops all engines once their commits are taken, and with them the senders that wait for room. -/
def stop (node : Node) : Node :=
  { node with
    net := { node.net with
      engines := node.net.engines.map fun e => e.stop.executeAll
      errands := ∅ } }

/-- How far the hosted members have come, in the order of their keys. -/
def statuses (node : Node) : List Status := node.net.engines.map fun e => e.core.status

/-- The disk with what the members have saved. -/
def savedDisk (node : Node) : Disk :=
  node.net.engines.foldl (fun d e => e.core.replica.store.settle d) node.disk

end Node

end HotStuff
