import HotStuff.Core
import HotStuff.Pacemaker
import HotStuff.Wire.Message

/-!
# The Engine

An engine drives a core: it hands it the bytes that arrive, lets its view time out, looks at a
steady pace whether there is something to propose, counts who is online, and carries out the
actions. What it sends waits for the transport, with room for so many messages and no more: a
message that finds no room is dropped. What it commits waits for the application, however much it
is, and the application takes it at its own pace and in order. After the engine was stopped it is
done once the application has everything.

An engine listens for the request to stop as long as it runs. One that was made before is not heard.

The clock is an argument of every input, so that a run on a clock that jumps from one due time to
the next is a function as well.

## Main definitions

* `Engine.create`, `Engine.run`: an engine, and its start.
* `Engine.onBytes`, `Engine.onTimeout`, `Engine.onTick`, `Engine.onCheck`, `Engine.stop`:
  its inputs.
* `Engine.enqueue`: a message comes to wait for the transport, or is dropped.
* `Engine.sendNext`, `Engine.executeNext`: the transport takes a message, and the application a
  commit.
* `Engine.advance`: all that is due up to an instant.
-/

namespace HotStuff

/-- A message for the transport: to one member, or to all others. -/
structure Outgoing where
  receiver : Option MemberId
  message : Message
  deriving DecidableEq, Repr

/-- How far the run of an engine has come. -/
inductive Stage where
  | ready
  | running
  /-- The loop is over; commits may still wait for the application. -/
  | stopping
  | ended
  deriving DecidableEq, Repr

/-- A core with its timers and outlets. -/
structure Engine (σ : Type) where
  ctx : Context
  config : Config
  core : Core σ
  /-- The data to propose in a view. -/
  payloads : View → Bytes
  pacemaker : Pacemaker
  stage : Stage := .ready
  /-- When to look for a slot again. -/
  proposalDue : Instant := 0
  /-- When to count the members online again. -/
  checkDue : Instant := 0
  /-- Messages that wait for the transport, oldest first. -/
  outbox : List Outgoing := []
  /-- Messages that the transport has taken, oldest first. -/
  sent : List Outgoing := []
  /-- Committed data that waits for the application, oldest first. -/
  commits : List Bytes := []
  /-- Committed data that the application has taken, oldest first. -/
  executed : List Bytes := []
  /-- What was announced so far. -/
  events : List Event := []

namespace Engine

variable {σ : Type} [StateStore σ]

/-- An engine over a store. -/
def create (config : Config) (secret : Secret) (store : σ) (payloads : View → Bytes)
    (now : Instant) : Outcome (Engine σ) := do
  let ctx ← Context.make config secret
  let core ← Outcome.ofCheck (Core.create ctx store)
  return { ctx, config, core, payloads, pacemaker := .start now config.timeout }

variable (e : Engine σ) (now : Instant)

/-- How many messages may wait for the transport. -/
def outboxCapacity : Nat := 1024

/-- The messages that wait after one more was handed out. It is dropped if there is no room. -/
def enqueue (waiting : List Outgoing) (out : Outgoing) : List Outgoing :=
  if waiting.length < outboxCapacity then waiting ++ [out] else waiting

/-- Carries out an action. -/
def carryOut (e : Engine σ) : Action → Engine σ
  | .send receiver message => { e with outbox := enqueue e.outbox ⟨some receiver, message⟩ }
  | .broadcast message => { e with outbox := enqueue e.outbox ⟨none, message⟩ }
  | .execute _ _ payload => { e with commits := e.commits ++ [payload.data] }
  | .resetTimer timeout => { e with pacemaker := e.pacemaker.reset now timeout }
  | .notify event => { e with events := e.events ++ [event] }

/-- Takes over what the core answered. -/
def settle (answer : Core σ × List Action) : Engine σ :=
  answer.2.foldl (carryOut now) { e with core := answer.1 }

/-- Starts the run. An engine runs once. -/
def run : Outcome (Engine σ) := do
  match e.stage with
  | .ready =>
    let answer ← Outcome.ofChecked (e.core.start e.ctx now)
    let started := { e with
      stage := .running, proposalDue := now, checkDue := now + e.config.onlineCheck.toNat }
    return started.settle now answer
  | .running | .stopping | .ended => refuse .alreadyRunning

/-- Bytes arrived. -/
def onBytes (bytes : Bytes) : Except Overflow (Engine σ) := do
  match Message.decode? bytes with
  | none =>
    return { e with core := { e.core with metrics := e.core.metrics.messageDropped "Undecodable" } }
  | some message =>
    let counted := { e.core with metrics := e.core.metrics.messageReceived message.kind }
    return e.settle now (← counted.handle e.ctx now message)

/-- The deadline of the view passed. -/
def onTimeout : Except Overflow (Engine σ) := do
  return e.settle now (← e.core.onTimeout e.ctx now)

/-- It is time to look for a slot. -/
def onTick : Except Overflow (Engine σ) := do
  let ticked := { e with proposalDue := now + e.config.interval.toNat }
  match e.core.slot? e.ctx with
  | none => return ticked
  | some slot =>
    let data := if slot.needsPayload then e.payloads slot.view else []
    return ticked.settle now (← e.core.propose e.ctx now slot data)

/-- The members that count as online. -/
def online : List MemberId :=
  e.core.liveness.online e.ctx.committee e.ctx.me now e.config.onlineCheck.toNat

/-- It is time to count the members online. -/
def onCheck : Engine σ :=
  let n := Int64.ofNat (e.online now).length
  { e with
    checkDue := e.checkDue + e.config.onlineCheck.toNat
    core := { e.core with metrics := e.core.metrics.setOnline n } }

/-- Ends the loop, because the engine is stopped or nothing can arrive any more. What waits for the
transport is dropped. An engine that does not run does not listen. -/
def stop : Engine σ :=
  match e.stage with
  | .running => { e with stage := .stopping, outbox := [] }
  | .ready | .stopping | .ended => e

/-- The transport takes the oldest message. -/
def sendNext : Engine σ :=
  match e.outbox with
  | [] => e
  | out :: rest => { e with outbox := rest, sent := e.sent ++ [out] }

/-- A transport that takes messages at once takes them all. -/
def sendAll : Engine σ := { e with outbox := [], sent := e.sent ++ e.outbox }

/-- The application takes the oldest commit. -/
def executeNext : Engine σ :=
  match e.commits with
  | [] => e
  | data :: rest => { e with commits := rest, executed := e.executed ++ [data] }

/-- The run is over once the loop is and no commit waits. -/
def finish : Engine σ :=
  if e.stage = .stopping ∧ e.commits = [] then { e with stage := .ended } else e

/-- An application that takes commits at once takes them all. -/
def executeAll : Engine σ :=
  { e with commits := [], executed := e.executed ++ e.commits }.finish

/-- Whether the loop goes on. -/
def isRunning : Bool := e.stage = .running

/-! ### On a clock that jumps -/

/-- The instant at which something is due next. -/
def due : Instant := min e.pacemaker.deadline (min e.proposalDue e.checkDue)

/-- Does one thing that is due: the timeout first, then a tick, then a check. -/
def fire : Except Overflow (Engine σ) :=
  if e.pacemaker.deadline ≤ now then e.onTimeout now
  else if e.proposalDue ≤ now then e.onTick now
  else .ok (e.onCheck now)

/-- Does all that is due up to an instant, each thing at its time; the number bounds the things.
Transport and application take what comes of it at once. -/
def advanceUpTo (limit : Instant) : Nat → Engine σ → Except Overflow (Engine σ)
  | 0, e => .ok e
  | things + 1, e =>
    if e.isRunning && e.due ≤ limit then do
      let fired ← e.fire e.due
      advanceUpTo limit things fired.sendAll.executeAll
    else .ok e

/-- **Letting time pass.** Does all that is due up to an instant. In a millisecond no more than
three things come due. -/
def advance (limit : Instant) : Except Overflow (Engine σ) :=
  e.advanceUpTo limit (3 * (limit - now + 1))

end Engine

end HotStuff
