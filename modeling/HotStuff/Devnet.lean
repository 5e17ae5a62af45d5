import HotStuff.Engine
import HotStuff.Network

/-!
# A Committee in One Process

Engines that exchange messages over a local network, on one clock that jumps to the next due time
when no message is left to handle.

Each engine has a sender, which takes its messages one after the other and brings each of them to
those who are to get it. Where an inbox is full the sender waits for room. The engine goes on
meanwhile, and its messages wait for the sender.

## Main definitions

* `Devnet.put`: an engine is put back, and its sender works as far as it can.
* `Devnet.launch`: starts all engines.
* `Devnet.runUntil`: lets time pass until a condition holds.
-/

namespace HotStuff

/-- What a sender is at work on: a message, and who has yet to get it. -/
structure Errand where
  message : Message
  receivers : List MemberId

/-- Engines on a network and a clock. -/
structure Devnet (σ : Type) where
  engines : List (Engine σ)
  network : Network
  now : Instant := 0
  /-- What the senders that wait for room are at work on, by the positions of their engines. -/
  errands : Table Nat Errand := ∅

namespace Errand

/-- The errand that a message asks for: to one member, or to all others. -/
def ofOutgoing (sender : MemberId) (n : Network) (out : Outgoing) : Errand where
  message := out.message
  receivers :=
    match out.receiver with
    | some receiver => [receiver]
    | none => n.inboxes.keys.filter (· ≠ sender)

/-- Brings a message to one member after the other, up to the first whose inbox is full. The result
is who has yet to get it. -/
def deliver (sender : MemberId) (message : Message) :
    List MemberId → Network → List MemberId × Network
  | [], n => ([], n)
  | receiver :: rest, n =>
    match n.sendTo sender receiver message with
    | (.sent, n') => deliver sender message rest n'
    | (.blocked, n') => (receiver :: rest, n')

/-- What is left of an errand when the sender has done what it can. -/
def run (errand : Errand) (sender : MemberId) (n : Network) : Option Errand × Network :=
  match deliver sender errand.message errand.receivers n with
  | ([], n') => (none, n')
  | (receivers, n') => (some { errand with receivers }, n')

end Errand

namespace Devnet

variable {σ : Type} [StateStore σ]

/-- The sender of an engine takes one message after the other, up to the first that it has to wait
with. The list is what waits for it. -/
def forward : List Outgoing → Engine σ → Network → Option Errand × Engine σ × Network
  | [], e, n => (none, e, n)
  | out :: rest, e, n =>
    match (Errand.ofOutgoing e.ctx.me n out).run e.ctx.me n with
    | (none, n') => forward rest e.sendNext n'
    | (some errand, n') => (some errand, e.sendNext, n')

/-- The sender of an engine goes on with its errand, if it has one, and then takes what waits. -/
def resume (errand : Option Errand) (e : Engine σ) (n : Network) :
    Option Errand × Engine σ × Network :=
  match errand.map fun errand => errand.run e.ctx.me n with
  | none => forward e.outbox e n
  | some (none, n') => forward e.outbox e n'
  | some (some errand, n') => (some errand, e, n')

/-- Puts an engine back, after its sender has done what it can and its commits went to the
application. -/
def put (d : Devnet σ) (i : Nat) (e : Engine σ) : Devnet σ :=
  let (errand, e, network) := resume (d.errands.get? i) e d.network
  { d with
    network
    engines := d.engines.set i e.executeAll
    errands :=
      match errand with
      | some errand => d.errands.insert i errand
      | none => d.errands.erase i }

/-- Gives an input to every engine, in their order. -/
def each (f : Devnet σ → Nat → Engine σ → Except Overflow (Devnet σ)) (d : Devnet σ) :
    Except Overflow (Devnet σ) :=
  (List.range d.engines.length).foldlM
    (fun d i =>
      match d.engines[i]? with
      | some e => f d i e
      | none => .ok d)
    d

/-- Hands the oldest message in its inbox to the engine at `i`, and lets its sender look for room
again. -/
def receiveAt (d : Devnet σ) (i : Nat) (e : Engine σ) : Except Overflow (Devnet σ) := do
  match d.network.receive e.ctx.me with
  | (.message bytes, network) => return { d with network }.put i (← e.onBytes d.now bytes)
  | _ => return d.put i e

/-- Whether no message is on its way. -/
def isQuiet (d : Devnet σ) : Bool :=
  d.errands.isEmpty && d.network.inboxes.values.all fun inbox => inbox.queue.isEmpty

/-- Hands out messages until none is left; the number bounds the rounds of handing out. -/
def pump : Nat → Devnet σ → Except Overflow (Devnet σ)
  | 0, d => .ok d
  | rounds + 1, d => if d.isQuiet then .ok d else do pump rounds (← d.each receiveAt)

/-- More rounds of handing out than one instant needs. -/
def maxRounds : Nat := 1000000

/-- Does one thing that is due at the engine at `i`. -/
def fireAt (d : Devnet σ) (i : Nat) (e : Engine σ) : Except Overflow (Devnet σ) := do
  if e.isRunning && e.due ≤ d.now then return d.put i (← e.fire d.now) else return d

/-- The instant at which something is due next. -/
def due? (d : Devnet σ) : Option Instant :=
  ((d.engines.filter Engine.isRunning).map Engine.due).min?

/-- Starts all engines. -/
def launch (d : Devnet σ) : Outcome (Devnet σ) := do
  let started ← (List.range d.engines.length).foldlM
    (fun d i => do
      match d.engines[i]? with
      | some e => return d.put i (← e.run d.now)
      | none => return d)
    d
  Outcome.ofChecked (pump maxRounds started)

/-- Lets time pass until a condition holds, or up to a limit, if there is one. The result is
whether it came to hold; the number bounds the due times. -/
def runUntil (done : Devnet σ → Bool) (limit : Option Instant) :
    Nat → Devnet σ → Except Overflow (Bool × Devnet σ)
  | 0, d => .ok (done d, d)
  | times + 1, d =>
    if done d then .ok (true, d)
    else
      match d.due? with
      | none => .ok (false, d)
      | some next =>
        if limit.any (· < next) then .ok (false, d)
        else do
          let fired ← { d with now := max d.now next }.each fireAt
          runUntil done limit times (← pump maxRounds fired)

end Devnet

end HotStuff
