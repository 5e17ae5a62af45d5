import HotStuff.Table
import HotStuff.Wire.Message

/-!
# The Local Network

Members in one process exchange encoded messages through inboxes of limited size. A member that
joins again gets a fresh inbox. Members can be cut off: what they send, and what is sent to
them, is lost.

There is no inbox without room, nor one with room for more messages than its permits can count:
such an inbox cannot be made, and joining with one ends the process.

## Main definitions

* `Inbox.make`: an inbox of some size, if there is one.
* `Network.join`, `Network.disconnect`, `Network.reconnect`: who is there.
* `Network.sendTo`, `Network.broadcast`: what is sent.
* `Network.receive`: what arrives.
-/

namespace HotStuff

/-- Messages on their way to a member. -/
structure Inbox where
  capacity : Nat
  /-- The messages, oldest first. -/
  queue : List Bytes
  /-- Whether the member still receives. -/
  isOpen : Bool
  deriving DecidableEq, Repr

/-- Why an inbox of some size cannot be made. -/
inductive InboxFault where
  | noRoom
  /-- There are not as many permits to put a message into it. -/
  | tooLarge
  deriving DecidableEq, Repr

namespace Inbox

/-- The largest number of messages that can wait in an inbox: three bits of a word of 64 are needed
for other things than permits. -/
def maxCapacity : Nat := Nat.pow 2 61 - 1

/-- An empty inbox of some size. -/
def make (capacity : Nat) : Except InboxFault Inbox :=
  if capacity = 0 then .error .noRoom
  else if maxCapacity < capacity then .error .tooLarge
  else .ok ⟨capacity, [], true⟩

/-- **An inbox can be made** if it has room, and not too much of it. -/
theorem make_eq_ok_iff {capacity : Nat} {inbox : Inbox} :
    make capacity = .ok inbox ↔
      0 < capacity ∧ capacity ≤ maxCapacity ∧ inbox = ⟨capacity, [], true⟩ := by
  rw [make]
  split
  · next hzero => exact iff_of_false nofun fun h => Nat.ne_of_gt h.1 hzero
  split
  · next hlarge => exact iff_of_false nofun fun h => Nat.not_lt.mpr h.2.1 hlarge
  · next hzero hlarge =>
      rw [Except.ok.injEq, eq_comm]
      exact ⟨fun h => ⟨Nat.pos_of_ne_zero hzero, Nat.not_lt.mp hlarge, h⟩, fun h => h.2.2⟩

end Inbox

/-- The wording of a fault of an inbox. -/
def InboxFault.message : InboxFault → String
  | noRoom => "mpsc bounded channel requires buffer > 0"
  | tooLarge =>
    "a semaphore may not have more than MAX_PERMITS permits (" ++ toString Inbox.maxCapacity ++ ")"

/-- The inboxes of all members, and who is cut off. -/
structure Network where
  inboxes : Table MemberId Inbox
  cutOff : List MemberId

/-- What became of a message. -/
inductive Sending where
  /-- It was put into the inbox, or lost. -/
  | sent
  /-- The inbox is full; the sender would have to wait. -/
  | blocked
  deriving DecidableEq, Repr

/-- What a member finds in its inbox. -/
inductive Receipt where
  | message (bytes : Bytes)
  | empty
  | noInbox
  deriving DecidableEq, Repr

namespace Network

/-- Nobody has joined. -/
def empty : Network := ⟨∅, []⟩

instance : Inhabited Network := ⟨empty⟩

variable (n : Network)

/-- Gives a member an inbox of some size, in place of one it had. -/
def join (m : MemberId) (capacity : Nat) : Except InboxFault Network := do
  return { n with inboxes := n.inboxes.insert m (← Inbox.make capacity) }

/-- Cuts a member off. -/
def disconnect (m : MemberId) : Network :=
  if m ∈ n.cutOff then n else { n with cutOff := m :: n.cutOff }

/-- Undoes `disconnect`. -/
def reconnect (m : MemberId) : Network := { n with cutOff := n.cutOff.filter (· ≠ m) }

/-- Whether a member is cut off. -/
def isDisconnected (m : MemberId) : Bool := decide (m ∈ n.cutOff)

/-- The inbox that a message between two members reaches. -/
def route? (sender receiver : MemberId) : Option Inbox :=
  if n.isDisconnected sender || n.isDisconnected receiver then none
  else (n.inboxes.get? receiver).filter Inbox.isOpen

/-- Puts bytes into the inbox of a member, if they can reach it and there is room. -/
def deliver (sender receiver : MemberId) (bytes : Bytes) : Sending × Network :=
  match n.route? sender receiver with
  | none => (.sent, n)
  | some inbox =>
    if inbox.queue.length < inbox.capacity then
      (.sent, { n with
        inboxes := n.inboxes.insert receiver { inbox with queue := inbox.queue ++ [bytes] } })
    else (.blocked, n)

/-- Sends a message to one member. -/
def sendTo (sender receiver : MemberId) (message : Message) : Sending × Network :=
  n.deliver sender receiver message.encode

/-- Puts bytes into one inbox after the other, up to the first that is full. -/
def deliverAll (sender : MemberId) (bytes : Bytes) : List MemberId → Network → Sending × Network
  | [], n => (.sent, n)
  | receiver :: rest, n =>
    match n.deliver sender receiver bytes with
    | (.sent, n') => deliverAll sender bytes rest n'
    | (.blocked, n') => (.blocked, n')

/-- Sends a message to every other member. -/
def broadcast (sender : MemberId) (message : Message) : Sending × Network :=
  deliverAll sender message.encode (n.inboxes.keys.filter (· ≠ sender)) n

/-- Takes the oldest message out of the inbox of a member. -/
def receive (m : MemberId) : Receipt × Network :=
  match (n.inboxes.get? m).filter Inbox.isOpen with
  | none => (.noInbox, n)
  | some inbox =>
    match inbox.queue with
    | [] => (.empty, n)
    | bytes :: rest =>
      (.message bytes, { n with inboxes := n.inboxes.insert m { inbox with queue := rest } })

/-- Ends receiving for a member. The result is whether it received before. -/
def close (m : MemberId) : Bool × Network :=
  match (n.inboxes.get? m).filter Inbox.isOpen with
  | none => (false, n)
  | some inbox =>
    (true, { n with inboxes := n.inboxes.insert m { inbox with queue := [], isOpen := false } })

end Network

end HotStuff
