import HotStuff.Config

/-!
# Actions and Events

Nothing in the protocol performs input or output. What has to happen outside, a member returns as a
list of actions, to be carried out in their order.
-/

namespace HotStuff

/-- The number of payloads committed so far. -/
abbrev Height := UInt64

/-- The number after `n`, where 64 bits hold it. -/
def Height.next? (n : Height) : Option Height :=
  if n = 0xFFFFFFFFFFFFFFFF then none else some (n + 1)

/-- The height after another one is the next number: it is counted on without wrapping around. -/
theorem Height.toNat_of_next? {n next : Height} (h : Height.next? n = some next) :
    next.toNat = n.toNat + 1 :=
  View.toNat_of_next? h

/-- Progress that others may want to know of. -/
inductive Event where
  /-- The local leader formed a certificate. -/
  | certified (view : View) (phase : Phase)
  | committed (view : View) (height : Height) (digest : Digest)
  | viewChanged (view : View) (leader : MemberId)
  | timedOut (view : View)
  deriving DecidableEq, Repr

/-- Something to be done on behalf of a member. -/
inductive Action where
  /-- Send a message to one member. -/
  | send (receiver : MemberId) (message : Message)
  /-- Send a message to every other member. -/
  | broadcast (message : Message)
  /-- Hand a committed payload to the application. -/
  | execute (view : View) (height : Height) (payload : Payload)
  /-- Put the deadline of the view `timeout` from now. -/
  | resetTimer (timeout : Millis)
  /-- Announce progress. -/
  | notify (event : Event)
  deriving DecidableEq, Repr

end HotStuff
