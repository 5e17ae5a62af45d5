import HotStuff.Committee
import HotStuff.Table

/-!
# Liveness of Members

When each member was last heard from. The local member always counts as online, another one if it
was heard from within a window that ends now.
-/

namespace HotStuff

/-- A time in milliseconds since the clock started. -/
abbrev Instant := Nat

/-- When each member was last heard from. -/
structure Liveness where
  lastHeard : Table MemberId Instant

namespace Liveness

/-- Nobody has been heard from. -/
def empty : Liveness := ⟨∅⟩

instance : Inhabited Liveness := ⟨empty⟩

variable (l : Liveness) (committee : Committee)

/-- Notes that a member was heard from; others are ignored. -/
def record (now : Instant) (m : MemberId) : Liveness :=
  if m ∈ committee.members then ⟨l.lastHeard.insert m now⟩ else l

/-- Whether a member counts as online. -/
def isOnline (me : MemberId) (now window : Instant) (m : MemberId) : Bool :=
  m == me || ((l.lastHeard.get? m).any fun at_ => decide (now - at_ ≤ window))

/-- The members online, in rotation order. -/
def online (me : MemberId) (now window : Instant) : List MemberId :=
  committee.members.filter (l.isOnline me now window)

/-- The members not online, in rotation order. -/
def offline (me : MemberId) (now window : Instant) : List MemberId :=
  committee.members.filter fun m => !l.isOnline me now window m

end Liveness

end HotStuff
