import HotStuff.Config
import HotStuff.Liveness

/-!
# The Pacemaker

One deadline per member; progress pushes it out. A wait for it sleeps until the deadline it has
read, and is woken early by a reset, after which it reads the deadline again. A reset that no wait
has noticed is remembered, once.

## Main definitions

* `Pacemaker.reset`: a new deadline.
* `Pacemaker.poll`: what a wait finds when it looks.
* `Pacemaker.wait`: a wait of limited length.
-/

namespace HotStuff

/-- A deadline that can be moved. -/
structure Pacemaker where
  deadline : Instant
  /-- Whether there was a reset that no wait has noticed. -/
  changed : Bool
  deriving DecidableEq, Repr

/-- What a wait finds. -/
inductive Poll where
  | expired
  /-- Nothing to do before an instant, unless there is a reset. -/
  | sleeping (until_ : Instant)
  deriving DecidableEq, Repr

namespace Pacemaker

/-- A deadline some time from now. -/
def start (now : Instant) (timeout : Millis) : Pacemaker := ⟨now + timeout.toNat, false⟩

variable (p : Pacemaker)

/-- Moves the deadline to some time from now. -/
def reset (_ : Pacemaker) (now : Instant) (timeout : Millis) : Pacemaker :=
  ⟨now + timeout.toNat, true⟩

/-- Reads the deadline. A wait that goes to sleep has noticed the resets so far. -/
def poll (now : Instant) : Poll × Pacemaker :=
  if p.deadline ≤ now then (.expired, p) else (.sleeping p.deadline, { p with changed := false })

/-- When a wait that sleeps until an instant looks again. -/
def wakesAt (now until_ : Instant) : Instant := if p.changed then now else until_

/-- Waits for the deadline, for some time at most and without a reset in between. The result is
whether it passed, and when the wait was over. -/
def wait (now : Instant) (limit : Nat) : (Bool × Instant) × Pacemaker :=
  match p.poll now with
  | (.expired, p) => ((true, now), p)
  | (.sleeping until_, p) =>
    if until_ ≤ now + limit then ((true, until_), p) else ((false, now + limit), p)

end Pacemaker

end HotStuff
