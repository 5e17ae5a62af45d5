import HotStuff.Action

/-!
# Saved Progress

Only what safety needs outlives a restart: the view, the two certificates and the tip of the
committed chain. A `StateStore` keeps the last state that was saved. Saving may fail; the store says
so, and decides what it then holds.

## Main definitions

* `SavedState`, `StateStore`: what is kept, and where.
* `MemoryStore`: keeps it as a value.
* `UnreliableStore`: counts the attempts to save and refuses some of them.
-/

namespace HotStuff

/-- The progress of a member that outlives a restart. -/
structure SavedState where
  view : View
  /-- The highest Prepare certificate seen. -/
  prepared : Option Certificate
  /-- The certificate that the member is locked on. -/
  locked : Option Certificate
  /-- The digest of the payload committed last. -/
  committed : Digest
  height : Height
  deriving DecidableEq, Repr

/-- A place that keeps the last saved state. -/
class StateStore (σ : Type) where
  /-- The state saved last, if there is one. -/
  load : σ → Except Error (Option SavedState)
  /-- Saves a state in place of the one before. -/
  save : σ → SavedState → Except Error Unit × σ

/-- A store that keeps the state in memory. -/
structure MemoryStore where
  state : Option SavedState := none
  deriving DecidableEq, Repr

instance : StateStore MemoryStore where
  load store := .ok store.state
  save _ state := (.ok (), ⟨some state⟩)

/-- A store in memory that may refuse to load and any attempt to save. -/
structure UnreliableStore where
  inner : MemoryStore := {}
  /-- The number of attempts to save. -/
  saves : Nat := 0
  refusesLoad : Bool := false
  /-- Whether the attempt with a given number, from zero, is refused. -/
  refusesSave : Nat → Bool := fun _ => false

instance : StateStore UnreliableStore where
  load store := if store.refusesLoad then .error .unreadableState else StateStore.load store.inner
  save store state :=
    let store' := { store with saves := store.saves + 1 }
    if store.refusesSave store.saves then (.error .medium, store')
    else
      let (result, inner) := StateStore.save store.inner state
      (result, { store' with inner })

end HotStuff
