import HotStuff.Bytes

/-!
# Views and Phases

A view is one attempt at agreement under one leader, and runs through five phases. Views are 64-bit
words: the last one has no next view, and `View.next?` says so.

## Main results

* `Phase.rank_injective`: the order of phases is a linear order.
* `Phase.predecessor_eq_some_iff`: predecessor and successor are inverse to each other.
-/

namespace HotStuff

/-- The number of a view. -/
abbrev View := UInt64

/-- The last view. -/
def View.last : View := 0xFFFFFFFFFFFFFFFF

/-- The number after `n`, where 64 bits hold it. -/
def View.next? (n : View) : Option View := if n = View.last then none else some (n + 1)

/-- The view after another one is the next number: views are counted on without wrapping around. -/
theorem View.toNat_of_next? {v w : View} (h : View.next? v = some w) : w.toNat = v.toNat + 1 := by
  rw [View.next?] at h
  split at h
  · cases h
  · next hne =>
      obtain rfl := Option.some.inj h
      have hlast : v.toNat ≠ 2 ^ 64 - 1 := fun heq => hne (UInt64.toNat_inj.mp heq)
      have hlt := v.toNat_lt
      rw [UInt64.toNat_add, UInt64.toNat_one]
      omega

/-- The view after another one comes later in their order. -/
theorem View.lt_of_next? {v w : View} (h : View.next? v = some w) : v < w := by
  have := View.toNat_of_next? h
  rw [UInt64.lt_iff_toNat_lt]
  omega

/-- No view comes after the last one. -/
theorem View.le_last (v : View) : v ≤ View.last :=
  UInt64.le_iff_toNat_le.mpr (Nat.le_of_lt_succ v.toNat_lt)

/-- Induction on views: what holds of a view if it holds of all earlier ones holds of every view. -/
theorem View.induction {P : View → Prop} (step : ∀ v, (∀ u, u < v → P u) → P v) (v : View) :
    P v := by
  generalize hn : v.toNat = n
  induction n using Nat.strongRecOn generalizing v with
  | ind n ih => exact step v fun u hu => ih u.toNat (hn ▸ UInt64.lt_iff_toNat_lt.mp hu) u rfl

/-- A stage of agreement within a view. -/
inductive Phase where
  /-- Waiting for the leader to propose. -/
  | newView
  /-- The proposal is voted on. -/
  | prepare
  /-- The proposal is certified. -/
  | preCommit
  /-- The replica is locked on the proposal. -/
  | commit
  /-- The proposal is final. -/
  | decide
  deriving DecidableEq, Repr, Inhabited

namespace Phase

/-- All phases, in their order. -/
def all : List Phase := [newView, prepare, preCommit, commit, decide]

/-- The position in the order of phases, also the byte that encodes the phase. -/
def rank : Phase → Nat
  | newView => 0
  | prepare => 1
  | preCommit => 2
  | commit => 3
  | decide => 4

/-- Different phases have different ranks, so phases can be compared by rank. -/
theorem rank_injective {p q : Phase} (h : p.rank = q.rank) : p = q := by
  cases p <;> cases q <;> first | rfl | cases h

/-- There are five ranks, from `newView` up to `decide`. -/
theorem rank_lt (p : Phase) : p.rank < 5 := by cases p <;> decide

instance : LT Phase := ⟨fun p q => p.rank < q.rank⟩

instance : DecidableLT Phase := fun p q => inferInstanceAs (Decidable (p.rank < q.rank))

/-- The name of a phase, in messages and in text. -/
def name : Phase → String
  | newView => "NewView"
  | prepare => "Prepare"
  | preCommit => "PreCommit"
  | commit => "Commit"
  | decide => "Decide"

/-- The phase with a given name. -/
def ofName? (s : String) : Option Phase := all.find? fun p => p.name = s

/-- The phase that follows within a view. -/
def successor : Phase → Option Phase
  | newView => some prepare
  | prepare => some preCommit
  | preCommit => some commit
  | commit => some decide
  | decide => none

/-- The phase whose certificate justifies a message of this phase. -/
def predecessor : Phase → Option Phase
  | newView => none
  | prepare => some newView
  | preCommit => some prepare
  | commit => some preCommit
  | decide => some commit

/-- The phase before is the inverse of the phase after. -/
theorem predecessor_eq_some_iff {p q : Phase} :
    p.predecessor = some q ↔ q.successor = some p := by
  cases p <;> cases q <;> decide

end Phase

end HotStuff
