/-!
# Keyed Tables

A `Table κ α` is a finite map kept as a list of entries with distinct keys, in the order in
which the keys were first inserted. Everything the protocol remembers per view, per phase or per
member lives in one. The view of a table is `get?`; every operation is characterised by what it
does to that view, and nothing else unfolds the representation.

## Main results

* `get?_insert`, `get?_erase`, `get?_retain`: lookups after each operation.
* `insert_insert`, `insert_of_get?`: an insertion after an insertion, and one that changes nothing.
* `contains_iff`: a key is held exactly when a lookup finds a value.
* `size_insert_of_contains`, `size_insert_of_not_contains`: an insertion adds at most one entry.
-/

namespace HotStuff

/-- A finite map: entries with distinct keys, in the order of first insertion. -/
structure Table (κ α : Type) where
  /-- The entries, oldest key first. -/
  entries : List (κ × α)
  /-- No key occurs twice. -/
  nodup_keys : (entries.map Prod.fst).Nodup

namespace Table

variable {κ α : Type}

/-- The table without entries. -/
def empty : Table κ α := ⟨[], by simp⟩

instance : EmptyCollection (Table κ α) := ⟨empty⟩

instance : Inhabited (Table κ α) := ⟨empty⟩

/-- The keys, oldest first. -/
def keys (t : Table κ α) : List κ := t.entries.map Prod.fst

/-- The values, in the order of their keys. -/
def values (t : Table κ α) : List α := t.entries.map Prod.snd

/-- The number of entries. -/
def size (t : Table κ α) : Nat := t.entries.length

/-- Whether there is no entry. -/
def isEmpty (t : Table κ α) : Bool := t.entries.isEmpty

/-- A table without entries has none. -/
@[simp] theorem size_empty : (empty : Table κ α).size = 0 := rfl

/-- A table is empty exactly if its entries count to zero. -/
theorem isEmpty_iff (t : Table κ α) : t.isEmpty ↔ t.size = 0 := by
  simp [isEmpty, size]

section Lookup

variable [DecidableEq κ]

/-- The value of the first entry under `k`. -/
def find : List (κ × α) → κ → Option α
  | [], _ => none
  | (k', a) :: rest, k => if k' = k then some a else find rest k

/-- The entries with the value under `k` replaced, or with a new last entry. -/
def put : List (κ × α) → κ → α → List (κ × α)
  | [], k, a => [(k, a)]
  | (k', a') :: rest, k, a => if k' = k then (k, a) :: rest else (k', a') :: put rest k a

/-- Putting a value under a key makes that a key, and keeps all others. -/
theorem mem_keys_put (es : List (κ × α)) (k : κ) (a : α) (x : κ) :
    x ∈ (put es k a).map Prod.fst ↔ x = k ∨ x ∈ es.map Prod.fst := by
  induction es with
  | nil => simp [put]
  | cons e rest ih =>
    obtain ⟨k', a'⟩ := e
    simp only [put]
    split
    · next h => subst h; simp
    · rw [List.map_cons, List.mem_cons, ih, List.map_cons, List.mem_cons]
      constructor
      · rintro (h | h | h) <;> simp_all
      · rintro (h | h | h) <;> simp_all

/-- No key is twice in the entries after a value is put there. This is what keeps a table
well-formed. -/
theorem nodup_keys_put {es : List (κ × α)} (h : (es.map Prod.fst).Nodup) (k : κ) (a : α) :
    ((put es k a).map Prod.fst).Nodup := by
  induction es with
  | nil => simp [put]
  | cons e rest ih =>
    obtain ⟨k', a'⟩ := e
    rw [List.map_cons, List.nodup_cons] at h
    simp only [put]
    split
    · next hk => subst hk; simpa using h
    · next hk =>
      rw [List.map_cons, List.nodup_cons, mem_keys_put]
      exact ⟨fun h' => h'.elim hk h.1, ih h.2⟩

/-- The value held under `k`. -/
def get? (t : Table κ α) (k : κ) : Option α := find t.entries k

/-- Whether there is an entry under `k`. -/
def contains (t : Table κ α) (k : κ) : Bool := (t.get? k).isSome

/-- Puts `a` under `k`, in place of what was held there. -/
def insert (t : Table κ α) (k : κ) (a : α) : Table κ α :=
  ⟨put t.entries k a, nodup_keys_put t.nodup_keys k a⟩

/-- Keeps the entries whose key satisfies `p`. -/
def retain (t : Table κ α) (p : κ → Bool) : Table κ α :=
  ⟨t.entries.filter fun e => p e.1,
    t.nodup_keys.sublist (List.Sublist.map _ List.filter_sublist)⟩

/-- Removes the entry under `k`. -/
def erase (t : Table κ α) (k : κ) : Table κ α := t.retain fun x => decide (x ≠ k)

/-! ### Lookups after each operation -/

/-- Nothing is held in a table without entries. -/
@[simp] theorem get?_empty (k : κ) : (empty : Table κ α).get? k = none := rfl

/-- Nothing is found in a table without entries. -/
theorem get?_of_isEmpty {t : Table κ α} (h : t.isEmpty) (k : κ) : t.get? k = none := by
  rw [get?, List.isEmpty_iff.mp h]
  rfl

/-- A value that was put under a key is found there, and under all other keys what was there
before. -/
theorem find_put (es : List (κ × α)) (k : κ) (a : α) (x : κ) :
    find (put es k a) x = if x = k then some a else find es x := by
  induction es with
  | nil =>
    simp only [put, find]
    by_cases h : x = k
    · simp [h]
    · simp [h, Ne.symm h]
  | cons e rest ih =>
    obtain ⟨k', a'⟩ := e
    simp only [put]
    split
    · next h =>
      subst h
      simp only [find]
      by_cases h : k' = x
      · simp [h]
      · simp [h, Ne.symm h]
    · next hk =>
      simp only [find, ih]
      by_cases h : x = k
      · subst h; simp [hk]
      · simp [h]

/-- **Insertion.** The new value is found under its key, and no other lookup changes. -/
@[simp] theorem get?_insert (t : Table κ α) (k : κ) (a : α) (x : κ) :
    (t.insert k a).get? x = if x = k then some a else t.get? x :=
  find_put t.entries k a x

/-- Among the entries whose keys satisfy a condition, those are found whose key does. -/
theorem find_filter (es : List (κ × α)) (p : κ → Bool) (x : κ) :
    find (es.filter fun e => p e.1) x = if p x then find es x else none := by
  induction es with
  | nil => simp [find]
  | cons e rest ih =>
    obtain ⟨k', a'⟩ := e
    by_cases hp : p k'
    · rw [List.filter_cons_of_pos (by simpa using hp)]
      simp only [find, ih]
      by_cases h : k' = x
      · subst h; simp [hp]
      · simp [h]
    · rw [List.filter_cons_of_neg (by simpa using hp), ih]
      by_cases h : k' = x
      · subst h; simp [hp]
      · simp [find, h]

/-- **Selection.** Exactly the lookups of kept keys survive. -/
@[simp] theorem get?_retain (t : Table κ α) (p : κ → Bool) (x : κ) :
    (t.retain p).get? x = if p x then t.get? x else none :=
  find_filter t.entries p x

/-- **Removal.** Nothing is found under the key, and no other lookup changes. -/
@[simp] theorem get?_erase (t : Table κ α) (k x : κ) :
    (t.erase k).get? x = if x = k then none else t.get? x := by
  rw [erase, get?_retain]
  by_cases h : x = k <;> simp [h]

/-! ### Repeated insertions -/

/-- Of two values that are put under one key the later one stays. -/
theorem put_put (es : List (κ × α)) (k : κ) (a b : α) : put (put es k a) k b = put es k b := by
  induction es with
  | nil => simp [put]
  | cons e rest ih =>
    obtain ⟨k', a'⟩ := e
    by_cases h : k' = k
    · simp [put, h]
    · simp [put, h, ih]

/-- A later value takes the place of an earlier one. -/
theorem insert_insert (t : Table κ α) (k : κ) (a b : α) :
    (t.insert k a).insert k b = t.insert k b := by
  simp only [insert, put_put]

/-- Putting in what is held already changes nothing, the order of the entries included. -/
theorem put_of_find {es : List (κ × α)} {k : κ} {a : α} (h : find es k = some a) :
    put es k a = es := by
  induction es with
  | nil => cases h
  | cons e rest ih =>
    obtain ⟨k', a'⟩ := e
    rw [find] at h
    rw [put]
    split
    · next hk =>
      rw [if_pos hk] at h
      obtain rfl := Option.some.inj h
      rw [hk]
    · next hk =>
      rw [if_neg hk] at h
      rw [ih h]

/-- Putting what is held already changes nothing. -/
theorem insert_of_get? {t : Table κ α} {k : κ} {a : α} (h : t.get? k = some a) :
    t.insert k a = t := by
  obtain ⟨entries, hnodup⟩ := t
  have hput : put entries k a = entries := put_of_find h
  simp only [insert, hput]

/-! ### Membership and size -/

/-- Something is found exactly under the keys of the entries. -/
theorem find_isSome_iff (es : List (κ × α)) (k : κ) :
    (find es k).isSome ↔ k ∈ es.map Prod.fst := by
  induction es with
  | nil => simp [find]
  | cons e rest ih =>
    obtain ⟨k', a'⟩ := e
    simp only [find]
    by_cases h : k' = k
    · simp [h]
    · simp [h, Ne.symm h, ih]

/-- A table contains exactly its keys. -/
theorem contains_iff (t : Table κ α) (k : κ) : t.contains k ↔ k ∈ t.keys :=
  find_isSome_iff t.entries k

/-- A key is held exactly where a lookup finds a value. -/
theorem mem_keys_iff (t : Table κ α) (k : κ) : k ∈ t.keys ↔ ∃ a, t.get? k = some a := by
  rw [← contains_iff, contains, Option.isSome_iff_exists]

/-- Where no key is twice in the entries, what is found is an entry, and each entry is found. -/
theorem find_eq_some_iff {es : List (κ × α)} (h : (es.map Prod.fst).Nodup) (k : κ) (a : α) :
    find es k = some a ↔ (k, a) ∈ es := by
  induction es with
  | nil => simp [find]
  | cons e rest ih =>
    obtain ⟨k', a'⟩ := e
    rw [List.map_cons, List.nodup_cons] at h
    rw [find, List.mem_cons]
    split
    · next hk =>
      subst hk
      have hnot : (k', a) ∉ rest := fun hmem => h.1 (List.mem_map.mpr ⟨_, hmem, rfl⟩)
      simp [hnot, eq_comm]
    · next hk => simp [ih h.2, Ne.symm hk]

/-- The entries are what lookups find. -/
theorem mem_entries_iff (t : Table κ α) (k : κ) (a : α) :
    (k, a) ∈ t.entries ↔ t.get? k = some a :=
  (find_eq_some_iff t.nodup_keys k a).symm

/-- A table with an entry has something to find. -/
theorem exists_get?_of_not_isEmpty {t : Table κ α} (h : ¬ t.isEmpty) :
    ∃ k a, t.get? k = some a := by
  obtain ⟨e, he⟩ := List.exists_mem_of_ne_nil t.entries fun hnil => h (List.isEmpty_iff.mpr hnil)
  exact ⟨e.1, e.2, (t.mem_entries_iff e.1 e.2).mp he⟩

omit [DecidableEq κ] in
/-- A selection that all keys satisfy changes nothing. -/
theorem retain_eq_self {t : Table κ α} {p : κ → Bool} (h : ∀ k ∈ t.keys, p k) :
    t.retain p = t := by
  obtain ⟨entries, hnodup⟩ := t
  have hall : entries.filter (fun e => p e.1) = entries :=
    List.filter_eq_self.mpr fun e he => h e.1 (List.mem_map_of_mem he)
  simp only [retain, hall]

/-- An insertion adds no other key. -/
theorem mem_keys_insert (t : Table κ α) (k : κ) (a : α) (x : κ) :
    x ∈ (t.insert k a).keys ↔ x = k ∨ x ∈ t.keys :=
  mem_keys_put t.entries k a x

/-- The keys of a selection are those that satisfy it. -/
theorem mem_keys_retain (t : Table κ α) (p : κ → Bool) (k : κ) :
    k ∈ (t.retain p).keys ↔ k ∈ t.keys ∧ p k := by
  rw [mem_keys_iff, mem_keys_iff, get?_retain]
  by_cases h : p k <;> simp [h]

/-- A new key comes last. -/
theorem keys_insert_of_not_mem {t : Table κ α} {k : κ} (h : k ∉ t.keys) (a : α) :
    (t.insert k a).keys = t.keys ++ [k] := by
  have hput : ∀ es : List (κ × α), k ∉ es.map Prod.fst →
      (put es k a).map Prod.fst = es.map Prod.fst ++ [k] := by
    intro es hes
    induction es with
    | nil => rfl
    | cons e rest ih =>
      obtain ⟨k', a'⟩ := e
      rw [List.map_cons, List.mem_cons, not_or] at hes
      rw [put, if_neg (Ne.symm hes.1), List.map_cons, ih hes.2]
      rfl
  exact hput t.entries h

omit [DecidableEq κ] in
/-- There are as many keys as entries. -/
theorem length_keys (t : Table κ α) : t.keys.length = t.size := List.length_map ..

/-- Putting a value makes one entry more, unless there was one under the key. -/
theorem length_put (es : List (κ × α)) (k : κ) (a : α) :
    (put es k a).length = if (find es k).isSome then es.length else es.length + 1 := by
  induction es with
  | nil => simp [put, find]
  | cons e rest ih =>
    obtain ⟨k', a'⟩ := e
    simp only [put, find]
    by_cases h : k' = k
    · simp [h]
    · simp only [h, if_false, List.length_cons, ih]
      split <;> rfl

/-- A table does not grow where a value is replaced. -/
theorem size_insert_of_contains {t : Table κ α} {k : κ} (h : t.contains k) (a : α) :
    (t.insert k a).size = t.size := by
  have h' : (find t.entries k).isSome := h
  simp [size, insert, length_put, h']

/-- A table grows by one where a key is new. -/
theorem size_insert_of_not_contains {t : Table κ α} {k : κ} (h : ¬ t.contains k) (a : α) :
    (t.insert k a).size = t.size + 1 := by
  have h' : ¬ (find t.entries k).isSome := h
  simp [size, insert, length_put, h']

end Lookup

end Table

end HotStuff
