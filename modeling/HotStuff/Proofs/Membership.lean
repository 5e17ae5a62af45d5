import Mathlib.Data.List.Rotate
import HotStuff.Proofs.Quorums

/-!
# Building a Committee

The quorum of a committee may come from a configuration, so it can be any number of 64 bits. The
check that it is more than half of the members doubles it first, which 64 bits do not always hold;
there the construction has no result at all. Everywhere else it is exact, and what it builds can be
relied on: positions are found, membership is decided, and the members take turns.

The positions of the members are collected in a table while the list is checked for members that
come twice. A `Committee` has no such table and looks the position up in the list. `indexFrom` is
the collecting loop; it stops at the first member that comes again, and what it collects is what the
list says.

## Main definitions

* `Committee.effectiveQuorum`: the quorum asked for, or the default one.
* `Committee.Outgrows`: doubling the quorum leaves 64 bits.
* `Committee.indexFrom`: the table of positions.
* `Committee.leadersFrom`: the leaders of as many views as there are members.

## Main results

* `Committee.make_eq_overflow_iff`: when there is no result.
* `Committee.indexFrom_eq`: the table of positions agrees with the list.
* `Committee.leadersFrom_perm`: the members take turns.
* `Committee.construction_exact_iff`: when the construction is exact, and what is built then.
-/

namespace HotStuff

namespace Committee

variable {c : Committee} {members : List MemberId} {quorum : Option UInt64}

/-! ### The checks -/

/-- The quorum that is asked for, or else the default one. -/
def effectiveQuorum (members : List MemberId) (quorum : Option UInt64) : Nat :=
  (quorum.map UInt64.toNat).getD (defaultQuorum members.length)

/-- What is demanded of a committee. -/
structure Sensible (members : List MemberId) (quorum : Option UInt64) : Prop where
  some_member : members ≠ []
  nodup : members.Nodup
  majority : members.length < 2 * effectiveQuorum members quorum
  quorum_le : effectiveQuorum members quorum ≤ members.length

/-- **A quorum that outgrows the check.** No member is listed twice, and twice the quorum leaves 64
bits. The default quorum does so only for more members than any memory holds. -/
structure Outgrows (members : List MemberId) (quorum : Option UInt64) : Prop where
  some_member : members ≠ []
  nodup : members.Nodup
  overflows : UInt64.size ≤ effectiveQuorum members quorum * 2

/-- A member that comes again is there, and comes before. -/
theorem not_nodup_of_firstRepeat {seen ms : List MemberId} {m : MemberId}
    (h : firstRepeat seen ms = some m) : ¬ (seen.reverse ++ ms).Nodup := by
  induction ms generalizing seen with
  | nil => cases h
  | cons m' rest ih =>
      rw [firstRepeat] at h
      split at h
      · next hseen =>
          intro hnodup
          have hdisjoint := (List.nodup_append.mp hnodup).2.2
          exact hdisjoint m' (List.mem_reverse.mpr hseen) m' (List.mem_cons_self ..) rfl
      · have hnot := ih h
        rwa [List.reverse_cons, List.append_assoc, List.singleton_append] at hnot

/-- No member comes again exactly in a list without repetitions. -/
theorem firstRepeat_eq_none_iff : firstRepeat [] members = none ↔ members.Nodup := by
  refine ⟨fun h => (nodup_of_firstRepeat_eq_none h).1, fun hnodup => ?_⟩
  cases h : firstRepeat [] members with
  | none => rfl
  | some m => exact absurd hnodup (not_nodup_of_firstRepeat h)

/-- A member that comes again is refused. -/
theorem make_of_repeat {m : MemberId} (h : firstRepeat [] members = some m) :
    make members quorum = refuse (.duplicateMember m) := by
  have hempty : ¬ members.isEmpty := by
    intro hempty
    rw [List.isEmpty_iff.mp hempty] at h
    cases h
  rw [make, if_neg hempty]
  split
  · next m' hrepeat => rw [Option.some.inj (hrepeat.symm.trans h)]
  · next hnone => cases hnone.symm.trans h

/-- **What the checks come to**, for members that can be a committee. -/
theorem make_of_nodup (hsome : members ≠ []) (hnodup : members.Nodup) :
    make members quorum =
      if UInt64.size ≤ effectiveQuorum members quorum * 2 then .error (.overflow .multiply)
      else if h : members.length < 2 * effectiveQuorum members quorum ∧
          effectiveQuorum members quorum ≤ members.length then
        .ok ⟨members, effectiveQuorum members quorum, hnodup, h.1, h.2⟩
      else refuse (.invalidQuorum (effectiveQuorum members quorum) members.length) := by
  have hempty : ¬ members.isEmpty := fun h => hsome (List.isEmpty_iff.mp h)
  have hrepeat : firstRepeat [] members = none := firstRepeat_eq_none_iff.mpr hnodup
  rw [make, if_neg hempty]
  split
  · next m hsome' => cases hrepeat.symm.trans hsome'
  · rfl

/-- **When there is no result**: the quorum outgrows the check. -/
theorem make_eq_overflow_iff {o : Overflow} :
    make members quorum = .error (.overflow o) ↔ o = .multiply ∧ Outgrows members quorum := by
  constructor
  · intro h
    have hsome : members ≠ [] := by
      rintro rfl
      cases h
    have hnodup : members.Nodup := by
      refine firstRepeat_eq_none_iff.mp (Option.eq_none_iff_forall_ne_some.mpr fun m hm => ?_)
      cases (make_of_repeat hm).symm.trans h
    rw [make_of_nodup hsome hnodup] at h
    split at h
    · next hover => exact ⟨(Failure.overflow.inj (Except.error.inj h)).symm, hsome, hnodup, hover⟩
    · split at h <;> cases h
  · rintro ⟨rfl, hsome, hnodup, hover⟩
    rw [make_of_nodup hsome hnodup, if_pos hover]

/-- A committee is built only of what is demanded. -/
theorem sensible_of_make (h : make members quorum = .ok c) : Sensible members quorum := by
  obtain ⟨rfl, hmade⟩ := make_ok h
  have hquorum : c.quorum = effectiveQuorum c.members quorum := hmade
  refine ⟨?_, c.nodup, hquorum ▸ c.lt_two_mul_quorum, hquorum ▸ c.quorum_le⟩
  intro hnil
  have hpos := c.size_pos
  rw [size, hnil] at hpos
  exact absurd hpos (Nat.lt_irrefl 0)

/-- What is demanded is enough, where the quorum does not outgrow the check. -/
theorem make_of_sensible (h : Sensible members quorum) (hfits : ¬ Outgrows members quorum) :
    ∃ c, make members quorum = .ok c := by
  have hnot : ¬ UInt64.size ≤ effectiveQuorum members quorum * 2 := fun hover =>
    hfits ⟨h.some_member, h.nodup, hover⟩
  rw [make_of_nodup h.some_member h.nodup, if_neg hnot, dif_pos ⟨h.majority, h.quorum_le⟩]
  exact ⟨_, rfl⟩

/-! ### The table of positions -/

/-- **The collecting loop.** Enters the members with their positions, and stops at the first one
that is there already. -/
def indexFrom (index : Table MemberId Nat) (position : Nat) :
    List MemberId → Except MemberId (Table MemberId Nat)
  | [] => .ok index
  | m :: rest =>
    if index.contains m then .error m else indexFrom (index.insert m position) (position + 1) rest

/-- A table that holds the positions of some members. -/
def Indexes (before : List MemberId) (index : Table MemberId Nat) : Prop :=
  ∀ m, index.get? m = before.idxOf? m

/-- A member that is new takes the next position. -/
theorem Indexes.insert {before : List MemberId} {index : Table MemberId Nat} {m : MemberId}
    (h : Indexes before index) (hnew : m ∉ before) :
    Indexes (before ++ [m]) (index.insert m before.length) := by
  intro x
  rw [Table.get?_insert, h x]
  simp only [List.idxOf?, List.findIdx?_append]
  by_cases hx : x = m
  · subst hx
    have hnone : before.findIdx? (· == x) = none := List.idxOf?_eq_none_iff.mpr hnew
    simp [hnone]
  · simp [hx, Ne.symm hx]

/-- **The loop finds what the list says.** Among members of which `before` have been entered, it
stops at the first one that comes again, or collects the positions of all. -/
theorem indexFrom_spec {before rest : List MemberId} {index : Table MemberId Nat}
    (h : Indexes before index) :
    match firstRepeat before.reverse rest with
    | some m => indexFrom index before.length rest = .error m
    | none => ∃ index', indexFrom index before.length rest = .ok index' ∧
        Indexes (before ++ rest) index' := by
  induction rest generalizing before index with
  | nil => exact ⟨index, rfl, (List.append_nil before).symm ▸ h⟩
  | cons m rest ih =>
      have hcontains : index.contains m ↔ m ∈ before := by
        rw [Table.contains, h m]
        simp [List.isSome_idxOf?]
      rw [firstRepeat, indexFrom]
      by_cases hm : m ∈ before
      · rw [if_pos (List.mem_reverse.mpr hm), if_pos (hcontains.mpr hm)]
      · rw [if_neg (fun hmem => hm (List.mem_reverse.mp hmem)),
          if_neg (fun hheld => hm (hcontains.mp hheld))]
        have hrest := ih (h.insert hm)
        rw [List.reverse_append, List.length_append, List.append_assoc] at hrest
        exact hrest

/-- So it is for a whole list, with nothing entered before. -/
theorem indexFrom_empty (members : List MemberId) :
    match firstRepeat [] members with
    | some m => indexFrom ∅ 0 members = .error m
    | none => ∃ index, indexFrom ∅ 0 members = .ok index ∧ Indexes members index := by
  have hnone : Indexes [] ∅ := fun _ => rfl
  exact indexFrom_spec hnone

/-! ### Taking turns -/

/-- The leaders of as many views as there are members. -/
def leadersFrom (c : Committee) (view : View) : List MemberId :=
  (List.range c.size).map fun k => c.leader (view + UInt64.ofNat k)

/-- **The members take turns**: consecutive views are led by the members in their order, from
somewhere on. -/
theorem leadersFrom_eq_rotate {view : View} (hfits : view.toNat + c.size ≤ UInt64.size) :
    c.leadersFrom view = c.members.rotate view.toNat := by
  refine List.ext_getElem ?_ fun k hk hk' => ?_
  · rw [leadersFrom, List.length_map, List.length_range, List.length_rotate, size]
  · have hlt : k < c.size := by
      rwa [leadersFrom, List.length_map, List.length_range] at hk
    have hview : (view + UInt64.ofNat k).toNat = k + view.toNat := by
      rw [UInt64.toNat_add, UInt64.toNat_ofNat']
      have hsize : UInt64.size = 18446744073709551616 := rfl
      omega
    simp only [leadersFrom, List.getElem_map, List.getElem_range, leader, List.get_eq_getElem,
      List.getElem_rotate, hview, size]

/-! ### What is built -/

/-- **A committee as it was asked for**: its members and its quorum, each member at its position, in
the list as in the table that is collected on the way, and all of them in turn as leaders. -/
structure AskedFor (c : Committee) (members : List MemberId) (quorum : Option UInt64) : Prop where
  lists : c.members = members
  demands : c.quorum = effectiveQuorum members quorum
  position : ∀ i (h : i < members.length), c.indexOf? members[i] = some i
  contains : ∀ m, c.contains m ↔ m ∈ members
  index : ∃ index, indexFrom ∅ 0 members = .ok index ∧
    ∀ m, index.get? m = c.indexOf? m ∧ index.contains m = c.contains m
  turns : ∀ view : View, view.toNat + members.length ≤ UInt64.size →
    (c.leadersFrom view).Nodup ∧ (c.leadersFrom view).Perm members

/-- A member is found where it is listed. -/
theorem indexOf?_getElem (c : Committee) {i : Nat} (h : i < c.members.length) :
    c.indexOf? c.members[i] = some i := by
  rw [indexOf?, List.idxOf?_eq_some_iff]
  exact ⟨h, rfl, fun j hj heq => absurd (c.nodup.getElem_inj_iff.mp heq) (Nat.ne_of_lt hj)⟩

/-- A committee that is made is the one that was asked for. -/
theorem askedFor_of_make (h : make members quorum = .ok c) : AskedFor c members quorum := by
  obtain ⟨rfl, hquorum⟩ := make_ok h
  have hcollected := indexFrom_empty c.members
  rw [firstRepeat_eq_none_iff.mpr c.nodup] at hcollected
  obtain ⟨index, hindex, hagrees⟩ := hcollected
  refine ⟨rfl, hquorum, fun i hi => c.indexOf?_getElem hi, fun m => decide_eq_true_iff,
    ⟨index, hindex, fun m => ⟨hagrees m, ?_⟩⟩, fun view hfits => ?_⟩
  · rw [Table.contains, hagrees m, Bool.eq_iff_iff, List.isSome_idxOf?, contains,
      decide_eq_true_iff]
  · have hturns : (c.leadersFrom view).Perm c.members :=
      leadersFrom_eq_rotate hfits ▸ List.rotate_perm c.members view.toNat
    exact ⟨hturns.nodup_iff.mpr c.nodup, hturns⟩

/-- **The construction of a committee** has a result, and is exact, exactly if the quorum does not
outgrow the check; if it does, doubling it overflows. A member that is listed again is refused where
the table of positions meets it. What is built is as it was asked for. -/
theorem construction_exact_iff (members : List MemberId) (quorum : Option UInt64) :
    ((∃ result, make members quorum = Outcome.ofCheck result ∧
        ((∃ c, result = .ok c) ↔ Sensible members quorum)) ↔ ¬ Outgrows members quorum) ∧
    (Outgrows members quorum → make members quorum = .error (.overflow .multiply)) ∧
    (∀ m, make members quorum = refuse (.duplicateMember m) ↔
      indexFrom ∅ 0 members = .error m) ∧
    ∀ c, make members quorum = .ok c → AskedFor c members quorum := by
  refine ⟨⟨?_, fun hfits => ?_⟩, fun hover => make_eq_overflow_iff.mpr ⟨rfl, hover⟩, fun m => ?_,
    fun c => askedFor_of_make⟩
  · rintro ⟨result, hresult, -⟩ hover
    rw [make_eq_overflow_iff.mpr ⟨rfl, hover⟩] at hresult
    cases result <;> cases hresult
  · cases hmake : make members quorum with
    | ok c => exact ⟨.ok c, rfl, fun _ => sensible_of_make hmake, fun _ => ⟨c, rfl⟩⟩
    | error failure =>
        cases failure with
        | refused cause =>
            refine ⟨.error cause, rfl, fun ⟨c, hc⟩ => by (cases hc), fun hsensible => ?_⟩
            obtain ⟨c, hok⟩ := make_of_sensible hsensible hfits
            cases hok.symm.trans hmake
        | overflow o => exact absurd (make_eq_overflow_iff.mp hmake).2 hfits
  · have hcollected := indexFrom_empty members
    cases hrepeat : firstRepeat [] members with
    | some m' =>
        rw [hrepeat] at hcollected
        rw [make_of_repeat hrepeat, hcollected]
        simp [refuse]
    | none =>
        rw [hrepeat] at hcollected
        obtain ⟨index, hindex, -⟩ := hcollected
        refine ⟨fun hmake => ?_, fun herror => by (cases herror.symm.trans hindex)⟩
        by_cases hsome : members = []
        · subst hsome
          cases hmake
        · rw [make_of_nodup hsome (firstRepeat_eq_none_iff.mp hrepeat)] at hmake
          split at hmake
          · cases hmake
          · split at hmake <;> cases hmake

end Committee

open Committee in
/-- Four members and the default quorum: the leaders of the last four views are all of them, and the
last one is found at its position. -/
theorem construction_exact_of_four :
    make Committee.four.members none = .ok .four ∧
    (View.last - 3).toNat + 4 ≤ UInt64.size ∧
    (Committee.four.leadersFrom (View.last - 3)).Perm Committee.four.members ∧
    Committee.four.indexOf? (.numbered 3) = some 3 := by
  have hmake : make Committee.four.members none = .ok Committee.four := rfl
  have hbuilt : AskedFor Committee.four Committee.four.members none :=
    (construction_exact_iff Committee.four.members none).2.2.2 _ hmake
  have hlate : (View.last - 3).toNat + 4 ≤ UInt64.size := by decide
  exact ⟨hmake, hlate, (hbuilt.turns _ hlate).2, hbuilt.position 3 (by decide)⟩

open Committee in
/-- With a quorum of half of all numbers of 64 bits there is no result for four members, where they
cannot be a committee. -/
theorem huge_quorum_overflows :
    make Committee.four.members (some 0x8000000000000000) = .error (.overflow .multiply) ∧
    (∀ result, make Committee.four.members (some 0x8000000000000000) ≠ Outcome.ofCheck result) ∧
    ¬ Sensible Committee.four.members (some 0x8000000000000000) := by
  have hmake : make Committee.four.members (some 0x8000000000000000) =
      .error (.overflow .multiply) := rfl
  refine ⟨hmake, fun result hresult => ?_, fun hsensible => ?_⟩
  · rw [hmake] at hresult
    cases result <;> cases hresult
  · exact absurd hsensible.quorum_le (by decide)

end HotStuff
