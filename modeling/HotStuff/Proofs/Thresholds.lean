import Mathlib.Data.Finset.Powerset
import Mathlib.Data.Fintype.Card
import Mathlib.Order.Bounds.Basic
import HotStuff.Proofs.Membership

/-!
# How Large a Quorum Has to Be

Any two quorums should have more members in common than may be faulty, so that a correct one is
among them. The larger a quorum is, the more it shares with others; but the fewer members may be
silent while the others still are a quorum. So the least quorum that shares enough is the best one.

How much two quorums share at least is decided by their size alone, and the check that warns of a
small quorum compares exactly that. The default quorum leaves out as many members as may be faulty.
It always shares enough, and whoever is faulty, the others are one. It is the least such quorum for
two of three sizes of a committee. Where the number of members is divisible by three, it is one more
than needed.

## Main definitions

* `Committee.Overlapping`: any two quorums of a size share more members than may be faulty.
* `Committee.leastQuorum`: the least such size.

## Main results

* `Committee.overlapping_iff`: the check compares what two quorums share at least.
* `Committee.isLeast_leastQuorum`: the least size.
* `Committee.default_quorum_least_iff`: when the default quorum is the least one, and what holds of
  it always.
-/

namespace HotStuff

namespace Committee

variable {n q : Nat} {members : List MemberId} {quorum : Option UInt64}

/-! ### What two quorums share -/

/-- **Sharing a correct member.** Any two sets of `q` of `n` members have more of them in common
than may be faulty. -/
def Overlapping (n q : Nat) : Prop :=
  ∀ a b : Finset (Fin n), a.card = q → b.card = q → maxFaulty n < (a ∩ b).card

/-- Two sets of members have in common what they have more members than there are. -/
theorem two_mul_le_card_inter {a b : Finset (Fin n)} (ha : a.card = q) (hb : b.card = q) :
    2 * q ≤ (a ∩ b).card + n := by
  have hunion : (a ∪ b).card ≤ n := card_finset_fin_le (a ∪ b)
  have hinter := Finset.card_union_add_card_inter a b
  omega

/-- Some two sets of members have nothing more in common. The second one has all members that the
first one has not, or as many of them as it can hold. -/
theorem exists_card_inter (hq : q ≤ n) :
    ∃ a b : Finset (Fin n), a.card = q ∧ b.card = q ∧ (a ∩ b).card = 2 * q - n := by
  have hall : (Finset.univ : Finset (Fin n)).card = n := Finset.card_fin n
  obtain ⟨a, -, ha⟩ := Finset.exists_subset_card_eq (hq.trans_eq hall.symm)
  have hrest : aᶜ.card = n - q := by rw [Finset.card_compl, Fintype.card_fin, ha]
  rcases Nat.le_total q (n - q) with hfits | hfits
  · obtain ⟨b, hsub, hb⟩ := Finset.exists_subset_card_eq (hfits.trans_eq hrest.symm)
    have hdisjoint : a ∩ b = ∅ :=
      Finset.disjoint_iff_inter_eq_empty.mp (disjoint_compl_right.mono_right hsub)
    refine ⟨a, b, ha, hb, ?_⟩
    rw [hdisjoint, Finset.card_empty]
    omega
  · obtain ⟨b, hsuper, -, hb⟩ := Finset.exists_subsuperset_card_eq (Finset.subset_univ aᶜ)
      (hrest.trans_le hfits) (hq.trans_eq hall.symm)
    have hsplit : (b \ a).card + (a ∩ b).card = b.card :=
      Finset.inter_comm b a ▸ Finset.card_sdiff_add_card_inter b a
    have hothers : b \ a = aᶜ := by
      rw [Finset.sdiff_eq_inter_compl]
      exact Finset.inter_eq_right.mpr hsuper
    refine ⟨a, b, ha, hb, ?_⟩
    rw [hothers, hrest, hb] at hsplit
    omega

/-- **The check is exact.** Two quorums share more members than may be faulty exactly if the quorum
passes the check without a warning. -/
theorem overlapping_iff (hq : q ≤ n) : Overlapping n q ↔ n + maxFaulty n < 2 * q := by
  constructor
  · intro hoverlapping
    obtain ⟨a, b, ha, hb, hcard⟩ := exists_card_inter hq
    have hmany := hoverlapping a b ha hb
    omega
  · intro hmany a b ha hb
    have hshared := two_mul_le_card_inter ha hb
    omega

/-! ### The least quorum -/

/-- **The least quorum** of which any two share more members than may be faulty. -/
def leastQuorum (n : Nat) : Nat := (n + maxFaulty n) / 2 + 1

/-- From the least quorum on, twice as many are more than all members and the faulty ones. -/
theorem lt_two_mul_iff : n + maxFaulty n < 2 * q ↔ leastQuorum n ≤ q := by
  rw [leastQuorum]
  omega

/-- The default quorum is the least one, or one more. -/
theorem defaultQuorum_eq (hn : 0 < n) :
    defaultQuorum n = leastQuorum n + if 3 ∣ n then 1 else 0 := by
  rw [defaultQuorum, leastQuorum, maxFaulty]
  split <;> omega

/-- The least quorum can be reached, as fewer than a third of the members may be faulty. -/
theorem leastQuorum_le (hn : 0 < n) : leastQuorum n ≤ n := by
  rw [leastQuorum, maxFaulty]
  omega

/-- No smaller quorum shares enough. Sets with more members than there are do not exist, but they
are no smaller either. -/
theorem isLeast_leastQuorum (hn : 0 < n) : IsLeast {q | Overlapping n q} (leastQuorum n) := by
  refine ⟨(overlapping_iff (leastQuorum_le hn)).mpr (lt_two_mul_iff.mpr le_rfl), fun q hq => ?_⟩
  rcases Nat.le_total q n with hle | hle
  · exact lt_two_mul_iff.mp ((overlapping_iff hle).mp hq)
  · exact (leastQuorum_le hn).trans hle

/-! ### Committees with such a quorum -/

/-- **Members that can be held**: their keys take up less than half of all addresses of 64 bits. -/
def Storable (members : List MemberId) : Prop :=
  (members.flatMap MemberId.bytes).length < 2 ^ 63

/-- A key takes 32 bytes, so the members that can be held are counted. -/
theorem storable_iff : Storable members ↔ members.length * 32 < 2 ^ 63 := by
  rw [Storable, List.length_flatMap, List.map_congr_left fun m _ => m.length_bytes, List.map_const',
    List.sum_replicate_nat]

/-- **Distinct members make a committee** with any quorum from the least one up to all of them. -/
theorem exists_make (hstorable : Storable members) (hnodup : members.Nodup) (hsome : members ≠ [])
    (hleast : leastQuorum members.length ≤ effectiveQuorum members quorum)
    (hall : effectiveQuorum members quorum ≤ members.length) :
    ∃ c, make members quorum = .ok c ∧ AskedFor c members quorum := by
  have hmany := lt_two_mul_iff.mpr hleast
  have hfew := storable_iff.mp hstorable
  have hsensible : Sensible members quorum := ⟨hsome, hnodup, by omega, hall⟩
  have hfits : ¬ Outgrows members quorum := by
    intro hover
    have hsize : UInt64.size = 2 ^ 64 := rfl
    have hlarge := hover.overflows
    omega
  obtain ⟨c, hmake⟩ := make_of_sensible hsensible hfits
  exact ⟨c, hmake, askedFor_of_make hmake⟩

/-- **The default quorum** is the least one of which any two share more members than may be faulty,
exactly if the number of members is not divisible by three; else it is one more. Two quorums share
that many exactly if no warning is due. With the default quorum, and with the least one where that
is smaller, distinct members make a committee. And whoever is silent, as long as no more are than
may be faulty, the others are a quorum. -/
theorem default_quorum_least_iff (n : Nat) (hn : 0 < n) :
    (IsLeast {q | Overlapping n q} (defaultQuorum n) ↔ ¬ 3 ∣ n) ∧
    IsLeast {q | Overlapping n q} (leastQuorum n) ∧
    defaultQuorum n = leastQuorum n + (if 3 ∣ n then 1 else 0) ∧
    (∀ q ≤ n, Overlapping n q ↔ n + maxFaulty n < 2 * q) ∧
    Overlapping n (defaultQuorum n) ∧
    (∀ members quorum, members.Nodup → members.length = n → Storable members →
      effectiveQuorum members quorum ∈ ({leastQuorum n, defaultQuorum n} : Set Nat) →
      ∃ c, make members quorum = .ok c ∧ AskedFor c members quorum) ∧
    defaultQuorum n ≤ n - maxFaulty n ∧
    ∀ silent : Finset (Fin n), silent.card ≤ maxFaulty n → defaultQuorum n ≤ silentᶜ.card := by
  have heq := defaultQuorum_eq hn
  have hleast := isLeast_leastQuorum hn
  have hwithin : leastQuorum n ≤ defaultQuorum n ∧ defaultQuorum n ≤ n :=
    ⟨heq ▸ Nat.le_add_right .., Nat.sub_le ..⟩
  have hshares := (overlapping_iff hwithin.2).mpr (lt_two_mul_iff.mpr hwithin.1)
  refine ⟨⟨fun hdefault hdvd => ?_, fun hdvd => ?_⟩, hleast, heq, fun q => overlapping_iff, hshares,
    fun members quorum hnodup hlength hstorable hquorum => ?_, le_rfl, fun silent hfew => ?_⟩
  · have hsame := hdefault.unique hleast
    rw [if_pos hdvd] at heq
    omega
  · rw [if_neg hdvd, Nat.add_zero] at heq
    exact heq ▸ hleast
  · subst hlength
    have hsome : members ≠ [] := List.ne_nil_of_length_pos hn
    rcases hquorum with hquorum | hquorum
    · exact exists_make hstorable hnodup hsome hquorum.ge (hquorum.trans_le (leastQuorum_le hn))
    · exact exists_make hstorable hnodup hsome (hwithin.1.trans_eq hquorum.symm)
        (hquorum.trans_le hwithin.2)
  · rw [Finset.card_compl, Fintype.card_fin, defaultQuorum]
    omega

end Committee

open Committee in
/-- Of five members any four share more than the one that may be faulty with any other four, and
three do not. The five make a committee, and if the last one is silent, the others are a quorum. -/
theorem default_quorum_least_of_five :
    IsLeast {q | Overlapping 5 q} 4 ∧ ¬ Overlapping 5 3 ∧
    (∃ c, make Overlap.members none = .ok c ∧ c.quorum = 4) ∧
    4 ≤ ({4} : Finset (Fin 5))ᶜ.card := by
  obtain ⟨hiff, -, -, hshares, -, hmake, -, hsilent⟩ := default_quorum_least_iff 5 (by decide)
  have hstorable : Storable Overlap.members := storable_iff.mpr (by decide)
  obtain ⟨c, hok, hasked⟩ := hmake Overlap.members none (by decide) rfl hstorable (Or.inr rfl)
  exact ⟨hiff.mpr (by decide), fun h => absurd ((hshares 3 (by decide)).mp h) (by decide),
    ⟨c, hok, hasked.demands⟩, hsilent {4} (by decide)⟩

namespace Divisible

/-- Six members. -/
def members : List MemberId := [0, 1, 2, 3, 4, 5].map .numbered

end Divisible

open Committee in
/-- Of six members any four share two with any other four, more than the one that may be faulty.
They pass the check without a warning, and six members make a committee with that quorum. The
default quorum is five. -/
theorem default_quorum_of_six_not_least :
    defaultQuorum 6 = 5 ∧ Overlapping 6 4 ∧ 6 + maxFaulty 6 < 2 * 4 ∧
    (∃ c, make Divisible.members (some 4) = .ok c ∧ c.quorum = 4) ∧
    ¬ IsLeast {q | Overlapping 6 q} (defaultQuorum 6) := by
  have hfour : Overlapping 6 4 := (overlapping_iff (by decide)).mpr (by decide)
  have hmake : ∃ c, make Divisible.members (some 4) = .ok c ∧ c.quorum = 4 :=
    ⟨⟨Divisible.members, 4, by decide, by decide, by decide⟩, rfl, rfl⟩
  exact ⟨rfl, hfour, by decide, hmake, fun hleast => absurd (hleast.2 hfour) (by decide)⟩

end HotStuff
