import Mathlib.Data.Finset.Card
import HotStuff.Committee

/-!
# Certificates and Quorums

A certificate other than the genesis certificate is valid exactly when its seals are those of a
quorum of distinct members over its ballot. Two of them share a signer that is not faulty, as long
as the faulty members are fewer than what two quorums have in common.

## Main results

* `Committee.verify_eq_ok`: validity of a certificate, without the order of the checks.
* `Committee.Certifies.two_mul_quorum_le`: how many signers two certificates share.
* `Committee.exists_common_signer`: two certificates share a signer outside any small set.
* `Committee.lt_two_mul_defaultQuorum`: the default quorum is large enough for `maxFaulty`.
-/

namespace HotStuff

namespace Committee

variable {c : Committee} {scheme : Scheme} {cert cert' : Certificate} {faulty : Finset MemberId}

/-- **A quorum has sealed the ballot**: the seals are valid and those of distinct members, a quorum
of them. -/
structure Certifies (c : Committee) (scheme : Scheme) (cert : Certificate) : Prop where
  member : ∀ s ∈ cert.seals, s.signer ∈ c.members
  valid : ∀ s ∈ cert.seals, scheme.sealValid cert.ballot s
  nodup : (cert.seals.map Seal.signer).Nodup
  quorum : c.quorum ≤ cert.seals.length

/-- The seals pass when they are valid, and those of members not seen before nor twice. -/
theorem checkSeals_eq_ok {ballot : Ballot} {seen signers : List MemberId} {seals : List Seal} :
    c.checkSeals scheme ballot seen seals = .ok signers ↔
      (∀ s ∈ seals, s.signer ∈ c.members ∧ s.signer ∉ seen ∧ scheme.sealValid ballot s) ∧
        (seals.map Seal.signer).Nodup ∧ signers = (seals.map Seal.signer).reverse ++ seen := by
  induction seals generalizing seen with
  | nil =>
      constructor
      · intro h
        obtain rfl := Except.ok.inj h
        exact ⟨by simp, List.nodup_nil, rfl⟩
      · rintro ⟨-, -, rfl⟩
        rfl
  | cons s rest ih =>
      rw [checkSeals]
      by_cases hmember : s.signer ∈ c.members
      · by_cases hseen : s.signer ∈ seen
        · simp [hmember, hseen]
        · by_cases hvalid : scheme.sealValid ballot s
          · rw [if_neg (not_not.mpr hmember), if_neg hseen, if_neg (by simp [hvalid]), ih]
            simp only [List.mem_cons, forall_eq_or_imp, hmember, hseen, hvalid, not_false_eq_true,
              true_and, and_true, not_or, List.map_cons, List.nodup_cons, List.reverse_cons,
              List.append_assoc, List.singleton_append, List.mem_map, not_exists, not_and]
            constructor
            · rintro ⟨hrest, hnodup, hsigners⟩
              exact ⟨fun t ht => ⟨(hrest t ht).1, (hrest t ht).2.1.2, (hrest t ht).2.2⟩,
                ⟨fun t ht => (hrest t ht).2.1.1, hnodup⟩, hsigners⟩
            · rintro ⟨hrest, ⟨hfresh, hnodup⟩, hsigners⟩
              exact ⟨fun t ht => ⟨(hrest t ht).1, ⟨hfresh t ht, (hrest t ht).2.1⟩,
                (hrest t ht).2.2⟩, hnodup, hsigners⟩
          · simp [hmember, hseen, hvalid]
      · simp [hmember]

/-- **Validity.** The genesis certificate is valid, and any other one that a quorum has sealed. -/
theorem verify_eq_ok :
    c.verify scheme cert = .ok () ↔ cert = scheme.genesis ∨ c.Certifies scheme cert := by
  rw [verify]
  by_cases hgenesis : cert = scheme.genesis
  · simp [hgenesis]
  · rw [if_neg hgenesis, or_iff_right hgenesis]
    cases hcheck : c.checkSeals scheme cert.ballot [] cert.seals with
    | error fault =>
        constructor
        · intro h
          cases h
        · rintro ⟨hmember, hvalid, hnodup, -⟩
          have hok := checkSeals_eq_ok.mpr
            ⟨fun s hs => ⟨hmember s hs, List.not_mem_nil, hvalid s hs⟩, hnodup, rfl⟩
          cases hcheck.symm.trans hok
    | ok signers =>
        obtain ⟨hseals, hnodup, rfl⟩ := checkSeals_eq_ok.mp hcheck
        have hlength : ((cert.seals.map Seal.signer).reverse ++ []).length = cert.seals.length := by
          simp
        simp only [hlength]
        constructor
        · intro h
          split at h
          · cases h
          · next hmany =>
              exact ⟨fun s hs => (hseals s hs).1, fun s hs => (hseals s hs).2.2, hnodup,
                Nat.not_lt.mp hmany⟩
        · intro h
          rw [if_neg (Nat.not_lt.mpr h.quorum)]

/-! ### Quorums -/

/-- The signers of a certificate. -/
def signers (cert : Certificate) : Finset MemberId := (cert.seals.map Seal.signer).toFinset

namespace Certifies

/-- A quorum has signed. -/
theorem quorum_le_card (h : c.Certifies scheme cert) : c.quorum ≤ (signers cert).card := by
  rw [signers, List.toFinset_card_of_nodup h.nodup, List.length_map]
  exact h.quorum

/-- The signers are members. -/
theorem signers_subset (h : c.Certifies scheme cert) : signers cert ⊆ c.members.toFinset := by
  intro m hm
  obtain ⟨s, hs, rfl⟩ := List.mem_map.mp (List.mem_toFinset.mp hm)
  exact List.mem_toFinset.mpr (h.member s hs)

end Certifies

/-- **Quorum intersection.** Two quorums have in common what they have more members than there
are. -/
theorem Certifies.two_mul_quorum_le (h : c.Certifies scheme cert)
    (h' : c.Certifies scheme cert') :
    2 * c.quorum ≤ (signers cert ∩ signers cert').card + c.size := by
  have hmembers : c.members.toFinset.card = c.size := List.toFinset_card_of_nodup c.nodup
  have hunion : (signers cert ∪ signers cert').card ≤ c.size := by
    rw [← hmembers]
    exact Finset.card_le_card (Finset.union_subset h.signers_subset h'.signers_subset)
  have hinter := Finset.card_union_add_card_inter (signers cert) (signers cert')
  have hq := h.quorum_le_card
  have hq' := h'.quorum_le_card
  omega

/-- Two certificates share a signer that is not faulty. -/
theorem exists_common_signer (hfew : c.size + faulty.card < 2 * c.quorum)
    (h : c.Certifies scheme cert) (h' : c.Certifies scheme cert') :
    ∃ s ∈ cert.seals, ∃ s' ∈ cert'.seals, s.signer = s'.signer ∧ s.signer ∉ faulty := by
  have hcommon := h.two_mul_quorum_le h'
  have hlt : faulty.card < (signers cert ∩ signers cert').card := by omega
  obtain ⟨m, hm, hcorrect⟩ := Finset.exists_mem_notMem_of_card_lt_card hlt
  obtain ⟨hm, hm'⟩ := Finset.mem_inter.mp hm
  obtain ⟨s, hs, rfl⟩ := List.mem_map.mp (List.mem_toFinset.mp hm)
  obtain ⟨s', hs', heq⟩ := List.mem_map.mp (List.mem_toFinset.mp hm')
  exact ⟨s, hs, s', hs', heq.symm, hcorrect⟩

/-- The default quorum tolerates `maxFaulty` faulty members. -/
theorem lt_two_mul_defaultQuorum {n : Nat} (hn : 0 < n) :
    n + maxFaulty n < 2 * defaultQuorum n := by
  simp only [defaultQuorum, maxFaulty]
  omega

end Committee

end HotStuff
