import HotStuff.Proofs.Certification
import HotStuff.Proofs.Scenario

/-!
# Quorums of a Committee

What the checks that build a committee and those that accept a certificate come to together. Which
certificates are accepted can be said without the order of the checks or of the seals, and the two
bounds on the quorum decide how many signers any two accepted certificates share, whatever ballots
they are for.

## Main results

* `Committee.make_ok`: the members and the quorum of a committee that was built.
* `Committee.verify_perm`: the order of the seals does not matter.
* `Committee.acceptance_exact`: what is accepted, and what accepted certificates have in common.
-/

namespace HotStuff

namespace Committee

variable {c : Committee} {scheme : Scheme} {cert cert' : Certificate} {members : List MemberId}
  {quorum : Option UInt64}

/-- A committee that was built has the members it was built from, and the default quorum unless
another one was asked for. -/
theorem make_ok (h : make members quorum = .ok c) :
    c.members = members ∧
      c.quorum = (quorum.map UInt64.toNat).getD (defaultQuorum members.length) := by
  rw [make] at h
  split at h
  · cases h
  split at h
  · cases h
  next hrepeat =>
  simp only at h
  split at h
  · cases h
  split at h
  · obtain rfl := Except.ok.inj h
    exact ⟨rfl, rfl⟩
  · cases h

/-- What a quorum has sealed does not depend on the order of the seals. -/
theorem Certifies.perm {seals : List Seal} (h : c.Certifies scheme cert)
    (hperm : seals.Perm cert.seals) : c.Certifies scheme ⟨cert.ballot, seals⟩ where
  member s hs := h.member s (hperm.mem_iff.mp hs)
  valid s hs := h.valid s (hperm.mem_iff.mp hs)
  nodup := (hperm.map Seal.signer).nodup_iff.mpr h.nodup
  quorum := hperm.length_eq ▸ h.quorum

/-- **Seals in any order.** A certificate is valid or not, whatever the order of its seals. -/
theorem verify_perm {ballot : Ballot} {seals seals' : List Seal} (hperm : seals.Perm seals')
    (h : c.verify scheme ⟨ballot, seals⟩ = .ok ()) : c.verify scheme ⟨ballot, seals'⟩ = .ok () := by
  rw [verify_eq_ok] at h ⊢
  rcases h with hgenesis | hcertifies
  · -- The genesis certificate has no seals to put in another order.
    obtain ⟨-, rfl⟩ := Certificate.mk.inj hgenesis
    obtain rfl := hperm.nil_eq
    exact Or.inl hgenesis
  · exact Or.inr (hcertifies.perm hperm.symm)

/-- **Acceptance is exact.** In a committee that was built, exactly those certificates are accepted
that are the genesis certificate, or carry valid seals of distinct members, a quorum of them; in
any order. Any two accepted ones other than the genesis certificate have a signer in common, and as
many as two quorums have to; with the default quorum these are more than may be faulty. -/
theorem acceptance_exact (hmake : make members quorum = .ok c) (scheme : Scheme) :
    (c.members = members ∧
      c.quorum = (quorum.map UInt64.toNat).getD (defaultQuorum members.length)) ∧
    (∀ cert, c.verify scheme cert = .ok () ↔
      cert = scheme.genesis ∨
        (∀ s ∈ cert.seals, s.signer ∈ members) ∧ (cert.seals.map Seal.signer).Nodup ∧
          (∀ s ∈ cert.seals, scheme.sealValid cert.ballot s) ∧ c.quorum ≤ cert.seals.length) ∧
    (∀ ballot seals seals', List.Perm seals seals' →
      (c.verify scheme ⟨ballot, seals⟩ = .ok () ↔ c.verify scheme ⟨ballot, seals'⟩ = .ok ())) ∧
    ∀ cert cert', c.verify scheme cert = .ok () → cert ≠ scheme.genesis →
      c.verify scheme cert' = .ok () → cert' ≠ scheme.genesis →
      1 ≤ 2 * c.quorum - members.length ∧
      2 * c.quorum - members.length ≤ (signers cert ∩ signers cert').card ∧
      (c.quorum = defaultQuorum members.length →
        maxFaulty members.length < (signers cert ∩ signers cert').card) := by
  obtain ⟨rfl, hquorum⟩ := make_ok hmake
  refine ⟨⟨rfl, hquorum⟩, fun cert => ?_, fun ballot seals seals' hperm => ?_, ?_⟩
  · rw [verify_eq_ok]
    refine or_congr Iff.rfl ⟨fun h => ⟨h.member, h.nodup, h.valid, h.quorum⟩, ?_⟩
    rintro ⟨hmember, hnodup, hvalid, hmany⟩
    exact ⟨hmember, hvalid, hnodup, hmany⟩
  · exact ⟨verify_perm hperm, verify_perm hperm.symm⟩
  · intro cert cert' hok hne hok' hne'
    have hcertifies := (verify_eq_ok.mp hok).resolve_left hne
    have hcertifies' := (verify_eq_ok.mp hok').resolve_left hne'
    have hcommon : 2 * c.quorum ≤ (signers cert ∩ signers cert').card + c.members.length :=
      hcertifies.two_mul_quorum_le hcertifies'
    have htwo := c.lt_two_mul_quorum
    refine ⟨Nat.sub_pos_of_lt htwo, Nat.sub_le_of_le_add hcommon, fun hdefault => ?_⟩
    have hmany := lt_two_mul_defaultQuorum c.size_pos
    rw [size, ← hdefault] at hmany
    omega

end Committee

namespace Overlap

/-- Five members. -/
def members : List MemberId := [0, 1, 2, 3, 4].map .numbered

/-- Some ballot. -/
def ballot (view : View) : Ballot := ⟨.prepare, view, ⟨⟨[0]⟩, [7]⟩⟩

/-- A committee in which any majority is a quorum. -/
def majority : Committee := ⟨members, 3, by decide, by decide, by decide⟩

end Overlap

open Overlap in
/-- With four members and the default quorum, two certificates for different ballots share two
signers, more than the one that may be faulty. With five members and any majority as a quorum, two
certificates share the one signer that they have to, which may be faulty. -/
theorem acceptance_exact_of_majority :
    Committee.make Committee.four.members none = .ok .four ∧
    Committee.maxFaulty 4 < (Committee.signers (.numbered (ballot 0) [0, 1, 2]) ∩
      Committee.signers (.numbered (ballot 1) [3, 2, 1])).card ∧
    Committee.make members (some 3) = .ok majority ∧
    1 ≤ (Committee.signers (.numbered (ballot 0) [0, 1, 2]) ∩
      Committee.signers (.numbered (ballot 1) [2, 3, 4])).card ∧
    ¬ Committee.maxFaulty 5 < (Committee.signers (.numbered (ballot 0) [0, 1, 2]) ∩
      Committee.signers (.numbered (ballot 1) [2, 3, 4])).card := by
  have hfour : Committee.make Committee.four.members none = .ok .four := rfl
  have hmajority : Committee.make members (some 3) = .ok majority := rfl
  obtain ⟨-, -, -, hcommon⟩ := Committee.acceptance_exact hfour .transparent
  obtain ⟨-, -, -, hcommon'⟩ := Committee.acceptance_exact hmajority .transparent
  obtain ⟨-, -, hmany⟩ := hcommon (.numbered (ballot 0) [0, 1, 2]) (.numbered (ballot 1) [3, 2, 1])
    (by decide +kernel) (by decide +kernel) (by decide +kernel) (by decide +kernel)
  obtain ⟨hone, htwo, -⟩ := hcommon' (.numbered (ballot 0) [0, 1, 2])
    (.numbered (ballot 1) [2, 3, 4])
    (by decide +kernel) (by decide +kernel) (by decide +kernel) (by decide +kernel)
  exact ⟨hfour, hmany (by decide), hmajority, hone.trans htwo, by decide +kernel⟩

end HotStuff
