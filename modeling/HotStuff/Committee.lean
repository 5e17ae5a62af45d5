import HotStuff.Encoding
import HotStuff.Error

/-!
# The Committee

A committee is a list of distinct members, in the order in which they lead, with a quorum: more than
half of them and not more than all. Any two quorums then share a member. A certificate is valid if
it is the genesis certificate, or carries the valid seals of distinct members, a quorum of them.

## Main definitions

* `Committee.make`: the checks that build a committee.
* `Committee.leader`: round-robin leadership.
* `Committee.verify`: validity of a certificate.
-/

namespace HotStuff

/-- A fixed committee, in rotation order. -/
structure Committee where
  members : List MemberId
  /-- The number of distinct votes that a certificate needs. -/
  quorum : Nat
  /-- No member is listed twice. -/
  nodup : members.Nodup
  /-- Two quorums share a member. -/
  lt_two_mul_quorum : members.length < 2 * quorum
  /-- All members together are a quorum. -/
  quorum_le : quorum ≤ members.length

namespace Committee

/-- The number of faulty members that a committee of `n` tolerates. -/
def maxFaulty (n : Nat) : Nat := (n - 1) / 3

/-- The smallest quorum of `n` members that tolerates `maxFaulty n` of them. -/
def defaultQuorum (n : Nat) : Nat := n - maxFaulty n

/-- The first member of a list that occurs in `seen` or earlier in the list. -/
def firstRepeat (seen : List MemberId) : List MemberId → Option MemberId
  | [] => none
  | m :: rest => if m ∈ seen then some m else firstRepeat (m :: seen) rest

/-- Where no member is found twice, none is listed twice, and none is among those seen before. -/
theorem nodup_of_firstRepeat_eq_none {seen ms : List MemberId}
    (h : firstRepeat seen ms = none) : ms.Nodup ∧ ∀ m ∈ ms, m ∉ seen := by
  induction ms generalizing seen with
  | nil => simp
  | cons m rest ih =>
    simp only [firstRepeat] at h
    split at h
    · cases h
    · next hm =>
      obtain ⟨hn, hs⟩ := ih h
      refine ⟨List.nodup_cons.mpr ⟨fun hmem => hs m hmem (by simp), hn⟩, fun x hx => ?_⟩
      rcases List.mem_cons.mp hx with rfl | hx
      · exact hm
      · exact fun hxs => hs x hx (List.mem_cons_of_mem _ hxs)

/-- Builds a committee, with the default quorum unless one is given. The product that compares the
quorum with the number of members has to fit into 64 bits. -/
def make (members : List MemberId) (quorum : Option UInt64) : Outcome Committee :=
  if members.isEmpty then refuse .emptyCommittee
  else
    match hr : firstRepeat [] members with
    | some m => refuse (.duplicateMember m)
    | none =>
      let n := members.length
      let q := (quorum.map UInt64.toNat).getD (defaultQuorum n)
      if Nat.pow 2 64 ≤ q * 2 then .error (.overflow .multiply)
      else if h : n < 2 * q ∧ q ≤ n then
        .ok ⟨members, q, (nodup_of_firstRepeat_eq_none hr).1, h.1, h.2⟩
      else refuse (.invalidQuorum q n)

variable (c : Committee)

/-- The number of members. -/
def size : Nat := c.members.length

/-- A committee has members, so positions can be counted modulo their number. -/
theorem size_pos : 0 < c.size := by
  have := c.lt_two_mul_quorum
  have := c.quorum_le
  simp only [size]
  omega

/-- Whether `m` is a member. -/
def contains (m : MemberId) : Bool := decide (m ∈ c.members)

/-- The position of a member in rotation order. -/
def indexOf? (m : MemberId) : Option Nat := c.members.idxOf? m

/-- **Rotation.** The leader of a view: the members take turns in their order. -/
def leader (view : View) : MemberId :=
  c.members.get ⟨view.toNat % c.size, Nat.mod_lt _ c.size_pos⟩

/-- Whether `m` leads `view`. -/
def isLeader (m : MemberId) (view : View) : Bool := decide (c.leader view = m)

/-! ### Certificates -/

/-- Checks the seals over a ballot one after the other; `seen` are the signers of those before. The
result is the list of all signers. -/
def checkSeals (scheme : Scheme) (ballot : Ballot) :
    (seen : List MemberId) → List Seal → Except CertificateFault (List MemberId)
  | seen, [] => .ok seen
  | seen, s :: rest =>
    if s.signer ∉ c.members then .error (.notMember s.signer)
    else if s.signer ∈ seen then .error (.repeatedVote s.signer)
    else if !scheme.sealValid ballot s then .error (.badSeal s.signer)
    else checkSeals scheme ballot (s.signer :: seen) rest

/-- **Validity of a certificate.** The genesis certificate is valid as it is; any other needs a
quorum of distinct members' seals, each over its ballot. -/
def verify (scheme : Scheme) (cert : Certificate) : Except Error Unit :=
  if cert = scheme.genesis then .ok ()
  else
    match c.checkSeals scheme cert.ballot [] cert.seals with
    | .error fault => .error (.invalidCertificate fault)
    | .ok signers =>
      if signers.length < c.quorum then
        .error (.invalidCertificate (.tooFewVotes signers.length c.quorum))
      else .ok ()

end Committee

end HotStuff
