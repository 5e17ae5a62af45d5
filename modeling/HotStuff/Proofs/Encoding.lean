import Mathlib.Algebra.Group.Nat.Defs
import HotStuff.Encoding

/-!
# Encodings Can Be Read Back

What is signed determines what is meant. Every encoding here starts with fields of fixed width, or
with a length that says how far the next field goes, so it can be told where it ends in a longer
byte string. The tags keep the two kinds of signed layouts apart.

A length is written in eight bytes, so byte strings are taken to be shorter than that allows.

## Main definitions

* `Payload.Fits`, `Sealable.Fits`: the lengths can be written down.
* `Sealable`: what is sealed, a ballot or a statement.

## Main results

* `Ballot.fields_append_inj`, `Certificate.encode_injective`, `Statement.encode_injective`: layouts
  determine their fields.
* `Sealable.encode_injective`: what is sealed is determined by its encoding, its kind included.
* `encodings_unambiguous`: all of this together, and what a digest then says of a payload.
-/

namespace HotStuff

namespace Bytes

/-- The digits determine the number as far as they go. -/
theorem mod_of_bigEndian {width m n : Nat} (h : bigEndian width m = bigEndian width n) :
    m % 256 ^ width = n % 256 ^ width := by
  induction width with
  | zero => simp [Nat.mod_one]
  | succ width ih =>
      obtain ⟨hdigit, hrest⟩ := List.cons.inj h
      have hdigit : m / 256 ^ width % 256 = n / 256 ^ width % 256 := by
        simpa using congrArg UInt8.toNat hdigit
      rw [Nat.pow_succ, Nat.mod_mul, Nat.mod_mul, ih hrest, hdigit]

/-- Numbers that fit their width are told apart by what is written for them. -/
theorem bigEndian_injective {width m n : Nat} (hm : m < 256 ^ width) (hn : n < 256 ^ width)
    (h : bigEndian width m = bigEndian width n) : m = n := by
  have hmod := mod_of_bigEndian h
  rwa [Nat.mod_eq_of_lt hm, Nat.mod_eq_of_lt hn] at hmod

/-- Beyond the width, a number is cut off without notice. -/
theorem bigEndian_add_mul (width m k : Nat) :
    bigEndian width (m + 256 ^ width * k) = bigEndian width m := by
  induction width generalizing k with
  | zero => rfl
  | succ width ih =>
      have hshift : m + 256 ^ (width + 1) * k = m + 256 ^ width * (256 * k) := by
        rw [Nat.pow_succ, Nat.mul_assoc]
      have hdigit : (m + 256 ^ width * (256 * k)) / 256 ^ width = m / 256 ^ width + 256 * k :=
        Nat.add_mul_div_left _ _ (Nat.pow_pos (by decide))
      have hbyte : UInt8.ofNat (m / 256 ^ width + 256 * k) = UInt8.ofNat (m / 256 ^ width) :=
        UInt8.toNat_inj.mp (by simp)
      rw [hshift, bigEndian, bigEndian, ih (256 * k), Nat.pow_eq, hdigit, hbyte]

/-- A byte string after its length can be told from what comes after it. -/
theorem framed_append_inj {a b s t : Bytes} (ha : a.length < 2 ^ 64) (hb : b.length < 2 ^ 64)
    (h : framed a ++ s = framed b ++ t) : a = b ∧ s = t := by
  rw [framed, framed, List.append_assoc, List.append_assoc] at h
  obtain ⟨hlength, h⟩ := List.append_inj h (by simp)
  exact List.append_inj h (bigEndian_injective ha hb hlength)

end Bytes

/-- A view is written on eight bytes. -/
@[simp] theorem View.length_encode (view : View) : view.encode.length = 8 :=
  Bytes.length_bigEndian ..

/-- Views that are written alike are the same one: every view fits its eight bytes. -/
theorem View.encode_injective {v w : View} (h : v.encode = w.encode) : v = w :=
  UInt64.toNat_inj.mp (Bytes.bigEndian_injective v.toNat_lt w.toNat_lt h)

/-- A phase is written on one byte. -/
@[simp] theorem Phase.length_encode (phase : Phase) : phase.encode.length = 1 := rfl

/-- Phases that are written alike are the same one, as there are fewer ranks than bytes. -/
theorem Phase.encode_injective {p q : Phase} (h : p.encode = q.encode) : p = q := by
  have hrank : p.rank % 256 = q.rank % 256 := by
    simpa using congrArg UInt8.toNat (List.cons.inj h).1
  have hp := p.rank_lt
  have hq := q.rank_lt
  exact Phase.rank_injective (by omega)

namespace Payload

/-- The lengths of the parent and of the data can be written in eight bytes. -/
structure Fits (p : Payload) : Prop where
  parent : p.parent.bytes.length < 2 ^ 64
  data : p.data.length < 2 ^ 64

instance (p : Payload) : Decidable p.Fits :=
  decidable_of_iff (p.parent.bytes.length < 2 ^ 64 ∧ p.data.length < 2 ^ 64)
    ⟨fun ⟨hparent, hdata⟩ => ⟨hparent, hdata⟩, fun h => ⟨h.parent, h.data⟩⟩

/-- A payload that fits can be told from what comes after it, as both of its parts stand after their
lengths. -/
theorem encode_append_inj {p q : Payload} {s t : Bytes} (hp : p.Fits) (hq : q.Fits)
    (h : p.encode ++ s = q.encode ++ t) : p = q ∧ s = t := by
  rw [encode, encode, List.append_assoc, List.append_assoc] at h
  obtain ⟨hparent, h⟩ := Bytes.framed_append_inj hp.parent hq.parent h
  obtain ⟨hdata, hrest⟩ := Bytes.framed_append_inj hp.data hq.data h
  cases p with
  | mk parent data =>
    cases parent
    cases hparent
    cases hdata
    exact ⟨rfl, hrest⟩

/-- Payloads that fit and are written alike are the same one. -/
theorem encode_injective {p q : Payload} (hp : p.Fits) (hq : q.Fits)
    (h : p.encode = q.encode) : p = q := by
  have hpadded : p.encode ++ [] = q.encode ++ [] := by rw [h]
  exact (encode_append_inj hp hq hpadded).1

end Payload

namespace Ballot

/-- The fields of a ballot can be told from what comes after them. -/
theorem fields_append_inj {a b : Ballot} {s t : Bytes} (ha : a.payload.Fits) (hb : b.payload.Fits)
    (h : a.fields ++ s = b.fields ++ t) : a = b ∧ s = t := by
  simp only [fields, List.append_assoc] at h
  obtain ⟨hphase, h⟩ := List.append_inj h (by simp)
  obtain ⟨hview, h⟩ := List.append_inj h (by simp)
  obtain ⟨hpayload, hrest⟩ := Payload.encode_append_inj ha hb h
  cases a
  cases b
  simp only [Ballot.mk.injEq]
  exact ⟨⟨Phase.encode_injective hphase, View.encode_injective hview, hpayload⟩, hrest⟩

end Ballot

namespace Seal

/-- A seal is written on 96 bytes: a signer and a signature. -/
@[simp] theorem length_encode (s : Seal) : s.encode.length = 96 := by simp [encode]

/-- Seals that are written alike are the same one. -/
theorem encode_injective {s t : Seal} (h : s.encode = t.encode) : s = t := by
  obtain ⟨hsigner, hsignature⟩ := List.append_inj h (by simp)
  cases s
  cases t
  simp only [Seal.mk.injEq]
  exact ⟨MemberId.bytes_injective hsigner, Signature.bytes_injective hsignature⟩

/-- A seal is never written as nothing. So seals can be counted in what is written for a list of
them. -/
theorem encode_ne_nil (s : Seal) : s.encode ≠ [] :=
  List.ne_nil_of_length_pos (by simp)

/-- Seals in a row are told apart by their width, and need no count. -/
theorem flatMap_encode_injective {ss ts : List Seal}
    (h : ss.flatMap encode = ts.flatMap encode) : ss = ts := by
  induction ss generalizing ts with
  | nil =>
      cases ts with
      | nil => rfl
      | cons t ts =>
          have hnil : t.encode ++ ts.flatMap encode = [] := h.symm
          exact absurd (List.append_eq_nil_iff.mp hnil).1 t.encode_ne_nil
  | cons s ss ih =>
      cases ts with
      | nil =>
          have hnil : s.encode ++ ss.flatMap encode = [] := h
          exact absurd (List.append_eq_nil_iff.mp hnil).1 s.encode_ne_nil
      | cons t ts =>
          rw [List.flatMap_cons, List.flatMap_cons] at h
          obtain ⟨hhead, htail⟩ := List.append_inj h (by simp)
          rw [encode_injective hhead, ih htail]

end Seal

/-- Certificates that fit and are written alike are the same one, with all their seals in the same
order. -/
theorem Certificate.encode_injective {c d : Certificate} (hc : c.payload.Fits)
    (hd : d.payload.Fits) (h : c.encode = d.encode) : c = d := by
  rw [encode, encode, List.append_assoc, List.append_assoc] at h
  obtain ⟨hballot, h⟩ := Ballot.fields_append_inj hc hd h
  obtain ⟨-, hseals⟩ := List.append_inj h (by simp)
  cases c
  cases d
  simp only [Certificate.mk.injEq]
  exact ⟨hballot, Seal.flatMap_encode_injective hseals⟩

/-- Ballots that fit and are written alike are the same one. -/
theorem Ballot.encode_injective {a b : Ballot} (ha : a.payload.Fits) (hb : b.payload.Fits)
    (h : a.encode = b.encode) : a = b := by
  obtain ⟨-, hfields⟩ := List.append_inj h rfl
  have hpadded : a.fields ++ [] = b.fields ++ [] := by rw [hfields]
  exact (fields_append_inj ha hb hpadded).1

namespace Statement

/-- The lengths in a statement and in its certificate can be written down. -/
structure Fits (st : Statement) : Prop where
  payload : st.payload.Fits
  justify : st.justify.payload.Fits

instance (st : Statement) : Decidable st.Fits :=
  decidable_of_iff (st.payload.Fits ∧ st.justify.payload.Fits)
    ⟨fun ⟨hpayload, hjustify⟩ => ⟨hpayload, hjustify⟩, fun h => ⟨h.payload, h.justify⟩⟩

/-- Statements that fit and are written alike are the same one. -/
theorem encode_injective {a b : Statement} (ha : a.Fits) (hb : b.Fits)
    (h : a.encode = b.encode) : a = b := by
  simp only [encode, List.append_assoc] at h
  obtain ⟨-, h⟩ := List.append_inj h rfl
  obtain ⟨hview, h⟩ := List.append_inj h (by simp)
  obtain ⟨hphase, h⟩ := List.append_inj h (by simp)
  obtain ⟨hpayload, hjustify⟩ := Payload.encode_append_inj ha.payload hb.payload h
  cases a
  cases b
  simp only [Statement.mk.injEq]
  exact ⟨View.encode_injective hview, Phase.encode_injective hphase, hpayload,
    Certificate.encode_injective ha.justify hb.justify hjustify⟩

end Statement

/-! ### What is sealed -/

/-- What a member puts its seal on. -/
inductive Sealable where
  | ballot (ballot : Ballot)
  | statement (statement : Statement)
  deriving DecidableEq, Repr

namespace Sealable

/-- The bytes whose digest is signed. -/
def encode : Sealable → Bytes
  | ballot b => b.encode
  | statement st => st.encode

/-- The lengths in what is sealed can be written down. -/
def Fits : Sealable → Prop
  | ballot b => b.payload.Fits
  | statement st => st.Fits

instance : DecidablePred Fits
  | ballot b => inferInstanceAs (Decidable b.payload.Fits)
  | statement st => inferInstanceAs (Decidable st.Fits)

/-- The tags tell ballots from statements: they differ in their ninth byte. -/
theorem ballot_encode_ne (b : Ballot) (st : Statement) : b.encode ≠ st.encode := by
  intro h
  have hninth := congrArg (fun bytes => bytes[8]?) h
  have hballot : b.encode[8]? = Ballot.tag[8]? := List.getElem?_append_left (by decide)
  have hstatement : st.encode[8]? = Statement.tag[8]? := by
    simp only [Statement.encode, List.append_assoc]
    exact List.getElem?_append_left (by decide)
  have htags : Ballot.tag[8]? ≠ Statement.tag[8]? := by decide
  exact htags (hballot.symm.trans (hninth.trans hstatement))

/-- **What is sealed is determined by its encoding.** -/
theorem encode_injective {x y : Sealable} (hx : x.Fits) (hy : y.Fits) (h : x.encode = y.encode) :
    x = y := by
  cases x with
  | ballot a =>
      cases y with
      | ballot b => exact congrArg ballot (Ballot.encode_injective hx hy h)
      | statement st => exact absurd h (ballot_encode_ne a st)
  | statement a =>
      cases y with
      | ballot b => exact absurd h.symm (ballot_encode_ne b a)
      | statement st => exact congrArg statement (Statement.encode_injective hx hy h)

end Sealable

/-! ### Nothing can be read in two ways -/

/-- **Unambiguous encodings.** A ballot, a statement with every seal of its certificate, and a
payload are determined by their encodings, and no encoding is that of a ballot and of a statement
at once. So payloads with one digest are equal, unless the hash function collides on the bytes that
are hashed for them. -/
theorem encodings_unambiguous :
    (∀ a b : Ballot, a.payload.Fits → b.payload.Fits → a.encode = b.encode → a = b) ∧
    (∀ a b : Statement, a.Fits → b.Fits → a.encode = b.encode → a = b) ∧
    (∀ (a : Ballot) (b : Statement), a.encode ≠ b.encode) ∧
    (∀ p q : Payload, p.Fits → q.Fits → p.encode = q.encode → p = q) ∧
    ∀ (scheme : Scheme) (p q : Payload), p.Fits → q.Fits →
      scheme.payloadDigest p = scheme.payloadDigest q →
        p = q ∨ p.encode ≠ q.encode ∧ scheme.hash p.encode = scheme.hash q.encode := by
  refine ⟨fun _ _ => Ballot.encode_injective, fun _ _ => Statement.encode_injective,
    Sealable.ballot_encode_ne, fun _ _ => Payload.encode_injective, ?_⟩
  intro scheme p q hp hq hdigest
  by_cases hsame : p.encode = q.encode
  · exact Or.inl (Payload.encode_injective hp hq hsame)
  · exact Or.inr ⟨hsame, hdigest⟩

namespace Wrapping

/-- A payload. -/
def payload : Payload := ⟨⟨[0]⟩, [1, 2]⟩

/-- The same bytes, split elsewhere. -/
def split : Payload := ⟨⟨[0, 1]⟩, [2]⟩

/-- Some seal. -/
def stamp : Seal := ⟨⟨Vector.replicate 32 0⟩, ⟨Vector.replicate 64 0⟩⟩

/-- A statement whose certificate carries the seal a number of times. -/
def statement (n : Nat) : Statement :=
  ⟨0, .prepare, payload, ⟨⟨.newView, 0, payload⟩, List.replicate n stamp⟩⟩

end Wrapping

open Wrapping in
/-- Payloads with the same bytes split in two ways have two encodings; and so have statements with
`0` and with `2 ^ 32` seals, although the field that counts the seals is the same in both. -/
theorem encodings_unambiguous_past_the_count :
    payload.encode ≠ split.encode ∧
    Bytes.bigEndian 4 (statement (2 ^ 32)).justify.seals.length =
      Bytes.bigEndian 4 (statement 0).justify.seals.length ∧
    (statement (2 ^ 32)).encode ≠ (statement 0).encode := by
  obtain ⟨-, hdetermined, -, hsplit, -⟩ := encodings_unambiguous
  have hpayload : payload.Fits := by decide
  have hfits (n : Nat) : (statement n).Fits := ⟨hpayload, hpayload⟩
  have hlength (n : Nat) : (statement n).justify.seals.length = n := List.length_replicate
  refine ⟨fun h => absurd (hsplit _ _ hpayload (by decide) h) (by decide), ?_, fun h => ?_⟩
  · rw [hlength, hlength]
    exact Bytes.bigEndian_add_mul 4 0 1
  · have hcount := congrArg (fun st : Statement => st.justify.seals.length)
      (hdetermined _ _ (hfits _) (hfits _) h)
    simp only [hlength] at hcount
    exact absurd hcount (by decide)

end HotStuff
