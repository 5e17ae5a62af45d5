/-!
# Byte Strings

Byte strings are lists of bytes: everything that is hashed, signed or sent is one, and lists are
what proofs recurse on. `bigEndian` carries the fixed-width integers of the canonical encodings, and
`littleEndian` the numbers of the curve.
-/

namespace HotStuff

/-- A byte string. -/
abbrev Bytes := List UInt8

namespace Bytes

/-- The last `width` base-256 digits of `n`, most significant first. -/
def bigEndian : Nat → Nat → Bytes
  | 0, _ => []
  | width + 1, n => UInt8.ofNat (n / Nat.pow 256 width) :: bigEndian width n

/-- The last `width` base-256 digits of `n`, least significant first. -/
def littleEndian : Nat → Nat → Bytes
  | 0, _ => []
  | width + 1, n => UInt8.ofNat n :: littleEndian width (n / 256)

/-- The order of byte strings: by the first byte that differs, a shorter one before its
continuations. -/
def le : Bytes → Bytes → Bool
  | [], _ => true
  | _ :: _, [] => false
  | a :: as, b :: bs => if a = b then le as bs else a < b

/-- The number whose base-256 digits, least significant first, are `bs`. -/
def ofLittleEndian (bs : Bytes) : Nat := bs.foldr (fun b n => n * 256 + b.toNat) 0

/-- A number written on some bytes takes just these, whether it fits or not. -/
@[simp] theorem length_bigEndian (width n : Nat) : (bigEndian width n).length = width := by
  induction width with
  | zero => rfl
  | succ width ih => simp [bigEndian, ih]

/-- The same with the lowest byte first. -/
@[simp] theorem length_littleEndian (width n : Nat) : (littleEndian width n).length = width := by
  induction width generalizing n with
  | zero => rfl
  | succ width ih => simp [littleEndian, ih]

/-- The first `n` bytes as a vector, filled up with zeros. -/
def toVector (n : Nat) (bs : Bytes) : Vector UInt8 n :=
  ⟨(bs.take n ++ List.replicate (n - bs.length) 0).toArray, by simp; omega⟩

/-- A property of all bytes can be checked on the 256 of them. -/
theorem forall_byte {p : UInt8 → Prop} (h : ∀ n : Fin 256, p (UInt8.ofFin n)) (b : UInt8) : p b :=
  h b.toFin

end Bytes

end HotStuff
