import HotStuff.Text.Utf8

/-!
# Hexadecimal Text

Bytes are written as pairs of lower-case digits and read from digits of either case. A reading
fails on an odd number of digits first, then on a wrong length where one is fixed, and then on the
first byte that is no digit.

## Main results

* `decode_encode`: reading what was written gives the bytes back.
-/

namespace HotStuff.Hex

/-- Why a text is not the hexadecimal form of the bytes asked for. -/
inductive Fault where
  | oddLength
  | wrongLength
  | badDigit (byte : UInt8) (position : Nat)
  deriving DecidableEq, Repr

/-- The digit of a number below 16. -/
def digit (n : UInt8) : UInt8 := if n < 10 then 48 + n else 87 + n

/-- The number that a digit stands for. -/
def value? (b : UInt8) : Option UInt8 :=
  if 48 ≤ b ∧ b ≤ 57 then some (b - 48)
  else if 97 ≤ b ∧ b ≤ 102 then some (b - 87)
  else if 65 ≤ b ∧ b ≤ 70 then some (b - 55)
  else none

/-- Two digits for each byte. -/
def encode : Bytes → Bytes
  | [] => []
  | b :: rest => digit (b / 16) :: digit (b % 16) :: encode rest

/-- The text of `encode`. -/
def text (bs : Bytes) : String := String.ofList ((encode bs).map fun b => Char.ofNat b.toNat)

/-- The number of the digit at `position`. -/
def valueAt (b : UInt8) (position : Nat) : Except Fault UInt8 :=
  match value? b with
  | some v => .ok v
  | none => .error (.badDigit b position)

/-- Reads pairs of digits, the first of which is at `position`. -/
def decodePairs (position : Nat) : Bytes → Except Fault Bytes
  | a :: b :: rest =>
    match valueAt a position with
    | .error fault => .error fault
    | .ok high =>
      match valueAt b (position + 1) with
      | .error fault => .error fault
      | .ok low =>
        match decodePairs (position + 2) rest with
        | .error fault => .error fault
        | .ok bytes => .ok ((high * 16 + low) :: bytes)
  | _ => .ok []

/-- The bytes that a text of digits stands for. -/
def decode (s : Bytes) : Except Fault Bytes :=
  if s.length % 2 = 1 then .error .oddLength else decodePairs 0 s

/-- The `n` bytes that a text of digits stands for. -/
def decodeExact (n : Nat) (s : Bytes) : Except Fault (Vector UInt8 n) :=
  if s.length % 2 = 1 then .error .oddLength
  else if s.length ≠ 2 * n then .error .wrongLength
  else (decodePairs 0 s).map (Bytes.toVector n)

/-- A byte as a quoted Latin-1 character, with escapes for controls, quotes and what prints
nothing. -/
def quoted (b : UInt8) : String :=
  let code := String.ofList (Nat.toDigits 16 b.toNat)
  let shown :=
    if b = 0 then "\\0"
    else if b = 9 then "\\t"
    else if b = 10 then "\\n"
    else if b = 13 then "\\r"
    else if b = 39 then "\\'"
    else if b = 92 then "\\\\"
    else if b < 32 ∨ (127 ≤ b ∧ b ≤ 160) ∨ b = 173 then "\\u\x7b" ++ code ++ "\x7d"
    else String.singleton (Char.ofNat b.toNat)
  "'" ++ shown ++ "'"

/-- The wording of a fault. -/
def Fault.message : Fault → String
  | .oddLength => "Odd number of digits"
  | .wrongLength => "Invalid string length"
  | .badDigit byte position =>
    "Invalid character " ++ quoted byte ++ " at position " ++ toString position

/-! ### Reading back -/

/-- The digit for the upper half of a byte has the value of that half. -/
theorem value?_digit_high (b : UInt8) : value? (digit (b / 16)) = some (b / 16) :=
  Bytes.forall_byte (p := fun b => value? (digit (b / 16)) = some (b / 16)) (by decide +kernel) b

/-- The digit for the lower half of a byte has the value of that half. -/
theorem value?_digit_low (b : UInt8) : value? (digit (b % 16)) = some (b % 16) :=
  Bytes.forall_byte (p := fun b => value? (digit (b % 16)) = some (b % 16)) (by decide +kernel) b

/-- The two halves of a byte make up the byte. -/
theorem high_mul_add_low (b : UInt8) : b / 16 * 16 + b % 16 = b :=
  Bytes.forall_byte (p := fun b => b / 16 * 16 + b % 16 = b) (by decide +kernel) b

/-- Each byte is written as two digits. -/
@[simp] theorem length_encode (bs : Bytes) : (encode bs).length = 2 * bs.length := by
  induction bs with
  | nil => rfl
  | cons b rest ih => simp [encode, ih]; omega

/-- Pairs of digits are read back as the bytes that they were written for, wherever a reader starts
to count positions. -/
theorem decodePairs_encode (position : Nat) (bs : Bytes) :
    decodePairs position (encode bs) = .ok bs := by
  induction bs generalizing position with
  | nil => rfl
  | cons b rest ih =>
    simp [encode, decodePairs, valueAt, value?_digit_high, value?_digit_low, ih,
      high_mul_add_low]

/-- **Reading back.** The hexadecimal form of a byte string determines it. -/
theorem decode_encode (bs : Bytes) : decode (encode bs) = .ok bs := by
  simp [decode, decodePairs_encode]

end HotStuff.Hex
