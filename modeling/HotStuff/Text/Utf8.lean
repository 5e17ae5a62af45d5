import HotStuff.Bytes

/-!
# UTF-8

Names and digits are written as UTF-8 bytes. `encode` is total; `decode?` accepts exactly the
well-formed sequences: shortest forms, no surrogates, nothing past U+10FFFF.

Keys may be written with blanks around them: `trimBytes` removes the characters with the Unicode
property `White_Space` from both ends of a text.
-/

namespace HotStuff.Utf8

/-- The bytes of one character. -/
def encodeChar (c : Char) : Bytes :=
  let n := c.toNat
  if n < 0x80 then [UInt8.ofNat n]
  else if n < 0x800 then [UInt8.ofNat (0xC0 + n / 64), UInt8.ofNat (0x80 + n % 64)]
  else if n < 0x10000 then
    [UInt8.ofNat (0xE0 + n / 4096), UInt8.ofNat (0x80 + n / 64 % 64), UInt8.ofNat (0x80 + n % 64)]
  else
    [UInt8.ofNat (0xF0 + n / 262144), UInt8.ofNat (0x80 + n / 4096 % 64),
      UInt8.ofNat (0x80 + n / 64 % 64), UInt8.ofNat (0x80 + n % 64)]

/-- The bytes of a sequence of characters. -/
def encode (s : List Char) : Bytes := s.flatMap encodeChar

/-- The low six bits of a continuation byte. -/
def continuation? (b : UInt8) : Option Nat :=
  if 0x80 ≤ b ∧ b < 0xC0 then some (b.toNat - 0x80) else none

/-- The character with code point `n`, if `n` is at least `least` and a scalar value. -/
def scalar? (least n : Nat) : Option Char :=
  if least ≤ n ∧ n.isValidChar then some (Char.ofNat n) else none

/-- The first character of a byte string and what follows it. -/
def decodeChar? : Bytes → Option (Char × Bytes)
  | [] => none
  | a :: rest =>
    if a < 0x80 then some (Char.ofNat a.toNat, rest)
    else if a < 0xC0 then none
    else if a < 0xE0 then
      match rest with
      | b :: rest => do
        let b ← continuation? b
        let c ← scalar? 0x80 ((a.toNat - 0xC0) * 64 + b)
        return (c, rest)
      | _ => none
    else if a < 0xF0 then
      match rest with
      | b :: c :: rest => do
        let b ← continuation? b
        let c ← continuation? c
        let d ← scalar? 0x800 (((a.toNat - 0xE0) * 64 + b) * 64 + c)
        return (d, rest)
      | _ => none
    else if a < 0xF8 then
      match rest with
      | b :: c :: d :: rest => do
        let b ← continuation? b
        let c ← continuation? c
        let d ← continuation? d
        let e ← scalar? 0x10000 ((((a.toNat - 0xF0) * 64 + b) * 64 + c) * 64 + d)
        return (e, rest)
      | _ => none
    else none

/-- Reads characters until the bytes end, at most `fuel` of them. -/
def decodeUpTo : Nat → Bytes → List Char → Option (List Char)
  | _, [], acc => some acc.reverse
  | 0, _ :: _, _ => none
  | fuel + 1, b :: bs, acc =>
    match decodeChar? (b :: bs) with
    | some (c, rest) => decodeUpTo fuel rest (c :: acc)
    | none => none

/-- The characters that `bs` is the encoding of. -/
def decode? (bs : Bytes) : Option (List Char) := decodeUpTo bs.length bs []

/-- Whether `bs` is the encoding of some characters. -/
def isValid (bs : Bytes) : Bool := (decode? bs).isSome

end HotStuff.Utf8

namespace HotStuff

/-- The UTF-8 bytes of a text. -/
def utf8 (s : String) : Bytes := Utf8.encode s.toList

/-- The text that `bs` encodes; bytes that encode none are read as Latin-1. -/
def Bytes.toText (bs : Bytes) : String :=
  match Utf8.decode? bs with
  | some s => String.ofList s
  | none => String.ofList (bs.map fun b => Char.ofNat b.toNat)

namespace Text

/-- Whether a character has the property `White_Space`. -/
def isBlank (c : Char) : Bool :=
  let n := c.toNat
  (0x9 ≤ n && n ≤ 0xD) || n == 0x20 || n == 0x85 || n == 0xA0 || n == 0x1680 ||
    (0x2000 ≤ n && n ≤ 0x200A) || n == 0x2028 || n == 0x2029 || n == 0x202F || n == 0x205F ||
    n == 0x3000

/-- A text without the blanks at its ends. -/
def trim (s : List Char) : List Char :=
  ((s.dropWhile isBlank).reverse.dropWhile isBlank).reverse

/-- The bytes of a text without the blanks at its ends; bytes that are no text are kept. -/
def trimBytes (bs : Bytes) : Bytes :=
  match Utf8.decode? bs with
  | some s => Utf8.encode (trim s)
  | none => bs

end Text

end HotStuff
