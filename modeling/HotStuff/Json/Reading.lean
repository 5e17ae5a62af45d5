import HotStuff.Json

/-!
# Reading JSON

`Json.parse` reads one JSON value that makes up all of a byte string, blanks apart. Blanks are the
four of the format. Nothing is said about why a text is refused.

## Main definitions

* `Json.scanString`: a string, up to its closing quote.
* `Json.scanNumber`: a number, in the format's grammar.
* `Json.parse`: a whole text.
-/

namespace HotStuff.Json

/-- Space, tab, line feed and carriage return. -/
def isBlank (b : UInt8) : Bool := b == 0x20 || b == 0x09 || b == 0x0A || b == 0x0D

/-- What follows the blanks in front. -/
def skipBlank (s : Bytes) : Bytes := s.dropWhile isBlank

/-- What follows a given word in front. -/
def after? : (word s : Bytes) → Option Bytes
  | [], s => some s
  | _ :: _, [] => none
  | w :: word, b :: s => if w = b then after? word s else none

/-! ### Strings -/

/-- A piece of a string: a byte, or a code unit of 16 bits from an escape. -/
inductive Piece where
  | byte (b : UInt8)
  | unit (n : Nat)

/-- The value of a hexadecimal digit. -/
def hexDigit? (b : UInt8) : Option Nat :=
  if 0x30 ≤ b ∧ b ≤ 0x39 then some (b.toNat - 0x30)
  else if 0x61 ≤ b ∧ b ≤ 0x66 then some (b.toNat - 0x57)
  else if 0x41 ≤ b ∧ b ≤ 0x46 then some (b.toNat - 0x37)
  else none

/-- The code unit in four hexadecimal digits. -/
def codeUnit? (a b c d : UInt8) : Option Nat := do
  return (((← hexDigit? a) * 16 + (← hexDigit? b)) * 16 + (← hexDigit? c)) * 16 + (← hexDigit? d)

/-- What a character after a backslash stands for. -/
def escape? (b : UInt8) : Option UInt8 :=
  if b = 0x22 ∨ b = 0x5C ∨ b = 0x2F then some b
  else if b = 0x62 then some 0x08
  else if b = 0x66 then some 0x0C
  else if b = 0x6E then some 0x0A
  else if b = 0x72 then some 0x0D
  else if b = 0x74 then some 0x09
  else none

/-- The pieces up to the closing quote, after those in `read`, which are in reverse order, and what
follows. Control characters are refused. -/
def scanString (read : List Piece) : Bytes → Option (List Piece × Bytes)
  | [] => none
  | 0x22 :: rest => some (read.reverse, rest)
  | 0x5C :: 0x75 :: a :: b :: c :: d :: rest =>
    match codeUnit? a b c d with
    | some n => scanString (.unit n :: read) rest
    | none => none
  | 0x5C :: e :: rest =>
    match escape? e with
    | some b => scanString (.byte b :: read) rest
    | none => none
  | b :: rest => if b < 0x20 then none else scanString (.byte b :: read) rest

/-- The bytes of the character with a given number. -/
def encodeScalar (n : Nat) : Bytes := Utf8.encodeChar (Char.ofNat n)

/-- The bytes of the pieces, after those in `read`, which are in reverse order. Code units past the
first plane come in pairs. -/
def joinPieces (read : Bytes) : List Piece → Option Bytes
  | [] => some read.reverse
  | .byte b :: rest => joinPieces (b :: read) rest
  | .unit n :: .unit m :: rest =>
    if 0xD800 ≤ n ∧ n < 0xDC00 then
      if 0xDC00 ≤ m ∧ m < 0xE000 then
        let scalar := 0x10000 + (n - 0xD800) * 0x400 + (m - 0xDC00)
        joinPieces ((encodeScalar scalar).reverse ++ read) rest
      else none
    else if 0xDC00 ≤ n ∧ n < 0xE000 then none
    else joinPieces ((encodeScalar n).reverse ++ read) (.unit m :: rest)
  | .unit n :: rest =>
    if 0xD800 ≤ n ∧ n < 0xE000 then none
    else joinPieces ((encodeScalar n).reverse ++ read) rest

/-- The text that pieces form: the escapes have to pair up, and the bytes to be UTF-8. -/
def textOf (pieces : List Piece) : Option Bytes :=
  match joinPieces [] pieces with
  | some bytes => if Utf8.isValid bytes then some bytes else none
  | none => none

/-! ### Numbers -/

/-- Whether a byte is a decimal digit. -/
def isDigit (b : UInt8) : Bool := 0x30 ≤ b && b ≤ 0x39

/-- The number that decimal digits denote. -/
def ofDigits (digits : Bytes) : Nat := digits.foldl (fun n b => n * 10 + (b.toNat - 0x30)) 0

/-- As many leading digits as stay below 2^64, as a number, and how many are left. -/
def significand (n : Nat) : Bytes → Nat × Nat
  | [] => (n, 0)
  | b :: rest =>
    let m := n * 10 + (b.toNat - 0x30)
    if m < Nat.pow 2 64 then significand m rest else (n, rest.length + 1)

/-- Whether a double can hold `digits`, the last `places` of them after the point, times ten to the
`exponent`. -/
def isFinite (digits : Bytes) (places : Nat) (exponent : Int) : Bool :=
  let (n, left) := significand 0 digits
  let scale := exponent - places + left
  n == 0 || scale ≤ 0 || (scale ≤ 308 &&
    !(Float.ofNat n * Float.ofScientific 1 false scale.toNat).isInf)

/-- The digits in front, of which there has to be at least one, and what follows. -/
def someDigits (s : Bytes) : Option (Bytes × Bytes) :=
  let digits := s.takeWhile isDigit
  if digits.isEmpty then none else some (digits, s.dropWhile isDigit)

/-- The digits before the point: a single zero, or none in front. -/
def integerPart (s : Bytes) : Option (Bytes × Bytes) :=
  match someDigits s with
  | some (0x30 :: _ :: _, _) => none
  | found => found

/-- The digits after the point, if there is one. -/
def fractionPart : Bytes → Option (Bytes × Bytes)
  | 0x2E :: rest => someDigits rest
  | s => some ([], s)

/-- The digits of an exponent after its sign. -/
def signedExponent (s : Bytes) : Option (Int × Bytes) :=
  match s with
  | 0x2D :: rest => (someDigits rest).map fun d => (-(ofDigits d.1 : Int), d.2)
  | 0x2B :: rest => (someDigits rest).map fun d => (ofDigits d.1, d.2)
  | _ => (someDigits s).map fun d => (ofDigits d.1, d.2)

/-- The exponent, if there is one, and whether there is. -/
def exponentPart : Bytes → Option ((Bool × Int) × Bytes)
  | 0x65 :: rest | 0x45 :: rest => (signedExponent rest).map fun e => ((true, e.1), e.2)
  | s => some ((false, 0), s)

/-- A number, and what follows it. -/
def scanNumber (s : Bytes) : Option (Json × Bytes) := do
  let (negative, s) := match s with
    | 0x2D :: rest => (true, rest)
    | _ => (false, s)
  let (whole, s) ← integerPart s
  let (fraction, s') ← fractionPart s
  let ((scaled, exponent), rest) ← exponentPart s'
  let n := ofDigits whole
  if !negative && fraction.isEmpty && !scaled && n < Nat.pow 2 64 then
    return (.natural (UInt64.ofNat n), rest)
  else return (.number (isFinite (whole ++ fraction) fraction.length exponent), rest)

/-! ### Values -/

/-- A word or a number. -/
def scanScalar (s : Bytes) : Option (Json × Bytes) :=
  match after? (utf8 "null") s with
  | some rest => some (.null, rest)
  | none =>
    match after? (utf8 "true") s with
    | some rest => some (.bool true, rest)
    | none =>
      match after? (utf8 "false") s with
      | some rest => some (.bool false, rest)
      | none => scanNumber s

mutual

/-- A value, and what follows it. Every value has at least one byte, so the length of the text is
fuel enough. -/
def scanValue : Nat → Bytes → Option (Json × Bytes)
  | 0, _ => none
  | fuel + 1, s =>
    match skipBlank s with
    | 0x22 :: rest => (scanString [] rest).map fun p => (.string (textOf p.1), p.2)
    | 0x5B :: rest =>
      match skipBlank rest with
      | 0x5D :: rest => some (.array [], rest)
      | _ => (scanItems fuel rest).map fun p => (.array p.1, p.2)
    | 0x7B :: rest =>
      match skipBlank rest with
      | 0x7D :: rest => some (.object [], rest)
      | _ => (scanMembers fuel rest).map fun p => (.object p.1, p.2)
    | s => scanScalar s

/-- The items of an array up to its end, at least one. -/
def scanItems : Nat → Bytes → Option (List Json × Bytes)
  | 0, _ => none
  | fuel + 1, s =>
    match scanValue fuel s with
    | none => none
    | some (item, s) =>
      match skipBlank s with
      | 0x5D :: rest => some ([item], rest)
      | 0x2C :: rest => (scanItems fuel rest).map fun p => (item :: p.1, p.2)
      | _ => none

/-- The members of an object up to its end, at least one. -/
def scanMembers : Nat → Bytes → Option (List (Option Bytes × Json) × Bytes)
  | 0, _ => none
  | fuel + 1, s =>
    match skipBlank s with
    | 0x22 :: s =>
      match scanString [] s with
      | none => none
      | some (name, s) =>
        match skipBlank s with
        | 0x3A :: s =>
          match scanValue fuel s with
          | none => none
          | some (value, s) =>
            match skipBlank s with
            | 0x7D :: rest => some ([(textOf name, value)], rest)
            | 0x2C :: rest =>
              (scanMembers fuel rest).map fun p => ((textOf name, value) :: p.1, p.2)
            | _ => none
        | _ => none
    | _ => none

end

/-- **Reading a text.** The one value that the text consists of. -/
def parse (s : Bytes) : Option Json :=
  match scanValue (s.length + 1) s with
  | some (value, rest) => if (skipBlank rest).isEmpty then some value else none
  | none => none

end HotStuff.Json
