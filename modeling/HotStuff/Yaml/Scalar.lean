/-!
# Scalars

A scalar is a text that is written in one of five styles. The plain one, without quotes, may also
stand for nothing, a truth value or a number; a text that looks like one of those has to be written
in another style.

## Main definitions

* `Yaml.Style`: how a scalar is written.
* `Yaml.isNullWord`, `Yaml.naturalOf?`: what a plain scalar stands for.
* `Yaml.readsOtherwise`: whether a text would be taken for something else if written in plain style.
-/

namespace HotStuff.Yaml

/-- How a scalar is written: without quotes, between quotes of one of two kinds, or as a block of
lines that are kept or joined. -/
inductive Style where
  | plain
  | singleQuoted
  | doubleQuoted
  | literal
  | folded
  deriving DecidableEq, Repr

/-! ### Words -/

/-- The words for nothing. -/
def isNullWord (s : List Char) : Bool :=
  [[], ['~'], "null".toList, "Null".toList, "NULL".toList].contains s

/-- The words for truth values. -/
def isBoolWord (s : List Char) : Bool :=
  ["true".toList, "True".toList, "TRUE".toList, "false".toList, "False".toList,
    "FALSE".toList].contains s

/-! ### Numbers -/

/-- The value of a digit in any base up to 36. -/
def digit? (c : Char) : Option Nat :=
  if '0' ≤ c ∧ c ≤ '9' then some (c.toNat - 48)
  else if 'a' ≤ c ∧ c ≤ 'z' then some (c.toNat - 87)
  else if 'A' ≤ c ∧ c ≤ 'Z' then some (c.toNat - 55)
  else none

/-- The number that the digits of a base denote; there has to be one. -/
def ofDigits? (base : Nat) (s : List Char) : Option Nat :=
  if s.isEmpty then none
  else
    s.foldlM
      (fun n c => (digit? c).bind fun d => if d < base then some (n * base + d) else none)
      0

/-- A text without a sign in front. -/
def unsigned (sign : Char) (s : List Char) : List Char :=
  if s.head? = some sign then s.drop 1 else s

/-- Whether a text is a number but for zeros in front of its digits, which make it a word. -/
def hasLeadingZero (s : List Char) : Bool :=
  let s := if s.head? = some '-' then s.drop 1 else unsigned '+' s
  1 < s.length && s.head? = some '0' && s.all Char.isDigit

/-- The base that a number is marked with, and its digits. -/
def based? : List Char → Option (Nat × List Char)
  | '0' :: 'x' :: rest => some (16, rest)
  | '0' :: 'o' :: rest => some (8, rest)
  | '0' :: 'b' :: rest => some (2, rest)
  | _ => none

/-- The natural number that a scalar without quotes denotes, in any of four bases. -/
def naturalOf? (s : List Char) : Option Nat :=
  let body := unsigned '+' s
  match (based? body).bind fun b => ofDigits? b.1 b.2 with
  | some n => some n
  | none => if hasLeadingZero s then none else ofDigits? 10 body

/-- Whether a scalar denotes a negative number. -/
def isNegative : List Char → Bool
  | '-' :: rest =>
    ((based? rest).bind fun b => ofDigits? b.1 b.2).any (· ≤ Nat.pow 2 127) ||
      (!hasLeadingZero rest && (ofDigits? 10 rest).any (· ≤ Nat.pow 2 127))
  | _ => false

/-- Whether digits times a power of ten stay below what rounds to infinity as a double. -/
def isBelowInfinity (mantissa : Nat) (exponent : Int) : Bool :=
  let limit := Nat.pow 2 1024 - Nat.pow 2 970
  if mantissa = 0 then true
  else if 400 < exponent then false
  else if 0 ≤ exponent then mantissa * Nat.pow 10 exponent.toNat < limit
  else if exponent < -100000 then true
  else mantissa < limit * Nat.pow 10 (-exponent).toNat

/-- Whether a text is a decimal fraction in the range of doubles, with or without an exponent. -/
def isFraction (s : List Char) : Bool :=
  let body := if s.head? = some '-' then s.drop 1 else unsigned '+' s
  let whole := body.takeWhile Char.isDigit
  let afterWhole := body.drop whole.length
  let (fraction, rest) := match afterWhole with
    | '.' :: r => (r.takeWhile Char.isDigit, r.dropWhile Char.isDigit)
    | r => ([], r)
  let mantissa := (ofDigits? 10 (whole ++ fraction)).getD 0
  if whole.isEmpty && fraction.isEmpty then false
  else
    match rest with
    | [] => isBelowInfinity mantissa (-(fraction.length : Int))
    | c :: power =>
      if c = 'e' ∨ c = 'E' then
        let negative := power.head? = some '-'
        let digits := if negative then power.drop 1 else unsigned '+' power
        match ofDigits? 10 digits with
        | some n =>
          isBelowInfinity mantissa ((if negative then -(n : Int) else n) - fraction.length)
        | none => false
      else false

/-- The words for infinity and for no number. -/
def isSpecialNumber (s : List Char) : Bool :=
  let body := unsigned '+' s
  [".inf".toList, ".Inf".toList, ".INF".toList].contains body ||
    ["-.inf".toList, "-.Inf".toList, "-.INF".toList, ".nan".toList, ".NaN".toList,
      ".NAN".toList].contains s

/-- Whether a text without quotes would be taken for a number. -/
def isNumeric (s : List Char) : Bool :=
  (naturalOf? s).any (· < Nat.pow 2 128) || isNegative s || isSpecialNumber s || isFraction s

/-- **What needs quotes.** Whether a text without quotes would be taken for nothing, a truth value
or a number, or looks like a number. -/
def readsOtherwise (s : List Char) : Bool :=
  isNullWord s || isBoolWord s || isNumeric s || hasLeadingZero s

end HotStuff.Yaml
