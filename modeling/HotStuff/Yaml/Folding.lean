import HotStuff.Yaml.Placed
import HotStuff.Yaml.Scalar

/-!
# Folded Lines

A scalar in plain style or between quotes may go over several lines, and then its lines are folded:
one line feed between words reads as a blank, and of several breaks the first one is dropped.
Blanks on both sides of a break go with it.

## Main definitions

* `Yaml.Folded`: the text of such a scalar while it is read.
* `Yaml.singleQuoted`, `Yaml.doubleQuoted`: a scalar between quotes.
* `Yaml.plain`: a scalar without quotes.
-/

namespace HotStuff.Yaml

/-- The text of a scalar that is being read, the latest character first, and the space after its
last word. -/
structure Folded where
  text : List Char := []
  space : List Placed := []
  /-- Whether an escape took away the break in front of the space. -/
  joined : Bool := false

namespace Folded

variable (f : Folded)

/-- What the space reads as: blanks alone as they are; a single line feed as a blank; and of several
breaks all but the first, unless that one is no line feed. -/
def spaceText : List Char :=
  let space := f.space.reverse.map Placed.char
  match f.joined, space.filter isBreak with
  | true, breaks => breaks
  | false, [] => space
  | false, ['\n'] => [' ']
  | false, '\n' :: more => more
  | false, breaks => breaks

/-- The text with the space. -/
def settled : List Char := f.spaceText.reverse ++ f.text

/-- Adds a character of a word. -/
def word (c : Char) : Folded := { text := c :: f.settled }

/-- Adds a character of a word or of space. -/
def add (c : Placed) : Folded :=
  if isSpace c.char then { f with space := c :: f.space } else f.word c.char

/-- Adds a break that an escape takes away. -/
def join : Folded := { text := f.settled, joined := true }

/-- The text in reading order. -/
def close : List Char := f.settled.reverse

/-- Whether there is a break in the space. -/
def isBroken : Bool := f.space.any fun c => isBreak c.char

/-- Whether a tab stands in the space where a later line is to be indented. -/
def tabIndents (margin : Nat) : Bool :=
  f.space.any fun c =>
    c.char = '\t' && c.column < margin && f.space.getLast?.any fun first => first.line < c.line

end Folded

/-! ### Quotes -/

/-- The text up to a single quote, and what follows it. Two of them stand for one. -/
def singleQuoted (f : Folded) : List Placed → Option (List Char × List Placed)
  | [] => none
  | c :: rest =>
    if atMarker (c :: rest) then none
    else if c.char = '\'' then
      match rest with
      | d :: after =>
        if d.char = '\'' then singleQuoted (f.word '\'') after else some (f.close, d :: after)
      | [] => some (f.close, [])
    else singleQuoted (f.add c) rest

/-- What a letter after a backslash stands for. -/
def escape? (c : Char) : Option Char :=
  [('0', '\x00'), ('a', '\x07'), ('b', '\x08'), ('t', '\t'), ('\t', '\t'), ('n', '\n'),
    ('v', '\x0B'), ('f', '\x0C'), ('r', '\r'), ('e', '\x1B'), (' ', ' '), ('"', '"'), ('/', '/'),
    ('\\', '\\'), ('N', '\u0085'), ('_', '\u00A0'), ('L', '\u2028'), ('P', '\u2029')].lookup c

/-- How many hexadecimal digits follow a letter after a backslash. -/
def codeLength? (c : Char) : Option Nat := [('x', 2), ('u', 4), ('U', 8)].lookup c

/-- How much of an escape has been read. -/
inductive Escape where
  | outside
  /-- The backslash. -/
  | begun
  /-- The letter, and some digits of a character's number; how many are to come. -/
  | code (left value : Nat)

/-- The text up to a double quote, and what follows it. -/
def doubleQuoted (f : Folded) : Escape → List Placed → Option (List Char × List Placed)
  | _, [] => none
  | .outside, c :: rest =>
    if atMarker (c :: rest) then none
    else if c.char = '"' then some (f.close, rest)
    else if c.char = '\\' then doubleQuoted f .begun rest
    else doubleQuoted (f.add c) .outside rest
  | .begun, c :: rest =>
    if isBreak c.char then doubleQuoted f.join .outside rest
    else
      match escape? c.char, codeLength? c.char with
      | some e, _ => doubleQuoted (f.word e) .outside rest
      | none, some n => doubleQuoted f (.code n 0) rest
      | none, none => none
  | .code left value, c :: rest =>
    match ofDigits? 16 [c.char] with
    | none => none
    | some d =>
      let value := value * 16 + d
      if 1 < left then doubleQuoted f (.code (left - 1) value) rest
      else if value.isValidChar then doubleQuoted (f.word (Char.ofNat value)) .outside rest
      else none

/-! ### Plain style -/

/-- Whether a character ends an item in flow style. -/
def isFlowMark (c : Char) : Bool := [',', '[', ']', '{', '}'].contains c

/-- Whether a scalar without quotes may begin here. -/
def beginsPlain (flow : Bool) (c : Char) (rest : List Placed) : Bool :=
  if c = '-' then !endsWord rest
  else if c = '?' ∨ c = ':' then !flow && !endsWord rest
  else !isSpace c && !(",[]\x7b\x7d#&*!|>'\"%@\x60".toList.contains c)

/-- The words of a scalar without quotes, and what follows the space after them. It goes on over
the lines that are indented up to a margin, which no tab may do, and ends at a comment, at the
colon after a key and, in flow style, at what ends an item. There a colon in front of such a mark
is refused. -/
def plain (flow : Bool) (margin : Nat) (f : Folded) : List Placed → Option (Folded × List Placed)
  | [] => if f.tabIndents margin then none else some (f, [])
  | c :: rest =>
    let ends :=
      !f.space.isEmpty &&
        (c.char = '#' || atMarker (c :: rest) || (!flow && c.column < margin))
    let isMark := (c.char = ':' && endsWord rest) || (flow && isFlowMark c.char)
    if isSpace c.char then plain flow margin { f with space := c :: f.space } rest
    else if f.tabIndents margin then none
    else if ends then some (f, c :: rest)
    else if flow && c.char = ':' && nextIn ",?[]\x7b\x7d" rest then none
    else if isMark then some (f, c :: rest)
    else plain flow margin (f.word c.char) rest

end HotStuff.Yaml
