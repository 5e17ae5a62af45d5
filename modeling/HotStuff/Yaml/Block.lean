import HotStuff.Yaml.Folding

/-!
# Block Scalars

A block scalar is a mark, then lines that are indented more than what is around them. Their
indentation is given after the mark as a digit, or else the first line with text shows it. The
literal style keeps the lines; the folded style joins those that do not begin with a blank. What
happens to the breaks at the end is told after the mark as well.

## Main definitions

* `Yaml.Chomping`: what happens to the breaks at the end.
* `Yaml.Block`: the text of such a scalar while it is read.
* `Yaml.blockScalar`: a block scalar after its mark.
-/

namespace HotStuff.Yaml

/-- How a block scalar ends: without a break, with the one that it has, or with all that follow. -/
inductive Chomping where
  | strip
  | clip
  | keep

/-- The text of a block scalar that is being read, the latest character first, and the breaks after
it in the same order. -/
structure Block where
  text : List Char := []
  /-- The break of the last line with text, if it has one. -/
  lastBreak : List Char := []
  /-- The breaks of the lines without text after it. -/
  voidBreaks : List Char := []
  /-- Whether the last line with text begins with a blank. -/
  blank : Bool := false

namespace Block

variable (b : Block)

/-- Begins a line with its first character. In a folded scalar a single line feed between two lines
that do not begin with a blank reads as a blank. -/
def beginLine (folded : Bool) (c : Char) : Block :=
  let joins := folded && b.lastBreak == ['\n'] && !b.blank && !isBlank c
  let between :=
    if !joins then b.lastBreak else if b.voidBreaks.isEmpty then [' '] else []
  { text := c :: (b.voidBreaks ++ between ++ b.text), blank := isBlank c }

/-- The text in reading order, with what is kept of the breaks at the end. -/
def close : Chomping → List Char
  | .strip => b.text.reverse
  | .clip => (b.lastBreak ++ b.text).reverse
  | .keep => (b.voidBreaks ++ b.lastBreak ++ b.text).reverse

end Block

/-- The lines of a block scalar, up to the first one that is indented less; a tab may not indent
any. `within` tells whether a line with text is being read. -/
def blockLines (folded : Bool) (indent : Nat) (b : Block) :
    (within : Bool) → List Placed → Option (Block × List Placed)
  | _, [] => some (b, [])
  | true, c :: rest =>
    if isBreak c.char then blockLines folded indent { b with lastBreak := [c.char] } false rest
    else blockLines folded indent { b with text := c.char :: b.text } true rest
  | false, c :: rest =>
    if isBreak c.char then
      blockLines folded indent { b with voidBreaks := c.char :: b.voidBreaks } false rest
    else if indent ≤ c.column then blockLines folded indent (b.beginLine folded c.char) true rest
    else if c.char = ' ' then blockLines folded indent b false rest
    else if c.char = '\t' then none
    else some (b, c :: rest)

/-- The spaces and breaks in front of the first line with text: the greatest width of the spaces,
the breaks, and what follows. -/
def leadingLines (width : Nat) (breaks : List Char) :
    List Placed → Option (Nat × List Char × List Placed)
  | [] => some (width, breaks, [])
  | c :: rest =>
    if isBreak c.char then leadingLines width (c.char :: breaks) rest
    else if c.char = ' ' then leadingLines (max width (c.column + 1)) breaks rest
    else if c.char = '\t' then none
    else some (width, breaks, c :: rest)

/-! ### The header -/

/-- What a sign after the mark says about the end, if there is one. -/
def takeChomping (s : List Placed) : Option Chomping × List Placed :=
  if nextIs '-' s then (some .strip, s.drop 1)
  else if nextIs '+' s then (some .keep, s.drop 1)
  else (none, s)

/-- The digit after the mark, or zero if there is none. It may not be zero itself. -/
def takeIndent : List Placed → Option (Nat × List Placed)
  | [] => some (0, [])
  | c :: rest =>
    if c.char = '0' then none
    else if c.char.isDigit then some (c.char.toNat - 48, rest)
    else some (0, c :: rest)

/-- A sign and a digit, in either order, up to the end of the line. -/
def blockHeader (s : List Placed) : Option (Chomping × Nat × List Placed) := do
  let (early, s) := takeChomping s
  let (indent, s) ← takeIndent s
  let (late, s) := if early.isSome then (none, s) else takeChomping s
  return ((early <|> late).getD .clip, indent, ← restOfLine? s)

/-- A block scalar after its mark, and what follows it. The block that it belongs to has its
contents at a margin. -/
def blockScalar (folded : Bool) (margin : Nat) (s : List Placed) :
    Option (List Char × List Placed) := do
  let (chomping, step, s) ← blockHeader s
  let (b, s) ←
    if step = 0 then
      let (width, voidBreaks, s) ← leadingLines 0 [] s
      blockLines folded (max width (max margin 1)) { voidBreaks } false s
    else blockLines folded (margin - 1 + step) {} false s
  return (b.close chomping, s)

end HotStuff.Yaml
