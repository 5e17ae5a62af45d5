import HotStuff.Json
import HotStuff.Yaml.Placed
import HotStuff.Yaml.Scalar

/-!
# Writing YAML

A JSON value is written as a YAML document that says the same. Mappings and sequences are written
in block style, a mapping two columns inside the one around it and the items of a sequence right
below their key. A text is written in the plainest style from which it reads back: without quotes,
in single quotes, or with escapes in double quotes; a text of several lines is written as a literal
block, unless it ends a line in a blank or holds a character that needs an escape.

## Main definitions

* `Yaml.styleOf`: the style that is chosen for a text.
* `Yaml.written`: a text in its style.
* `Yaml.render`: a whole document.
-/

namespace HotStuff.Yaml

/-- Whether a character needs no escape. -/
def isPrintable (c : Char) : Bool :=
  let n := c.toNat
  n == 0xA || (0x20 ≤ n && n ≤ 0x7E) || (0xA0 ≤ n && n ≤ 0xFFFD && c != orderMark) || 0x10000 ≤ n

/-- Whether a line of the text ends in a blank that another line follows. -/
def hasBlankBeforeBreak : List Char → Bool
  | ' ' :: c :: rest => isBreak c || hasBlankBeforeBreak (c :: rest)
  | _ :: rest => hasBlankBeforeBreak rest
  | [] => false

/-- Whether a line of the text but the first begins with a blank. -/
def hasBlankAfterBreak : List Char → Bool
  | c :: ' ' :: rest => isBreak c || hasBlankAfterBreak (' ' :: rest)
  | _ :: rest => hasBlankAfterBreak rest
  | [] => false

/-- Whether a blank, a break, a zero character or the end comes next. -/
def isWordEnd : List Char → Bool
  | [] => true
  | c :: _ => isSpace c || c = '\x00'

/-- Whether the beginning of a text would be taken for something else than a scalar. -/
def beginsOtherwise (s : List Char) : Bool :=
  s.take 3 == ['-', '-', '-'] || s.take 3 == ['.', '.', '.'] ||
    match s with
    | [] => false
    | c :: rest =>
      ",[]\x7b\x7d#&*!|>'\"%@\x60".toList.contains c ||
        (['-', '?', ':'].contains c && isWordEnd rest)

/-- Whether the end of a key or a comment would be seen inside a text. -/
def holdsIndicator : List Char → Bool
  | a :: b :: rest =>
    (b = ':' && isWordEnd rest) || (b = '#' && isWordEnd [a]) || holdsIndicator (b :: rest)
  | _ => false

/-- Whether a text begins or ends with a blank, or holds a break. -/
def losesSpace (s : List Char) : Bool :=
  s.head? = some ' ' || s.getLast? = some ' ' || s.any isBreak

/-- **The style of a text.** -/
def styleOf (s : List Char) : Style :=
  let needsEscapes := hasBlankBeforeBreak s || !s.all isPrintable
  if s.contains '\n' then
    if needsEscapes || s.getLast? = some ' ' then .doubleQuoted else .literal
  else if needsEscapes then .doubleQuoted
  else if readsOtherwise s || beginsOtherwise s || holdsIndicator s || losesSpace s then
    if hasBlankAfterBreak s then .doubleQuoted else .singleQuoted
  else .plain

/-! ### Scalars -/

/-- The digits of a character's number in base 16, as many as asked for. -/
def codeDigits (places n : Nat) : List Char :=
  let digits := (Nat.toDigits 16 n).map Char.toUpper
  List.replicate (places - digits.length) '0' ++ digits

/-- The letter that stands for a character after a backslash, if there is one. -/
def escapeLetter? (c : Char) : Option Char :=
  [('\x00', '0'), ('\x07', 'a'), ('\x08', 'b'), ('\t', 't'), ('\n', 'n'), ('\x0B', 'v'),
    ('\x0C', 'f'), ('\r', 'r'), ('\x1B', 'e'), ('"', '"'), ('\\', '\\'), ('\u0085', 'N'),
    ('\u2028', 'L'), ('\u2029', 'P')].lookup c

/-- A character between double quotes. -/
def escaped (c : Char) : List Char :=
  match escapeLetter? c with
  | some letter => ['\\', letter]
  | none =>
    if isPrintable c then [c]
    else if c.toNat ≤ 0xFF then '\\' :: 'x' :: codeDigits 2 c.toNat
    else if c.toNat ≤ 0xFFFF then '\\' :: 'u' :: codeDigits 4 c.toNat
    else '\\' :: 'U' :: codeDigits 8 c.toNat

/-- A text between single quotes, which are doubled; a line after a break is indented. `fresh` tells
whether a break came last. -/
def quoted (indent : Nat) (fresh : Bool) : List Char → List Char
  | [] => if fresh then List.replicate indent ' ' else []
  | c :: rest =>
    if isBreak c then c :: quoted indent true rest
    else
      (if fresh then List.replicate indent ' ' else []) ++
        (if c = '\'' then ['\'', '\''] else [c]) ++ quoted indent false rest

/-- The lines of a literal block, indented but for those without text. -/
def literalLines (indent : Nat) (fresh : Bool) : List Char → List Char
  | [] => []
  | c :: rest =>
    if isBreak c then c :: literalLines indent true rest
    else
      (if fresh then List.replicate indent ' ' else []) ++ c :: literalLines indent false rest

/-- What stands after the mark of a literal block: its indentation, if the text does not show it,
and what happens to the breaks at the end. -/
def literalHeader (s : List Char) : List Char :=
  let hint := if s.head?.any fun c => c = ' ' || isBreak c then ['2'] else []
  let ending := match s.reverse with
    | [] => ['-']
    | c :: before =>
      if !isBreak c then ['-'] else if before.head?.all isBreak then ['+'] else []
  hint ++ ending

/-- A text in its style, up to the end of its last line. -/
def written (indent : Nat) (s : List Char) : List Char :=
  match styleOf s with
  | .plain | .folded => s ++ ['\n']
  | .singleQuoted => '\'' :: quoted indent false s ++ ['\'', '\n']
  | .doubleQuoted => '"' :: s.flatMap escaped ++ ['"', '\n']
  | .literal =>
    let lines := literalLines indent true s
    '|' :: literalHeader s ++ '\n' :: lines ++ (if s.getLast?.any isBreak then [] else ['\n'])

/-! ### Documents -/

/-- The text of a string; what is no text is left out. -/
def textOf (text : Option Bytes) : List Char := (text.bind Utf8.decode?).getD []

mutual

/-- What follows a key or a dash: the items of a sequence go to the column `dashes`, the entries of
a mapping and the lines of a text to the column `inner`. -/
def value (dashes inner : Nat) : Json → List Char
  | .null => " null\n".toList
  | .bool b => (if b then " true\n" else " false\n").toList
  | .natural n => ' ' :: Nat.toDigits 10 n.toNat ++ ['\n']
  | .number _ => ['\n']
  | .string text => ' ' :: written inner (textOf text)
  | .array [] => " []\n".toList
  | .array (item :: rest) =>
    '\n' :: (List.replicate dashes ' ' ++ '-' :: value (dashes + 2) (dashes + 2) item) ++
      items dashes rest
  | .object [] => " \x7b\x7d\n".toList
  | .object (member :: rest) => '\n' :: entries inner (member :: rest)

/-- The items of a sequence at a column. -/
def items (column : Nat) : List Json → List Char
  | [] => []
  | item :: rest =>
    (List.replicate column ' ' ++ '-' :: value (column + 2) (column + 2) item) ++ items column rest

/-- The entries of a mapping at a column. A key stands as it is. -/
def entries (column : Nat) : List (Option Bytes × Json) → List Char
  | [] => []
  | (name, v) :: rest =>
    (List.replicate column ' ' ++ textOf name ++ ':' :: value column (column + 2) v) ++
      entries column rest

end

/-- **Writing a document.** -/
def render : Json → List Char
  | .object (member :: rest) => entries 0 (member :: rest)
  | .array (item :: rest) => items 0 (item :: rest)
  | document => (value 0 0 document).drop 1

end HotStuff.Yaml
