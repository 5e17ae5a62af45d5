/-!
# Text with Places

Structure in a YAML document is told by lines and columns, so a text is read as characters that know
their places. What is left to read is always a tail of that list, and no reader has to count.

## Main definitions

* `Yaml.Placed`, `Yaml.place?`: characters with their places.
* `Yaml.endsWord`, `Yaml.atMarker`: what comes next.
* `Yaml.skipSpace`, `Yaml.restOfLine?`: what may be passed over.
-/

namespace HotStuff.Yaml

/-! ### Characters -/

/-- The characters that end a line, once carriage returns and next-line characters are read as line
feeds. -/
def isBreak (c : Char) : Bool := c = '\n' || c = '\u2028' || c = '\u2029'

/-- The characters between words on a line. -/
def isBlank (c : Char) : Bool := c = ' ' || c = '\t'

/-- The characters between words. -/
def isSpace (c : Char) : Bool := isBlank c || isBreak c

/-- Whether a character may occur in a text at all. -/
def isAllowed (c : Char) : Bool :=
  let n := c.toNat
  n == 0x9 || n == 0xA || n == 0xD || (0x20 ≤ n && n ≤ 0x7E) || n == 0x85 ||
    (0xA0 ≤ n && n ≤ 0xFFFD) || 0x10000 ≤ n

/-- The mark of the byte order. -/
def orderMark : Char := '\uFEFF'

/-- Carriage returns and next-line characters as line feeds. -/
def unifyBreaks : List Char → List Char
  | '\r' :: '\n' :: rest => '\n' :: unifyBreaks rest
  | c :: rest => (if c = '\r' ∨ c = '\u0085' then '\n' else c) :: unifyBreaks rest
  | [] => []

/-! ### Places -/

/-- A character and its place, lines and columns counted from zero. -/
structure Placed where
  char : Char
  line : Nat
  column : Nat
  deriving Repr

/-- The characters of a text that begins at some place. -/
def placeFrom (line column : Nat) : List Char → List Placed
  | [] => []
  | c :: rest =>
    ⟨c, line, column⟩ ::
      if isBreak c then placeFrom (line + 1) 0 rest else placeFrom line (column + 1) rest

/-- The characters of a text, if all of them may occur in one. -/
def place? (text : List Char) : Option (List Placed) :=
  if text.all isAllowed then some (placeFrom 0 0 (unifyBreaks text)) else none

/-! ### What comes next -/

/-- Whether a blank, a break or the end comes next. -/
def endsWord : List Placed → Bool
  | [] => true
  | c :: _ => isSpace c.char

/-- Whether a given character comes next. -/
def nextIs (c : Char) (s : List Placed) : Bool := s.head?.any fun d => d.char = c

/-- Whether one of some characters comes next. -/
def nextIn (cs : String) (s : List Placed) : Bool := s.head?.any fun d => cs.toList.contains d.char

/-- Whether a mark of three characters comes next that stands alone at the beginning of a line. -/
def atMark (mark : List Char) : List Placed → Bool
  | [] => false
  | c :: rest =>
    c.column == 0 && ((c :: rest).take 3).map Placed.char == mark && endsWord (rest.drop 2)

/-- Whether the mark of a document's beginning comes next. -/
def atBeginning (s : List Placed) : Bool := atMark ['-', '-', '-'] s

/-- Whether the mark of a document's end comes next. -/
def atEnd (s : List Placed) : Bool := atMark ['.', '.', '.'] s

/-- Whether a mark of documents comes next. No scalar goes over one. -/
def atMarker (s : List Placed) : Bool := atBeginning s || atEnd s

/-! ### What is passed over -/

/-- The text without the blanks in front. -/
def skipBlanks (s : List Placed) : List Placed := s.dropWhile fun c => isBlank c.char

/-- What follows a line of which only blanks and a comment are left. -/
def restOfLine? (s : List Placed) : Option (List Placed) :=
  let s := skipBlanks s
  let s := if nextIs '#' s then s.dropWhile fun c => !isBreak c.char else s
  match s with
  | [] => some []
  | c :: rest => if isBreak c.char then some rest else none

/-- Passes over blanks, breaks and comments. Outside of flow style a new line may begin with a key,
and where a key may begin no tab is passed over. The result tells whether a key may begin at the
rest; `comment` tells whether a comment is being passed over. -/
def skipSpace (flow : Bool) : (mayKey comment : Bool) → List Placed → Bool × List Placed
  | mayKey, _, [] => (mayKey, [])
  | mayKey, comment, c :: rest =>
    if isBreak c.char then skipSpace flow (mayKey || !flow) false rest
    else if comment || c.char = '#' then skipSpace flow mayKey true rest
    else if c.char = ' ' || (c.char = '\t' && (flow || !mayKey)) ||
        (c.char = orderMark && c.column = 0) then
      skipSpace flow mayKey false rest
    else (mayKey, c :: rest)

end HotStuff.Yaml
