import HotStuff.Text.Utf8
import HotStuff.Yaml.Placed
import HotStuff.Yaml.Scalar

/-!
# Names, Tags and Directives

A node may have a name, by which it is referred to later, and a tag, which says what it is. A tag
is mostly written short, as a handle and a suffix; what a handle stands for is said by a directive
in front of the document, as is the version.

## Main definitions

* `Yaml.anchorName?`: the name of a node.
* `Yaml.Tag`, `Yaml.tag?`, `Yaml.Tag.name?`: a tag as it is written, and the name that it
  stands for.
* `Yaml.Directive`, `Yaml.directive?`: a directive.
-/

namespace HotStuff.Yaml

/-- Whether a character may occur in a name. -/
def isNameCharacter (c : Char) : Bool := c.isAlphanum || c = '_' || c = '-'

/-- The name that comes next, which may be empty, and what follows it. -/
def takeName (s : List Placed) : List Char × List Placed :=
  ((s.takeWhile fun c => isNameCharacter c.char).map Placed.char,
    s.dropWhile fun c => isNameCharacter c.char)

/-- The name after the mark of an anchor or a reference, and what follows it. -/
def anchorName? (s : List Placed) : Option (List Char × List Placed) :=
  let (name, rest) := takeName s
  if !name.isEmpty && (endsWord rest || nextIn "?:,]\x7d%@\x60" rest) then some (name, rest)
  else none

/-! ### Tags -/

/-- Whether a character may stand in a tag as it is. Between angle brackets some more may. -/
def isTagCharacter (bracketed : Bool) (c : Char) : Bool :=
  isNameCharacter c || ";/?:@&=+$.!~*'()".toList.contains c ||
    (bracketed && [',', '[', ']'].contains c)

/-- How many bytes of a character are still to come after a byte, if as many as `due` were to come
before it. -/
def dueAfter? (due byte : Nat) : Option Nat :=
  if due = 0 then
    if byte < 0x80 then some 0
    else if 0xC0 ≤ byte ∧ byte < 0xE0 then some 1
    else if 0xE0 ≤ byte ∧ byte < 0xF0 then some 2
    else if 0xF0 ≤ byte ∧ byte < 0xF8 then some 3
    else none
  else if 0x80 ≤ byte ∧ byte < 0xC0 then some (due - 1)
  else none

/-- The bytes of a tag, and what follows it. A byte may be written as two hexadecimal digits after a
percent sign; the bytes of one character have to stay together. -/
def tagBytes (bracketed : Bool) (due : Nat) : List Placed → Option (Bytes × List Placed)
  | [] => if due = 0 then some ([], []) else none
  | c :: rest =>
    if c.char = '%' then
      match rest with
      | a :: b :: rest => do
        let byte ← ofDigits? 16 [a.char, b.char]
        let (bytes, rest) ← tagBytes bracketed (← dueAfter? due byte) rest
        return (UInt8.ofNat byte :: bytes, rest)
      | _ => none
    else if due ≠ 0 then none
    else if isTagCharacter bracketed c.char then do
      let (bytes, rest) ← tagBytes bracketed 0 rest
      return (UInt8.ofNat c.char.toNat :: bytes, rest)
    else some ([], c :: rest)

/-- The bytes of a tag that is not empty, up to a zero byte, and what follows the tag. -/
def tagText? (bracketed : Bool) (s : List Placed) : Option (Bytes × List Placed) := do
  let (bytes, rest) ← tagBytes bracketed 0 s
  if bytes.isEmpty then none else return (bytes.takeWhile (· ≠ 0), rest)

/-- A tag as it is written. -/
inductive Tag where
  /-- The name itself. -/
  | whole (name : Bytes)
  /-- A handle, which stands for the beginning of the name, and the rest of it. -/
  | short (handle : List Char) (suffix : Bytes)
  deriving DecidableEq, Repr

/-- A tag after its mark, and what follows it. The mark alone is a whole name; a name without a
mark at its end is the suffix to the handle that is the mark. -/
def tag? (s : List Placed) : Option (Tag × List Placed) := do
  if nextIs '<' s then
    let (name, rest) ← tagText? true (s.drop 1)
    if nextIs '>' rest then return (.whole name, rest.drop 1) else none
  else
    let (name, rest) := takeName s
    if nextIs '!' rest then
      let (suffix, rest) ← tagText? false (rest.drop 1)
      return (.short ('!' :: name ++ ['!']) suffix, rest)
    else
      let (bytes, rest) ← tagBytes false 0 s
      let suffix := bytes.takeWhile (· ≠ 0)
      return (if suffix.isEmpty then .whole (utf8 "!") else .short ['!'] suffix, rest)

/-- The handles that need no directive. -/
def commonHandles : List (List Char × Bytes) :=
  [(['!'], utf8 "!"), (['!', '!'], utf8 "tag:yaml.org,2002:")]

/-- The name that a tag stands for, given what the handles stand for. -/
def Tag.name? (handles : List (List Char × Bytes)) : Tag → Option Bytes
  | .whole name => some name
  | .short handle suffix => (handles.lookup handle).map (· ++ suffix)

/-! ### Directives -/

/-- What is said in front of a document. -/
inductive Directive where
  | version (major minor : Nat)
  /-- What a handle stands for. -/
  | handle (name : List Char) (expansion : Bytes)
  deriving DecidableEq, Repr

/-- A number of nine digits at most, and what follows it. -/
def shortNumber? (s : List Placed) : Option (Nat × List Placed) := do
  let digits := (s.takeWhile fun c => c.char.isDigit).map Placed.char
  let n ← ofDigits? 10 digits
  if digits.length ≤ 9 then return (n, s.drop digits.length) else none

/-- The version after the name of its directive. -/
def versionDirective? (s : List Placed) : Option (Directive × List Placed) := do
  let (major, s) ← shortNumber? (skipBlanks s)
  if !nextIs '.' s then none
  else
    let (minor, s) ← shortNumber? (s.drop 1)
    return (.version major minor, s)

/-- The handle and what it stands for, after the name of the directive. -/
def handleDirective? (s : List Placed) : Option (Directive × List Placed) := do
  let s := skipBlanks s
  if !nextIs '!' s then none
  else
    let (name, s) := takeName (s.drop 1)
    let (handle, s) ←
      if nextIs '!' s then some ('!' :: name ++ ['!'], s.drop 1)
      else if name.isEmpty then some (['!'], s)
      else none
    if !nextIn " \t" s then none
    else
      let (expansion, s) ← tagText? true (skipBlanks s)
      if endsWord s then return (.handle handle expansion, s) else none

/-- A directive after its mark, which takes up a line, and what follows it. -/
def directive? (s : List Placed) : Option (Directive × List Placed) := do
  let (name, s) := takeName s
  if !endsWord s then none
  else
    let (directive, s) ←
      if name = "YAML".toList then versionDirective? s
      else if name = "TAG".toList then handleDirective? s
      else none
    return (directive, ← restOfLine? s)

end HotStuff.Yaml
