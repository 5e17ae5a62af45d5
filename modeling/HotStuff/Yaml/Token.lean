import HotStuff.Yaml.Block
import HotStuff.Yaml.Name

/-!
# Tokens

A text as a sequence of tokens. The structure that columns tell is made explicit: a block begins
where something stands further right than the block around it, and ends where something stands
further left. That something was a key is only seen at the colon after it, so places where a key
may have begun are kept until then. Such a key ends on the line that it began on, and soon.

## Main definitions

* `Yaml.Token`: the tokens.
* `Yaml.Layout`: the blocks that are open and the places of keys.
* `Yaml.Layout.step`: the next token.
* `Yaml.tokens?`: all of them.
-/

namespace HotStuff.Yaml

/-- The two kinds of collections. -/
inductive Collection where
  | sequence
  | mapping
  deriving DecidableEq, Repr

/-- A token. -/
inductive Token where
  | directive (directive : Directive)
  /-- The mark of a document's beginning. -/
  | beginning
  /-- The mark of a document's end. -/
  | ending
  | blockStart (collection : Collection)
  | blockEnd
  | flowStart (collection : Collection)
  | flowEnd (collection : Collection)
  /-- The mark between items in flow style. -/
  | comma
  /-- The mark of an item in block style. -/
  | dash
  /-- A key follows. -/
  | key
  /-- A value follows. -/
  | value
  | reference (name : List Char)
  | anchor (name : List Char)
  | tag (tag : Tag)
  | scalar (style : Style) (text : List Char)
  deriving DecidableEq, Repr

/-- A place where a key may have begun. -/
structure KeyStart where
  /-- How many tokens were read before. -/
  position : Nat
  line : Nat
  column : Nat
  /-- Whether only a key may stand here. -/
  required : Bool

/-- Whether a key that began at a place may still end at a character. -/
def KeyStart.reaches (k : KeyStart) (c : Placed) : Bool :=
  k.line = c.line && c.column ≤ k.column + 1024

/-- What has been read, and what is open. -/
structure Layout where
  /-- The margins of the open blocks, the innermost first. A margin is one more than the column of
  the block; what stands further right belongs to the block. -/
  margins : List Nat := []
  /-- Whether a key may begin with the next token. -/
  mayKey : Bool := true
  /-- Where a key of the innermost collection may have begun. -/
  key : Option KeyStart := none
  /-- The same for the collections around it, one for each that is open in flow style. -/
  outerKeys : List (Option KeyStart) := []
  /-- The tokens, the latest first. -/
  tokens : List Token := []
  /-- How many tokens there are. -/
  count : Nat := 0

namespace Layout

variable (l : Layout)

/-- The margin of the innermost block. -/
def margin : Nat := l.margins.headD 0

/-- Whether a collection in flow style is open. Inside of it columns mean nothing. -/
def inFlow : Bool := !l.outerKeys.isEmpty

/-- Adds a token. -/
def emit (t : Token) : Layout := { l with tokens := t :: l.tokens, count := l.count + 1 }

/-- Sets whether a key may begin with the next token. -/
def allowKey (mayKey : Bool) : Layout := { l with mayKey }

/-! ### Blocks -/

/-- Whether a collection at a column begins a block. -/
def opensAt (column : Nat) : Bool := !l.inFlow && l.margin ≤ column

/-- Begins a block at a column, if one begins there. -/
def enter (c : Collection) (column : Nat) : Layout :=
  if l.opensAt column then
    { l.emit (.blockStart c) with margins := (column + 1) :: l.margins }
  else l

/-- Ends the blocks beyond a margin. -/
def leave (margin : Nat) : Layout :=
  if l.inFlow then l
  else
    let ended := l.margins.takeWhile (margin < ·)
    { l with
      margins := l.margins.dropWhile (margin < ·)
      tokens := List.replicate ended.length .blockEnd ++ l.tokens
      count := l.count + ended.length }

/-! ### Keys -/

/-- Gives up the key that may have begun, unless it is required. -/
def dropKey : Option Layout :=
  if l.key.any KeyStart.required then none else some { l with key := none }

/-- Notes that a key may begin at a character. It is required where the entries of a block begin. -/
def markKey (c : Placed) : Option Layout :=
  if !l.mayKey then some l
  else do
    let l ← l.dropKey
    let required := !l.inFlow && l.margin = c.column + 1
    return { l with key := some ⟨l.count, c.line, c.column, required⟩ }

/-- Comes to the next character that is not space: gives up a key that does not reach it, and ends
the blocks that it does not belong to. -/
def come (c : Placed) : Option Layout := do
  let l ← if l.key.all (·.reaches c) then some l else l.dropKey
  return l.leave (c.column + 1)

/-- Puts a key in front of the tokens that were read since a place. The first key of a block begins
it. -/
def insertKey (k : KeyStart) : Layout :=
  let opens := l.opensAt k.column
  let inserted := if opens then [.key, .blockStart .mapping] else [.key]
  let since := l.count - k.position
  { l with
    margins := if opens then (k.column + 1) :: l.margins else l.margins
    key := none
    tokens := l.tokens.take since ++ (inserted ++ l.tokens.drop since)
    count := l.count + inserted.length }

/-! ### Tokens -/

/-- Begins a collection in flow style, which may be a key. -/
def openFlow (collection : Collection) (c : Placed) : Option Layout := do
  let l ← l.markKey c
  return { (l.emit (.flowStart collection)).allowKey true with
    key := none, outerKeys := l.key :: l.outerKeys }

/-- Ends a collection in flow style. -/
def closeFlow (collection : Collection) : Option Layout := do
  let l ← l.dropKey
  return { (l.emit (.flowEnd collection)).allowKey false with
    key := l.outerKeys.head?.join, outerKeys := l.outerKeys.drop 1 }

/-- A comma. -/
def comma : Option Layout := do return ((← l.dropKey).emit .comma).allowKey true

/-- The mark of an item or of a key at a character, which may begin a block. -/
def mark (collection : Collection) (t : Token) (c : Placed) (mayKey : Bool) : Option Layout := do
  if !l.inFlow && !l.mayKey then none
  else return ((← (l.enter collection c.column).dropKey).emit t).allowKey mayKey

/-- A colon. If a key may have begun before it, that was one. -/
def colon (c : Placed) : Option Layout :=
  match l.key with
  | some k => some (((l.insertKey k).emit .value).allowKey false)
  | none =>
    if l.inFlow then some ((l.emit .value).allowKey false)
    else if !l.mayKey then none
    else some (((l.enter .mapping c.column).emit .value).allowKey true)

/-- A mark in front of a document or after it, which ends all blocks. -/
def outside (t : Token) : Option Layout := do
  return ((← (l.leave 0).dropKey).emit t).allowKey false

/-- A part of a node that may be a key. -/
def node (c : Placed) (t : Token) : Option Layout := do
  return ((← l.markKey c).emit t).allowKey false

/-- A block scalar after its mark, and what follows it. -/
def block (style : Style) (rest : List Placed) : Option (Layout × List Placed) := do
  let l ← l.dropKey
  let (text, rest) ← blockScalar (style = .folded) l.margin rest
  return ((l.emit (.scalar style text)).allowKey true, rest)

/-- A scalar between quotes after the first one, and what follows it. -/
def quoted (style : Style) (c : Placed) (rest : List Placed) : Option (Layout × List Placed) := do
  let (text, rest) ←
    if style = .singleQuoted then singleQuoted {} rest else doubleQuoted {} .outside rest
  return (← l.node c (.scalar style text), rest)

/-- A scalar without quotes, and what follows it. If that is on a later line, it may begin with a
key. -/
def plainScalar (c : Placed) (rest : List Placed) : Option (Layout × List Placed) := do
  let (f, after) ← plain l.inFlow l.margin {} (c :: rest)
  let l ← l.node c (.scalar .plain f.text.reverse)
  return (l.allowKey f.isBroken, after)

/-- A tag after its mark, and what follows it. -/
def tagged (c : Placed) (rest : List Placed) : Option (Layout × List Placed) := do
  let (tag, after) ← tag? rest
  if endsWord after || (l.inFlow && nextIs ',' after) then return (← l.node c (.tag tag), after)
  else none

/-- **The next token.** What is open after the token that begins with a character, and what follows
it. -/
def step (c : Placed) (rest : List Placed) : Option (Layout × List Placed) := do
  let alone := l.inFlow || endsWord rest
  if c.column = 0 && c.char = '%' then
    let (directive, after) ← directive? rest
    return (← l.outside (.directive directive), after)
  else if atBeginning (c :: rest) then return (← l.outside .beginning, rest.drop 2)
  else if atEnd (c :: rest) then return (← l.outside .ending, rest.drop 2)
  else if c.char = '[' then return (← l.openFlow .sequence c, rest)
  else if c.char = '{' then return (← l.openFlow .mapping c, rest)
  else if c.char = ']' then return (← l.closeFlow .sequence, rest)
  else if c.char = '}' then return (← l.closeFlow .mapping, rest)
  else if c.char = ',' then return (← l.comma, rest)
  else if c.char = '-' && endsWord rest then return (← l.mark .sequence .dash c true, rest)
  else if c.char = '?' && alone then return (← l.mark .mapping .key c (!l.inFlow), rest)
  else if c.char = ':' && alone then return (← l.colon c, rest)
  else if c.char = '*' then
    let (name, after) ← anchorName? rest
    return (← l.node c (.reference name), after)
  else if c.char = '&' then
    let (name, after) ← anchorName? rest
    return (← l.node c (.anchor name), after)
  else if c.char = '!' then l.tagged c rest
  else if c.char = '|' && !l.inFlow then l.block .literal rest
  else if c.char = '>' && !l.inFlow then l.block .folded rest
  else if c.char = '\'' then l.quoted .singleQuoted c rest
  else if c.char = '"' then l.quoted .doubleQuoted c rest
  else if beginsPlain l.inFlow c.char rest then l.plainScalar c rest
  else none

/-- The tokens in reading order, all blocks ended. -/
def close : Option (List Token) := do return (← (l.leave 0).dropKey).tokens.reverse

/-- The tokens of a text after what has been read of it. Every one of them takes up a character, so
there are no more of them than `bound`. -/
def run : (bound : Nat) → Layout → List Placed → Option (List Token)
  | 0, _, _ => none
  | bound + 1, l, s =>
    match skipSpace l.inFlow l.mayKey false s with
    | (mayKey, []) => (l.allowKey mayKey).close
    | (mayKey, c :: rest) => do
      let (l, rest) ← (← (l.allowKey mayKey).come c).step c rest
      run bound l rest

end Layout

/-- **The tokens of a text.** -/
def tokens? (s : List Placed) : Option (List Token) := Layout.run (s.length + 1) {} s

end HotStuff.Yaml
