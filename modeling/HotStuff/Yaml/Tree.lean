import HotStuff.Table
import HotStuff.Yaml.Token

/-!
# Trees

The tree of nodes that a sequence of tokens describes. A node with a name gets a number, and a
reference to the name stands for the number; the name may be given again to a later node.

## Main definitions

* `Yaml.Tree`: a node with what is below it.
* `Yaml.Tree.numbered`: the nodes with numbers.
* `Yaml.node`: the next node.
* `Yaml.tree?`: the only document.
-/

namespace HotStuff.Yaml

/-- A node with what is below it. -/
inductive Tree where
  | scalar (style : Style) (tag : Option Bytes) (text : List Char)
  | sequence (items : List Tree)
  | mapping (entries : List (Tree × Tree))
  /-- A node with a number. -/
  | numbered (number : Nat) (tree : Tree)
  /-- The node with a number. -/
  | reference (number : Nat)
  deriving Inhabited, Repr

/-- What stands where nothing is written. -/
def Tree.void : Tree := .scalar .plain none []

/-! ### Numbers -/

mutual

/-- Puts the nodes with numbers in front of those before, the latest first. A node comes before what
is below it. -/
def Tree.addNumbered (before : List (Nat × Tree)) : Tree → List (Nat × Tree)
  | .numbered n t => t.addNumbered ((n, t) :: before)
  | .sequence items => addItems before items
  | .mapping entries => addEntries before entries
  | .scalar _ _ _ | .reference _ => before

/-- The same for the items of a sequence. -/
def addItems (before : List (Nat × Tree)) : List Tree → List (Nat × Tree)
  | [] => before
  | t :: rest => addItems (t.addNumbered before) rest

/-- The same for the entries of a mapping. -/
def addEntries (before : List (Nat × Tree)) : List (Tree × Tree) → List (Nat × Tree)
  | [] => before
  | (key, value) :: rest => addEntries (value.addNumbered (key.addNumbered before)) rest

end

/-! ### Building -/

/-- What is left to build from, and what has been declared. -/
structure Site where
  tokens : List Token
  /-- What the handles of tags stand for. -/
  handles : List (List Char × Bytes) := commonHandles
  /-- The numbers that names stand for. -/
  names : Table (List Char) Nat := ∅

/-- A step of building, which may fail. -/
abbrev Build := StateT Site Option

/-- The next token, if there is one. -/
def peek : Build (Option Token) := do return (← get).tokens.head?

/-- Passes over a token. -/
def next : Build Unit := modify fun s => { s with tokens := s.tokens.drop 1 }

/-- Passes over a token if it is a given one, and tells whether it was. -/
def pass? (t : Token) : Build Bool := do
  if (← peek) = some t then
    next
    return true
  else return false

/-- Passes over a token that has to be a given one. -/
def pass (t : Token) : Build Unit := do if ← pass? t then return () else failure

/-- Something that may be left out in front of some tokens. -/
def unlessAt (stops : List Token) (build : Build Tree) : Build Tree := do
  if (← peek).any stops.contains then return .void else build

/-- The number that a name stands for. -/
def numberOf (name : List Char) : Build Nat := do
  match (← get).names.get? name with
  | some n => return n
  | none => failure

/-- A number for a name: as many as there are names. The name does not count twice. -/
def giveNumber (name : List Char) : Build Nat := do
  let n := (← get).names.size
  modify fun s => { s with names := s.names.insert name n }
  return n

/-- The name of a node, if it has one. -/
def anchor? : Build (Option (List Char)) := do
  match ← peek with
  | some (.anchor name) =>
    next
    return some name
  | _ => return none

/-- The tag of a node, if it has one. Its handle has to be declared. -/
def tagName? : Build (Option Bytes) := do
  match ← peek with
  | some (.tag tag) =>
    next
    match tag.name? (← get).handles with
    | some name => return some name
    | none => failure
  | _ => return none

/-- The name and the tag of a node, in either order. -/
def properties : Build (Option (List Char) × Option Bytes) := do
  let anchor ← anchor?
  let tag ← tagName?
  let anchor ← if anchor.isSome then pure anchor else anchor?
  return (anchor, tag)

mutual

/-- The next node. In flow style it may not be a block. Under a key, the items of a sequence may
follow without a block of their own, which is `compact`. -/
def node : (fuel : Nat) → (block compact : Bool) → Build Tree
  | 0, _, _ => failure
  | fuel + 1, block, compact => do
    match ← peek with
    | some (.reference name) =>
      next
      return .reference (← numberOf name)
    | _ =>
      let (anchor, tag) ← properties
      match anchor with
      | some name =>
        let n ← giveNumber name
        return .numbered n (← content fuel block compact true tag)
      | none => content fuel block compact tag.isSome tag

/-- What follows the name and the tag of a node. Nothing has to follow if there is one of them. -/
def content : (fuel : Nat) → (block compact mayBeVoid : Bool) → (tag : Option Bytes) → Build Tree
  | 0, _, _, _, _ => failure
  | fuel + 1, block, compact, mayBeVoid, tag => do
    match ← peek, block, compact with
    | some .dash, _, true => return .sequence (← compactItems fuel)
    | some (.scalar style text), _, _ =>
      next
      return .scalar style tag text
    | some (.flowStart .sequence), _, _ =>
      next
      return .sequence (← flowItems fuel true)
    | some (.flowStart .mapping), _, _ =>
      next
      return .mapping (← flowEntries fuel true)
    | some (.blockStart .sequence), true, _ =>
      next
      return .sequence (← blockItems fuel)
    | some (.blockStart .mapping), true, _ =>
      next
      return .mapping (← blockEntries fuel)
    | _, _, _ => if mayBeVoid then return .scalar .plain tag [] else failure

/-- The items of a sequence in block style. -/
def blockItems : (fuel : Nat) → Build (List Tree)
  | 0 => failure
  | fuel + 1 => do
    if ← pass? .blockEnd then return []
    else
      pass .dash
      let item ← unlessAt [.dash, .blockEnd] (node fuel true false)
      return item :: (← blockItems fuel)

/-- The items of a sequence that has no block of its own. -/
def compactItems : (fuel : Nat) → Build (List Tree)
  | 0 => failure
  | fuel + 1 => do
    if ← pass? .dash then
      let item ← unlessAt [.dash, .key, .value, .blockEnd] (node fuel true false)
      return item :: (← compactItems fuel)
    else return []

/-- The entries of a mapping in block style. A key may have no value. -/
def blockEntries : (fuel : Nat) → Build (List (Tree × Tree))
  | 0 => failure
  | fuel + 1 => do
    if ← pass? .blockEnd then return []
    else
      pass .key
      let key ← unlessAt [.key, .value, .blockEnd] (node fuel true true)
      let value ←
        if ← pass? .value then unlessAt [.key, .value, .blockEnd] (node fuel true true)
        else pure .void
      return (key, value) :: (← blockEntries fuel)

/-- The items of a sequence in flow style. A comma may follow the last one. A key in front of an
item makes it a mapping with one entry. -/
def flowItems : (fuel : Nat) → (first : Bool) → Build (List Tree)
  | 0, _ => failure
  | fuel + 1, first => do
    if ← pass? (.flowEnd .sequence) then return []
    else
      if !first then pass .comma
      if ← pass? (.flowEnd .sequence) then return []
      else
        let item ← if ← pass? .key then pair fuel else node fuel false false
        return item :: (← flowItems fuel false)

/-- The only entry of a mapping, after the mark of its key. If no key follows, the token after the
mark goes with it. -/
def pair : (fuel : Nat) → Build Tree
  | 0 => failure
  | fuel + 1 => do
    let noKey := (← peek).any [.value, .comma, .flowEnd .sequence].contains
    if noKey then next
    let key ← if noKey then pure .void else node fuel false false
    let value ←
      if ← pass? .value then unlessAt [.comma, .flowEnd .sequence] (node fuel false false)
      else pure .void
    return .mapping [(key, value)]

/-- The entries of a mapping in flow style. A comma may follow the last one. Without the mark of a
key an entry has no value. -/
def flowEntries : (fuel : Nat) → (first : Bool) → Build (List (Tree × Tree))
  | 0, _ => failure
  | fuel + 1, first => do
    if ← pass? (.flowEnd .mapping) then return []
    else
      if !first then pass .comma
      if ← pass? (.flowEnd .mapping) then return []
      else
        let entry ←
          if ← pass? .key then
            let key ← unlessAt [.value, .comma, .flowEnd .mapping] (node fuel false false)
            let value ←
              if ← pass? .value then unlessAt [.comma, .flowEnd .mapping] (node fuel false false)
              else pure .void
            pure (key, value)
          else pure (← node fuel false false, .void)
        return entry :: (← flowEntries fuel false)

end

/-! ### Documents -/

/-- Whether directives may stand together: one version at most, which has to be one that is read
here, and no handle twice. -/
def areSound (directives : List Directive) : Bool :=
  let versions := directives.filterMap fun
    | .version major minor => some (major, minor)
    | .handle _ _ => none
  let handles := directives.filterMap fun
    | .version _ _ => none
    | .handle name _ => some name
  versions.length ≤ 1 && versions.all [(1, 1), (1, 2)].contains && handles.Nodup

/-- What the handles stand for that directives declare. -/
def declared (directives : List Directive) : List (List Char × Bytes) :=
  directives.filterMap fun
    | .version _ _ => none
    | .handle name expansion => some (name, expansion)

/-- The directives in front of some tokens. -/
def leadingDirectives : List Token → List Directive
  | .directive d :: rest => d :: leadingDirectives rest
  | _ => []

/-- The only document, with the mark of its beginning or without. There has to be one after
directives; only after it a document may be void. -/
def document (fuel : Nat) : Build Tree := do
  if ← pass? .beginning then
    match ← peek with
    | none | some (.directive _) | some .beginning | some .ending => return .void
    | _ => node fuel true false
  else node fuel true false

/-- **The tree of a text.** The text consists of one document; the mark of its end may be
repeated. -/
def tree? (tokens : List Token) : Option Tree := do
  let directives := leadingDirectives tokens
  let rest := tokens.drop directives.length
  if !areSound directives || (!directives.isEmpty && rest.head? ≠ some .beginning) then none
  else
    let site : Site := { tokens := rest, handles := declared directives ++ commonHandles }
    let (tree, site) ← (document (4 * rest.length + 4)).run site
    if (site.tokens.dropWhile (· = .ending)).isEmpty then return tree else none

end HotStuff.Yaml
