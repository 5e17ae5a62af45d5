import HotStuff.Document
import HotStuff.Yaml.Tree

/-!
# YAML Documents

A text with one document, and what its nodes are read as. What a scalar means depends on what is
asked for: any scalar is a text; a plain one may also be a number, or stand for nothing. A tag
matters in three places: one for nothing has to be on a word for nothing, any other one says that
there is something, and a local one may name a variant.

## Main definitions

* `Yaml.parse`: the document of a text.
* `Yaml.target`: the node that is meant, a reference being followed.
* `Yaml.isAbsent?`, `Yaml.natural?`, `Yaml.variant?`: what it is read as.
-/

namespace HotStuff

/-- A node of a document, and the nodes that references may stand for, the latest first. -/
structure Yaml where
  tree : Yaml.Tree
  numbered : List (Nat × Yaml.Tree)
  deriving Inhabited, Repr

namespace Yaml

/-- **Reading a text.** The one document that the text consists of. -/
def parse (text : List Char) : Option Yaml := do
  let tree ← tree? (← tokens? (← place? text))
  return ⟨tree, tree.addNumbered []⟩

variable (d : Yaml)

/-- The node that is meant. -/
def target : Tree :=
  match d.tree with
  | .numbered _ t => t
  | .reference n => (d.numbered.lookup n).getD .void
  | t => t

/-- The tag of integers. -/
def integerTag : Bytes := utf8 "tag:yaml.org,2002:int"

/-- The tag of what stands for nothing. -/
def nullTag : Bytes := utf8 "tag:yaml.org,2002:null"

/-- The variant that a tag names. The mark alone stands for itself. -/
def variantOfTag? : Bytes → Option Bytes
  | 0x21 :: name =>
    let name := if name.isEmpty then [0x21] else name
    if (Utf8.decode? name).isSome then some name else none
  | _ => none

/-- Whether the document stands for nothing. -/
def isAbsent? : Option Bool :=
  match d.target with
  | .scalar .plain none text => some (isNullWord text)
  | .scalar .plain (some tag) text =>
    if tag ≠ nullTag then some false
    else if !text.isEmpty && isNullWord text then some true
    else none
  | _ => some false

/-- A natural number below 2^64 in plain style, or in a literal block with the tag of integers. -/
def natural? : Option UInt64 :=
  match d.target with
  | .scalar style tag text =>
    if style = .plain || (style = .literal && tag = some integerTag) then
      (naturalOf? text).bind fun n => if n < Nat.pow 2 64 then some (UInt64.ofNat n) else none
    else none
  | _ => none

/-- Any scalar. -/
def text? : Option Bytes :=
  match d.target with
  | .scalar _ _ text => some (Utf8.encode text)
  | _ => none

/-- A variant that is named by a tag on nothing, or else by a text. -/
def variant? : Option Bytes :=
  match d.target with
  | .scalar style tag text =>
    match tag.bind variantOfTag? with
    | some name => if style = .plain && isNullWord text then some name else none
    | none => some (Utf8.encode text)
  | _ => none

/-- The items of a sequence; nothing is a sequence without items. -/
def items? : Option (List Yaml) :=
  match d.target with
  | .sequence items => some (items.map fun t => ⟨t, d.numbered⟩)
  | .scalar .plain _ [] => some []
  | _ => none

/-- The entries of a mapping whose keys are scalars; nothing is a mapping without entries. -/
def fields? : Option (List (Bytes × Yaml)) :=
  match d.target with
  | .mapping entries =>
    entries.mapM fun e =>
      (Yaml.text? ⟨e.1, d.numbered⟩).map fun name => (name, ⟨e.2, d.numbered⟩)
  | .scalar .plain _ [] => some []
  | _ => none

instance : Document Yaml where
  isAbsent? := isAbsent?
  natural? := natural?
  text? := text?
  variant? := variant?
  items? := items?
  recordItems? _ := none
  fields? := fields?

end Yaml

end HotStuff
