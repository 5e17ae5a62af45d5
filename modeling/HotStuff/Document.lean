import HotStuff.Json

/-!
# Structured Documents

What can be read from a document, whatever format it was written in: absence, numbers, texts, the
names of variants, lists, and records. A record is written as named fields in any order or, where
the format allows that, as a list of its fields in their order. Named fields that the record does
not have are passed over; a field given twice is refused.

## Main definitions

* `Document`: what a format offers.
* `Record.read?`: a record, by names or in order.
* `Record.required?`, `Record.optional?`, `Record.defaulted?`: its fields.
-/

namespace HotStuff

/-- A format of documents. Each part says what a document is read as, if it can be. -/
class Document (δ : Type) where
  /-- Whether the document stands for the absence of a value; a document may also claim to and not
  do it, and then it is neither. -/
  isAbsent? : δ → Option Bool
  natural? : δ → Option UInt64
  text? : δ → Option Bytes
  /-- The name of a variant without content. -/
  variant? : δ → Option Bytes
  items? : δ → Option (List δ)
  /-- The fields of a record in their order, in a format where they may go without names. -/
  recordItems? : δ → Option (List δ)
  fields? : δ → Option (List (Bytes × δ))

/-- A value that is read from documents of any format. -/
class Readable (α : Type) where
  read? {δ : Type} [Document δ] : δ → Option α

instance : Readable UInt64 := ⟨Document.natural?⟩

instance {α : Type} [Readable α] : Readable (List α) where
  read? d := (Document.items? d).bind fun items => items.mapM Readable.read?

/-- A value that may be absent. -/
def readOption? {δ α : Type} [Document δ] [Readable α] (d : δ) : Option (Option α) :=
  match Document.isAbsent? d with
  | some true => some none
  | some false => (Readable.read? d).map some
  | none => none

instance {α : Type} [Readable α] : Readable (Option α) := ⟨readOption?⟩

/-- The fields of a record. -/
structure Record (δ : Type) where
  /-- Whether the fields were given by name. -/
  named : Bool
  fields : List (Bytes × δ)

namespace Record

variable {δ : Type} [Document δ]

/-- The fields with one of the given names, if none of them is given twice. -/
def ofFields? (names : List Bytes) (fields : List (Bytes × δ)) : Option (Record δ) :=
  let known := fields.filter fun f => names.contains f.1
  if (known.map Prod.fst).Nodup then some ⟨true, known⟩ else none

/-- Fields in the order of their names; the last ones may be missing. -/
def ofItems? (names : List Bytes) (items : List δ) : Option (Record δ) :=
  if items.length ≤ names.length then some ⟨false, names.zip items⟩ else none

/-- The record with the given field names that a document is. -/
def read? (names : List String) (d : δ) : Option (Record δ) :=
  match Document.recordItems? d with
  | some items => ofItems? (names.map utf8) items
  | none => (Document.fields? d).bind (ofFields? (names.map utf8))

variable (r : Record δ)

/-- The field of a given name. -/
def get? (name : String) : Option δ := (r.fields.find? fun f => f.1 == utf8 name).map Prod.snd

/-- A field that has to be there. -/
def required? {α : Type} [Readable α] (name : String) : Option α :=
  (r.get? name).bind Readable.read?

/-- A field that is there or has a default. -/
def defaulted? {α : Type} [Readable α] (name : String) (default : α) : Option α :=
  match r.get? name with
  | some d => Readable.read? d
  | none => some default

/-- A field that may be absent. Where fields are given in order, it has to be there. -/
def optional? {α : Type} [Readable α] (name : String) : Option (Option α) :=
  match r.get? name with
  | some d => Readable.read? d
  | none => if r.named then some none else none

end Record

/-! ### JSON -/

namespace Json

/-- The text of a string. -/
def text? : Json → Option Bytes
  | .string text => text
  | _ => none

/-- A number in plain digits. -/
def natural? : Json → Option UInt64
  | .natural n => some n
  | _ => none

/-- The items of an array. -/
def items? : Json → Option (List Json)
  | .array items => some items
  | _ => none

/-- The members of an object, if all their names are texts. -/
def fields? : Json → Option (List (Bytes × Json))
  | .object members => members.mapM fun m => m.1.map fun name => (name, m.2)
  | _ => none

/-- A variant as its name, or as the only member of an object, without a value. -/
def variant? : Json → Option Bytes
  | .string text => text
  | .object [(name, .null)] => name
  | _ => none

/-- Whether the value is null. -/
def isNull : Json → Bool
  | .null => true
  | _ => false

end Json

instance : Document Json where
  isAbsent? value := some value.isNull
  natural? := Json.natural?
  text? := Json.text?
  variant? := Json.variant?
  items? := Json.items?
  recordItems? := Json.items?
  fields? := Json.fields?

/-- A JSON value that was read before it was known what it should be. All of it was looked at, so
all of it has to be sound; in return a variant may also have an empty object as its value. -/
structure Buffered where
  value : Json

namespace Buffered

/-- A variant as its name, or as the only member of an object, with nothing in its value. -/
def variant? : Buffered → Option Bytes
  | ⟨.object [(name, .object [])]⟩ => name
  | ⟨value⟩ => value.variant?

/-- The items of an array. -/
def items? (b : Buffered) : Option (List Buffered) :=
  b.value.items?.map fun items => items.map Buffered.mk

instance : Document Buffered where
  isAbsent? b := some b.value.isNull
  natural? b := b.value.natural?
  text? b := b.value.text?
  variant? := Buffered.variant?
  items? := Buffered.items?
  recordItems? := Buffered.items?
  fields? b := b.value.fields?.map fun fields => fields.map fun f => (f.1, ⟨f.2⟩)

end Buffered

end HotStuff
