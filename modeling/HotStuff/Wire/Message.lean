import HotStuff.Json.Reading
import HotStuff.Json.Writing
import HotStuff.Message
import HotStuff.Wire.Value

/-!
# The Written Form of Messages

A message is written as its kind and its body. A reader takes the two in either order, or as a list.
If the body comes first, it is not known what it should be until the kind is there, so all of it is
looked at: it may not nest too deeply, and every part has to be sound.

## Main definitions

* `Message.encode`: the bytes that are sent.
* `Message.decode?`: what received bytes say.
-/

namespace HotStuff

instance : Writable Statement where
  toJson s := .record [("view", toJson s.view), ("phase", toJson s.phase),
    ("payload", toJson s.payload), ("justify", toJson s.justify)]

instance : Readable Statement where
  read? d := do
    let r ← Record.read? ["view", "phase", "payload", "justify"] d
    return ⟨← r.required? "view", ← r.required? "phase", ← r.required? "payload",
      ← r.required? "justify"⟩

instance : Writable SignedStatement where
  toJson s := .record [("data", toJson s.body), ("seal", toJson s.stamp)]

instance : Readable SignedStatement where
  read? d := do
    let r ← Record.read? ["data", "seal"] d
    return ⟨← r.required? "data", ← r.required? "seal"⟩

instance : Writable Vote where
  toJson v := .record [("data", toJson v.ballot), ("seal", toJson v.stamp)]

instance : Readable Vote where
  read? d := do
    let r ← Record.read? ["data", "seal"] d
    return ⟨← r.required? "data", ← r.required? "seal"⟩

namespace Message

/-- What is written as the body of a message. -/
def body : Message → Json
  | statement _ s => toJson s
  | vote v => toJson v

instance : Writable Message where
  toJson m := .record [("type", Json.str m.kind), ("body", m.body)]

/-- The message of a given kind that a document is the body of. -/
def ofBody? {δ : Type} [Document δ] (kind : Bytes) (d : δ) : Option Message :=
  if kind = utf8 "Vote" then (Readable.read? d).map vote
  else
    match Phase.all.find? fun p => utf8 p.name == kind with
    | some phase => (Readable.read? d).map (statement phase)
    | none => none

/-- How deeply arrays and objects may nest, the message itself included, where the body comes before
the kind. -/
def maxDepth : Nat := 127

/-- The message that a kind and a body in their written form are; `early` says that the body came
first. -/
def ofParts? (early : Bool) (kind body : Json) : Option Message :=
  match kind.variant? with
  | none => none
  | some name =>
    if early then
      if body.depth < maxDepth && body.isSound then ofBody? name (Buffered.mk body) else none
    else ofBody? name body

/-- The message that an object with these members is. There may be others, which are passed over. -/
def ofMembers? (members : List (Bytes × Json)) : Option Message :=
  match members.filter fun m => m.1 == utf8 "type" || m.1 == utf8 "body" with
  | [(first, x), (second, y)] =>
    if first = second then none
    else if first = utf8 "type" then ofParts? false x y
    else ofParts? true y x
  | _ => none

/-- The message that a JSON value is. -/
def ofJson? (value : Json) : Option Message :=
  match value.items? with
  | some [kind, body] => ofParts? false kind body
  | some _ => none
  | none => value.fields?.bind ofMembers?

/-- **The bytes that are sent.** -/
def encode (m : Message) : Bytes := (toJson m).compact

/-- **What received bytes say.** -/
def decode? (bytes : Bytes) : Option Message := (Json.parse bytes).bind ofJson?

end Message

end HotStuff
