import HotStuff.Certificate
import HotStuff.Document
import HotStuff.Json.Reading

/-!
# The Written Form of Values

Keys, signatures, digests and data are written in hexadecimal, phases and algorithms by their names,
and the rest as records. A reader takes either case of hexadecimal digit, and checks that a key is a
point of the curve.
-/

namespace HotStuff

/-- A value that is written as JSON. -/
class Writable (α : Type) where
  toJson : α → Json

export Writable (toJson)

instance : Writable UInt64 := ⟨Json.natural⟩

instance : Writable String := ⟨Json.str⟩

instance : Readable String where
  read? d := (Document.text? d).bind fun text => (Utf8.decode? text).map String.ofList

instance {α : Type} [Writable α] : Writable (List α) := ⟨fun xs => .array (xs.map toJson)⟩

instance {α : Type} [Writable α] : Writable (Option α) where
  toJson
    | some a => toJson a
    | none => .null

/-- Bytes in hexadecimal. -/
def Bytes.toHexJson (bs : Bytes) : Json := .string (some (Hex.encode bs))

/-- The bytes that a text has the hexadecimal digits of. -/
def readHex? {δ : Type} [Document δ] (d : δ) : Option Bytes :=
  (Document.text? d).bind fun text => (Hex.decode text).toOption

instance : Writable MemberId := ⟨fun m => m.bytes.toHexJson⟩

instance : Readable MemberId where
  read? d := (Document.text? d).bind fun text => (MemberId.ofText text).toOption

instance : Writable Signature := ⟨fun s => s.bytes.toHexJson⟩

instance : Readable Signature where
  read? d := (Document.text? d).bind fun text => (Signature.ofText text).toOption

instance : Writable Digest := ⟨fun d => d.bytes.toHexJson⟩

instance : Readable Digest := ⟨fun d => (readHex? d).map Digest.mk⟩

instance : Writable Phase := ⟨fun p => Json.str p.name⟩

instance : Readable Phase where
  read? d := (Document.variant? d).bind fun name => Phase.all.find? fun p => utf8 p.name == name

instance : Writable HashAlgorithm := ⟨fun h => Json.str h.name⟩

instance : Readable HashAlgorithm where
  read? d := (Document.variant? d).bind fun name =>
    [HashAlgorithm.sha256, .sha512].find? fun h => utf8 h.name == name

/-- A byte string that is written in hexadecimal. -/
structure HexData where
  bytes : Bytes

instance : Readable HexData := ⟨fun d => (readHex? d).map HexData.mk⟩

instance : Writable Payload where
  toJson p := .record [("parent", toJson p.parent), ("data", p.data.toHexJson)]

instance : Readable Payload where
  read? d := do
    let r ← Record.read? ["parent", "data"] d
    return ⟨← r.required? "parent", (← r.required? (α := HexData) "data").bytes⟩

instance : Writable Ballot where
  toJson b := .record [("phase", toJson b.phase), ("view", toJson b.view),
    ("payload", toJson b.payload)]

instance : Readable Ballot where
  read? d := do
    let r ← Record.read? ["phase", "view", "payload"] d
    return ⟨← r.required? "phase", ← r.required? "view", ← r.required? "payload"⟩

instance : Writable Seal where
  toJson s := .record [("signer", toJson s.signer), ("signature", toJson s.signature)]

instance : Readable Seal where
  read? d := do
    let r ← Record.read? ["signer", "signature"] d
    return ⟨← r.required? "signer", ← r.required? "signature"⟩

instance : Writable Certificate where
  toJson c := .record [("data", toJson c.ballot), ("votes", toJson c.seals)]

instance : Readable Certificate where
  read? d := do
    let r ← Record.read? ["data", "votes"] d
    return ⟨← r.required? "data", ← r.required? "votes"⟩

/-- The value that a JSON text holds. -/
def readJson? {α : Type} [Readable α] (text : Bytes) : Option α :=
  (Json.parse text).bind Readable.read?

end HotStuff
