import HotStuff.Text.Utf8
import HotStuff.Text.Hex
import HotStuff.Ed25519.Signature

/-!
# Identities, Signatures and Digests

A member of the committee is named by its public key. `MemberId`, `Signature` and `Secret` are
byte strings of fixed length, and the length is part of the type; a `Digest` has the length that
the hash function in use gives it.

## Main results

* `MemberId.bytes_injective`, `Signature.bytes_injective`: the bytes determine the value.
-/

namespace HotStuff

/-- A member of the committee: the 32 bytes of its public key. -/
structure MemberId where
  key : Vector UInt8 32
  deriving DecidableEq, Repr

/-- The 64 bytes of a signature. -/
structure Signature where
  value : Vector UInt8 64
  deriving DecidableEq, Repr

/-- The 32 bytes of a signing secret. -/
structure Secret where
  seed : Vector UInt8 32
  deriving DecidableEq

/-- A content digest. -/
structure Digest where
  bytes : Bytes
  deriving DecidableEq, Repr

instance : Inhabited MemberId := ⟨⟨Vector.replicate 32 0⟩⟩

instance : Inhabited Signature := ⟨⟨Vector.replicate 64 0⟩⟩

/-- Why a text is not a key. -/
inductive KeyFault where
  | notHex (fault : Hex.Fault)
  | notPoint
  deriving DecidableEq, Repr

/-- The wording of a fault. -/
def KeyFault.message : KeyFault → String
  | .notHex fault => fault.message
  | .notPoint => "Malformed public key encoding."

namespace MemberId

/-- The bytes of the public key. -/
def bytes (m : MemberId) : Bytes := m.key.toList

/-- A member id is written on 32 bytes. -/
@[simp] theorem length_bytes (m : MemberId) : m.bytes.length = 32 := by simp [bytes]

/-- Member ids that are written alike are the same one. -/
theorem bytes_injective {m n : MemberId} (h : m.bytes = n.bytes) : m = n := by
  cases m; cases n; exact congrArg MemberId.mk (Vector.toList_inj.mp h)

/-- Whether the key is the encoding of a curve point. -/
def isPoint (m : MemberId) : Bool := Ed25519.isKey m.bytes

/-- The hexadecimal form of the key. -/
def hex (m : MemberId) : String := Hex.text m.bytes

/-- The first four bytes in hexadecimal form, as messages name members. -/
def short (m : MemberId) : String := Hex.text (m.bytes.take 4)

/-- Reads a key from hexadecimal text, blanks around it ignored; it has to be a curve point. -/
def ofText (s : Bytes) : Except KeyFault MemberId :=
  match Hex.decodeExact 32 (Text.trimBytes s) with
  | .error fault => .error (.notHex fault)
  | .ok key => if (MemberId.mk key).isPoint then .ok ⟨key⟩ else .error .notPoint

end MemberId

namespace Signature

/-- The bytes of the signature. -/
def bytes (s : Signature) : Bytes := s.value.toList

/-- A signature is written on 64 bytes. -/
@[simp] theorem length_bytes (s : Signature) : s.bytes.length = 64 := by simp [bytes]

/-- Signatures that are written alike are the same one. -/
theorem bytes_injective {s t : Signature} (h : s.bytes = t.bytes) : s = t := by
  cases s; cases t; exact congrArg Signature.mk (Vector.toList_inj.mp h)

/-- The hexadecimal form. -/
def hex (s : Signature) : String := Hex.text s.bytes

/-- Reads a signature from hexadecimal text. -/
def ofText (s : Bytes) : Except Hex.Fault Signature := (Hex.decodeExact 64 s).map Signature.mk

end Signature

namespace Secret

/-- The bytes of the secret. -/
def bytes (s : Secret) : Bytes := s.seed.toList

/-- The hexadecimal form. -/
def hex (s : Secret) : String := Hex.text s.bytes

/-- Reads a secret from hexadecimal text, blanks around it ignored. -/
def ofText (s : Bytes) : Except KeyFault Secret :=
  match Hex.decodeExact 32 (Text.trimBytes s) with
  | .error fault => .error (.notHex fault)
  | .ok seed => .ok ⟨seed⟩

end Secret

namespace Digest

/-- The hexadecimal form. -/
def hex (d : Digest) : String := Hex.text d.bytes

/-- The digest that is zero in every one of `n` bytes. -/
def zero (n : Nat) : Digest := ⟨List.replicate n 0⟩

end Digest

end HotStuff
