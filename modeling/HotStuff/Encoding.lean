import HotStuff.Message

/-!
# Canonical Encodings

What is hashed and signed is not the wire form of a message but a byte layout of its own: fields in
a fixed order, integers big-endian, byte strings preceded by their length in eight bytes, and a tag
in front that keeps votes and statements apart. A seal is a signature over the digest of that
layout.

## Main definitions

* `Ballot.encode`, `Statement.encode`: the two signed layouts.
* `Scheme.payloadDigest`: the digest that the next payload names as its parent.
* `Scheme.castVote`, `Scheme.signStatement` and their checks `Scheme.sealValid`,
  `Scheme.statementValid`.
-/

namespace HotStuff

/-- A byte string after its length. -/
def Bytes.framed (bytes : Bytes) : Bytes := Bytes.bigEndian 8 bytes.length ++ bytes

/-- A word in eight bytes. -/
def View.encode (view : View) : Bytes := Bytes.bigEndian 8 view.toNat

/-- The phase in one byte. -/
def Phase.encode (phase : Phase) : Bytes := [UInt8.ofNat phase.rank]

/-- The parent and then the data, each after its length. -/
def Payload.encode (payload : Payload) : Bytes :=
  payload.parent.bytes.framed ++ payload.data.framed

namespace Ballot

/-- The tag in front of an encoded ballot. -/
def tag : Bytes := utf8 "TESSERA/QC_DATA:"

/-- Phase, view and payload. -/
def fields (ballot : Ballot) : Bytes :=
  ballot.phase.encode ++ ballot.view.encode ++ ballot.payload.encode

/-- The bytes that a voter signs the digest of. -/
def encode (ballot : Ballot) : Bytes := tag ++ ballot.fields

end Ballot

/-- The signer and then the signature. -/
def Seal.encode (s : Seal) : Bytes := s.signer.bytes ++ s.signature.bytes

/-- The ballot, the number of seals in four bytes, and the seals. -/
def Certificate.encode (c : Certificate) : Bytes :=
  c.ballot.fields ++ Bytes.bigEndian 4 c.seals.length ++ c.seals.flatMap Seal.encode

namespace Statement

/-- The tag in front of an encoded statement. -/
def tag : Bytes := utf8 "TESSERA/CONSENSUS_DATA:"

/-- The bytes that the sender of a statement signs the digest of: the whole statement, with every
seal of its certificate. -/
def encode (s : Statement) : Bytes :=
  tag ++ s.view.encode ++ s.phase.encode ++ s.payload.encode ++ s.justify.encode

end Statement

namespace Scheme

variable (scheme : Scheme)

/-- The digest of a payload, which its successor names as parent. -/
def payloadDigest (payload : Payload) : Digest := scheme.hash payload.encode

/-- What is signed for an encoding: its digest. -/
def signedBytes (encoding : Bytes) : Bytes := (scheme.hash encoding).bytes

/-- The seal of a key pair over an encoding. -/
def sealOver (keypair : Keypair scheme) (encoding : Bytes) : Seal :=
  ⟨keypair.member, scheme.sign keypair.secret (scheme.signedBytes encoding)⟩

/-- Whether a seal is one of its claimed signer over an encoding. -/
def sealedOver (encoding : Bytes) (s : Seal) : Bool :=
  scheme.verify s.signer (scheme.signedBytes encoding) s.signature

/-- The seal of a voter over a ballot. -/
def sealBallot (keypair : Keypair scheme) (ballot : Ballot) : Seal :=
  scheme.sealOver keypair ballot.encode

/-- Whether a seal is one of its claimed signer over a ballot. -/
def sealValid (ballot : Ballot) (s : Seal) : Bool := scheme.sealedOver ballot.encode s

/-- A vote for a ballot. -/
def castVote (keypair : Keypair scheme) (ballot : Ballot) : Vote :=
  ⟨ballot, scheme.sealBallot keypair ballot⟩

/-- Whether the seal of a vote is one over its ballot. -/
def voteValid (vote : Vote) : Bool := scheme.sealValid vote.ballot vote.stamp

/-- A statement under the seal of a key pair. -/
def signStatement (keypair : Keypair scheme) (s : Statement) : SignedStatement :=
  ⟨s, scheme.sealOver keypair s.encode⟩

/-- Whether the seal of a statement is one over all of it. -/
def statementValid (s : SignedStatement) : Bool := scheme.sealedOver s.body.encode s.stamp

end Scheme

end HotStuff
