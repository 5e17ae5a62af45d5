import HotStuff.Scheme
import HotStuff.Phase

/-!
# Payloads, Ballots and Certificates

A payload is the content that a view agrees on, chained to the payload committed before it. A
ballot says what a vote is cast on: a payload in a phase of a view. A certificate is a ballot with
the seals of those who voted for it.
-/

namespace HotStuff

/-- Content to agree on, chained to what was committed before. -/
structure Payload where
  /-- The digest of the payload committed before this one. -/
  parent : Digest
  /-- The content itself. -/
  data : Bytes
  deriving DecidableEq, Repr

/-- What a vote is cast on. -/
structure Ballot where
  phase : Phase
  view : View
  payload : Payload
  deriving DecidableEq, Repr

/-- A signature together with the member it is claimed for. -/
structure Seal where
  signer : MemberId
  signature : Signature
  deriving DecidableEq, Repr

/-- A quorum certificate: a ballot with the seals of its voters. -/
structure Certificate where
  ballot : Ballot
  seals : List Seal
  deriving DecidableEq, Repr

namespace Certificate

/-- The view the votes were cast in. -/
def view (c : Certificate) : View := c.ballot.view

/-- The phase the votes were cast in. -/
def phase (c : Certificate) : Phase := c.ballot.phase

/-- The payload voted for. -/
def payload (c : Certificate) : Payload := c.ballot.payload

/-- Whether the certificate has the form of a genesis certificate, whatever the digest length. -/
def isGenesis (c : Certificate) : Bool :=
  c.seals.isEmpty && c.phase == .newView && c.view == 0 && c.payload.data.isEmpty &&
    c.payload.parent.bytes.all (· == 0)

/-- Whether the certificate comes no later than `d`, by view and then by phase. -/
def atMost (c d : Certificate) : Bool :=
  c.view < d.view || (c.view == d.view && c.phase.rank ≤ d.phase.rank)

end Certificate

namespace Scheme

/-- The payload that every chain starts from. -/
def genesisPayload (scheme : Scheme) : Payload := ⟨scheme.genesisDigest, []⟩

/-- **The genesis certificate.** The one certificate that is accepted without votes. -/
def genesis (scheme : Scheme) : Certificate := ⟨⟨.newView, 0, scheme.genesisPayload⟩, []⟩

end Scheme

end HotStuff
