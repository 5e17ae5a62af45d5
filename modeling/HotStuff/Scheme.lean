import HotStuff.Identity
import HotStuff.Hash.Sha256

/-!
# Cryptographic Schemes

What the protocol asks of cryptography: a hash function with a digest length, and signatures that
a public key checks. The protocol is written for any `Scheme`, so what it owes to collision-free
hashing and unforgeable signatures is a hypothesis on one; `HashAlgorithm.scheme` is the scheme a
network runs with, Ed25519 over SHA-256 or SHA-512.
-/

namespace HotStuff

/-- A hash function together with a signature scheme. -/
structure Scheme where
  /-- The number of bytes in the digest that chains start from. -/
  digestLength : Nat
  /-- The hash function. -/
  hash : Bytes → Digest
  /-- The public key that belongs to a secret. -/
  publicKey : Secret → MemberId
  /-- The signature of a byte string under a secret. -/
  sign : Secret → Bytes → Signature
  /-- Whether a signature of a byte string is valid under a public key. -/
  verify : MemberId → Bytes → Signature → Bool

/-- **The genesis digest.** Zero in every byte; payload chains start from it. -/
def Scheme.genesisDigest (scheme : Scheme) : Digest := .zero scheme.digestLength

/-- A secret with its public key. -/
structure Keypair (scheme : Scheme) where
  secret : Secret
  member : MemberId
  /-- The public key is the one that belongs to the secret. -/
  member_eq : member = scheme.publicKey secret

/-- The key pair of a secret. -/
def Keypair.ofSecret (scheme : Scheme) (secret : Secret) : Keypair scheme :=
  ⟨secret, scheme.publicKey secret, rfl⟩

/-- The hash functions that a network can be configured with. -/
inductive HashAlgorithm where
  | sha256
  | sha512
  deriving DecidableEq, Repr, Inhabited

namespace HashAlgorithm

/-- The number of bytes in a digest. -/
def outputLength : HashAlgorithm → Nat
  | sha256 => 32
  | sha512 => 64

/-- The digest of a byte string. -/
def digest : HashAlgorithm → Bytes → Digest
  | sha256, bytes => ⟨Sha256.digest bytes⟩
  | sha512, bytes => ⟨Sha512.digest bytes⟩

/-- The name in configuration files. -/
def name : HashAlgorithm → String
  | sha256 => "sha256"
  | sha512 => "sha512"

/-- The algorithm that a lower-case name or its hyphenated form denotes. -/
def ofLowerName? (s : String) : Option HashAlgorithm :=
  if s = "sha256" ∨ s = "sha-256" then some sha256
  else if s = "sha512" ∨ s = "sha-512" then some sha512
  else none

/-- Ed25519 signatures over the digests of `algorithm`. -/
def scheme (algorithm : HashAlgorithm) : Scheme where
  digestLength := algorithm.outputLength
  hash := algorithm.digest
  publicKey secret := ⟨Bytes.toVector 32 (Ed25519.publicKey secret.bytes)⟩
  sign secret message := ⟨Bytes.toVector 64 (Ed25519.sign secret.bytes message)⟩
  verify member message signature := Ed25519.verify member.bytes message signature.bytes

end HashAlgorithm

/-- The secret derived from a small number, for development networks: the digest of its eight
bytes. -/
def Secret.ofNumber (n : UInt64) : Secret :=
  ⟨Bytes.toVector 32 (Sha256.digest (Bytes.bigEndian 8 n.toNat))⟩

/-- The secrets derived from the first few numbers. -/
def Secret.firstOf (n : Nat) : List Secret :=
  (List.range n).map fun i => Secret.ofNumber (UInt64.ofNat i)

end HotStuff
