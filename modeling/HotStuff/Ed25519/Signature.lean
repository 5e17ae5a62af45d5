import HotStuff.Ed25519.Point
import HotStuff.Hash.Sha512

/-!
# Ed25519 Signatures

Signing and verification over the curve of `HotStuff.Ed25519.Point`. Of the rules for accepting a
signature that are in use, these are the ones under which it makes no difference whether signatures
are checked one by one or many at once: the two points may be written in any encoding that
`Point.decode?` accepts, the scalar has to be below the group order, and the equation is checked up
to the cofactor 8.
-/

namespace HotStuff.Ed25519

/-- The order of the subgroup that `Point.base` generates. -/
def order : Nat := Nat.pow 2 252 + 27742317777372353535851937790883648493

/-- The digest of a byte string, read as a scalar. -/
def hashToScalar (bytes : Bytes) : Nat := Bytes.ofLittleEndian (Sha512.digest bytes) % order

/-- The secret scalar of a seed: the lower half of its digest, with the three lowest bits cleared,
the highest bit cleared and the second highest set. -/
def secretScalar (digest : Bytes) : Nat :=
  let n := Bytes.ofLittleEndian (digest.take 32)
  Nat.pow 2 254 + n % Nat.pow 2 254 / 8 * 8

/-- The public key of a 32-byte seed. -/
def publicKey (seed : Bytes) : Bytes :=
  (Point.base.scale (secretScalar (Sha512.digest seed))).encode

/-- The 64-byte signature of a message under a 32-byte seed. -/
def sign (seed message : Bytes) : Bytes :=
  let digest := Sha512.digest seed
  let a := secretScalar digest
  let key := (Point.base.scale a).encode
  let r := hashToScalar (digest.drop 32 ++ message)
  let point := (Point.base.scale r).encode
  let k := hashToScalar (point ++ key ++ message)
  point ++ Bytes.littleEndian 32 ((r + k * a) % order)

/-- Whether 32 bytes are the encoding of a point. -/
def isKey (key : Bytes) : Bool := (Point.decode? key).isSome

/-- Whether a 64-byte signature of a message is valid under a public key. -/
def verify (key message signature : Bytes) : Bool :=
  let point := signature.take 32
  let s := Bytes.ofLittleEndian (signature.drop 32)
  match Point.decode? key, Point.decode? point with
  | some a, some r =>
    if s < order then
      let k := hashToScalar (point ++ key ++ message)
      let rest := (r.neg).add (Point.combine s Point.base k a.neg)
      rest.double.double.double.isZero
    else false
  | _, _ => false

end HotStuff.Ed25519
