import HotStuff.Ed25519.Field

/-!
# The Twisted Edwards Curve −x² + y² = 1 + d·x²·y²

Points in extended coordinates, so that addition needs no inversion, and their 32-byte form: the
`y` coordinate, least significant byte first, with the parity of `x` in the highest bit.

## Encodings

`decode?` takes `y` modulo the prime, so it also accepts the few encodings that are not the
shortest, and a parity bit where `x` is zero. Which signatures are valid depends on it.
-/

namespace HotStuff.Ed25519

open HotStuff.Ed25519.Field

/-- A point in extended coordinates: `x = X/Z`, `y = Y/Z`, `x·y = T/Z`. -/
structure Point where
  (x y z t : Nat)
  deriving Inhabited

namespace Point

/-- The constant `d` of the curve equation. -/
def d : Nat :=
  37095705934669439343138083508754565189542113879843219016388785533085940283555

/-- Twice the constant `d`. -/
def twoD : Nat := Field.add d d

/-- The neutral element. -/
def zero : Point := ⟨0, 1, 1, 0⟩

/-- The sum of two points. -/
def add (p q : Point) : Point :=
  let a := mul (sub p.y p.x) (sub q.y q.x)
  let b := mul (Field.add p.y p.x) (Field.add q.y q.x)
  let c := mul (mul p.t twoD) q.t
  let e := mul (Field.add p.z p.z) q.z
  let f := sub b a
  let g := sub e c
  let h := Field.add e c
  let k := Field.add b a
  ⟨mul f g, mul h k, mul g h, mul f k⟩

/-- The sum of a point with itself. -/
def double (p : Point) : Point :=
  let a := mul p.x p.x
  let b := mul p.y p.y
  let c := mul p.z p.z
  let c := Field.add c c
  let h := Field.add a b
  let s := Field.add p.x p.y
  let e := sub h (mul s s)
  let g := sub a b
  let f := Field.add c g
  ⟨mul e f, mul g h, mul f g, mul e h⟩

/-- The inverse of a point. -/
def neg (p : Point) : Point := ⟨sub 0 p.x, p.y, p.z, sub 0 p.t⟩

/-- Whether a point is the neutral element. -/
def isZero (p : Point) : Bool := p.x == 0 && p.y == p.z

/-- The generator of the subgroup of prime order. -/
def base : Point :=
  let x :=
    15112221349535400772501151409588531511454012693041857206046113283949847762202
  let y :=
    46316835694926478169428394003475163141307993866256225615783033603165251855960
  ⟨x, y, 1, mul x y⟩

/-- The sum of `m` times `p` and `n` times `q`, for `m` and `n` below 2²⁵⁶. -/
def combine (m : Nat) (p : Point) (n : Nat) (q : Point) : Point :=
  let both := p.add q
  ((bits 256 m).zip (bits 256 n)).foldl
    (fun r b =>
      let r := r.double
      match b with
      | (true, true) => r.add both
      | (true, false) => r.add p
      | (false, true) => r.add q
      | (false, false) => r)
    zero

/-- The multiple of a point by a number below 2²⁵⁶. -/
def scale (n : Nat) (p : Point) : Point :=
  (bits 256 n).foldl (fun r b => let r := r.double; if b then r.add p else r) zero

/-- The 32-byte form of a point. -/
def encode (p : Point) : Bytes :=
  let i := inv p.z
  let x := mul p.x i
  let y := mul p.y i
  Bytes.littleEndian 32 (y + (if x % 2 = 1 then Nat.pow 2 255 else 0))

/-- The point that a 32-byte form stands for, if its `y` lies on the curve. -/
def decode? (bytes : Bytes) : Option Point :=
  let n := Bytes.ofLittleEndian bytes
  let y := n % Nat.pow 2 255 % prime
  let yy := mul y y
  match root? (sub yy 1) (Field.add (mul d yy) 1) with
  | some r =>
    let x := if n / Nat.pow 2 255 % 2 = 1 then sub 0 r else r
    some ⟨x, y, 1, mul x y⟩
  | none => none

end Point

end HotStuff.Ed25519
