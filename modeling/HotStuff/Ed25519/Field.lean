import HotStuff.Bytes

/-!
# The Field of Integers Modulo 2²⁵⁵ − 19

Elements are natural numbers below the prime. The operations reduce their results, so nothing
here depends on how an element was obtained; `root?` finds the square root of a quotient, which
is what recovering a point from one coordinate needs.
-/

namespace HotStuff.Ed25519.Field

/-- The prime 2²⁵⁵ − 19. -/
def prime : Nat := Nat.pow 2 255 - 19

/-- The sum of two elements. -/
def add (a b : Nat) : Nat := (a + b) % prime

/-- The difference of two elements. -/
def sub (a b : Nat) : Nat := (a + prime - b) % prime

/-- The product of two elements. -/
def mul (a b : Nat) : Nat := a * b % prime

/-- The power of an element by the number whose binary digits, highest first, are `bits`. -/
def powBits (a : Nat) (bits : List Bool) : Nat :=
  bits.foldl (fun r bit => let r := mul r r; if bit then mul r a else r) 1

/-- The binary digits of `n` below place `width`, highest first. -/
def bits (width n : Nat) : List Bool := ((List.range width).map n.testBit).reverse

/-- The power of an element by a number below 2²⁵⁵. -/
def pow (a e : Nat) : Nat := powBits a (bits 255 e)

/-- The inverse of an element; zero for zero. -/
def inv (a : Nat) : Nat := pow a (prime - 2)

/-- A square root of −1. -/
def rootMinusOne : Nat :=
  19681161376707505956807079304988542015446066515923890162744021073123829784752

/-- The even square root of `u / v`, if that is a square. -/
def root? (u v : Nat) : Option Nat :=
  let v3 := mul (mul v v) v
  let v7 := mul (mul v3 v3) v
  let r := mul (mul u v3) (pow (mul u v7) ((prime - 5) / 8))
  let check := mul v (mul r r)
  let even (r : Nat) := if r % 2 = 0 then r else sub 0 r
  if check = u then some (even r)
  else if check = sub 0 u then some (even (mul r rootMinusOne))
  else none

end HotStuff.Ed25519.Field
