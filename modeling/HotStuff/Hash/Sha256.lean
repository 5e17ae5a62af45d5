import HotStuff.Bytes

/-!
# SHA-256

The hash function SHA-256 on byte strings. A message is padded with a one bit, zeros and its length
in bits to whole blocks of 64 bytes. Each block is read as 16 words of 32 bits, most significant
byte first; a schedule makes a word for each of 64 rounds out of them, and the eight words after the
rounds are added to the eight before.
-/

namespace HotStuff.Sha256

/-- The eight words that compression carries from block to block. -/
structure State where
  (a b c d e f g h : UInt32)
  deriving Inhabited

/-- The initial words: the fractions of the square roots of the first eight primes. -/
def initial : State :=
  ⟨0x6a09e667, 0xbb67ae85, 0x3c6ef372, 0xa54ff53a,
    0x510e527f, 0x9b05688c, 0x1f83d9ab, 0x5be0cd19⟩

/-- The round constants: the fractions of the cube roots of the first 64 primes. -/
def constants : Array UInt32 := #[
  0x428a2f98, 0x71374491, 0xb5c0fbcf, 0xe9b5dba5, 0x3956c25b, 0x59f111f1, 0x923f82a4, 0xab1c5ed5,
  0xd807aa98, 0x12835b01, 0x243185be, 0x550c7dc3, 0x72be5d74, 0x80deb1fe, 0x9bdc06a7, 0xc19bf174,
  0xe49b69c1, 0xefbe4786, 0x0fc19dc6, 0x240ca1cc, 0x2de92c6f, 0x4a7484aa, 0x5cb0a9dc, 0x76f988da,
  0x983e5152, 0xa831c66d, 0xb00327c8, 0xbf597fc7, 0xc6e00bf3, 0xd5a79147, 0x06ca6351, 0x14292967,
  0x27b70a85, 0x2e1b2138, 0x4d2c6dfc, 0x53380d13, 0x650a7354, 0x766a0abb, 0x81c2c92e, 0x92722c85,
  0xa2bfe8a1, 0xa81a664b, 0xc24b8b70, 0xc76c51a3, 0xd192e819, 0xd6990624, 0xf40e3585, 0x106aa070,
  0x19a4c116, 0x1e376c08, 0x2748774c, 0x34b0bcb5, 0x391c0cb3, 0x4ed8aa4a, 0x5b9cca4f, 0x682e6ff3,
  0x748f82ee, 0x78a5636f, 0x84c87814, 0x8cc70208, 0x90befffa, 0xa4506ceb, 0xbef9a3f7, 0xc67178f2]

/-- Rotation to the right by `n` places. -/
def rotate (x n : UInt32) : UInt32 := (x >>> n) ||| (x <<< (32 - n))

def bigSigma0 (x : UInt32) : UInt32 := rotate x 2 ^^^ rotate x 13 ^^^ rotate x 22
def bigSigma1 (x : UInt32) : UInt32 := rotate x 6 ^^^ rotate x 11 ^^^ rotate x 25
def smallSigma0 (x : UInt32) : UInt32 := rotate x 7 ^^^ rotate x 18 ^^^ (x >>> 3)
def smallSigma1 (x : UInt32) : UInt32 := rotate x 17 ^^^ rotate x 19 ^^^ (x >>> 10)

/-- Extends the 16 words of a block to one word for each round. -/
def schedule (block : Array UInt32) : Array UInt32 :=
  (List.range (64 - 16)).foldl
    (fun w i =>
      let word (back : Nat) := w.getD (i + 16 - back) 0
      w.push (smallSigma1 (word 2) + word 7 + smallSigma0 (word 15) + word 16))
    block

/-- One round, with its constant and its word of the schedule. -/
def round (s : State) (k w : UInt32) : State :=
  let t₁ := s.h + bigSigma1 s.e + ((s.e &&& s.f) ^^^ (~~~s.e &&& s.g)) + k + w
  let t₂ := bigSigma0 s.a + ((s.a &&& s.b) ^^^ (s.a &&& s.c) ^^^ (s.b &&& s.c))
  ⟨t₁ + t₂, s.a, s.b, s.c, s.d + t₁, s.e, s.f, s.g⟩

/-- Takes one block of 16 words into the state. -/
def compress (s : State) (block : Array UInt32) : State :=
  let w := schedule block
  let t := (List.range 64).foldl (fun t i => round t (constants.getD i 0) (w.getD i 0)) s
  ⟨s.a + t.a, s.b + t.b, s.c + t.c, s.d + t.d, s.e + t.e, s.f + t.f, s.g + t.g, s.h + t.h⟩

/-- Takes a padded byte string into the state, word by word: `pending` holds the `count` bytes read
of the next word, and `block` the words read of the next block. -/
def absorb : Bytes → (pending : UInt32) → (count : Nat) → Array UInt32 → State → State
  | [], _, _, _, s => s
  | b :: rest, pending, count, block, s =>
    let word := (pending <<< 8) ||| b.toUInt32
    if count + 1 < 4 then absorb rest word (count + 1) block s
    else
      let block := block.push word
      if block.size < 16 then absorb rest 0 0 block s
      else absorb rest 0 0 #[] (compress s block)

/-- The message, a one bit, zeros, and the length of the message in bits: whole blocks. -/
def pad (message : Bytes) : Bytes :=
  let length := message.length
  message ++ 0x80 :: (List.replicate ((119 - length % 64) % 64) 0 ++
    Bytes.bigEndian 8 (8 * length))

/-- The 32 bytes of the digest. -/
def digest (message : Bytes) : Bytes :=
  let s := absorb (pad message) 0 0 #[] initial
  [s.a, s.b, s.c, s.d, s.e, s.f, s.g, s.h].flatMap fun word => Bytes.bigEndian 4 word.toNat

/-- A digest takes 32 bytes, whatever the message. -/
theorem length_digest (message : Bytes) : (digest message).length = 32 := by
  simp [digest]

end HotStuff.Sha256
