/-! # SHA-256

The fingerprint of a fact document: the message is padded to whole blocks, and the compression
function runs over the blocks one after another.
-/

namespace RiskGate.Sha256

/-- The round constants: the first bits of the fractional parts of the cube roots of the first 64
primes. -/
def roundConstants : List UInt32 := [
  0x428a2f98, 0x71374491, 0xb5c0fbcf, 0xe9b5dba5, 0x3956c25b, 0x59f111f1, 0x923f82a4, 0xab1c5ed5,
  0xd807aa98, 0x12835b01, 0x243185be, 0x550c7dc3, 0x72be5d74, 0x80deb1fe, 0x9bdc06a7, 0xc19bf174,
  0xe49b69c1, 0xefbe4786, 0x0fc19dc6, 0x240ca1cc, 0x2de92c6f, 0x4a7484aa, 0x5cb0a9dc, 0x76f988da,
  0x983e5152, 0xa831c66d, 0xb00327c8, 0xbf597fc7, 0xc6e00bf3, 0xd5a79147, 0x06ca6351, 0x14292967,
  0x27b70a85, 0x2e1b2138, 0x4d2c6dfc, 0x53380d13, 0x650a7354, 0x766a0abb, 0x81c2c92e, 0x92722c85,
  0xa2bfe8a1, 0xa81a664b, 0xc24b8b70, 0xc76c51a3, 0xd192e819, 0xd6990624, 0xf40e3585, 0x106aa070,
  0x19a4c116, 0x1e376c08, 0x2748774c, 0x34b0bcb5, 0x391c0cb3, 0x4ed8aa4a, 0x5b9cca4f, 0x682e6ff3,
  0x748f82ee, 0x78a5636f, 0x84c87814, 0x8cc70208, 0x90befffa, 0xa4506ceb, 0xbef9a3f7, 0xc67178f2]

/-- The eight working words. -/
structure State where
  a : UInt32
  b : UInt32
  c : UInt32
  d : UInt32
  e : UInt32
  f : UInt32
  g : UInt32
  h : UInt32

/-- The words before the first block: the first bits of the fractional parts of the square roots of
the first eight primes. -/
def State.initial : State where
  a := 0x6a09e667
  b := 0xbb67ae85
  c := 0x3c6ef372
  d := 0xa54ff53a
  e := 0x510e527f
  f := 0x9b05688c
  g := 0x1f83d9ab
  h := 0x5be0cd19

/-- A rotation to the right. -/
def rotate (x n : UInt32) : UInt32 := (x >>> n) ||| (x <<< (32 - n))

/-- One round with its constant and its word of the message. -/
def State.round (s : State) (constant word : UInt32) : State :=
  let mixed := rotate s.e 6 ^^^ rotate s.e 11 ^^^ rotate s.e 25
  let choice := (s.e &&& s.f) ^^^ (~~~s.e &&& s.g)
  let first := s.h + mixed + choice + constant + word
  let spread := rotate s.a 2 ^^^ rotate s.a 13 ^^^ rotate s.a 22
  let majority := (s.a &&& s.b) ^^^ (s.a &&& s.c) ^^^ (s.b &&& s.c)
  { a := first + (spread + majority), b := s.a, c := s.b, d := s.c
    e := s.d + first, f := s.e, g := s.f, h := s.g }

/-- The word after the given ones, the latest of which stands first. -/
def nextWord (latest : List UInt32) : UInt32 :=
  let back := fun n => latest.getD (n - 1) 0
  let old := back 15
  let recent := back 2
  (rotate recent 17 ^^^ rotate recent 19 ^^^ (recent >>> 10)) + back 7 +
    (rotate old 7 ^^^ rotate old 18 ^^^ (old >>> 3)) + back 16

/-- The given words, latest first, with `n` more in front. -/
def extend : Nat → List UInt32 → List UInt32
  | 0, latest => latest
  | n + 1, latest => extend n (nextWord latest :: latest)

/-- The words that bytes spell, most significant byte first. -/
def wordsOf : List UInt8 → List UInt32
  | a :: b :: c :: d :: rest =>
    ((a.toUInt32 <<< 24) ||| (b.toUInt32 <<< 16) ||| (c.toUInt32 <<< 8) ||| d.toUInt32) ::
      wordsOf rest
  | _ => []

/-- The words after a block of 64 bytes. -/
def State.compress (s : State) (block : List UInt8) : State :=
  let schedule := (extend 48 (wordsOf block).reverse).reverse
  let t := (roundConstants.zip schedule).foldl (fun t (constant, word) => t.round constant word) s
  { a := s.a + t.a, b := s.b + t.b, c := s.c + t.c, d := s.d + t.d
    e := s.e + t.e, f := s.f + t.f, g := s.g + t.g, h := s.h + t.h }

/-- The bytes of a number of 64 bits, most significant first. -/
def bigEndian (n : Nat) : List UInt8 :=
  (List.range 8).map fun i => UInt8.ofNat (n / Nat.pow 256 (7 - i))

/-- The message with a bit, zeros up to eight bytes short of a whole block, and its length in bits.
-/
def padded (message : List UInt8) : List UInt8 :=
  let zeros := (64 - (message.length + 9) % 64) % 64
  message ++ (0x80 :: List.replicate zeros 0) ++ bigEndian (8 * message.length)

/-- The words after the given number of blocks. -/
def State.absorb : Nat → List UInt8 → State → State
  | 0, _, s => s
  | blocks + 1, message, s => absorb blocks (message.drop 64) (s.compress (message.take 64))

/-- The digits of a word in base sixteen. -/
def hexWord (word : UInt32) : List Char :=
  (List.range 8).map fun i => Nat.digitChar (word.toNat / Nat.pow 16 (7 - i) % 16)

/-- The digest of the bytes in base sixteen. -/
def hexDigest (bytes : ByteArray) : String :=
  let message := padded bytes.toList
  let s := State.initial.absorb (message.length / 64) message
  String.ofList ([s.a, s.b, s.c, s.d, s.e, s.f, s.g, s.h].flatMap hexWord)

end RiskGate.Sha256
