import QueryShape.Text.Utf8

/-!
# The SHA-256 digest

## What this module delivers

- `digest`: the eight words of the digest of a sequence of bytes.
- `hex`: the digest of a text in lower-case hexadecimal, sixty-four characters.

The message is padded to blocks of sixteen words, each block is expanded to a
schedule of sixty-four words, and each schedule is folded into the state.
-/

set_option autoImplicit false

namespace QueryShape.Text.Sha256

/-- The eight working words. -/
structure State where
  a : UInt32
  b : UInt32
  c : UInt32
  d : UInt32
  e : UInt32
  f : UInt32
  g : UInt32
  h : UInt32

/-- Fractional parts of the square roots of the first eight primes. -/
def initial : State :=
  ⟨0x6a09e667, 0xbb67ae85, 0x3c6ef372, 0xa54ff53a, 0x510e527f, 0x9b05688c, 0x1f83d9ab, 0x5be0cd19⟩

/-- Fractional parts of the cube roots of the first sixty-four primes, one for each round. -/
def roundConstants : List UInt32 :=
  [0x428a2f98, 0x71374491, 0xb5c0fbcf, 0xe9b5dba5, 0x3956c25b, 0x59f111f1, 0x923f82a4, 0xab1c5ed5,
    0xd807aa98, 0x12835b01, 0x243185be, 0x550c7dc3, 0x72be5d74, 0x80deb1fe, 0x9bdc06a7, 0xc19bf174,
    0xe49b69c1, 0xefbe4786, 0x0fc19dc6, 0x240ca1cc, 0x2de92c6f, 0x4a7484aa, 0x5cb0a9dc, 0x76f988da,
    0x983e5152, 0xa831c66d, 0xb00327c8, 0xbf597fc7, 0xc6e00bf3, 0xd5a79147, 0x06ca6351, 0x14292967,
    0x27b70a85, 0x2e1b2138, 0x4d2c6dfc, 0x53380d13, 0x650a7354, 0x766a0abb, 0x81c2c92e, 0x92722c85,
    0xa2bfe8a1, 0xa81a664b, 0xc24b8b70, 0xc76c51a3, 0xd192e819, 0xd6990624, 0xf40e3585, 0x106aa070,
    0x19a4c116, 0x1e376c08, 0x2748774c, 0x34b0bcb5, 0x391c0cb3, 0x4ed8aa4a, 0x5b9cca4f, 0x682e6ff3,
    0x748f82ee, 0x78a5636f, 0x84c87814, 0x8cc70208, 0x90befffa, 0xa4506ceb, 0xbef9a3f7, 0xc67178f2]

/-- Rotation of a word to the right, for an amount between 1 and 31. -/
def rotate (word amount : UInt32) : UInt32 :=
  (word >>> amount) ||| (word <<< (32 - amount))

/-- The padded message: a one bit, zeros up to eight bytes before a block's end,
and the length in bits as a word of eight bytes. -/
def pad (bytes : List UInt8) : List UInt8 :=
  let length := bytes.length
  let zeros := (119 - length % 64) % 64
  let bits := length * 8
  let lengthBytes := [56, 48, 40, 32, 24, 16, 8, 0].map (fun shift => UInt8.ofNat (bits >>> shift))
  bytes ++ 0x80 :: (List.replicate zeros 0 ++ lengthBytes)

/-- Groups bytes into words, most significant byte first. -/
def toWords : List UInt8 → List UInt32
  | a :: b :: c :: d :: rest =>
      (a.toUInt32 <<< 24 ||| b.toUInt32 <<< 16 ||| c.toUInt32 <<< 8 ||| d.toUInt32) :: toWords rest
  | _ => []

/-- Extends a schedule, kept with its last word first, by one word. -/
def extend (schedule : Array UInt32) : Array UInt32 :=
  let n := schedule.size
  let word (back : Nat) : UInt32 := schedule.getD (n - back) 0
  let w15 := word 15
  let w2 := word 2
  let s0 := rotate w15 7 ^^^ rotate w15 18 ^^^ (w15 >>> 3)
  let s1 := rotate w2 17 ^^^ rotate w2 19 ^^^ (w2 >>> 10)
  schedule.push (word 16 + s0 + word 7 + s1)

/-- The schedule of a block: its sixteen words and forty-eight more. -/
def schedule (block : List UInt32) : List UInt32 :=
  ((List.range 48).foldl (fun words _ => extend words) block.toArray).toList

/-- One round: the constant and the schedule word of the round enter the state. -/
def round (s : State) (input : UInt32 × UInt32) : State :=
  let s1 := rotate s.e 6 ^^^ rotate s.e 11 ^^^ rotate s.e 25
  let choice := (s.e &&& s.f) ^^^ (~~~ s.e &&& s.g)
  let t1 := s.h + s1 + choice + input.1 + input.2
  let s0 := rotate s.a 2 ^^^ rotate s.a 13 ^^^ rotate s.a 22
  let majority := (s.a &&& s.b) ^^^ (s.a &&& s.c) ^^^ (s.b &&& s.c)
  ⟨t1 + s0 + majority, s.a, s.b, s.c, s.d + t1, s.e, s.f, s.g⟩

/-- Folds one block into the state. -/
def compress (s : State) (block : List UInt32) : State :=
  let r := (roundConstants.zip (schedule block)).foldl round s
  ⟨s.a + r.a, s.b + r.b, s.c + r.c, s.d + r.d, s.e + r.e, s.f + r.f, s.g + r.g, s.h + r.h⟩

/-- Cuts a list of words into blocks of sixteen, given the number of blocks. -/
def blocks (words : List UInt32) : Nat → List (List UInt32)
  | 0 => []
  | n + 1 => words.take 16 :: blocks (words.drop 16) n

/-- The eight words of the digest. -/
def digest (bytes : List UInt8) : List UInt32 :=
  let words := toWords (pad bytes)
  let s := (blocks words (words.length / 16)).foldl compress initial
  [s.a, s.b, s.c, s.d, s.e, s.f, s.g, s.h]

/-- The eight hexadecimal digits of a word, lower case. -/
def hexOfWord (word : UInt32) : List Char :=
  [28, 24, 20, 16, 12, 8, 4, 0].map (fun shift => Nat.digitChar (word.toNat >>> shift % 16))

/-- The digest of a text in lower-case hexadecimal. -/
def hex (text : String) : String :=
  String.ofList ((digest (Utf8.encode text)).flatMap hexOfWord)

end QueryShape.Text.Sha256
