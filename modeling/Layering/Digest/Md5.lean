import Layering.Text.Basic

/-!
# The MD5 digest

A digest of 128 bits. The message is filled up to whole blocks of sixteen words, and each block stirs a
state of four words in sixty-four steps.
-/

namespace Layering.Md5

/-- The state: four words. -/
structure State where
  a : UInt32
  b : UInt32
  c : UInt32
  d : UInt32
deriving DecidableEq, Repr

/-- The state at the start. -/
def initial : State := ⟨0x67452301, 0xefcdab89, 0x98badcfe, 0x10325476⟩

/-- The word that each step adds: the fraction of the sine of the step's number. -/
def sines : List UInt32 :=
  [0xd76aa478, 0xe8c7b756, 0x242070db, 0xc1bdceee, 0xf57c0faf, 0x4787c62a, 0xa8304613, 0xfd469501,
   0x698098d8, 0x8b44f7af, 0xffff5bb1, 0x895cd7be, 0x6b901122, 0xfd987193, 0xa679438e, 0x49b40821,
   0xf61e2562, 0xc040b340, 0x265e5a51, 0xe9b6c7aa, 0xd62f105d, 0x02441453, 0xd8a1e681, 0xe7d3fbc8,
   0x21e1cde6, 0xc33707d6, 0xf4d50d87, 0x455a14ed, 0xa9e3e905, 0xfcefa3f8, 0x676f02d9, 0x8d2a4c8a,
   0xfffa3942, 0x8771f681, 0x6d9d6122, 0xfde5380c, 0xa4beea44, 0x4bdecfa9, 0xf6bb4b60, 0xbebfbc70,
   0x289b7ec6, 0xeaa127fa, 0xd4ef3085, 0x04881d05, 0xd9d4d039, 0xe6db99e5, 0x1fa27cf8, 0xc4ac5665,
   0xf4292244, 0x432aff97, 0xab9423a7, 0xfc93a039, 0x655b59c3, 0x8f0ccc92, 0xffeff47d, 0x85845dd1,
   0x6fa87e4f, 0xfe2ce6e0, 0xa3014314, 0x4e0811a1, 0xf7537e82, 0xbd3af235, 0x2ad7d2bb, 0xeb86d391]

/-- The number of places by which a step turns its word. -/
def turn (step : Nat) : UInt32 :=
  match step / 16, step % 4 with
  | 0, 0 => 7 | 0, 1 => 12 | 0, 2 => 17 | 0, _ => 22
  | 1, 0 => 5 | 1, 1 => 9 | 1, 2 => 14 | 1, _ => 20
  | 2, 0 => 4 | 2, 1 => 11 | 2, 2 => 16 | 2, _ => 23
  | _, 0 => 6 | _, 1 => 10 | _, 2 => 15 | _, _ => 21

/-- The word of the block that a step takes. -/
def wordIndex (step : Nat) : Nat :=
  match step / 16 with
  | 0 => step
  | 1 => (5 * step + 1) % 16
  | 2 => (3 * step + 5) % 16
  | _ => 7 * step % 16

/-- How a step mixes three words. -/
def mix (step : Nat) (b c d : UInt32) : UInt32 :=
  match step / 16 with
  | 0 => (b &&& c) ||| (~~~b &&& d)
  | 1 => (d &&& b) ||| (~~~d &&& c)
  | 2 => b ^^^ c ^^^ d
  | _ => c ^^^ (b ||| ~~~d)

/-- Turns a word to the left. -/
def rotate (x n : UInt32) : UInt32 := (x <<< n) ||| (x >>> (32 - n))

/-- One step. -/
def stir (block : List UInt32) (s : State) (step : Nat) (sine : UInt32) : State :=
  let f := mix step s.b s.c s.d + s.a + sine + block.getD (wordIndex step) 0
  ⟨s.d, s.b + rotate f (turn step), s.b, s.c⟩

/-- Adds a block to a state. -/
def absorb (s : State) (block : List UInt32) : State :=
  let t := sines.zipIdx.foldl (fun t (sine, step) => stir block t step sine) s
  ⟨s.a + t.a, s.b + t.b, s.c + t.c, s.d + t.d⟩

/-- The low bytes of a number, lowest first. -/
def bytesOf : (width : Nat) → Nat → List UInt8
  | 0, _ => []
  | w + 1, n => UInt8.ofNat (n % 256) :: bytesOf w (n / 256)

/-- The message with a mark, zeros and its length in bits. -/
def pad (message : List UInt8) : List UInt8 :=
  let n := message.length
  message ++ 0x80 :: List.replicate ((119 - n % 64) % 64) 0 ++ bytesOf 8 (8 * n)

/-- The words of a block of bytes, the lowest byte of each first. -/
def words : List UInt8 → List UInt32
  | b₀ :: b₁ :: b₂ :: b₃ :: r =>
    (b₀.toUInt32 ||| b₁.toUInt32 <<< 8 ||| b₂.toUInt32 <<< 16 ||| b₃.toUInt32 <<< 24) :: words r
  | _ => []

/-- Adds a number of blocks to a state. -/
def absorbAll : (blocks : Nat) → State → List UInt8 → State
  | 0, s, _ => s
  | n + 1, s, bytes => absorbAll n (absorb s (words (bytes.take 64))) (bytes.drop 64)

/-- The digest of a message, as bytes. -/
def digest (message : List UInt8) : List UInt8 :=
  let padded := pad message
  let s := absorbAll (padded.length / 64) initial padded
  [s.a, s.b, s.c, s.d].flatMap fun w => bytesOf 4 w.toNat

/-- The digest of a text, as hexadecimal digits. -/
def hexDigest (text : String) : List Char :=
  (digest (text.toList.flatMap String.utf8EncodeChar)).flatMap fun b => Text.hexDigits 2 b.toNat

end Layering.Md5
