import Morpheus.CString

/-!
# Source fingerprints

The SHA-256 digest that `gener-source-preparer.c` compares with the manifest.
-/
namespace Morpheus.Sha256

def constants : List UInt32 :=
  [0x428a2f98, 0x71374491, 0xb5c0fbcf, 0xe9b5dba5, 0x3956c25b, 0x59f111f1, 0x923f82a4,
    0xab1c5ed5, 0xd807aa98, 0x12835b01, 0x243185be, 0x550c7dc3, 0x72be5d74, 0x80deb1fe,
    0x9bdc06a7, 0xc19bf174, 0xe49b69c1, 0xefbe4786, 0x0fc19dc6, 0x240ca1cc, 0x2de92c6f,
    0x4a7484aa, 0x5cb0a9dc, 0x76f988da, 0x983e5152, 0xa831c66d, 0xb00327c8, 0xbf597fc7,
    0xc6e00bf3, 0xd5a79147, 0x06ca6351, 0x14292967, 0x27b70a85, 0x2e1b2138, 0x4d2c6dfc,
    0x53380d13, 0x650a7354, 0x766a0abb, 0x81c2c92e, 0x92722c85, 0xa2bfe8a1, 0xa81a664b,
    0xc24b8b70, 0xc76c51a3, 0xd192e819, 0xd6990624, 0xf40e3585, 0x106aa070, 0x19a4c116,
    0x1e376c08, 0x2748774c, 0x34b0bcb5, 0x391c0cb3, 0x4ed8aa4a, 0x5b9cca4f, 0x682e6ff3,
    0x748f82ee, 0x78a5636f, 0x84c87814, 0x8cc70208, 0x90befffa, 0xa4506ceb, 0xbef9a3f7, 0xc67178f2]

/-- The eight words of the hash state. -/
structure Words where
  a : UInt32
  b : UInt32
  c : UInt32
  d : UInt32
  e : UInt32
  f : UInt32
  g : UInt32
  h : UInt32
  deriving DecidableEq, Repr

def initial : Words :=
  ⟨0x6a09e667, 0xbb67ae85, 0x3c6ef372, 0xa54ff53a,
    0x510e527f, 0x9b05688c, 0x1f83d9ab, 0x5be0cd19⟩

def rotateRight (value count : UInt32) : UInt32 := (value >>> count) ||| (value <<< (32 - count))

/-- A big-endian word of the block. -/
def wordAt (block : Bytes) (index : ℕ) : UInt32 :=
  ((block.drop (4 * index)).take 4).foldl (fun word byte => word <<< 8 ||| byte.toUInt32) 0

/-- The message schedule: word `index` from the words before it. -/
def nextWord (words : List UInt32) (index : ℕ) : List UInt32 :=
  let back := fun n => words.getD (index - n) 0
  let first := rotateRight (back 15) 7 ^^^ rotateRight (back 15) 18 ^^^ (back 15 >>> 3)
  let second := rotateRight (back 2) 17 ^^^ rotateRight (back 2) 19 ^^^ (back 2 >>> 10)
  words ++ [back 16 + first + back 7 + second]

def schedule (block : Bytes) : List UInt32 :=
  ((List.range 48).map (· + 16)).foldl nextWord ((List.range 16).map (wordAt block))

/-- One round, with the sum of its constant and its word. -/
def round (s : Words) (input : UInt32) : Words :=
  let choose := (s.e &&& s.f) ^^^ (~~~s.e &&& s.g)
  let majority := (s.a &&& s.b) ^^^ (s.a &&& s.c) ^^^ (s.b &&& s.c)
  let upperE := rotateRight s.e 6 ^^^ rotateRight s.e 11 ^^^ rotateRight s.e 25
  let upperA := rotateRight s.a 2 ^^^ rotateRight s.a 13 ^^^ rotateRight s.a 22
  let first := s.h + upperE + choose + input
  let second := upperA + majority
  ⟨first + second, s.a, s.b, s.c, s.d + first, s.e, s.f, s.g⟩

/-- `sha256_transform` -/
def transform (state : Words) (block : Bytes) : Words :=
  let r := (List.zipWith (· + ·) constants (schedule block)).foldl round state
  ⟨state.a + r.a, state.b + r.b, state.c + r.c, state.d + r.d, state.e + r.e, state.f + r.f,
    state.g + r.g, state.h + r.h⟩

/-- The text with the bit `1`, the zero bytes and the bit count that close it. -/
def padded (text : Bytes) : Bytes :=
  let bitCount := UInt64.ofNat (text.length * 8)
  let zeros := (119 - text.length % 64) % 64
  text ++ 0x80 :: List.replicate zeros 0 ++
    (List.range 8).map fun index => (bitCount >>> UInt64.ofNat ((7 - index) * 8)).toUInt8

/-- The blocks of a message, `left` of them. -/
def blocks : ℕ → Bytes → List Bytes
  | 0, _ => []
  | left + 1, message => message.take 64 :: blocks left (message.drop 64)

def hexDigit (value : UInt8) : Byte := if value < 10 then 48 + value else 87 + value

def hexByte (byte : UInt8) : Bytes := [hexDigit (byte >>> 4), hexDigit (byte &&& 15)]

def hexWord (word : UInt32) : Bytes :=
  hexByte (word >>> 24).toUInt8 ++ hexByte (word >>> 16).toUInt8 ++ hexByte (word >>> 8).toUInt8 ++
    hexByte word.toUInt8

/-- `sha256_hex` -/
def sha256Hex (text : Bytes) : Bytes :=
  let message := padded text
  let s := (blocks (message.length / 64) message).foldl transform initial
  hexWord s.a ++ hexWord s.b ++ hexWord s.c ++ hexWord s.d ++ hexWord s.e ++ hexWord s.f ++
    hexWord s.g ++ hexWord s.h

end Morpheus.Sha256
