import AnimationScope.Text.Digit

/-!
# SHA-256

The digest of a message of bytes, written as sixty-four lower-case hexadecimal
digits. All arithmetic is on words of thirty-two bits and wraps around.
-/

namespace AnimationScope.Digest

/-- The eight words that a message is worked into. -/
structure Words where
  a : UInt32
  b : UInt32
  c : UInt32
  d : UInt32
  e : UInt32
  f : UInt32
  g : UInt32
  h : UInt32

namespace Words

def toList (w : Words) : List UInt32 := [w.a, w.b, w.c, w.d, w.e, w.f, w.g, w.h]

def add (v w : Words) : Words :=
  ⟨v.a + w.a, v.b + w.b, v.c + w.c, v.d + w.d, v.e + w.e, v.f + w.f, v.g + w.g, v.h + w.h⟩

/-- Fractions of the square roots of the first eight primes. -/
def initial : Words :=
  ⟨0x6a09e667, 0xbb67ae85, 0x3c6ef372, 0xa54ff53a,
    0x510e527f, 0x9b05688c, 0x1f83d9ab, 0x5be0cd19⟩

end Words

/-- Fractions of the cube roots of the first sixty-four primes. -/
def roundConstants : List UInt32 :=
  [ 0x428a2f98, 0x71374491, 0xb5c0fbcf, 0xe9b5dba5,
    0x3956c25b, 0x59f111f1, 0x923f82a4, 0xab1c5ed5,
    0xd807aa98, 0x12835b01, 0x243185be, 0x550c7dc3,
    0x72be5d74, 0x80deb1fe, 0x9bdc06a7, 0xc19bf174,
    0xe49b69c1, 0xefbe4786, 0x0fc19dc6, 0x240ca1cc,
    0x2de92c6f, 0x4a7484aa, 0x5cb0a9dc, 0x76f988da,
    0x983e5152, 0xa831c66d, 0xb00327c8, 0xbf597fc7,
    0xc6e00bf3, 0xd5a79147, 0x06ca6351, 0x14292967,
    0x27b70a85, 0x2e1b2138, 0x4d2c6dfc, 0x53380d13,
    0x650a7354, 0x766a0abb, 0x81c2c92e, 0x92722c85,
    0xa2bfe8a1, 0xa81a664b, 0xc24b8b70, 0xc76c51a3,
    0xd192e819, 0xd6990624, 0xf40e3585, 0x106aa070,
    0x19a4c116, 0x1e376c08, 0x2748774c, 0x34b0bcb5,
    0x391c0cb3, 0x4ed8aa4a, 0x5b9cca4f, 0x682e6ff3,
    0x748f82ee, 0x78a5636f, 0x84c87814, 0x8cc70208,
    0x90befffa, 0xa4506ceb, 0xbef9a3f7, 0xc67178f2 ]

def rotate (x : UInt32) (n : UInt32) : UInt32 := (x >>> n) ||| (x <<< (32 - n))

/-- Words of four bytes each, the first byte the most significant. -/
def wordsOfBytes : List UInt8 → List UInt32
  | a :: b :: c :: d :: r =>
    (a.toUInt32 <<< 24 ||| b.toUInt32 <<< 16 ||| c.toUInt32 <<< 8 ||| d.toUInt32) ::
      wordsOfBytes r
  | _ => []

/-- The bytes of a length in bits, as a number of sixty-four bits. -/
def lengthBytes (bits : Nat) : List UInt8 :=
  [56, 48, 40, 32, 24, 16, 8, 0].map fun shift => (bits >>> shift).toUInt8

/-- The message with a one bit, zeros and its length behind it, so that it
fills blocks of sixty-four bytes. -/
def pad (message : List UInt8) : List UInt8 :=
  let n := message.length
  message ++ 0x80 :: List.replicate ((119 - n % 64) % 64) 0 ++ lengthBytes (8 * n)

/-- Puts `n` more words in front of a message schedule, which is kept in reverse. -/
def extendSchedule : Nat → List UInt32 → List UInt32
  | 0, ws => ws
  | n + 1, ws =>
    let x := ws.getD 1 0
    let y := ws.getD 14 0
    let s1 := rotate x 17 ^^^ rotate x 19 ^^^ (x >>> 10)
    let s0 := rotate y 7 ^^^ rotate y 18 ^^^ (y >>> 3)
    extendSchedule n ((s1 + ws.getD 6 0 + s0 + ws.getD 15 0) :: ws)

def schedule (block : List UInt32) : List UInt32 := (extendSchedule 48 block.reverse).reverse

def round (v : Words) (k : UInt32 × UInt32) : Words :=
  let choice := (v.e &&& v.f) ^^^ (~~~v.e &&& v.g)
  let majority := (v.a &&& v.b) ^^^ (v.a &&& v.c) ^^^ (v.b &&& v.c)
  let t1 := v.h + (rotate v.e 6 ^^^ rotate v.e 11 ^^^ rotate v.e 25) + choice + k.1 + k.2
  let t2 := (rotate v.a 2 ^^^ rotate v.a 13 ^^^ rotate v.a 22) + majority
  ⟨t1 + t2, v.a, v.b, v.c, v.d + t1, v.e, v.f, v.g⟩

def compress (v : Words) (block : List UInt32) : Words :=
  v.add ((roundConstants.zip (schedule block)).foldl round v)

def blocks : Nat → List UInt32 → List (List UInt32)
  | 0, _ => []
  | n + 1, ws => ws.take 16 :: blocks n (ws.drop 16)

def sha256 (message : List UInt8) : Words :=
  let words := wordsOfBytes (pad message)
  (blocks (words.length / 16) words).foldl compress .initial

def hexWord (w : UInt32) : Text :=
  [28, 24, 20, 16, 12, 8, 4, 0].map fun shift : UInt32 => Text.hexDigit (w >>> shift).toNat

def hexDigest (message : List UInt8) : Text := (sha256 message).toList.flatMap hexWord

theorem length_hexDigest (message : List UInt8) : (hexDigest message).length = 64 := by
  simp [hexDigest, Words.toList, hexWord]

theorem mem_hexDigits_of_mem_hexDigest {message : List UInt8} {c : Char}
    (h : c ∈ hexDigest message) : c ∈ Text.hexDigits := by
  simp only [hexDigest, hexWord, List.mem_flatMap, List.mem_map] at h
  obtain ⟨_, _, _, _, rfl⟩ := h
  exact Text.hexDigit_mem _

end AnimationScope.Digest
