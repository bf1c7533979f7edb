/-!
The SHA-256 digest of a sequence of bytes, and digests of lists of texts, whole and shortened. A
zero byte stands between two parts, so that the places where a text is cut count.
-/
namespace LazyGraph.Sha256

/-- The first 32 bits of the fractional parts of the cube roots of the first 64 primes. -/
def roundConstants : Array UInt32 := #[
  0x428a2f98, 0x71374491, 0xb5c0fbcf, 0xe9b5dba5, 0x3956c25b, 0x59f111f1, 0x923f82a4, 0xab1c5ed5,
  0xd807aa98, 0x12835b01, 0x243185be, 0x550c7dc3, 0x72be5d74, 0x80deb1fe, 0x9bdc06a7, 0xc19bf174,
  0xe49b69c1, 0xefbe4786, 0x0fc19dc6, 0x240ca1cc, 0x2de92c6f, 0x4a7484aa, 0x5cb0a9dc, 0x76f988da,
  0x983e5152, 0xa831c66d, 0xb00327c8, 0xbf597fc7, 0xc6e00bf3, 0xd5a79147, 0x06ca6351, 0x14292967,
  0x27b70a85, 0x2e1b2138, 0x4d2c6dfc, 0x53380d13, 0x650a7354, 0x766a0abb, 0x81c2c92e, 0x92722c85,
  0xa2bfe8a1, 0xa81a664b, 0xc24b8b70, 0xc76c51a3, 0xd192e819, 0xd6990624, 0xf40e3585, 0x106aa070,
  0x19a4c116, 0x1e376c08, 0x2748774c, 0x34b0bcb5, 0x391c0cb3, 0x4ed8aa4a, 0x5b9cca4f, 0x682e6ff3,
  0x748f82ee, 0x78a5636f, 0x84c87814, 0x8cc70208, 0x90befffa, 0xa4506ceb, 0xbef9a3f7, 0xc67178f2]

/-- The eight words of the chaining value. -/
structure State where
  a : UInt32
  b : UInt32
  c : UInt32
  d : UInt32
  e : UInt32
  f : UInt32
  g : UInt32
  h : UInt32

/-- The first 32 bits of the fractional parts of the square roots of the first 8 primes. -/
def initial : State :=
  ⟨0x6a09e667, 0xbb67ae85, 0x3c6ef372, 0xa54ff53a, 0x510e527f, 0x9b05688c, 0x1f83d9ab, 0x5be0cd19⟩

def rotateRight (x : UInt32) (n : UInt32) : UInt32 :=
  (x >>> n) ||| (x <<< (32 - n))

/-- One of the 64 rounds, with its message word and its constant. -/
def round (s : State) (w k : UInt32) : State :=
  let sum1 := rotateRight s.e 6 ^^^ rotateRight s.e 11 ^^^ rotateRight s.e 25
  let choice := (s.e &&& s.f) ^^^ (~~~s.e &&& s.g)
  let t1 := s.h + sum1 + choice + k + w
  let sum0 := rotateRight s.a 2 ^^^ rotateRight s.a 13 ^^^ rotateRight s.a 22
  let majority := (s.a &&& s.b) ^^^ (s.a &&& s.c) ^^^ (s.b &&& s.c)
  ⟨t1 + (sum0 + majority), s.a, s.b, s.c, s.d + t1, s.e, s.f, s.g⟩

/-- Extends the 16 words of a block to the 64 words of its schedule. -/
def schedule (block : Array UInt32) : Array UInt32 :=
  (List.range 48).foldl (fun w _ =>
    let n := w.size
    let back (i : Nat) : UInt32 := w.getD (n - i) 0
    let s0 := rotateRight (back 15) 7 ^^^ rotateRight (back 15) 18 ^^^ (back 15 >>> 3)
    let s1 := rotateRight (back 2) 17 ^^^ rotateRight (back 2) 19 ^^^ (back 2 >>> 10)
    w.push (back 16 + s0 + back 7 + s1)) block

/-- The chaining value after one block of 16 words. -/
def compress (s : State) (block : Array UInt32) : State :=
  let w := schedule block
  let r := (List.range 64).foldl (fun r i => round r (w.getD i 0) (roundConstants.getD i 0)) s
  ⟨s.a + r.a, s.b + r.b, s.c + r.c, s.d + r.d, s.e + r.e, s.f + r.f, s.g + r.g, s.h + r.h⟩

/-- Big-endian words of four bytes each. -/
def words : List UInt8 → List UInt32
  | a :: b :: c :: d :: rest =>
    ((a.toUInt32 <<< 24) ||| (b.toUInt32 <<< 16) ||| (c.toUInt32 <<< 8) ||| d.toUInt32)
      :: words rest
  | _ => []

/-- The message with its padding: one set bit, zeros, and the bit length in eight bytes. -/
def padded (bytes : List UInt8) : List UInt8 :=
  let n := bytes.length
  let zeros := (119 - n % 64) % 64
  let bits := 8 * n
  let size := (List.range 8).map fun i => UInt8.ofNat (bits / Nat.pow 2 (8 * (7 - i)) % 256)
  bytes ++ 0x80 :: List.replicate zeros 0 ++ size

/-- Runs over whole blocks of 16 words; `count` bounds their number. -/
def blocks : Nat → State → List UInt32 → State
  | 0, s, _ => s
  | count + 1, s, ws =>
    match ws with
    | [] => s
    | ws => blocks count (compress s (ws.take 16).toArray) (ws.drop 16)

/-- The eight words of the digest. -/
def digest (bytes : List UInt8) : List UInt32 :=
  let ws := words (padded bytes)
  let s := blocks (ws.length / 16) initial ws
  [s.a, s.b, s.c, s.d, s.e, s.f, s.g, s.h]

/-- Eight hexadecimal digits, lower case. -/
def hexWord (w : UInt32) : List Char :=
  (List.range 8).map fun i =>
    let n := (w.toNat / Nat.pow 16 (7 - i)) % 16
    if n < 10 then Char.ofNat ('0'.toNat + n) else Char.ofNat ('a'.toNat + n - 10)

/-- The digest in 64 hexadecimal digits. -/
def hex (bytes : List UInt8) : List Char := (digest bytes).flatMap hexWord

end LazyGraph.Sha256

namespace LazyGraph.Digest

/-- The bytes of the parts with a zero byte between them. -/
def joined : List String → List UInt8
  | [] => []
  | [s] => s.toUTF8.toList
  | s :: rest => s.toUTF8.toList ++ 0 :: joined rest

/-- The digest of the parts, 64 hexadecimal digits. -/
def full (parts : List String) : String := String.ofList (Sha256.hex (joined parts))

/-- The first `length` digits of the digest, at most all of them. -/
def short (parts : List String) (length : Nat) : String :=
  String.ofList ((Sha256.hex (joined parts)).take length)

end LazyGraph.Digest
