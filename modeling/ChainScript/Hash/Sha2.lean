import ChainScript.Wire.LittleEndian

/-! The SHA-2 hash functions with words of 32 bits (SHA-256) and of 64 bits (SHA-512). The two
differ in their word size, rotations and number of rounds. Their constants are the first bits
behind the point of square and cube roots of the first primes. -/
namespace ChainScript.Hash

/-- The greatest number `root + k`, with `k` below `2 ^ bits`, whose power is at most `n`. -/
def rootFrom (power n : Nat) : (bits root : Nat) → Nat
  | 0, root => root
  | bits + 1, root =>
    let next := root + Nat.pow 2 bits
    rootFrom power n bits (if Nat.pow next power ≤ n then next else root)

/-- The first `w` bits behind the binary point of a root of `n`, which is less than 16. -/
def rootFraction (w power n : Nat) : BitVec w :=
  BitVec.ofNat w (rootFrom power (n * Nat.pow 2 (power * w)) (w + 4) 0)

def isPrime (n : Nat) : Bool := 2 ≤ n && (List.range n).all fun m => m < 2 || n % m != 0

def primes (count : Nat) : List Nat := ((List.range 410).filter isPrime).take count

structure Variant (w : Nat) where
  initial : List (BitVec w)
  constants : List (BitVec w)
  /-- Three rotations, for the working variables `a` and `e`. -/
  sumA : Nat × Nat × Nat
  sumE : Nat × Nat × Nat
  /-- Two rotations and a shift, for the words of the schedule. -/
  early : Nat × Nat × Nat
  late : Nat × Nat × Nat

def rotations (r : Nat × Nat × Nat) (x : BitVec w) : BitVec w :=
  x.rotateRight r.1 ^^^ x.rotateRight r.2.1 ^^^ x.rotateRight r.2.2

def shifted (r : Nat × Nat × Nat) (x : BitVec w) : BitVec w :=
  x.rotateRight r.1 ^^^ x.rotateRight r.2.1 ^^^ x >>> r.2.2

structure State (w : Nat) where
  a : BitVec w
  b : BitVec w
  c : BitVec w
  d : BitVec w
  e : BitVec w
  f : BitVec w
  g : BitVec w
  h : BitVec w

namespace State

def ofWords (words : List (BitVec w)) : State w :=
  let word (i : Nat) := words.getD i 0
  ⟨word 0, word 1, word 2, word 3, word 4, word 5, word 6, word 7⟩

def words (s : State w) : List (BitVec w) := [s.a, s.b, s.c, s.d, s.e, s.f, s.g, s.h]

def add (s t : State w) : State w :=
  ⟨s.a + t.a, s.b + t.b, s.c + t.c, s.d + t.d, s.e + t.e, s.f + t.f, s.g + t.g, s.h + t.h⟩

def round (v : Variant w) (s : State w) (input : BitVec w) : State w :=
  let choice := (s.e &&& s.f) ^^^ (~~~s.e &&& s.g)
  let majority := (s.a &&& s.b) ^^^ (s.a &&& s.c) ^^^ (s.b &&& s.c)
  let mixed := s.h + rotations v.sumE s.e + choice + input
  ⟨mixed + rotations v.sumA s.a + majority, s.a, s.b, s.c, s.d + mixed, s.e, s.f, s.g⟩

end State

def nextWord (v : Variant w) (window : List (BitVec w)) : BitVec w :=
  shifted v.late (window.getD 14 0) + window.getD 9 0 + shifted v.early (window.getD 1 0)
    + window.getD 0 0

/-- The rounds for the given constants. The window holds the next sixteen schedule words. -/
def compress (v : Variant w) : (constants window : List (BitVec w)) → State w → State w
  | [], _, s => s
  | k :: ks, window, s =>
    compress v ks (window.drop 1 ++ [nextWord v window]) (s.round v (k + window.getD 0 0))

def beWord (w : Nat) (bytes : Bytes) : BitVec w := BitVec.ofNat w (Wire.leValue bytes.reverse)

def beWords (w : Nat) : (count : Nat) → Bytes → List (BitVec w)
  | 0, _ => []
  | count + 1, bytes => beWord w (bytes.take (w / 8)) :: beWords w count (bytes.drop (w / 8))

/-- The message, the bit 1, zeros up to the end of a block, and there the length in bits. -/
def padded (w : Nat) (message : Bytes) : Bytes :=
  let size := 2 * w
  let length := w / 4
  let gap := (size - (message.length + 1 + length) % size) % size
  message ++ 0x80 :: (List.replicate gap 0 ++ (Wire.leBytes length (8 * message.length)).reverse)

def absorb (v : Variant w) (constants : List (BitVec w)) : (blocks : Nat) → Bytes → State w → State w
  | 0, _, s => s
  | blocks + 1, bytes, s =>
    absorb v constants blocks (bytes.drop (2 * w))
      (s.add (compress v constants (beWords w 16 (bytes.take (2 * w))) s))

def digest (v : Variant w) (message : Bytes) : Bytes :=
  let bytes := padded w message
  let final := absorb v v.constants (bytes.length / (2 * w)) bytes (State.ofWords v.initial)
  final.words.flatMap fun word => (Wire.leBytes (w / 8) word.toNat).reverse

def variant256 : Variant 32 :=
  ⟨(primes 8).map (rootFraction 32 2), (primes 64).map (rootFraction 32 3),
    (2, 13, 22), (6, 11, 25), (7, 18, 3), (17, 19, 10)⟩

def variant512 : Variant 64 :=
  ⟨(primes 8).map (rootFraction 64 2), (primes 80).map (rootFraction 64 3),
    (28, 34, 39), (14, 18, 41), (1, 8, 7), (19, 61, 6)⟩

def sha256 (message : Bytes) : Bytes := digest variant256 message

def sha512 (message : Bytes) : Bytes := digest variant512 message

end ChainScript.Hash
