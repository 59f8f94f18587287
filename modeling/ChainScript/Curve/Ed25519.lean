import ChainScript.Curve.Edwards
import ChainScript.Hash.Sha2

/-! Ed25519 signatures. Signing is deterministic. Verifying compares the encodings of the points
and does not multiply by the cofactor. -/
namespace ChainScript

abbrev Block (n : Nat) := { bytes : Bytes // bytes.length = n }

namespace Block

def ofBytes? (n : Nat) (bytes : Bytes) : Option (Block n) :=
  if h : bytes.length = n then some ⟨bytes, h⟩ else none

def append (a : Block m) (b : Block n) : Block (m + n) :=
  ⟨a.val ++ b.val, by rw [List.length_append, a.property, b.property]⟩

end Block

namespace Curve

inductive VerifyFault where
  | badPoint
  | badScalar
  | mismatch
  deriving DecidableEq, Repr

def VerifyFault.message : VerifyFault → String
  | badPoint => "Cannot decompress Edwards point"
  | badScalar => "Cannot use scalar with high-bit set"
  | mismatch => "Verification equation was not satisfied"

namespace Ed25519

def hashNumber (parts : List Bytes) : Nat := Wire.leValue (Hash.sha512 parts.flatten)

/-- The secret factor: a multiple of eight whose highest bit is bit 254. -/
def clamp (n : Nat) : Nat := Nat.pow 2 254 + n % Nat.pow 2 254 / 8 * 8

def encodePoint (p : Point) : Block 32 := ⟨p.compress, p.length_compress⟩

def encodeScalar (n : Nat) : Block 32 := ⟨Wire.leBytes 32 n, by simp⟩

def secretFactor (seed : Block 32) : Nat :=
  clamp (Wire.leValue ((Hash.sha512 seed.val).take 32))

def publicKey (seed : Block 32) : Block 32 := encodePoint (Point.base.scale (secretFactor seed))

def sign (seed : Block 32) (message : Bytes) : Block 64 :=
  let secret := secretFactor seed
  let key := encodePoint (Point.base.scale secret)
  let nonce := hashNumber [(Hash.sha512 seed.val).drop 32, message] % groupOrder
  let r := encodePoint (Point.base.scale nonce)
  let challenge := hashNumber [r.val, key.val, message]
  r.append (encodeScalar ((nonce + challenge * secret) % groupOrder))

/-- The key is looked at before the scalar. -/
def verify (key : Block 32) (message : Bytes) (signature : Block 64) : Except VerifyFault Unit :=
  let r := signature.val.take 32
  let s := Wire.leValue (signature.val.drop 32)
  match Point.decompress? key.val with
  | none => .error .badPoint
  | some a =>
    if groupOrder ≤ s then .error .badScalar
    else
      let challenge := hashNumber [r, key.val, message] % groupOrder
      if ((Point.base.scale s).add (a.neg.scale challenge)).compress = r then .ok ()
      else .error .mismatch

end Ed25519
end Curve
end ChainScript
