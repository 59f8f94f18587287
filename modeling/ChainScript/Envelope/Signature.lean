import ChainScript.Curve.Ed25519
import ChainScript.Wire.Item

/-! Signatures as an envelope carries them: a byte for the kind, then the data under its length.
Data of any kind and length can be carried, but only Ed25519 signatures can be verified. -/
namespace ChainScript
open Wire

inductive SignatureKind where
  | none | ed25519 | ecdsa | ring
  deriving DecidableEq, Repr

namespace SignatureKind

def all : List SignatureKind := [.none, .ed25519, .ecdsa, .ring]

def byte (k : SignatureKind) : UInt8 := k.ctorIdx.toUInt8

def ofByte? (b : UInt8) : Option SignatureKind := all[b.toNat]?

theorem ofByte?_byte (k : SignatureKind) : ofByte? k.byte = some k := by cases k <;> rfl

def name : SignatureKind → String
  | none => "none" | ed25519 => "ed25519" | ecdsa => "ecdsa" | ring => "ring"

def read : Decoder SignatureKind := do
  let b ← Decoder.byte
  match ofByte? b with
  | some k => return k
  | .none => throw (.unknownTag b)

end SignatureKind

inductive KeyFault where
  | badHex (fault : Hex.Fault)
  | wrongLength (length : Nat)
  | unsupported (kind : SignatureKind)
  | malformed
  | unverified (fault : Curve.VerifyFault)
  deriving DecidableEq, Repr

def KeyFault.message : KeyFault → String
  | badHex fault => "invalid hex encoding of a key: " ++ fault.message
  | wrongLength n => s!"private key must be 32 bytes long, while {n} bytes were provided."
  | unsupported kind => "signature of kind `" ++ kind.name ++ "` can't be verified."
  | malformed => "signature error"
  | unverified fault => "signature error: " ++ fault.message

structure Scheme where
  publicKey : (secret : Block 32) → Block 32
  sign : (secret : Block 32) → (message : Bytes) → Block 64
  verify : (signer : Block 32) → (message : Bytes) → Block 64 → Except Curve.VerifyFault Unit

def Scheme.ed25519 : Scheme := ⟨Curve.Ed25519.publicKey, Curve.Ed25519.sign, Curve.Ed25519.verify⟩

structure Signature where
  kind : SignatureKind
  data : Bytes
  deriving DecidableEq, Repr

namespace Signature

def encode (s : Signature) : Bytes := s.kind.byte :: counted s.data

def read : Decoder Signature := do return ⟨← SignatureKind.read, ← Decoder.counted⟩

def make (scheme : Scheme) (secret : Block 32) (message : Bytes) : Signature :=
  ⟨.ed25519, (scheme.sign secret message).val⟩

def verify (scheme : Scheme) (s : Signature) (message : Bytes) (signer : Block 32) :
    Except KeyFault Unit :=
  if s.kind = .ed25519 then
    match Block.ofBytes? 64 s.data with
    | some data => (scheme.verify signer message data).mapError .unverified
    | none => .error .malformed
  else .error (.unsupported s.kind)

end Signature
end ChainScript
