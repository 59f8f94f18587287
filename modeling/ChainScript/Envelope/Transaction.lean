import ChainScript.Envelope.Signature
import ChainScript.Timestamp

/-! Transactions: a script with the chain it is meant for, the time when it expires, a payload
and signatures. What is signed, and what the id is the hash of, is the encoding without the
signatures. -/
namespace ChainScript
open Wire

structure Transaction where
  network : String
  chain : String
  script : Bytes
  expiration : Timestamp
  payload : String
  /-- The latest signature comes first. -/
  signatures : List Signature
  deriving DecidableEq, Repr

namespace Transaction

def defaultWindow : UInt32 := 1000

def encodeText (s : String) : Except Refusal Bytes := (countedText s).mapError .unencodable

def checkText (s : String) : Except Refusal Unit :=
  match Text.SingleByte.encode s with
  | .ok _ => .ok ()
  | .error c => .error (.unencodable c)

def withScript (network chain : String) (script : Bytes) (expiration : Timestamp)
    (payload : String) : Except Refusal Transaction := do
  checkText network
  checkText chain
  checkText payload
  return ⟨network, chain, script, expiration, payload, []⟩

def ofHexScript (network chain script : String) (expiration : Timestamp) (payload : String) :
    Except Refusal Transaction :=
  if script.utf8ByteSize % 2 = 1 then .error .malformedScript
  else match Hex.decode script with
    | .ok bytes => withScript network chain bytes expiration payload
    | .error _ => .error .malformedScript

/-- The bytes that are signed. -/
def message (t : Transaction) : Except Refusal Bytes := do
  let network ← encodeText t.network
  let chain ← encodeText t.chain
  let payload ← encodeText t.payload
  return network ++ chain ++ counted t.script ++ t.expiration.encode ++ payload

def encodeSignatures (signatures : List Signature) : Bytes :=
  VarInt.encode signatures.length.toUInt64 ++ signatures.flatMap Signature.encode

def encode (t : Transaction) : Except Refusal Bytes := do
  return (← t.message) ++ encodeSignatures t.signatures

/-- Reads signatures after those read so far (latest first). -/
def readSignatures : (count : Nat) → List Signature → Decoder (List Signature)
  | 0, found => pure found.reverse
  | count + 1, found => do
    let s ← Signature.read
    readSignatures count (s :: found)

/-- The signatures behind the payload. There are none where the data ends with the payload. -/
def readSection : Decoder (List Signature) := fun input =>
  if input.isEmpty then .ok [] input
  else (do readSignatures (← VarInt.read).toNat [] : Decoder (List Signature)) input

def read : Decoder Transaction := do
  let network ← Decoder.text
  let chain ← Decoder.text
  let script ← Decoder.counted
  let expiration ← Decoder.u32
  let payload ← Decoder.text
  let signatures ← readSection
  Decoder.ended
  return ⟨network, chain, script, ⟨expiration⟩, payload, signatures⟩

def ofBytes (data : Bytes) : Except Fault Transaction := read.run data

def ofHex (digits : String) : Except Fault Transaction :=
  match Hex.decode digits with
  | .ok data => ofBytes data
  | .error fault => .error (.badHex fault)

def hash (t : Transaction) : Except Refusal Bytes := do return Hash.sha256 (← t.message)

def sign (scheme : Scheme) (secret : Block 32) (t : Transaction) : Except Refusal Transaction := do
  let s := Signature.make scheme secret (← t.message)
  return { t with signatures := s :: t.signatures }

def isSignedBy (scheme : Scheme) (signer : Block 32) (t : Transaction) : Bool :=
  match t.message with
  | .ok message => t.signatures.any fun s => (s.verify scheme message signer).isOk
  | .error _ => false

end Transaction
end ChainScript
