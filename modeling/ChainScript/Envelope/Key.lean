import ChainScript.Envelope.Signature
import ChainScript.Text.Blank

/-! Secret keys as text, and the texts that show a public key. -/
namespace ChainScript.Key

def dropMark : List Char → List Char
  | '0' :: 'x' :: digits => digits
  | '0' :: 'X' :: digits => digits
  | digits => digits

/-- A key is 32 bytes in hexadecimal. Blanks around it and one mark in front do not count. -/
def ofHex (s : String) : Except KeyFault (Block 32) :=
  match Hex.decode (String.ofList (dropMark (Text.trimBlanks s.toList))) with
  | .error fault => .error (.badHex fault)
  | .ok bytes =>
    match Block.ofBytes? 32 bytes with
    | some secret => .ok secret
    | none => .error (.wrongLength bytes.length)

def publicText (key : Block 32) : String := Hex.upper key.val

/-- Shows the public half of a pair of keys and leaves the secret out. -/
def pairText (key : Block 32) : String :=
  "KeyPair \x7b public: PublicKey([" ++ ", ".intercalate (key.val.map fun b => toString b.toNat) ++
    "]), .. \x7d"

end ChainScript.Key
