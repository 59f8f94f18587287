import ChainScript.Bytes

/-! Hexadecimal text. Two digits make a byte, the high one first. Reading takes digits of
either case and nothing else: no sign, no blank, no leading `0x`. -/
namespace ChainScript.Hex

/-- Why a text is no hexadecimal byte string. Lengths and bytes are those of its UTF-8 form. -/
inductive Fault where
  | oddLength (length : Nat)
  | badByte (byte : UInt8)
  deriving DecidableEq, Repr

def Fault.message : Fault → String
  | .oddLength n => s!"odd hex string length {n}"
  | .badByte b => s!"invalid hex character {b.toNat}"

def digit (letters : Char) (n : UInt8) : Char :=
  if n < 10 then Char.ofNat (n.toNat + '0'.toNat) else Char.ofNat (n.toNat - 10 + letters.toNat)

def pair (letters : Char) (b : UInt8) : List Char :=
  [digit letters (b >>> 4), digit letters (b &&& 15)]

def lower (bytes : Bytes) : String := String.ofList (bytes.flatMap (pair 'a'))
def upper (bytes : Bytes) : String := String.ofList (bytes.flatMap (pair 'A'))

def digitValue? (b : UInt8) : Option UInt8 :=
  if 48 ≤ b ∧ b ≤ 57 then some (b - 48)
  else if 65 ≤ b ∧ b ≤ 70 then some (b - 55)
  else if 97 ≤ b ∧ b ≤ 102 then some (b - 87)
  else none

def isDigit (b : UInt8) : Bool := (digitValue? b).isSome

/-- Bytes from digit values, in reverse order in front of `done`. -/
def joinOnto (done : Bytes) : List UInt8 → Bytes
  | high :: low :: rest => joinOnto ((high <<< 4 ||| low) :: done) rest
  | _ => done

/-- An odd length is reported before any byte is looked at, then the first byte that is no digit. -/
def decode (s : String) : Except Fault Bytes :=
  let text := utf8 s
  if text.length % 2 = 1 then .error (.oddLength text.length)
  else match text.find? (fun b => !isDigit b) with
    | some b => .error (.badByte b)
    | none => .ok (joinOnto [] (text.filterMap digitValue?)).reverse

end ChainScript.Hex
