import ChainScript.Machine.Opcode
import ChainScript.Machine.TypeTag
import ChainScript.Text.Quoted

/-! Why a script or a transaction could not be put together. -/
namespace ChainScript
open Machine

inductive Refusal where
  | outOfRange (value limit : Nat)
  | unencodable (c : Char)
  | unloadable (ty : TypeTag)
  | oversized (length : Nat)
  | notAJump (op : Opcode)
  | registerCount (count : UInt8)
  | undefinedLabel (label : String)
  | malformedScript
  deriving DecidableEq, Repr

def Refusal.message : Refusal → String
  | outOfRange value limit => s!"value {value} does not fit into its wire slot (maximum is {limit})."
  | unencodable c => "character " ++ Text.quotedChar c ++ " can't be encoded as a single byte."
  | unloadable ty => "values of type `" ++ ty.name ++ "` can't be loaded into a register."
  | oversized length => s!"tried to load {length} bytes of data, while the limit is 65535 bytes."
  | notAJump op => "`" ++ op.mnemonic ++ "` is not a valid opcode for this kind of jump."
  | registerCount count =>
    s!"invalid number of registers {count.toNat}; it must be in range 1..=32."
  | undefinedLabel label => "jump target label `" ++ label ++ "` is never defined in the script."
  | malformedScript => "script must be a hex string with an even number of characters."

end ChainScript
