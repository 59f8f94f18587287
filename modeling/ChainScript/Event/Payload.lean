import ChainScript.Wire.Item

/-! What the data of events hold. Bytes behind the last field are left unread. -/
namespace ChainScript
open Wire

/-- An amount of tokens, or the id of one, on a chain. -/
structure TokenAmount where
  symbol : String
  value : Nat
  chain : String
  deriving DecidableEq, Repr

def TokenAmount.read : Decoder TokenAmount := do
  return ⟨← Decoder.text, ← Decoder.natural, ← Decoder.text⟩

structure ChainValue where
  name : String
  value : Nat
  deriving DecidableEq, Repr

def ChainValue.read : Decoder ChainValue := do return ⟨← Decoder.text, ← Decoder.natural⟩

end ChainScript
