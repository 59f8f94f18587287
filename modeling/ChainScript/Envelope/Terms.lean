import ChainScript.Envelope.Transaction

/-! Terms that an application sets once for all its transactions. -/
namespace ChainScript

structure Terms where
  network : String := "mainnet"
  chain : String := "main"
  payload : String := ""
  /-- Seconds from now until expiration. -/
  window : UInt32 := Transaction.defaultWindow
  deriving DecidableEq, Repr

def Terms.build (terms : Terms) (now : Timestamp) (script : String) : Except Refusal Transaction :=
  Transaction.ofHexScript terms.network terms.chain script (now.later terms.window) terms.payload

end ChainScript
