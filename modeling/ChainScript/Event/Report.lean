import ChainScript.Event.Kind
import ChainScript.Event.Payload

/-! Events as a node reports them for a transaction that was executed. -/
namespace ChainScript

structure Event where
  kind : EventKind
  address : String
  contract : String
  data : Bytes
  deriving DecidableEq, Repr

namespace Event

def ofReport (kind address contract data : String) : Except Wire.Fault Event :=
  if data.isEmpty then .ok ⟨.ofName kind, address, contract, []⟩
  else match Hex.decode data with
    | .ok bytes => .ok ⟨.ofName kind, address, contract, bytes⟩
    | .error fault => .error (.badHex fault)

def render (e : Event) : String :=
  e.kind.name ++ "/" ++ e.contract ++ " @ " ++ e.address ++ ": " ++ Hex.upper e.data

def tokenAmount (e : Event) : Except Wire.Fault TokenAmount := TokenAmount.read.run e.data

def chainValue (e : Event) : Except Wire.Fault ChainValue := ChainValue.read.run e.data

end Event
end ChainScript
