import ChainScript.Assembly.Invocation

/-! Names that the chain knows, and its methods for gas and tokens. -/
namespace ChainScript
open Machine

def nullAddress : String := "S1111111111111111111111111111111111"

def nativeContracts : List String :=
  ["gas", "block", "stake", "swap", "account", "consensus", "governance", "storage", "validator",
   "interop", "exchange", "privacy", "relay", "ranking"]

inductive GasMethod where
  | allowGas | spendGas
  deriving DecidableEq, Repr

namespace GasMethod

def all : List GasMethod := [.allowGas, .spendGas]

def name : GasMethod → String
  | allowGas => "AllowGas"
  | spendGas => "SpendGas"

def invocation (m : GasMethod) (args : List Value) : Invocation := .contract "gas" m.name args

end GasMethod

inductive TokenMethod where
  | transferTokens | transferToken | transferBalance
  | mintTokens | mintToken
  | burnTokens | burnToken
  | readToken | writeToken
  deriving DecidableEq, Repr

namespace TokenMethod

def all : List TokenMethod :=
  [.transferTokens, .transferToken, .transferBalance, .mintTokens, .mintToken, .burnTokens, .burnToken,
   .readToken, .writeToken]

def name : TokenMethod → String
  | transferTokens => "Runtime.TransferTokens"
  | transferToken => "Runtime.TransferToken"
  | transferBalance => "Runtime.TransferBalance"
  | mintTokens => "Runtime.MintTokens"
  | mintToken => "Runtime.MintToken"
  | burnTokens => "Runtime.BurnTokens"
  | burnToken => "Runtime.BurnToken"
  | readToken => "Runtime.ReadToken"
  | writeToken => "Runtime.WriteToken"

def invocation (m : TokenMethod) (args : List Value) : Invocation := .interop m.name args

end TokenMethod

namespace Invocation

def allowGas (sender receiver : String) (price limit : Value) : Invocation :=
  GasMethod.allowGas.invocation [.text sender, .text receiver, price, limit]

def spendGas (address : String) : Invocation := GasMethod.spendGas.invocation [.text address]

def transferTokens (symbol sender receiver : String) (amount : Value) : Invocation :=
  TokenMethod.transferTokens.invocation [.text sender, .text receiver, .text symbol, amount]

/-- Transfers the one token that has the given id. -/
def transferToken (symbol sender receiver : String) (id : Value) : Invocation :=
  TokenMethod.transferToken.invocation [.text sender, .text receiver, .text symbol, id]

def transferBalance (symbol sender receiver : String) : Invocation :=
  TokenMethod.transferBalance.invocation [.text sender, .text receiver, .text symbol]

def mintTokens (symbol sender receiver : String) (amount : Value) : Invocation :=
  TokenMethod.mintTokens.invocation [.text sender, .text receiver, .text symbol, amount]

/-- Mints a token with contents that stay (`rom`) and contents that can be replaced (`ram`). -/
def mintToken (symbol sender receiver : String) (rom ram : Bytes) : Invocation :=
  TokenMethod.mintToken.invocation [.text sender, .text receiver, .text symbol, .bytes rom, .bytes ram]

def burnTokens (sender symbol : String) (amount : Value) : Invocation :=
  TokenMethod.burnTokens.invocation [.text sender, .text symbol, amount]

def burnToken (sender symbol : String) (id : Value) : Invocation :=
  TokenMethod.burnToken.invocation [.text sender, .text symbol, id]

def readToken (symbol : String) (id : Value) : Invocation :=
  TokenMethod.readToken.invocation [.text symbol, id]

def writeToken (symbol : String) (id : Value) (ram : Bytes) : Invocation :=
  TokenMethod.writeToken.invocation [.text symbol, id, .bytes ram]

end Invocation

def Assembly.readToken (symbol : String) (id : Value) (dst : Reg) : Assembly Unit := do
  invoke (.readToken symbol id)
  instr (.pop dst)

end ChainScript
