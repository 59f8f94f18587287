import ChainScript.Wire.Input

/-! Kinds of events. The chain's own kinds have the bytes below 64; every byte from there on, and
every name that the chain has not given, belongs to kinds that contracts define. -/
namespace ChainScript

inductive EventKind where
  | unknown | chainCreate | tokenCreate | tokenSend | tokenReceive | tokenMint | tokenBurn
  | tokenStake | tokenClaim | addressRegister | addressLink | addressUnlink | organizationCreate
  | organizationAdd | organizationRemove | gasEscrow | gasPayment | addressUnregister
  | orderCreated | orderCancelled | orderFilled | orderClosed | feedCreate | feedUpdate
  | fileCreate | fileDelete | validatorPropose | validatorElect | validatorRemove
  | validatorSwitch | packedNft | valueCreate | valueUpdate | pollCreated | pollClosed | pollVote
  | channelCreate | channelRefill | channelSettle | leaderboardCreate | leaderboardInsert
  | leaderboardReset | platformCreate | chainSwap | contractRegister | contractDeploy
  | addressMigration | contractUpgrade | log
  | custom
  deriving DecidableEq, Repr

namespace EventKind

def all : List EventKind :=
  [.unknown, .chainCreate, .tokenCreate, .tokenSend, .tokenReceive, .tokenMint, .tokenBurn,
   .tokenStake, .tokenClaim, .addressRegister, .addressLink, .addressUnlink, .organizationCreate,
   .organizationAdd, .organizationRemove, .gasEscrow, .gasPayment, .addressUnregister,
   .orderCreated, .orderCancelled, .orderFilled, .orderClosed, .feedCreate, .feedUpdate,
   .fileCreate, .fileDelete, .validatorPropose, .validatorElect, .validatorRemove,
   .validatorSwitch, .packedNft, .valueCreate, .valueUpdate, .pollCreated, .pollClosed, .pollVote,
   .channelCreate, .channelRefill, .channelSettle, .leaderboardCreate, .leaderboardInsert,
   .leaderboardReset, .platformCreate, .chainSwap, .contractRegister, .contractDeploy,
   .addressMigration, .contractUpgrade, .log, .custom]

def firstCustom : UInt8 := 64

def byte : EventKind → UInt8
  | custom => firstCustom
  | kind => kind.ctorIdx.toUInt8

def ofByte? (b : UInt8) : Option EventKind :=
  if firstCustom ≤ b then some .custom else all.find? fun kind => kind.byte = b

theorem ofByte?_byte (kind : EventKind) : ofByte? kind.byte = some kind := by
  cases kind <;> rfl

def read : Wire.Decoder EventKind := do
  let b ← Wire.Decoder.byte
  match ofByte? b with
  | some kind => return kind
  | none => throw (.unknownTag b)

def name : EventKind → String
  | unknown => "Unknown" | chainCreate => "ChainCreate" | tokenCreate => "TokenCreate"
  | tokenSend => "TokenSend" | tokenReceive => "TokenReceive" | tokenMint => "TokenMint"
  | tokenBurn => "TokenBurn" | tokenStake => "TokenStake" | tokenClaim => "TokenClaim"
  | addressRegister => "AddressRegister" | addressLink => "AddressLink"
  | addressUnlink => "AddressUnlink" | organizationCreate => "OrganizationCreate"
  | organizationAdd => "OrganizationAdd" | organizationRemove => "OrganizationRemove"
  | gasEscrow => "GasEscrow" | gasPayment => "GasPayment"
  | addressUnregister => "AddressUnregister" | orderCreated => "OrderCreated"
  | orderCancelled => "OrderCancelled" | orderFilled => "OrderFilled"
  | orderClosed => "OrderClosed" | feedCreate => "FeedCreate" | feedUpdate => "FeedUpdate"
  | fileCreate => "FileCreate" | fileDelete => "FileDelete"
  | validatorPropose => "ValidatorPropose" | validatorElect => "ValidatorElect"
  | validatorRemove => "ValidatorRemove" | validatorSwitch => "ValidatorSwitch"
  | packedNft => "PackedNFT" | valueCreate => "ValueCreate" | valueUpdate => "ValueUpdate"
  | pollCreated => "PollCreated" | pollClosed => "PollClosed" | pollVote => "PollVote"
  | channelCreate => "ChannelCreate" | channelRefill => "ChannelRefill"
  | channelSettle => "ChannelSettle" | leaderboardCreate => "LeaderboardCreate"
  | leaderboardInsert => "LeaderboardInsert" | leaderboardReset => "LeaderboardReset"
  | platformCreate => "PlatformCreate" | chainSwap => "ChainSwap"
  | contractRegister => "ContractRegister" | contractDeploy => "ContractDeploy"
  | addressMigration => "AddressMigration" | contractUpgrade => "ContractUpgrade"
  | log => "Log" | custom => "Custom"

def ofName (s : String) : EventKind := (all.find? fun kind => kind.name = s).getD .custom

def movesTokens : EventKind → Bool
  | tokenCreate | tokenSend | tokenReceive | tokenMint | tokenBurn | tokenStake | tokenClaim
  | gasEscrow | gasPayment => true
  | _ => false

end EventKind
end ChainScript
