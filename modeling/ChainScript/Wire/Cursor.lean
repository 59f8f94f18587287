import ChainScript.Wire.Item

/-! Reading data that lie in memory, with places and lengths that are machine words. A difference
below zero, a sum that no word holds and bytes outside of the data end a read, each in a way of its
own, so that nothing wraps around unseen. -/
namespace ChainScript.Wire

inductive Halt where
  | fault (f : Fault)
  | underflow
  | overflow
  | outside
  deriving DecidableEq, Repr

structure Cursor where
  data : Bytes
  pos : UInt64
  deriving DecidableEq, Repr

abbrev Reader := EStateM Halt Cursor

namespace Cursor

def ofBytes (data : Bytes) : Cursor := ⟨data, 0⟩

def size (c : Cursor) : UInt64 := c.data.length.toUInt64

def input (c : Cursor) : Input := ⟨c.pos.toNat, c.data.drop c.pos.toNat⟩

def minus (a b : UInt64) : Reader UInt64 := if b ≤ a then return a - b else throw .underflow

def plus (a b : UInt64) : Reader UInt64 := if a ≤ a + b then return a + b else throw .overflow

def slice (start stop : UInt64) : Reader Bytes := do
  let c ← get
  if start ≤ stop ∧ stop ≤ c.size then
    return (c.data.drop start.toNat).take (stop.toNat - start.toNat)
  else throw .outside

def remaining : Reader UInt64 := do
  let c ← get
  minus c.size c.pos

def rest : Reader Bytes := do
  let c ← get
  slice c.pos c.size

def take (n : UInt64) : Reader Bytes := do
  let left ← remaining
  if left < n then throw (.fault (.truncated n.toNat left.toNat))
  else
    let c ← get
    let stop ← plus c.pos n
    set { c with pos := stop }
    slice c.pos stop

def peek : Reader UInt8 := do
  let c ← get
  match c.data[c.pos.toNat]? with
  | some b => return b
  | none => throw (.fault (.truncated 1 0))

def byte : Reader UInt8 := do
  match (← take 1)[0]? with
  | some b => return b
  | none => throw .outside

/-- Bytes for a place that has room for `n` of them and no others. -/
def array (n : UInt64) : Reader Bytes := do
  let bytes ← take n
  if bytes.length = n.toNat then return bytes else throw .outside

def u16 : Reader UInt16 := do return (leValue (← array 2)).toUInt16
def u32 : Reader UInt32 := do return (leValue (← array 4)).toUInt32
def u64 : Reader UInt64 := do return (leValue (← array 8)).toUInt64

def varInt : Reader UInt64 := do
  let tag ← byte
  if tag = 0xFD then return (← u16).toUInt64
  else if tag = 0xFE then return (← u32).toUInt64
  else if tag = 0xFF then u64
  else return tag.toUInt64

def counted : Reader Bytes := do take (← varInt)
def text : Reader String := do return Text.SingleByte.decode (← counted)
def natural : Reader Nat := do return leValue (← counted)

def read : Request → Reader Item
  | .peek => .u8 <$> peek
  | .u8 => .u8 <$> byte
  | .u16 => .u16 <$> u16
  | .u32 => .u32 <$> u32
  | .u64 => .u64 <$> u64
  | .varInt => .varInt <$> varInt
  | .raw length => .raw <$> take length.toUInt64
  | .bytes => .bytes <$> counted
  | .text => .text <$> text
  | .natural => .natural <$> natural

end Cursor
end ChainScript.Wire
