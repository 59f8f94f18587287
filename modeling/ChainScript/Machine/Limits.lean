/-! Sizes that the machine fixes. -/
namespace ChainScript.Machine

def registerCount : Nat := 32

/-- The most bytes that one load carries. -/
def loadLimit : Nat := 0xFFFF

/-- The last offset that a jump or a call can name. -/
def targetLimit : Nat := 0xFFFF

end ChainScript.Machine
