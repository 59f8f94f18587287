import ChainScript.Wire.Input

/-! Texts that show a place in wire data, or data written so far. -/
namespace ChainScript.Wire.Inspect

def place (data : Bytes) (input : Input) : String := s!"{input.pos} @ " ++ Hex.lower data

def placeBrief (data : Bytes) (input : Input) : String :=
  let digits := (Hex.lower data).toList
  let shown :=
    if digits.length > 8 then digits.take 4 ++ ['.', '.'] ++ digits.drop (digits.length - 4) else digits
  s!"{input.pos} @ " ++ String.ofList shown

def placeRecord (data : Bytes) (input : Input) : String :=
  "Cursor \x7b bytes: \"" ++ Hex.lower data ++ s!"\", pos: {input.pos}" ++ " \x7d"

def writtenRecord (data : Bytes) : String := "Marshaller(\"" ++ Hex.lower data ++ "\")"

end ChainScript.Wire.Inspect
