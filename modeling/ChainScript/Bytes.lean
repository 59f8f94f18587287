/-! Byte strings. Lists are what the laws take apart, so every layer works on them. -/
namespace ChainScript

abbrev Bytes := List UInt8

def utf8 (s : String) : Bytes := s.toList.flatMap String.utf8EncodeChar

end ChainScript
