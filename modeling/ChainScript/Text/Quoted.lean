import ChainScript.Text.Unprintable

/-! Quoted text. Inside the quotes the quote itself, the backslash and four control characters
are escaped by a letter, and unprintable characters by their code point, so a quoted text has
no line break and ends at the first bare quote. -/
namespace ChainScript.Text

def codePointEscape (c : Char) : List Char :=
  ['\\', 'u', '\x7b'] ++ Nat.toDigits 16 c.toNat ++ ['\x7d']

def escape (quote c : Char) : List Char :=
  if c = '\x00' then ['\\', '0']
  else if c = '\t' then ['\\', 't']
  else if c = '\n' then ['\\', 'n']
  else if c = '\r' then ['\\', 'r']
  else if c = '\\' ∨ c = quote then ['\\', c]
  else if isUnprintable c then codePointEscape c
  else [c]

def quoted (s : String) : String :=
  String.ofList ('"' :: s.toList.flatMap (escape '"') ++ ['"'])

def quotedChar (c : Char) : String := String.ofList ('\'' :: escape '\'' c ++ ['\''])

end ChainScript.Text
