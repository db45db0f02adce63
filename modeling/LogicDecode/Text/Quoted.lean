import LogicDecode.Text.Printable

/-!
# Quoted texts

`quoted` writes a text between double quotes so that it can be read back: quotes, backslashes, line
ends, tabulators and zeros have escapes of their own, and every other character without a picture is
written by its code point in braces.
-/

namespace LogicDecode

def quotedChar (c : Char) : List Char :=
  if c = '"' then ['\\', '"']
  else if c = '\\' then ['\\', '\\']
  else if c = '\n' then ['\\', 'n']
  else if c = '\r' then ['\\', 'r']
  else if c = '\t' then ['\\', 't']
  else if c.toNat = 0 then ['\\', '0']
  else if isPrintable c then [c]
  else ['\\', 'u', '\x7b'] ++ Nat.toDigits 16 c.toNat ++ ['\x7d']

def quoted (s : String) : String :=
  String.ofList ('"' :: s.toList.flatMap quotedChar ++ ['"'])

end LogicDecode
