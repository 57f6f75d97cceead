import Constituency.Text.Unprinted

/-!
# Quoted text

Messages show foreign text between double quotes: quotes and backslashes behind a backslash, the
usual short forms for line ends, tabs and zero, and the code point in hexadecimal for all else
that has no form of its own.
-/

namespace Constituency.Text

/-- The hexadecimal digits of a code point, without leading zeros. -/
def hexadecimal (code : Nat) : List Char :=
  Nat.toDigits 16 code

/-- The written form of one character. -/
def quotedChar (c : Char) : List Char :=
  if c == '"' then ['\\', '"']
  else if c == '\\' then ['\\', '\\']
  else if c == '\n' then ['\\', 'n']
  else if c == '\r' then ['\\', 'r']
  else if c == '\t' then ['\\', 't']
  else if c.toNat == 0 then ['\\', '0']
  else if isUnprinted c then ['\\', 'u', '\x7b'] ++ hexadecimal c.toNat ++ ['\x7d']
  else [c]

/-- The text between double quotes. -/
def quoted (text : String) : String :=
  String.ofList ('"' :: text.toList.flatMap quotedChar ++ ['"'])

end Constituency.Text
