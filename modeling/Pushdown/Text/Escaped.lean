import Pushdown.Text.Unseen

/-!
# Escaped texts

A text between double quotes in which every character can be seen: others are written as escapes.
-/

namespace Pushdown.Text

def hexDigits (n : Nat) : List Char := Nat.toDigits 16 n

def escapedChar (c : Char) : List Char :=
  if c = '"' then ['\\', '"']
  else if c = '\\' then ['\\', '\\']
  else if c = '\n' then ['\\', 'n']
  else if c = '\t' then ['\\', 't']
  else if c = '\r' then ['\\', 'r']
  else if c.toNat = 0 then ['\\', '0']
  else if 32 ≤ c.toNat ∧ c.toNat < 127 then [c]
  else if isUnseen c then ['\\', 'u', '\x7b'] ++ hexDigits c.toNat ++ ['\x7d']
  else [c]

def escaped (s : String) : String :=
  String.ofList ('"' :: (s.toList.flatMap escapedChar ++ ['"']))

def escapedList (ss : List String) : String :=
  "[" ++ String.intercalate ", " (ss.map escaped) ++ "]"

end Pushdown.Text
