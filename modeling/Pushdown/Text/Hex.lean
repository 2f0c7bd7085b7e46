/-!
# Bytes as text

Two digits of base sixteen per byte, and groups of six bits as letters.
-/

namespace Pushdown.Text

def byteDigits (b : UInt8) : List Char :=
  [Nat.digitChar (b.toNat / 16), Nat.digitChar (b.toNat % 16)]

def hex (bytes : List UInt8) : String := String.ofList (bytes.flatMap byteDigits)

def hexUpper (bytes : List UInt8) : String :=
  String.ofList ((bytes.flatMap byteDigits).map Char.toUpper)

def sixBits (n : Nat) : Char :=
  if n < 26 then Char.ofNat ('A'.toNat + n)
  else if n < 52 then Char.ofNat ('a'.toNat + (n - 26))
  else if n < 62 then Char.ofNat ('0'.toNat + (n - 52))
  else if n = 62 then '+'
  else '/'

def base64Digits : List UInt8 → List Char
  | a :: b :: c :: rest =>
    let n := a.toNat * 65536 + b.toNat * 256 + c.toNat
    sixBits (n / 262144) :: sixBits (n / 4096 % 64) :: sixBits (n / 64 % 64) :: sixBits (n % 64) ::
      base64Digits rest
  | [a, b] =>
    let n := a.toNat * 1024 + b.toNat * 4
    [sixBits (n / 4096), sixBits (n / 64 % 64), sixBits (n % 64), '=']
  | [a] =>
    let n := a.toNat * 16
    [sixBits (n / 64), sixBits (n % 64), '=', '=']
  | [] => []

def base64 (bytes : List UInt8) : String := String.ofList (base64Digits bytes)

def utf8 (s : String) : List UInt8 := s.toUTF8.toList

def ofUtf8? (bytes : List UInt8) : Option String := String.fromUTF8? ⟨bytes.toArray⟩

end Pushdown.Text
