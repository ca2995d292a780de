import PackedTrie.Bytes

/-!
ASCII inside byte strings: blanks around a field, and unsigned decimal numbers.
-/

namespace PackedTrie.Ascii

/-- Space, tab, line feed, form feed and carriage return; the vertical tab is no blank. -/
def isBlank (byte : UInt8) : Bool :=
  byte == 0x20 || byte == 0x09 || byte == 0x0A || byte == 0x0C || byte == 0x0D

def trim (bytes : Bytes) : Bytes :=
  ((bytes.dropWhile isBlank).reverse.dropWhile isBlank).reverse

def isDigit (byte : UInt8) : Bool :=
  0x30 ≤ byte && byte ≤ 0x39

def ofDigits (digits : Bytes) : Nat :=
  digits.foldl (fun value digit => value * 10 + (digit.toNat - 0x30)) 0

def dropPlus : Bytes → Bytes
  | 0x2B :: rest => rest
  | bytes => bytes

/-- Reads an unsigned 64-bit number: an optional plus sign and at least one digit, any number of
them zeros in front, with a value that fits. -/
def parse? (text : Bytes) : Option UInt64 :=
  let digits := dropPlus text
  if digits ≠ [] ∧ digits.all isDigit = true ∧ ofDigits digits < UInt64.size then
    some (ofDigits digits).toUInt64
  else
    none

def print (value : Nat) : Bytes :=
  (Nat.toDigits 10 value).map fun digit => digit.toNat.toUInt8

def hexByte (byte : UInt8) : String :=
  String.ofList [Nat.digitChar (byte.toNat / 16), Nat.digitChar (byte.toNat % 16)]

end PackedTrie.Ascii
