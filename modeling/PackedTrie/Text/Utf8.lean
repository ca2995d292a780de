import PackedTrie.Bytes

/-!
Bytes shown as text. Where the bytes are not well-formed UTF-8, each longest run that begins a
character and cannot be completed is shown as one replacement character, and so is each byte that
begins none.
-/

namespace PackedTrie.Utf8

def replacement : Char := '\uFFFD'

/-- A character begun: how many bytes it still lacks, the range of the next one, and the bits
so far. -/
structure Begun where
  missing : Nat
  low : Nat
  high : Nat
  bits : Nat

/-- The character a byte above `0x7F` begins. The ranges leave out overlong forms, surrogates and
everything past the last code point. -/
def begin? (byte : Nat) : Option Begun :=
  if byte < 0xC2 then none
  else if byte < 0xE0 then some ⟨1, 0x80, 0xBF, byte % 0x20⟩
  else if byte = 0xE0 then some ⟨2, 0xA0, 0xBF, 0⟩
  else if byte = 0xED then some ⟨2, 0x80, 0x9F, 0xD⟩
  else if byte < 0xF0 then some ⟨2, 0x80, 0xBF, byte % 0x10⟩
  else if byte = 0xF0 then some ⟨3, 0x90, 0xBF, 0⟩
  else if byte < 0xF4 then some ⟨3, 0x80, 0xBF, byte % 8⟩
  else if byte = 0xF4 then some ⟨3, 0x80, 0x8F, 4⟩
  else none

abbrev State := String × Option Begun

def start (text : String) (byte : Nat) : State :=
  if byte < 0x80 then (text.push (Char.ofNat byte), none)
  else
    match begin? byte with
    | some begun => (text, some begun)
    | none => (text.push replacement, none)

def step : State → UInt8 → State
  | (text, none), byte => start text byte.toNat
  | (text, some begun), byte =>
      if begun.low ≤ byte.toNat ∧ byte.toNat ≤ begun.high then
        let bits := begun.bits * 64 + byte.toNat % 64
        if begun.missing = 1 then (text.push (Char.ofNat bits), none)
        else (text, some ⟨begun.missing - 1, 0x80, 0xBF, bits⟩)
      else
        start (text.push replacement) byte.toNat

def decodeLossy (bytes : Bytes) : String :=
  match bytes.foldl step ("", none) with
  | (text, none) => text
  | (text, some _) => text.push replacement

end PackedTrie.Utf8
