import PackedTrie.VarInt.Basic

/-!
The two kinds of value a trie can hold: 64-bit integers and byte strings. All the rest of the
library is written once over both; it needs of a value only the integer that opens the node which
holds it and the bytes that follow that integer.
-/

namespace PackedTrie

inductive ValueType where
  | integer
  | bytes
  deriving DecidableEq, Repr

namespace ValueType

def code : ValueType → UInt8
  | .integer => 1
  | .bytes => 2

def ofCode? : UInt8 → Option ValueType
  | 1 => some .integer
  | 2 => some .bytes
  | _ => none

def name : ValueType → String
  | .integer => "VInt"
  | .bytes => "Bytes"

@[simp] theorem ofCode?_code (τ : ValueType) : ofCode? τ.code = some τ := by
  cases τ <;> rfl

abbrev Value : ValueType → Type
  | .integer => UInt64
  | .bytes => Bytes

instance (τ : ValueType) : DecidableEq τ.Value :=
  match τ with
  | .integer => inferInstanceAs (DecidableEq UInt64)
  | .bytes => inferInstanceAs (DecidableEq Bytes)

/-- The integer at the start of a node that holds the value: an integer itself, or the length of a
byte string. -/
def Value.headInteger : {τ : ValueType} → τ.Value → Nat
  | .integer, value => UInt64.toNat value
  | .bytes, value => List.length value

def Value.payload : {τ : ValueType} → τ.Value → Bytes
  | .integer, _ => []
  | .bytes, value => value

def Value.length {τ : ValueType} (bits : Nat) (value : τ.Value) : Nat :=
  VarInt.length bits value.headInteger + value.payload.length

def payloadLength (τ : ValueType) (head : UInt64) : Nat :=
  match τ with
  | .integer => 0
  | .bytes => head.toNat

/-- The value whose integer is `head` and whose payload starts at `offset`, with the payload taken
from `region?`. -/
def readValue? (τ : ValueType) (region? : Nat → Nat → Option Bytes) (head : UInt64)
    (offset : Nat) : Option τ.Value :=
  match τ with
  | .integer => some head
  | .bytes => region? offset head.toNat

end ValueType

end PackedTrie
