import PackedTrie.Bytes

/-!
Integers in as few bytes as they need. The first byte holds `bits - 1` bits of the value and a
marker, every later byte seven bits and a marker; the most significant bits come first, and only
the last byte has its marker set. A first byte of fewer than eight bits leaves its top bits zero,
free for a tag.

`length bits value` is the number of bytes of `encode bits value`.
-/

namespace PackedTrie.VarInt

/-- No 64-bit value takes more bytes, whatever the width of the first byte. -/
def maxLength : Nat := 11

def groupCount (rest : Nat) : Nat :=
  if rest = 0 then 0 else groupCount (rest / 128) + 1

def length (bits value : Nat) : Nat :=
  groupCount (value >>> (bits - 1)) + 1

/-- The low `count` groups of `value`, one to a byte, the marker on the last. -/
def groups : Nat → Nat → Bytes
  | 0, _ => []
  | 1, value => [(value % 128 + 128).toUInt8]
  | count + 2, value => (value >>> (7 * (count + 1)) % 128).toUInt8 :: groups (count + 1) value

def lead (bits value : Nat) : UInt8 :=
  match groupCount (value >>> (bits - 1)) with
  | 0 => (value + 1 <<< (bits - 1)).toUInt8
  | count + 1 => (value >>> (7 * (count + 1))).toUInt8

def trail (bits value : Nat) : Bytes :=
  groups (groupCount (value >>> (bits - 1))) value

def encode (bits value : Nat) : Bytes :=
  lead bits value :: trail bits value

/-- Lays the encoding of `value` over `buffer` at `offset`. The result is the offset just past it
and the buffer after the change, or `none` if there is not enough room. -/
def write? (bits value : Nat) (buffer : Bytes) (offset : Nat) : Option (Nat × Bytes) :=
  (buffer.overwrite? offset (encode bits value)).map fun written =>
    (offset + length bits value, written)

theorem groupCount_zero : groupCount 0 = 0 := by
  rw [groupCount, if_pos rfl]

theorem groupCount_of_ne_zero {rest : Nat} (nonzero : rest ≠ 0) :
    groupCount rest = groupCount (rest / 128) + 1 := by
  rw [groupCount, if_neg nonzero]

@[simp] theorem length_groups (count value : Nat) : (groups count value).length = count := by
  fun_induction groups count value with
  | case1 => rfl
  | case2 => rfl
  | case3 count value inductionHypothesis => simp [inductionHypothesis]

@[simp] theorem length_encode (bits value : Nat) :
    (encode bits value).length = length bits value := by
  simp [encode, trail, length]

end PackedTrie.VarInt
