import PackedTrie.Bytes

/-!
Storage for the bytes of a trie. A traversal needs the number of bytes, single bytes, and runs of
bytes; every kind of storage denotes one byte string, and answers as this string does. A run that
does not lie inside the string is refused, also if it is empty.
-/

namespace PackedTrie

class Payload (α : Type) where
  toBytes : α → Bytes
  size : α → Nat
  byte? : α → Nat → Option UInt8
  region? : α → Nat → Nat → Option Bytes
  size_eq : ∀ payload, size payload = (toBytes payload).length
  byte?_eq : ∀ payload offset, byte? payload offset = (toBytes payload)[offset]?
  region?_eq : ∀ payload offset length, region? payload offset length =
    if offset + length ≤ (toBytes payload).length then
      some (((toBytes payload).drop offset).take length)
    else
      none

namespace Payload

variable {α : Type} [Payload α]

def isEmpty (payload : α) : Bool :=
  size payload == 0

theorem le_size_of_region?_eq_some {payload : α} {offset length : Nat} {region : Bytes}
    (found : region? payload offset length = some region) :
    offset + length ≤ size payload ∧ region.length = length := by
  rw [region?_eq] at found
  rw [size_eq]
  split at found
  · cases found
    exact ⟨‹_›, by simp only [List.length_take, List.length_drop]; omega⟩
  · contradiction

end Payload

instance : Payload Bytes where
  toBytes payload := payload
  size payload := payload.length
  byte? payload offset := payload[offset]?
  region? payload offset length :=
    if offset + length ≤ payload.length then some ((payload.drop offset).take length) else none
  size_eq _ := rfl
  byte?_eq _ _ := rfl
  region?_eq _ _ _ := rfl

instance : Payload (Array UInt8) where
  toBytes payload := payload.toList
  size payload := payload.size
  byte? payload offset := payload[offset]?
  region? payload offset length :=
    if offset + length ≤ payload.size then
      some (payload.extract offset (offset + length)).toList
    else
      none
  size_eq _ := rfl
  byte?_eq payload offset := by simp
  region?_eq payload offset length := by
    simp [List.extract_eq_take_drop]

/-- A run of bytes inside an array, such as the payload inside a file. Nothing of the array before
or after the run can be seen through it. -/
structure Window where
  whole : Array UInt8
  start : Nat
  size : Nat
  inside : start + size ≤ whole.size

namespace Window

def toBytes (window : Window) : Bytes :=
  (window.whole.toList.drop window.start).take window.size

theorem length_toBytes (window : Window) : window.toBytes.length = window.size := by
  have inside := window.inside
  simp only [toBytes, List.length_take, List.length_drop, Array.length_toList]
  omega

end Window

instance : Payload Window where
  toBytes := Window.toBytes
  size := Window.size
  byte? window offset :=
    if offset < window.size then window.whole[window.start + offset]? else none
  region? window offset length :=
    if offset + length ≤ window.size then
      some (window.whole.extract (window.start + offset)
        (window.start + (offset + length))).toList
    else
      none
  size_eq window := window.length_toBytes.symm
  byte?_eq window offset := by
    by_cases visible : offset < window.size
    · simp [Window.toBytes, visible]
    · rw [if_neg visible, eq_comm, List.getElem?_eq_none_iff, window.length_toBytes]
      exact Nat.not_lt.mp visible
  region?_eq window offset length := by
    rw [window.length_toBytes]
    by_cases visible : offset + length ≤ window.size
    · simp only [visible, if_true, Option.some.injEq, Array.toList_extract,
        List.extract_eq_take_drop, Window.toBytes, List.drop_take, List.take_take, List.drop_drop]
      congr 1
      omega
    · simp [visible]

end PackedTrie
