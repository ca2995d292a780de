import Mathlib
import PackedTrie.Payload

/-!
Byte strings inside a payload. What a payload holds at an offset is seen through its reads, and a
run of bytes that holds others holds them wherever it stands itself.
-/

namespace PackedTrie.Payload

variable {α β : Type} [Payload α] [Payload β]

/-- The bytes stand in the payload from `offset` on. -/
def Holds (payload : α) (offset : Nat) (bytes : Bytes) : Prop :=
  ∃ before rest, toBytes payload = before ++ (bytes ++ rest) ∧ before.length = offset

theorem holds_toBytes (payload : α) : Holds payload 0 (toBytes payload) :=
  ⟨[], [], by simp, rfl⟩

theorem holds_of_isPrefix {payload : α} {bytes : Bytes} (begins : bytes <+: toBytes payload) :
    Holds payload 0 bytes := by
  obtain ⟨rest, whole⟩ := begins
  exact ⟨[], rest, whole.symm, rfl⟩

namespace Holds

variable {payload : α} {offset : Nat} {bytes first second : Bytes}

theorem left (held : Holds payload offset (first ++ second)) : Holds payload offset first := by
  obtain ⟨before, rest, whole, rfl⟩ := held
  exact ⟨before, second ++ rest, by simpa using whole, rfl⟩

theorem right (held : Holds payload offset (first ++ second)) :
    Holds payload (offset + first.length) second := by
  obtain ⟨before, rest, whole, rfl⟩ := held
  exact ⟨before ++ first, rest, by simpa using whole, by simp⟩

theorem tail {byte : UInt8} (held : Holds payload offset (byte :: bytes)) :
    Holds payload (offset + 1) bytes := by
  have parts : Holds payload offset ([byte] ++ bytes) := held
  exact parts.right

theorem le_size (held : Holds payload offset bytes) :
    offset + bytes.length ≤ size payload := by
  obtain ⟨before, rest, whole, rfl⟩ := held
  rw [size_eq, whole]
  simp only [List.length_append]
  omega

theorem byte?_add (held : Holds payload offset bytes) (index : Nat)
    (inside : index < bytes.length) : byte? payload (offset + index) = bytes[index]? := by
  obtain ⟨before, rest, whole, rfl⟩ := held
  rw [byte?_eq, whole, List.getElem?_append_right (Nat.le_add_right _ _), Nat.add_sub_cancel_left,
    List.getElem?_append_left inside]

theorem byte?_head {byte : UInt8} (held : Holds payload offset (byte :: bytes)) :
    byte? payload offset = some byte :=
  held.byte?_add 0 (by simp)

theorem region? (held : Holds payload offset bytes) :
    region? payload offset bytes.length = some bytes := by
  have inside := held.le_size
  obtain ⟨before, rest, whole, rfl⟩ := held
  rw [size_eq] at inside
  rw [region?_eq, if_pos inside, whole]
  simp

/-- Bytes inside a payload that stands inside another one. -/
theorem trans {outer : β} {shift : Nat} (outside : Holds outer shift (toBytes payload))
    (held : Holds payload offset bytes) : Holds outer (shift + offset) bytes := by
  obtain ⟨before, rest, whole, rfl⟩ := held
  rw [whole] at outside
  exact outside.right.left

end Holds

theorem holds_of_region?_eq_some {payload : α} {offset length : Nat} {bytes : Bytes}
    (found : region? payload offset length = some bytes) : Holds payload offset bytes := by
  rw [region?_eq] at found
  split at found
  · rename_i inside
    cases found
    refine ⟨(toBytes payload).take offset, (toBytes payload).drop (offset + length), ?_, ?_⟩
    · rw [← List.drop_drop, List.take_append_drop, List.take_append_drop]
    · rw [List.length_take]
      omega
  · contradiction

end PackedTrie.Payload
