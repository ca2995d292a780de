import PackedTrie.Lookup.Cursor
import PackedTrie.Proofs.Node.Layout
import PackedTrie.Proofs.Payload.Holding

/-!
Reading the fields of a node at the place where its bytes stand. Every field is read back as it was
laid out, and the tail of the node is found where its opening ends.
-/

namespace PackedTrie.Cursor

open Payload Node

variable {α : Type} [Payload α] {τ : ValueType} {payload : α} {offset : Nat}

theorem kindAt_of_holds {lead : UInt8} {rest : Bytes}
    (held : Holds payload offset (lead :: rest)) :
    kindAt payload offset = .ok (.ofLead lead) := by
  simp [kindAt, byteAt, held.byte?_head]

theorem kindAt_opening {kind : NodeKind} {number : Nat} {rest : Bytes}
    (held : Holds payload offset (opening kind number ++ rest)) :
    kindAt payload offset = .ok kind := by
  rw [kindAt_of_holds held.left, NodeKind.ofLead_mark kind (toNat_lead_lt number)]

theorem integerAt_of_written {bits value : Nat} {bytes : Bytes}
    (written : VarInt.Written bits value bytes) (held : Holds payload offset bytes)
    (positive : 1 ≤ bits) (narrow : bits ≤ 8) (bounded : value < 2 ^ 64) :
    integerAt payload bits offset = .ok (value.toUInt64, offset + VarInt.length bits value) := by
  have found := written.read?_eq_some positive narrow bounded held.byte?_add
  simp [integerAt, found]

theorem integerAt_opening {kind : NodeKind} {number : Nat}
    (held : Holds payload offset (opening kind number)) (bounded : number < 2 ^ 64) :
    integerAt payload leadBits offset =
      .ok (number.toUInt64, offset + VarInt.length leadBits number) :=
  integerAt_of_written (written_opening kind number) held (by decide) (by decide) bounded

theorem integerAt_encode {number : Nat} (held : Holds payload offset (VarInt.encode 8 number))
    (bounded : number < 2 ^ 64) :
    integerAt payload 8 offset = .ok (number.toUInt64, offset + VarInt.length 8 number) :=
  integerAt_of_written (VarInt.written_encode number (by decide) (by decide)) held
    (by decide) (by decide) bounded

theorem toNat_toUInt64 {number : Nat} (bounded : number < 2 ^ 64) :
    number.toUInt64.toNat = number :=
  UInt64.toNat_ofNat_of_lt' bounded

theorem payloadLength_headInteger {value : τ.Value} (bounded : value.headInteger < 2 ^ 64) :
    τ.payloadLength value.headInteger.toUInt64 = value.payload.length := by
  cases τ with
  | integer => rfl
  | bytes => exact toNat_toUInt64 bounded

/-- A value is read back from its integer and its payload. -/
theorem valueAt_payload {value : τ.Value} (held : Holds payload offset value.payload)
    (bounded : value.headInteger < 2 ^ 64) :
    valueAt τ payload value.headInteger.toUInt64 offset = .ok value := by
  cases τ with
  | integer =>
      have same : value.headInteger.toUInt64 = value := UInt64.ofNat_toNat
      simp only [valueAt, ValueType.readValue?, same]
  | bytes =>
      have same : (ValueType.Value.headInteger value).toUInt64.toNat = List.length value :=
        toNat_toUInt64 bounded
      have found : region? payload offset (List.length value) = some value := held.region?
      simp only [valueAt, ValueType.readValue?, same, found]

section Valued

variable {kind : NodeKind} {value : τ.Value}

theorem leadValue_opening
    (held : Holds payload offset (opening kind value.headInteger ++ value.payload))
    (bounded : value.headInteger < 2 ^ 64) : leadValue τ payload offset = .ok value := by
  have payloadHeld := held.right
  rw [length_opening] at payloadHeld
  simp only [leadValue, integerAt_opening held.left bounded, bind, Except.bind,
    valueAt_payload payloadHeld bounded]

theorem afterValue_opening
    (held : Holds payload offset (opening kind value.headInteger ++ value.payload))
    (bounded : value.headInteger < 2 ^ 64) :
    afterValue τ payload offset = .ok (offset + value.length leadBits) := by
  have inside := held.le_size
  rw [List.length_append, length_opening] at inside
  simp only [afterValue, integerAt_opening held.left bounded, bind, Except.bind,
    payloadLength_headInteger bounded]
  rw [advance_eq_ok_iff, ValueType.Value.length]
  omega

end Valued

theorem blockAt_of_written {bits : Nat} {opened block : Bytes}
    (written : VarInt.Written bits block.length opened)
    (held : Holds payload offset (opened ++ block))
    (positive : 1 ≤ bits) (narrow : bits ≤ 8) (bounded : block.length < 2 ^ 64) :
    blockAt payload bits offset =
      .ok (offset + opened.length, offset + opened.length + block.length) := by
  have inside := held.le_size
  rw [List.length_append] at inside
  have advanced : advance payload (offset + opened.length) block.length =
      .ok (offset + opened.length + block.length) :=
    advance_eq_ok_iff.mpr ⟨rfl, by omega⟩
  simp only [blockAt, integerAt_of_written written held.left positive narrow bounded,
    ← written.length_eq, bind, Except.bind, toNat_toUInt64 bounded, advanced, pure, Except.pure]

theorem blockAt_encode {block : Bytes}
    (held : Holds payload offset (VarInt.encode 8 block.length ++ block))
    (bounded : block.length < 2 ^ 64) :
    blockAt payload 8 offset = .ok (offset + VarInt.length 8 block.length,
      offset + VarInt.length 8 block.length + block.length) := by
  have found := blockAt_of_written (VarInt.written_encode block.length (by decide) (by decide))
    held (by decide) (by decide) bounded
  rw [VarInt.length_encode] at found
  exact found

theorem blockAt_opening {kind : NodeKind} {block : Bytes}
    (held : Holds payload offset (opening kind block.length ++ block))
    (bounded : block.length < 2 ^ 64) :
    blockAt payload leadBits offset = .ok (offset + VarInt.length leadBits block.length,
      offset + VarInt.length leadBits block.length + block.length) := by
  have found := blockAt_of_written (written_opening kind block.length) held (by decide)
    (by decide) bounded
  rw [length_opening] at found
  exact found

end PackedTrie.Cursor
