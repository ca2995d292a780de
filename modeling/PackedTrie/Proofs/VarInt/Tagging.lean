import PackedTrie.Proofs.VarInt.Fetching
import PackedTrie.Proofs.VarInt.RoundTrip

/-!
An integer written into a buffer, a tag put into the bits that its first byte leaves free, and the
integer read back. The writer touches no byte around the encoding, no reader looks at the tag or at
what stands behind, and none of the bytes of the encoding can be missing.
-/

namespace PackedTrie

namespace Bytes

variable {buffer patch result : Bytes} {offset : Nat}

/-- The buffer with `patch` in place of the bytes from `offset` on, and all others as they were. -/
structure Overwritten (buffer : Bytes) (offset : Nat) (patch result : Bytes) : Prop where
  length : result.length = buffer.length
  inside : ∀ index, index < patch.length → result[offset + index]? = patch[index]?
  outside : ∀ position, position < offset ∨ offset + patch.length ≤ position →
    result[position]? = buffer[position]?

theorem overwritten_of_overwrite?_eq_some (written : buffer.overwrite? offset patch = some result) :
    Overwritten buffer offset patch result := by
  have length := length_of_overwrite?_eq_some written
  unfold overwrite? at written
  split at written
  next roomy =>
    cases written
    have front : (buffer.take offset).length = offset :=
      List.length_take_of_le (Nat.le_of_add_right_le roomy)
    refine ⟨length, ?_, ?_⟩
    · intro index bounded
      rw [List.getElem?_append_right (front.trans_le (Nat.le_add_right offset index)), front,
        Nat.add_sub_cancel_left, List.getElem?_append_left bounded]
    · rintro position (before | after)
      · rw [List.getElem?_append_left (front.symm ▸ before), List.getElem?_take_of_lt before]
      · have behind : offset + patch.length + (position - (offset + patch.length)) = position :=
          Nat.add_sub_of_le after
        rw [← List.append_assoc, List.getElem?_append_right, List.getElem?_drop]
        · rw [List.length_append, front, behind]
        · rwa [List.length_append, front]
  next => contradiction

theorem exists_overwrite?_eq_some (roomy : offset + patch.length ≤ buffer.length) :
    ∃ result, buffer.overwrite? offset patch = some result :=
  ⟨_, if_pos roomy⟩

end Bytes

namespace VarInt

variable {bits value offset : Nat} {buffer written bytes : Bytes}
  {byteAt otherByteAt : Nat → Option UInt8}

section Standing

/-- The encoding of `value` is found at `offset`, with any tag in the free bits of its first
byte. -/
def Stands (bits value offset : Nat) (byteAt : Nat → Option UInt8) : Prop :=
  ∃ encoded, Written bits value encoded ∧
    ∀ index, index < encoded.length → byteAt (offset + index) = encoded[index]?

theorem Stands.read?_eq_some (stands : Stands bits value offset byteAt) (positive : 1 ≤ bits)
    (narrow : bits ≤ 8) (bounded : value < 2 ^ 64) :
    read? bits byteAt offset = some (value.toUInt64, offset + length bits value) := by
  obtain ⟨encoded, written, held⟩ := stands
  exact written.read?_eq_some positive narrow bounded held

theorem Stands.congr (stands : Stands bits value offset byteAt)
    (same : ∀ position, offset ≤ position → position < offset + length bits value →
      otherByteAt position = byteAt position) : Stands bits value offset otherByteAt := by
  obtain ⟨encoded, written, held⟩ := stands
  refine ⟨encoded, written, ?_⟩
  intro index bounded
  rw [← held index bounded]
  rw [written.length_eq] at bounded
  exact same _ (Nat.le_add_right _ _) (Nat.add_lt_add_left bounded offset)

theorem written_tagged {tag : UInt8} (positive : 1 ≤ bits) (narrow : bits ≤ 8)
    (above : tag.toNat % 2 ^ bits = 0) :
    Written bits value ((lead bits value ||| tag) :: trail bits value) := by
  refine ⟨_, rfl, ?_⟩
  rw [UInt8.toNat_or, Nat.or_mod_two_pow, above, Nat.or_zero]
  exact Nat.mod_eq_of_lt (toNat_lead_lt value positive narrow)

theorem stands_tagged {tag : UInt8}
    (overwritten : buffer.Overwritten offset (encode bits value) written) (positive : 1 ≤ bits)
    (narrow : bits ≤ 8) (above : tag.toNat % 2 ^ bits = 0) :
    Stands bits value offset fun position => (written.modify offset (· ||| tag))[position]? := by
  refine ⟨_, written_tagged positive narrow above, ?_⟩
  intro index bounded
  have placed := overwritten.inside index bounded
  simp only [List.getElem?_modify, placed]
  -- the tag goes into the first byte only
  cases index with
  | zero => simp [encode]
  | succ index => simp [encode]

end Standing

theorem length_le_maxLength (bits : Nat) (value : UInt64) :
    length bits value.toNat ≤ maxLength :=
  Nat.succ_le_succ (groupCount_le_ten bits value.toNat_lt)

theorem exists_write?_eq_some (roomy : offset + length bits value ≤ buffer.length) :
    ∃ written, write? bits value buffer offset = some (offset + length bits value, written) ∧
      buffer.Overwritten offset (encode bits value) written := by
  rw [← length_encode] at roomy
  obtain ⟨written, done⟩ := Bytes.exists_overwrite?_eq_some roomy
  refine ⟨written, ?_, Bytes.overwritten_of_overwrite?_eq_some done⟩
  rw [write?, done]
  rfl

/-- An integer is written into as many bytes as it takes, from `offset` on, and all other bytes stay
as they are; in the first byte the bits from `bits` on are left free. With any tag in these bits,
every reader gives the integer and the offset just past it, whatever follows; and where the bytes
break off earlier, the reader that minds their end finds no integer. -/
theorem roundTrip_under_tag (positive : 1 ≤ bits) (narrow : bits ≤ 8) (value : UInt64)
    (roomy : offset + length bits value.toNat ≤ buffer.length) :
    let stop := offset + length bits value.toNat
    stop - offset ≤ maxLength ∧
      ∃ written first, write? bits value.toNat buffer offset = some (stop, written) ∧
        written.length = buffer.length ∧
        (∀ position, position < offset ∨ stop ≤ position →
          written[position]? = buffer[position]?) ∧
        written[offset]? = some first ∧ first.toNat < 2 ^ bits ∧
        ∀ tag : UInt8, tag.toNat % 2 ^ bits = 0 →
          let tagged := written.modify offset (· ||| tag)
          (∀ bytes : Bytes, bytes.take stop = tagged.take stop →
            decodeUnlimited? bits bytes offset = some (value, stop) ∧
              decode? bits bytes offset = some (value, stop)) ∧
          (∀ byteAt, (∀ position, offset ≤ position → position < stop →
              byteAt position = tagged[position]?) →
            read? bits byteAt offset = some (value, stop)) ∧
          ∀ cut, cut < stop → decode? bits (tagged.take cut) offset = none := by
  intro stop
  obtain ⟨written, done, overwritten⟩ := exists_write?_eq_some roomy
  refine ⟨(Nat.add_sub_cancel_left ..).trans_le (length_le_maxLength bits value), written,
    lead bits value.toNat, done, overwritten.length, ?_, overwritten.inside 0 Nat.succ_pos',
    toNat_lead_lt _ positive narrow, ?_⟩
  · intro position apart
    apply overwritten.outside
    rwa [length_encode]
  · intro tag above tagged
    have stands := stands_tagged overwritten positive narrow above
    have read : ∀ byteAt, (∀ position, offset ≤ position → position < stop →
        byteAt position = tagged[position]?) → read? bits byteAt offset = some (value, stop) := by
      intro byteAt same
      have found := (stands.congr same).read?_eq_some positive narrow value.toNat_lt
      have back : value.toNat.toUInt64 = value := UInt64.ofNat_toNat
      rwa [back] at found
    have decoded : ∀ bytes : Bytes, bytes.take stop = tagged.take stop →
        decode? bits bytes offset = some (value, stop) := by
      intro bytes same
      apply read
      intro position _ inside
      dsimp only
      rw [← List.getElem?_take_of_lt inside, same, List.getElem?_take_of_lt inside]
    refine ⟨?_, read, ?_⟩
    · intro bytes same
      exact ⟨decodeUnlimited?_of_decode?_eq_some (decoded bytes same), decoded bytes same⟩
    · intro cut short
      exact decode?_take_eq_none (decoded tagged rfl) short

/-- The largest value behind a first byte that has room for none of its bits. -/
theorem roundTrip_under_tag_widest :
    let value : UInt64 := 18446744073709551615
    let buffer : Bytes := List.replicate 14 0x55
    let tag : UInt8 := 0xFE
    2 + length 1 value.toNat ≤ buffer.length ∧ tag.toNat % 2 ^ 1 = 0 ∧
      ∃ written, write? 1 value.toNat buffer 2 = some (13, written) ∧
        written[1]? = some 0x55 ∧ written[13]? = some 0x55 ∧
        let tagged := written.modify 2 (· ||| tag)
        decodeUnlimited? 1 tagged 2 = some (value, 13) ∧ decode? 1 tagged 2 = some (value, 13) ∧
          decode? 1 (tagged.take 12) 2 = none := by
  intro value buffer tag
  have widest : length 1 value.toNat = 11 := by cbv
  have roomy : 2 + length 1 value.toNat ≤ buffer.length := by
    rw [widest]
    decide
  have above : tag.toNat % 2 ^ 1 = 0 := by decide
  obtain ⟨-, written, first, done, -, kept, -, -, read⟩ :=
    roundTrip_under_tag (by decide) (by decide) value roomy
  obtain ⟨decoded, -, broken⟩ := read tag above
  rw [widest] at done kept decoded broken
  obtain ⟨unlimited, limited⟩ := decoded _ rfl
  exact ⟨roomy, above, written, done, kept 1 (.inl (by decide)), kept 13 (.inr (by decide)),
    unlimited, limited, broken 12 (by decide)⟩

end VarInt

end PackedTrie
