import Mathlib
import PackedTrie.VarInt.Decode

/-!
Reading back a written integer. Whatever stands around the encoding, and whatever tag was put into
the free bits of its first byte, `read?` gives the value and the offset just past its last byte.
-/

namespace PackedTrie.VarInt

theorem toNat_toUInt8_of_lt {value : Nat} (bounded : value < 256) :
    value.toUInt8.toNat = value :=
  UInt8.toNat_ofNat_of_lt' bounded

theorem shiftRight_groups (value count : Nat) : value >>> (7 * count) = value / 128 ^ count := by
  rw [Nat.shiftRight_eq_div_pow, Nat.pow_mul]

theorem lt_pow_groupCount (rest : Nat) : rest < 128 ^ groupCount rest := by
  fun_induction groupCount rest with
  | case1 => simp
  | case2 rest nonzero inductionHypothesis =>
      rw [Nat.pow_succ]
      omega

theorem groupCount_le_of_lt_pow {count rest : Nat} (bounded : rest < 128 ^ count) :
    groupCount rest ≤ count := by
  induction count generalizing rest with
  | zero =>
      have zero : rest = 0 := by simpa using bounded
      subst zero
      exact Nat.le_of_eq groupCount_zero
  | succ count inductionHypothesis =>
      by_cases zero : rest = 0
      · rw [zero, groupCount_zero]
        exact Nat.zero_le _
      · rw [groupCount_of_ne_zero zero]
        apply Nat.succ_le_succ
        apply inductionHypothesis
        rw [Nat.pow_succ] at bounded
        omega

theorem groupCount_le_ten (bits : Nat) {value : Nat} (bounded : value < 2 ^ 64) :
    groupCount (value >>> (bits - 1)) ≤ 10 := by
  apply groupCount_le_of_lt_pow
  calc
    value >>> (bits - 1) ≤ value := Nat.shiftRight_le _ _
    _ < 2 ^ 64 := bounded
    _ < 128 ^ 10 := by decide

theorem pow_pred_add_pow_pred {bits : Nat} (positive : 1 ≤ bits) :
    2 ^ (bits - 1) + 2 ^ (bits - 1) = 2 ^ bits := by
  obtain ⟨below, rfl⟩ : ∃ below, bits = below + 1 := ⟨bits - 1, by omega⟩
  rw [Nat.add_sub_cancel, Nat.pow_succ]
  omega

/-- What the groups leave over fits below the marker of the first byte. -/
theorem div_pow_lt_of_groupCount_eq {bits value count : Nat}
    (counted : groupCount (value >>> (bits - 1)) = count) :
    value / 128 ^ count < 2 ^ (bits - 1) := by
  have bounded := lt_pow_groupCount (value >>> (bits - 1))
  rw [counted, Nat.shiftRight_eq_div_pow, Nat.div_lt_iff_lt_mul (Nat.two_pow_pos _)] at bounded
  rw [Nat.div_lt_iff_lt_mul (Nat.pow_pos (by decide)), Nat.mul_comm]
  exact bounded

theorem toNat_lead_of_groupCount_eq_zero {bits value : Nat} (positive : 1 ≤ bits)
    (narrow : bits ≤ 8) (counted : groupCount (value >>> (bits - 1)) = 0) :
    (lead bits value).toNat = value + 2 ^ (bits - 1) := by
  have small := div_pow_lt_of_groupCount_eq counted
  have halves := pow_pred_add_pow_pred positive
  have limit : 2 ^ bits ≤ 2 ^ 8 := Nat.pow_le_pow_right (by decide) narrow
  simp only [Nat.pow_zero, Nat.div_one] at small
  simp only [lead, counted, Nat.one_shiftLeft]
  exact toNat_toUInt8_of_lt (by omega)

theorem toNat_lead_of_groupCount_eq_succ {bits value count : Nat} (positive : 1 ≤ bits)
    (narrow : bits ≤ 8) (counted : groupCount (value >>> (bits - 1)) = count + 1) :
    (lead bits value).toNat = value / 128 ^ (count + 1) := by
  have small := div_pow_lt_of_groupCount_eq counted
  have halves := pow_pred_add_pow_pred positive
  have limit : 2 ^ bits ≤ 2 ^ 8 := Nat.pow_le_pow_right (by decide) narrow
  simp only [lead, counted, shiftRight_groups]
  exact toNat_toUInt8_of_lt (by omega)

theorem toNat_lead_lt {bits : Nat} (value : Nat) (positive : 1 ≤ bits) (narrow : bits ≤ 8) :
    (lead bits value).toNat < 2 ^ bits := by
  have halves := pow_pred_add_pow_pred positive
  cases counted : groupCount (value >>> (bits - 1)) with
  | zero =>
      have small := div_pow_lt_of_groupCount_eq counted
      simp only [Nat.pow_zero, Nat.div_one] at small
      rw [toNat_lead_of_groupCount_eq_zero positive narrow counted]
      omega
  | succ count =>
      have small := div_pow_lt_of_groupCount_eq counted
      rw [toNat_lead_of_groupCount_eq_succ positive narrow counted]
      exact Nat.lt_of_lt_of_le small (Nat.pow_le_pow_right (by decide) (Nat.sub_le _ _))

theorem append_toUInt64 (value : Nat) (byte : UInt8) :
    append value.toUInt64 byte = (value * 128 + byte.toNat % 128).toUInt64 := by
  simp only [append, Nat.toUInt64_eq, UInt64.ofNat_add, UInt64.ofNat_mul]
  rfl

/-- Groups read one after the other come in below what was read before them. -/
theorem readGroups_groups {byteAt : Nat → Option UInt8} {limit count value read offset : Nat}
    (enough : count + 1 ≤ limit)
    (held : ∀ index, index < count + 1 →
      byteAt (offset + index) = (groups (count + 1) value)[index]?) :
    Id.run (readGroups (fun position => pure (byteAt position)) limit read.toUInt64 offset) =
      some ((read * 128 ^ (count + 1) + value % 128 ^ (count + 1)).toUInt64,
        offset + (count + 1)) := by
  induction count generalizing limit read offset with
  | zero =>
      obtain ⟨limit, rfl⟩ : ∃ rest, limit = rest + 1 := ⟨limit - 1, by omega⟩
      have fetched : byteAt offset = some (value % 128 + 128).toUInt8 := held 0 (by omega)
      have byte : (value % 128 + 128).toUInt8.toNat = value % 128 + 128 :=
        toNat_toUInt8_of_lt (by omega)
      have marked : 128 ≤ (value % 128 + 128).toUInt8 := by
        rw [UInt8.le_iff_toNat_le, byte]
        exact Nat.le_add_left _ _
      simp only [readGroups, pure_bind, fetched, if_pos marked, append_toUInt64, byte]
      simp
  | succ count inductionHypothesis =>
      obtain ⟨limit, rfl⟩ : ∃ rest, limit = rest + 1 := ⟨limit - 1, by omega⟩
      have fetched : byteAt offset = some (value / 128 ^ (count + 1) % 128).toUInt8 := by
        rw [← shiftRight_groups]
        exact held 0 (by omega)
      have byte : (value / 128 ^ (count + 1) % 128).toUInt8.toNat =
          value / 128 ^ (count + 1) % 128 := toNat_toUInt8_of_lt (by omega)
      have unmarked : ¬ 128 ≤ (value / 128 ^ (count + 1) % 128).toUInt8 := by
        rw [UInt8.le_iff_toNat_le, byte]
        exact Nat.not_le.mpr (Nat.mod_lt _ (by decide))
      have later : ∀ index, index < count + 1 →
          byteAt (offset + 1 + index) = (groups (count + 1) value)[index]? := by
        intro index inside
        have shifted := held (index + 1) (by omega)
        rw [Nat.add_assoc, Nat.add_comm 1 index]
        exact shifted
      have digits : (read * 128 + value / 128 ^ (count + 1) % 128) * 128 ^ (count + 1) +
          value % 128 ^ (count + 1) =
          read * 128 ^ (count + 1 + 1) + value % 128 ^ (count + 1 + 1) := by
        rw [Nat.pow_succ 128 (count + 1), Nat.mod_mul, Nat.add_mul, Nat.mul_assoc,
          Nat.mul_comm 128, Nat.mul_comm (value / 128 ^ (count + 1) % 128)]
        omega
      simp only [readGroups, pure_bind, fetched, if_neg unmarked, append_toUInt64, byte,
        Nat.mod_mod]
      rw [inductionHypothesis (by omega) later, digits]
      congr 2
      omega

/-- The bytes are the encoding of `value`, with any tag in the free bits of the first byte. -/
def Written (bits value : Nat) (bytes : Bytes) : Prop :=
  ∃ first, bytes = first :: trail bits value ∧ first.toNat % 2 ^ bits = (lead bits value).toNat

theorem written_encode {bits : Nat} (value : Nat) (positive : 1 ≤ bits) (narrow : bits ≤ 8) :
    Written bits value (encode bits value) :=
  ⟨lead bits value, rfl, Nat.mod_eq_of_lt (toNat_lead_lt value positive narrow)⟩

theorem Written.length_eq {bits value : Nat} {bytes : Bytes} (written : Written bits value bytes) :
    bytes.length = length bits value := by
  obtain ⟨first, rfl, -⟩ := written
  simp [trail, length]

/-- A written integer is read back, wherever its bytes stand. -/
theorem Written.read?_eq_some {byteAt : Nat → Option UInt8} {bits value offset : Nat}
    {bytes : Bytes} (written : Written bits value bytes) (positive : 1 ≤ bits) (narrow : bits ≤ 8)
    (bounded : value < 2 ^ 64)
    (held : ∀ index, index < bytes.length → byteAt (offset + index) = bytes[index]?) :
    read? bits byteAt offset = some (value.toUInt64, offset + length bits value) := by
  obtain ⟨first, rfl, tagged⟩ := written
  have fetched : byteAt offset = some first := held 0 (by simp)
  cases counted : groupCount (value >>> (bits - 1)) with
  | zero =>
      rw [toNat_lead_of_groupCount_eq_zero positive narrow counted] at tagged
      simp [read?, read, fetched, tagged, length, counted, Nat.one_shiftLeft]
  | succ count =>
      have small := div_pow_lt_of_groupCount_eq counted
      rw [toNat_lead_of_groupCount_eq_succ positive narrow counted] at tagged
      have later : ∀ index, index < count + 1 →
          byteAt (offset + 1 + index) = (groups (count + 1) value)[index]? := by
        intro index inside
        have shifted := held (index + 1) (by simpa [trail, counted] using inside)
        rw [Nat.add_assoc, Nat.add_comm 1 index]
        simpa [trail, counted] using shifted
      have enough : count + 1 ≤ maxLength - 1 := by
        have ten := groupCount_le_ten bits bounded
        rw [counted] at ten
        exact ten
      have quotient : value / 128 ^ (count + 1) * 128 ^ (count + 1) +
          value % 128 ^ (count + 1) = value := by
        rw [Nat.mul_comm]
        exact Nat.div_add_mod _ _
      simp only [read?, read, fetched, pure_bind, Nat.one_shiftLeft, tagged,
        if_neg (Nat.not_le.mpr small)]
      rw [readGroups_groups enough later, quotient, length, counted]
      congr 2
      omega

end PackedTrie.VarInt
