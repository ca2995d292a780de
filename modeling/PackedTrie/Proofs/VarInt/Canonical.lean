import PackedTrie.Proofs.VarInt.Framing
import PackedTrie.Proofs.VarInt.Shortest
import PackedTrie.Proofs.VarInt.Tagging

/-!
The shortest form of an integer. Nothing that a reader accepts is shorter than what the writer
writes, and what is as short is, up to the tag, the same bytes: their digits are those of the
number, and their markers stand where a reader needs them.
-/

namespace PackedTrie.VarInt

variable {bits : Nat} {rest encoded : Bytes} {byte : UInt8}

section Digits

theorem foldl_extend_div (rest : Bytes) (value : Nat) :
    rest.foldl extend value / 128 ^ rest.length = value := by
  induction rest generalizing value with
  | nil => exact Nat.div_one value
  | cons byte rest inductionHypothesis =>
      rw [List.foldl_cons, List.length_cons, Nat.pow_succ, ← Nat.div_div_eq_div_mul,
        inductionHypothesis, extend]
      omega

theorem extend_mod (value : Nat) (byte : UInt8) : extend value byte % 128 = byte.toNat % 128 := by
  rw [extend]
  omega

theorem toUInt8_of_marked (marked : Marked 8 byte) : (byte.toNat % 128 + 128).toUInt8 = byte := by
  have whole : byte.toNat % 2 ^ 8 = byte.toNat := Nat.mod_eq_of_lt byte.toNat_lt
  rw [toNat_mod_two_pow (by decide), if_pos marked] at whole
  exact (congrArg Nat.toUInt8 whole).trans UInt8.ofNat_toNat

theorem toUInt8_of_not_marked (unmarked : ¬ Marked 8 byte) : (byte.toNat % 128).toUInt8 = byte := by
  have whole : byte.toNat % 2 ^ 8 = byte.toNat := Nat.mod_eq_of_lt byte.toNat_lt
  rw [toNat_mod_two_pow (by decide), if_neg unmarked] at whole
  exact (congrArg Nat.toUInt8 whole).trans UInt8.ofNat_toNat

theorem Trailing.groups_foldl (trailing : Trailing rest) (value : Nat) :
    groups rest.length (rest.foldl extend value) = rest := by
  induction trailing generalizing value with
  | @last byte marked =>
      rw [List.foldl_cons, List.foldl_nil, List.length_singleton, groups, extend_mod,
        toUInt8_of_marked marked]
  | @more byte rest unmarked trailing inductionHypothesis =>
      obtain ⟨count, counted⟩ := trailing.exists_length_eq_succ
      have upper := foldl_extend_div rest (extend value byte)
      have lower := inductionHypothesis (extend value byte)
      rw [counted] at upper lower
      rw [List.foldl_cons, List.length_cons, counted, groups, lower, shiftRight_groups, upper,
        extend_mod, toUInt8_of_not_marked unmarked]

end Digits

section Form

/-- The bytes of an integer with the free bits of the first one cleared. -/
def untagged (bits : Nat) : Bytes → Bytes
  | [] => []
  | first :: rest => (first.toNat % 2 ^ bits).toUInt8 :: rest

/-- A number is written in the bytes it was read from, if it cannot be written in fewer. -/
theorem Framed.encode_number (framed : Framed bits encoded) (positive : 1 ≤ bits)
    (shortest : encoded.length = length bits (number bits encoded)) :
    encode bits (number bits encoded) = untagged bits encoded := by
  cases framed with
  | @single first marked =>
      have none : groupCount (number bits [first] >>> (bits - 1)) = 0 :=
        (Nat.succ.inj shortest).symm
      rw [encode, lead, trail, none, groups, untagged, toNat_mod_two_pow positive, if_pos marked,
        number_cons, Nat.one_shiftLeft]
      rfl
  | @trailed first rest unmarked trailing =>
      have counted : groupCount (number bits (first :: rest) >>> (bits - 1)) = rest.length :=
        (Nat.succ.inj shortest).symm
      obtain ⟨count, more⟩ := trailing.exists_length_eq_succ
      have upper := foldl_extend_div rest (first.toNat % 2 ^ (bits - 1))
      have lower := trailing.groups_foldl (first.toNat % 2 ^ (bits - 1))
      rw [number_cons] at counted ⊢
      rw [more] at counted upper lower
      simp only [encode, lead, trail, counted, shiftRight_groups, upper, lower, untagged,
        toNat_mod_two_pow positive, if_neg unmarked, Nat.add_zero]

end Form

/-- No bytes are accepted for an integer that are fewer than it is written in, whether or not their
number came round. If it did not and they are as many, the integer is written in just these bytes,
up to the tag. And a larger integer takes no fewer bytes. -/
theorem encode_shortest_and_unique (positive : 1 ≤ bits) :
    (∀ (bytes : Bytes) (offset : Nat) (value : UInt64) (next : Nat),
      decode? bits bytes offset = some (value, next) →
      let encoded := (bytes.drop offset).take (next - offset)
      length bits value.toNat ≤ next - offset ∧ value = (number bits encoded).toUInt64 ∧
        (number bits encoded < 2 ^ 64 → next - offset = length bits value.toNat →
          ∀ (buffer : Bytes) (position : Nat), position + (next - offset) ≤ buffer.length →
            ∃ written, write? bits value.toNat buffer position =
                some (position + (next - offset), written) ∧
              buffer.Overwritten position (untagged bits encoded) written)) ∧
    ∀ smaller larger : UInt64, smaller ≤ larger →
      length bits smaller.toNat ≤ length bits larger.toNat := by
  refine ⟨?_, fun smaller larger ordered => length_mono bits ordered⟩
  intro bytes offset value next decoded stretch
  have enough := length_le_of_read?_eq_some positive decoded
  obtain ⟨encoded, framed, found, -, rfl, denoted⟩ :=
    exists_framed_of_read?_eq_some positive decoded
  have same : stretch = encoded := by
    obtain ⟨tail, stands⟩ := found_iff_isPrefix.mp found
    simp only [stretch, ← stands, Nat.add_sub_cancel_left, List.take_left]
  rw [same, Nat.add_sub_cancel_left]
  refine ⟨by omega, denoted, ?_⟩
  intro exact shortest buffer position roomy
  have value_eq : value.toNat = number bits encoded := by
    rw [denoted]
    exact Nat.mod_eq_of_lt exact
  rw [shortest] at roomy ⊢
  obtain ⟨written, done, overwritten⟩ := exists_write?_eq_some roomy
  refine ⟨written, done, ?_⟩
  rw [value_eq] at shortest overwritten
  rwa [framed.encode_number positive shortest] at overwritten

/-- An integer behind another byte, with a tag above six bits. -/
def taggedInteger : Bytes :=
  [0x55, 0xC2, 0xAC]

theorem encode_shortest_and_unique_taggedInteger :
    1 ≤ 6 ∧ decode? 6 taggedInteger 1 = some (300, 3) ∧ number 6 [0xC2, 0xAC] < 2 ^ 64 ∧
      3 - 1 = length 6 (300 : UInt64).toNat ∧
      (∃ written, write? 6 (300 : UInt64).toNat [0x55, 0x55, 0x55] 0 = some (2, written) ∧
        Bytes.Overwritten [0x55, 0x55, 0x55] 0 [0x02, 0xAC] written) ∧
      (300 : UInt64) ≤ 70000 ∧ length 6 (300 : UInt64).toNat ≤ length 6 (70000 : UInt64).toNat := by
  have decoded : decode? 6 taggedInteger 1 = some (300, 3) := by decide
  have exact : number 6 [0xC2, 0xAC] < 2 ^ 64 := by decide
  have shortest : 3 - 1 = length 6 (300 : UInt64).toNat := by cbv
  have ordered : (300 : UInt64) ≤ 70000 := by decide
  have positive : 1 ≤ 6 := by decide
  obtain ⟨unique, monotone⟩ := encode_shortest_and_unique positive
  obtain ⟨-, -, writes⟩ := unique taggedInteger 1 300 3 decoded
  exact ⟨positive, decoded, exact, shortest, writes exact shortest [0x55, 0x55, 0x55] 0 (by decide),
    ordered, monotone 300 70000 ordered⟩

end PackedTrie.VarInt
