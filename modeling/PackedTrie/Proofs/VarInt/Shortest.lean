import PackedTrie.Proofs.VarInt.RoundTrip

/-!
No integer can be read from fewer bytes than it is written in. A reader accepts integers with
leading zeros, and takes what it reads modulo `2 ^ 64`, but every byte it goes through adds only
seven bits, and a value that came round is smaller still.
-/

namespace PackedTrie.VarInt

variable {bits limit offset next count : Nat} {byteAt : Nat → Option UInt8}
  {value result : UInt64}

theorem toNat_append_lt {width : Nat} (bounded : value.toNat < 2 ^ width) (byte : UInt8) :
    (append value byte).toNat < 2 ^ (width + 7) := by
  have group : byte.toNat % 128 < 128 := Nat.mod_lt _ (by decide)
  have same : (append value byte).toNat = (value.toNat * 128 + byte.toNat % 128) % 2 ^ 64 := by
    rw [append, UInt64.toNat_add, UInt64.toNat_mul]
    simp
  have below : (append value byte).toNat ≤ value.toNat * 128 + byte.toNat % 128 := by
    rw [same]
    exact Nat.mod_le _ _
  rw [Nat.pow_add]
  omega

/-- Every group that is read makes room for seven bits. -/
theorem toNat_lt_of_readGroups_eq_some {width : Nat} (bounded : value.toNat < 2 ^ width)
    (found : Id.run (readGroups (fun position => pure (byteAt position)) limit value offset) =
      some (result, next)) :
    ∃ groups, next = offset + groups ∧ result.toNat < 2 ^ (width + 7 * groups) := by
  induction limit generalizing value offset width with
  | zero => cases found
  | succ limit inductionHypothesis =>
      cases fetched : byteAt offset with
      | none => simp [readGroups, fetched] at found
      | some byte =>
          have appended := toNat_append_lt bounded byte
          simp only [readGroups, fetched, pure_bind] at found
          split at found
          · cases found
            exact ⟨1, rfl, appended⟩
          · obtain ⟨groups, rfl, small⟩ := inductionHypothesis appended found
            refine ⟨groups + 1, by omega, ?_⟩
            rwa [Nat.mul_add, Nat.add_comm (7 * groups), ← Nat.add_assoc]

theorem groupCount_shiftRight_le {number : Nat} (bounded : number < 2 ^ (bits - 1 + 7 * count)) :
    groupCount (number >>> (bits - 1)) ≤ count := by
  apply groupCount_le_of_lt_pow
  rw [Nat.shiftRight_eq_div_pow, Nat.div_lt_iff_lt_mul (Nat.two_pow_pos _)]
  calc
    number < 2 ^ (bits - 1 + 7 * count) := bounded
    _ = 128 ^ count * 2 ^ (bits - 1) := by rw [Nat.pow_add, Nat.pow_mul, Nat.mul_comm]

/-- Whatever bytes an integer was read from, it can be written in as many. -/
theorem length_le_of_read?_eq_some (positive : 1 ≤ bits)
    (found : read? bits byteAt offset = some (value, next)) :
    offset + length bits value.toNat ≤ next := by
  cases fetched : byteAt offset with
  | none => simp [read?, read, fetched] at found
  | some byte =>
      have halves := pow_pred_add_pow_pred positive
      have first : byte.toNat % 2 ^ bits < 2 ^ bits := Nat.mod_lt _ (Nat.two_pow_pos _)
      simp only [read?, read, fetched, pure_bind, Nat.one_shiftLeft] at found
      split at found
      · rename_i marked
        cases found
        have small : (byte.toNat % 2 ^ bits - 2 ^ (bits - 1)).toUInt64.toNat <
            2 ^ (bits - 1 + 7 * 0) := by
          refine Nat.lt_of_le_of_lt (Nat.mod_le _ _) ?_
          rw [Nat.mul_zero, Nat.add_zero]
          omega
        have none := groupCount_shiftRight_le small
        rw [length]
        omega
      · rename_i unmarked
        have small : (byte.toNat % 2 ^ bits).toUInt64.toNat < 2 ^ (bits - 1) :=
          Nat.lt_of_le_of_lt (Nat.mod_le _ _) (Nat.not_le.mp unmarked)
        obtain ⟨groups, rfl, bounded⟩ := toNat_lt_of_readGroups_eq_some small found
        have few := groupCount_shiftRight_le bounded
        rw [length]
        omega

theorem groupCount_mono {smaller larger : Nat} (ordered : smaller ≤ larger) :
    groupCount smaller ≤ groupCount larger :=
  groupCount_le_of_lt_pow (Nat.lt_of_le_of_lt ordered (lt_pow_groupCount larger))

theorem length_mono (bits : Nat) {smaller larger : Nat} (ordered : smaller ≤ larger) :
    length bits smaller ≤ length bits larger := by
  have shifted : smaller >>> (bits - 1) ≤ larger >>> (bits - 1) := by
    rw [Nat.shiftRight_eq_div_pow, Nat.shiftRight_eq_div_pow]
    exact Nat.div_le_div_right ordered
  exact Nat.succ_le_succ (groupCount_mono shifted)

/-- The next number takes at most one byte more. -/
theorem length_succ_le (bits number : Nat) : length bits (number + 1) ≤ length bits number + 1 := by
  have bounded := lt_pow_groupCount (number >>> (bits - 1))
  have step : (number + 1) >>> (bits - 1) ≤ number >>> (bits - 1) + 1 := by
    rw [Nat.shiftRight_eq_div_pow, Nat.shiftRight_eq_div_pow,
      ← Nat.add_div_right _ (Nat.two_pow_pos _)]
    exact Nat.div_le_div_right (Nat.add_le_add_left Nat.one_le_two_pow _)
  have few : groupCount ((number + 1) >>> (bits - 1)) ≤ groupCount (number >>> (bits - 1)) + 1 := by
    apply groupCount_le_of_lt_pow
    calc
      (number + 1) >>> (bits - 1) ≤ 128 ^ groupCount (number >>> (bits - 1)) :=
        Nat.le_trans step bounded
      _ < 128 ^ (groupCount (number >>> (bits - 1)) + 1) :=
        Nat.pow_lt_pow_right (by decide) (Nat.lt_succ_self _)
  exact Nat.succ_le_succ few

theorem length_pos (bits number : Nat) : 1 ≤ length bits number :=
  Nat.succ_le_succ (Nat.zero_le _)

end PackedTrie.VarInt
