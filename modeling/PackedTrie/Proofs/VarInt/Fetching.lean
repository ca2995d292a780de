import Mathlib
import PackedTrie.VarInt.Decode

/-!
What a reader takes from its accessor. A read that succeeds ends just after a byte that is there,
and gives the same wherever the bytes up to this one are found again. So it fails on bytes that
break off before its end, and the reader without a limit, which asks for the same bytes, agrees.
-/

namespace PackedTrie.VarInt

section Ending

variable {byteAt : Nat → Option UInt8}

theorem exists_of_readGroups_eq_some {limit offset next : Nat} {value result : UInt64}
    (found : Id.run (readGroups (fun position => pure (byteAt position)) limit value offset) =
      some (result, next)) : ∃ last byte, next = last + 1 ∧ byteAt last = some byte := by
  induction limit generalizing value offset with
  | zero => cases found
  | succ limit inductionHypothesis =>
      cases fetched : byteAt offset with
      | none => simp [readGroups, fetched] at found
      | some byte =>
          simp only [readGroups, fetched, pure_bind] at found
          split at found
          · cases found
            exact ⟨offset, byte, rfl, fetched⟩
          · exact inductionHypothesis found

/-- A successful read ends just after a byte that is there. -/
theorem exists_of_read?_eq_some {bits offset next : Nat} {value : UInt64}
    (found : read? bits byteAt offset = some (value, next)) :
    ∃ last byte, next = last + 1 ∧ byteAt last = some byte := by
  cases fetched : byteAt offset with
  | none => simp [read?, read, fetched] at found
  | some byte =>
      simp only [read?, read, fetched, pure_bind] at found
      split at found
      · cases found
        exact ⟨offset, byte, rfl, fetched⟩
      · exact exists_of_readGroups_eq_some found

end Ending

section Shifting

variable {inner outer : Nat → Option UInt8} {shift : Nat}

theorem readGroups_of_shift
    (seen : ∀ position byte, inner position = some byte → outer (shift + position) = some byte)
    {limit offset next : Nat} {value result : UInt64}
    (found : Id.run (readGroups (fun position => pure (inner position)) limit value offset) =
      some (result, next)) :
    Id.run (readGroups (fun position => pure (outer position)) limit value (shift + offset)) =
      some (result, shift + next) := by
  induction limit generalizing value offset with
  | zero => cases found
  | succ limit inductionHypothesis =>
      cases fetched : inner offset with
      | none => simp [readGroups, fetched] at found
      | some byte =>
          simp only [readGroups, fetched, seen offset byte fetched, pure_bind] at found ⊢
          split at found
          next marked =>
            cases found
            rw [if_pos marked]
            rfl
          next unmarked =>
            rw [if_neg unmarked]
            exact inductionHypothesis found

theorem read?_of_shift
    (seen : ∀ position byte, inner position = some byte → outer (shift + position) = some byte)
    {bits offset next : Nat} {value : UInt64}
    (found : read? bits inner offset = some (value, next)) :
    read? bits outer (shift + offset) = some (value, shift + next) := by
  cases fetched : inner offset with
  | none => simp [read?, read, fetched] at found
  | some byte =>
      simp only [read?, read, fetched, seen offset byte fetched, pure_bind] at found ⊢
      split at found
      next marked =>
        cases found
        rw [if_pos marked]
        rfl
      next unmarked =>
        rw [if_neg unmarked]
        exact readGroups_of_shift seen found

end Shifting

section Bytes

variable {bits offset next : Nat} {bytes : Bytes} {value result : UInt64}

/-- The bytes that an integer ends behind are needed to read it. -/
theorem decode?_take_eq_none (found : decode? bits bytes offset = some (value, next)) {cut : Nat}
    (short : cut < next) : decode? bits (bytes.take cut) offset = none := by
  cases decoded : decode? bits (bytes.take cut) offset with
  | none => rfl
  | some other =>
      obtain ⟨otherValue, otherNext⟩ := other
      have seen : ∀ position byte, (bytes.take cut)[position]? = some byte →
          bytes[0 + position]? = some byte := by
        intro position byte fetched
        obtain ⟨inside, -⟩ := List.getElem?_eq_some_iff.mp fetched
        rw [List.length_take, Nat.lt_min] at inside
        rwa [List.getElem?_take_of_lt inside.1, ← Nat.zero_add position] at fetched
      have whole := read?_of_shift seen decoded
      simp only [Nat.zero_add] at whole
      cases found.symm.trans whole
      obtain ⟨last, byte, rfl, fetched⟩ := exists_of_read?_eq_some decoded
      obtain ⟨inside, -⟩ := List.getElem?_eq_some_iff.mp fetched
      rw [List.length_take] at inside
      omega

theorem followGroups_of_readGroups_eq_some {limit : Nat}
    (found : Id.run (readGroups (fun position => pure bytes[position]?) limit value offset) =
      some (result, next)) :
    followGroups value offset (bytes.drop offset) = some (result, next) := by
  induction limit generalizing value offset with
  | zero => cases found
  | succ limit inductionHypothesis =>
      cases fetched : bytes[offset]? with
      | none => simp [readGroups, fetched] at found
      | some byte =>
          obtain ⟨inside, rfl⟩ := List.getElem?_eq_some_iff.mp fetched
          simp only [readGroups, fetched, pure_bind] at found
          rw [List.drop_eq_getElem_cons inside, followGroups]
          split at found
          next marked =>
            rw [if_pos marked]
            exact found
          next unmarked =>
            rw [if_neg unmarked]
            exact inductionHypothesis found

/-- What the reader with a limit finds, the one without finds too. -/
theorem decodeUnlimited?_of_decode?_eq_some
    (found : decode? bits bytes offset = some (value, next)) :
    decodeUnlimited? bits bytes offset = some (value, next) := by
  cases fetched : bytes[offset]? with
  | none => simp [decode?, read?, read, fetched] at found
  | some byte =>
      obtain ⟨inside, rfl⟩ := List.getElem?_eq_some_iff.mp fetched
      simp only [decode?, read?, read, fetched, pure_bind] at found
      rw [decodeUnlimited?, List.drop_eq_getElem_cons inside]
      dsimp only
      split at found
      next marked =>
        rw [if_pos marked]
        exact found
      next unmarked =>
        rw [if_neg unmarked]
        exact followGroups_of_readGroups_eq_some found

end Bytes

end PackedTrie.VarInt
