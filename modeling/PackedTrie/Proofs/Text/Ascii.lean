import Mathlib
import PackedTrie.Text.Ascii

/-!
Blanks around a field, and numbers as they are written. What is put around a field is trimmed away
again, as long as the field has no blanks at its own ends; and the digits of a number are such a
field.
-/

namespace PackedTrie.Ascii

variable {bytes before after front rest : Bytes} {byte : UInt8}

section Trimming

theorem trim_append_blank (blank : isBlank byte = true) : trim (bytes ++ [byte]) = trim bytes := by
  have front : (bytes ++ [byte]).dropWhile isBlank =
      if (bytes.dropWhile isBlank).isEmpty then [] else bytes.dropWhile isBlank ++ [byte] := by
    rw [List.dropWhile_append, List.dropWhile_cons_of_pos blank, List.dropWhile_nil]
  unfold trim
  rw [front]
  cases bytes.dropWhile isBlank with
  | nil => rfl
  | cons first rest =>
      simp only [List.isEmpty_cons, Bool.false_eq_true, if_false, List.reverse_append,
        List.reverse_singleton, List.singleton_append, List.dropWhile_cons_of_pos blank]

theorem trim_append_of_blank_left (blank : ∀ byte ∈ before, isBlank byte = true) :
    trim (before ++ bytes) = trim bytes := by
  rw [trim, List.dropWhile_append_of_pos blank, trim]

theorem trim_append_of_blank_right (blank : ∀ byte ∈ after, isBlank byte = true) :
    trim (bytes ++ after) = trim bytes := by
  induction after generalizing bytes with
  | nil => rw [List.append_nil]
  | cons byte after inductionHypothesis =>
      rw [List.append_cons, inductionHypothesis fun later member =>
        blank later (List.mem_cons_of_mem byte member)]
      exact trim_append_blank (blank byte List.mem_cons_self)

theorem trim_of_blank (blank : ∀ byte ∈ bytes, isBlank byte = true) : trim bytes = [] := by
  rw [← List.append_nil bytes, trim_append_of_blank_left blank]
  rfl

/-- Behind a byte that is no blank, only the end is trimmed. -/
theorem rdropWhile_append_cons (visible : isBlank byte = false) :
    (front ++ byte :: rest).rdropWhile isBlank = front ++ byte :: rest.rdropWhile isBlank := by
  induction rest using List.reverseRecOn with
  | nil =>
      rw [List.rdropWhile_concat_neg _ _ _ (ne_true_of_eq_false visible), List.rdropWhile_nil]
  | append_singleton rest last inductionHypothesis =>
      rw [← List.cons_append, ← List.append_assoc]
      by_cases blank : isBlank last = true
      · rw [List.rdropWhile_concat_pos _ _ _ blank, List.rdropWhile_concat_pos _ _ _ blank,
          inductionHypothesis]
      · rw [List.rdropWhile_concat_neg _ _ _ blank, List.rdropWhile_concat_neg _ _ _ blank,
          List.append_assoc, List.cons_append]

theorem trim_cons (visible : isBlank byte = false) :
    trim (byte :: rest) = byte :: rest.rdropWhile isBlank := by
  rw [trim, List.dropWhile_cons_of_neg (ne_true_of_eq_false visible)]
  have endTrimmed : ([] ++ byte :: rest).rdropWhile isBlank = byte :: rest.rdropWhile isBlank :=
    rdropWhile_append_cons visible
  exact endTrimmed

theorem trim_rdropWhile (bytes : Bytes) : trim (bytes.rdropWhile isBlank) = trim bytes := by
  have blank : ∀ byte ∈ bytes.rtakeWhile isBlank, isBlank byte = true :=
    fun _ => List.mem_rtakeWhile_imp
  rw [← trim_append_of_blank_right blank, List.rdropWhile_append_rtakeWhile]

end Trimming

section Unpadded

/-- No blank stands at either end. -/
def Unpadded (bytes : Bytes) : Prop :=
  bytes.head?.any isBlank = false ∧ bytes.getLast?.any isBlank = false

instance (bytes : Bytes) : Decidable (Unpadded bytes) :=
  inferInstanceAs (Decidable (_ ∧ _))

theorem Unpadded.trim_eq (unpadded : Unpadded bytes) : trim bytes = bytes := by
  obtain ⟨visible, lastVisible⟩ := unpadded
  cases bytes with
  | nil => rfl
  | cons first rest =>
      have whole : (first :: rest).rdropWhile isBlank = first :: rest := by
        rw [List.rdropWhile_eq_self_iff]
        intro nonempty blank
        rw [List.getLast?_eq_some_getLast nonempty, Option.any_some] at lastVisible
        exact ne_true_of_eq_false lastVisible blank
      have start : isBlank first = false := visible
      rw [trim, List.dropWhile_cons_of_neg (ne_true_of_eq_false start)]
      exact whole

/-- What is put around a field is trimmed away. -/
theorem Unpadded.trim_padded (unpadded : Unpadded bytes)
    (blankBefore : ∀ byte ∈ before, isBlank byte = true)
    (blankAfter : ∀ byte ∈ after, isBlank byte = true) :
    trim (before ++ bytes ++ after) = bytes := by
  rw [trim_append_of_blank_right blankAfter, trim_append_of_blank_left blankBefore,
    unpadded.trim_eq]

theorem unpadded_of_forall (visible : ∀ byte ∈ bytes, isBlank byte = false) : Unpadded bytes := by
  constructor
  · cases first : bytes.head? with
    | none => rfl
    | some byte => exact visible byte (List.mem_of_head? first)
  · cases last : bytes.getLast? with
    | none => rfl
    | some byte => exact visible byte (List.mem_of_getLast? last)

end Unpadded

section Numbers

theorem isBlank_of_isDigit (digit : isDigit byte = true) : isBlank byte = false := by
  rw [← Bool.not_eq_true]
  intro blank
  simp only [isBlank, Bool.or_eq_true, beq_iff_eq] at blank
  rcases blank with (((rfl | rfl) | rfl) | rfl) | rfl <;> contradiction

theorem print_ne_nil (value : Nat) : print value ≠ [] := by
  rw [print, ne_eq, List.map_eq_nil_iff]
  exact Nat.toDigits_ne_nil

theorem toNat_toUInt8_of_isDigit {digit : Char} (decimal : digit.isDigit = true) :
    digit.toNat.toUInt8.toNat = digit.toNat := by
  have bounds := Char.isDigit_iff_toNat.mp decimal
  exact UInt8.toNat_ofNat_of_lt (Nat.lt_of_le_of_lt bounds.2 (by decide))

theorem isDigit_of_mem_print {value : Nat} (member : byte ∈ print value) : isDigit byte = true := by
  obtain ⟨digit, among, rfl⟩ := List.mem_map.mp member
  have decimal := Nat.isDigit_of_mem_toDigits (by decide) (Nat.le_refl 10) among
  rw [isDigit, Bool.and_eq_true, decide_eq_true_iff, decide_eq_true_iff,
    UInt8.le_iff_toNat_le, UInt8.le_iff_toNat_le, toNat_toUInt8_of_isDigit decimal]
  exact Char.isDigit_iff_toNat.mp decimal

theorem ofDigits_print (value : Nat) : ofDigits (print value) = value := by
  have decimal : ∀ digit ∈ Nat.toDigits 10 value, digit.isDigit = true :=
    fun _ => Nat.isDigit_of_mem_toDigits (by decide) (Nat.le_refl 10)
  calc ofDigits (print value)
    _ = (Nat.toDigits 10 value).foldl
          (fun sum digit => 10 * sum + (digit.toNat - '0'.toNat)) 0 := by
        rw [ofDigits, print, List.foldl_map]
        refine List.foldl_ext _ _ _ fun sum digit member => ?_
        rw [toNat_toUInt8_of_isDigit (decimal digit member), Nat.mul_comm]
        rfl
    _ = value := Nat.ofDigitChars_ten_toDigits

theorem dropPlus_print (value : Nat) : dropPlus (print value) = print value := by
  unfold dropPlus
  split
  · rename_i rest printed
    have member : 0x2B ∈ print value := printed ▸ List.mem_cons_self
    have digit := isDigit_of_mem_print member
    contradiction
  · rfl

theorem parse?_print (number : UInt64) : parse? (print number.toNat) = some number := by
  have fits : ofDigits (print number.toNat) < UInt64.size := by
    rw [ofDigits_print]
    exact number.toNat_lt_size
  have digits : (print number.toNat).all isDigit = true :=
    List.all_eq_true.mpr fun _ => isDigit_of_mem_print
  unfold parse?
  rw [dropPlus_print, if_pos ⟨print_ne_nil _, digits, fits⟩, ofDigits_print]
  exact congrArg some UInt64.ofNat_toNat

theorem unpadded_print (value : Nat) : Unpadded (print value) :=
  unpadded_of_forall fun _ member => isBlank_of_isDigit (isDigit_of_mem_print member)

end Numbers

end PackedTrie.Ascii
