import PackedTrie.Proofs.VarInt.Fetching
import PackedTrie.Proofs.VarInt.RoundTrip

/-!
Where an integer ends, and what it denotes. Its bytes go up to the first whose marker is set, and
the bits below the markers are the digits of the number, most significant first. This is what the
readers find, on any bytes; the reader with a limit only if the marker comes in time, and it asks
for no byte behind it.
-/

namespace PackedTrie.VarInt

variable {bits offset next limit count : Nat} {byteAt : Nat → Option UInt8}
  {bytes rest encoded : Bytes} {byte first : UInt8} {value result : UInt64}

section Marker

/-- The marker of a byte of the given width is the topmost of its bits. -/
def Marked (width : Nat) (byte : UInt8) : Prop :=
  byte.toNat.testBit (width - 1) = true

instance (width : Nat) (byte : UInt8) : Decidable (Marked width byte) :=
  inferInstanceAs (Decidable (_ = true))

/-- The first byte of an integer has `bits` bits, and every later one has eight. -/
def widthAt (bits index : Nat) : Nat :=
  if index = 0 then bits else 8

theorem toNat_mod_two_pow (positive : 1 ≤ bits) (byte : UInt8) :
    byte.toNat % 2 ^ bits =
      byte.toNat % 2 ^ (bits - 1) + if Marked bits byte then 2 ^ (bits - 1) else 0 := by
  obtain ⟨below, rfl⟩ : ∃ below, bits = below + 1 := ⟨bits - 1, by omega⟩
  have topmost : Marked (below + 1) byte ↔ byte.toNat / 2 ^ below % 2 = 1 := by
    rw [Marked, Nat.add_sub_cancel, Nat.testBit_eq_decide_div_mod_eq, decide_eq_true_eq]
  rw [Nat.add_sub_cancel, Nat.mod_pow_succ]
  rcases Nat.mod_two_eq_zero_or_one (byte.toNat / 2 ^ below) with clear | set
  · simp [topmost, clear]
  · simp [topmost, set]

theorem marked_iff_le (positive : 1 ≤ bits) :
    Marked bits byte ↔ 1 <<< (bits - 1) ≤ byte.toNat % 1 <<< bits := by
  have digit : byte.toNat % 2 ^ (bits - 1) < 2 ^ (bits - 1) := Nat.mod_lt _ (Nat.two_pow_pos _)
  rw [Nat.one_shiftLeft, Nat.one_shiftLeft, toNat_mod_two_pow positive]
  split <;> rename_i marked
  · exact iff_of_true marked (Nat.le_add_left _ _)
  · exact iff_of_false marked (Nat.not_le.mpr digit)

theorem marked_eight_iff_le : Marked 8 byte ↔ 128 ≤ byte := by
  have whole : byte.toNat % 1 <<< 8 = byte.toNat := Nat.mod_eq_of_lt byte.toNat_lt
  rw [marked_iff_le (by decide), whole, UInt8.le_iff_toNat_le]
  rfl

end Marker

section Frame

/-- The bytes after the first: only the last has its marker set. -/
inductive Trailing : Bytes → Prop where
  | last {byte : UInt8} (marked : Marked 8 byte) : Trailing [byte]
  | more {byte : UInt8} {rest : Bytes} (unmarked : ¬ Marked 8 byte) (trailing : Trailing rest) :
      Trailing (byte :: rest)

/-- The bytes of one integer: only the last has its marker set. -/
inductive Framed (bits : Nat) : Bytes → Prop where
  | single {first : UInt8} (marked : Marked bits first) : Framed bits [first]
  | trailed {first : UInt8} {rest : Bytes} (unmarked : ¬ Marked bits first)
      (trailing : Trailing rest) : Framed bits (first :: rest)

theorem Trailing.exists_length_eq_succ (trailing : Trailing rest) :
    ∃ count, rest.length = count + 1 := by
  cases trailing <;> exact ⟨_, rfl⟩

/-- The bits below the markers, byte by byte. -/
def digits (bits : Nat) : Bytes → List Nat
  | [] => []
  | first :: rest => first.toNat % 2 ^ (bits - 1) :: rest.map fun byte => byte.toNat % 128

/-- The number with these digits, most significant first. -/
def number (bits : Nat) (bytes : Bytes) : Nat :=
  Nat.ofDigits 128 (digits bits bytes).reverse

def extend (value : Nat) (byte : UInt8) : Nat :=
  value * 128 + byte.toNat % 128

theorem number_cons (bits : Nat) (first : UInt8) (rest : Bytes) :
    number bits (first :: rest) = rest.foldl extend (first.toNat % 2 ^ (bits - 1)) := by
  rw [number, Nat.ofDigits_eq_foldr, List.foldr_reverse, digits, List.foldl_cons, List.foldl_map]
  congr 1
  funext value byte
  rw [extend, Nat.mul_comm]
  exact Nat.add_comm _ _

theorem foldl_append (rest : Bytes) (value : Nat) :
    rest.foldl append value.toUInt64 = (rest.foldl extend value).toUInt64 := by
  induction rest generalizing value with
  | nil => rfl
  | cons byte rest inductionHypothesis =>
      rw [List.foldl_cons, List.foldl_cons, append_toUInt64]
      exact inductionHypothesis (extend value byte)

end Frame

section Finding

/-- The accessor gives these bytes from `offset` on. -/
def Found (byteAt : Nat → Option UInt8) (offset : Nat) (bytes : Bytes) : Prop :=
  ∀ index, index < bytes.length → byteAt (offset + index) = bytes[index]?

theorem Found.head (found : Found byteAt offset (byte :: rest)) : byteAt offset = some byte :=
  found 0 Nat.succ_pos'

theorem Found.tail (found : Found byteAt offset (byte :: rest)) :
    Found byteAt (offset + 1) rest := by
  intro index inside
  rw [Nat.add_assoc, Nat.add_comm 1]
  exact found (index + 1) (Nat.succ_lt_succ inside)

theorem found_nil (byteAt : Nat → Option UInt8) (offset : Nat) : Found byteAt offset [] :=
  fun _ inside => absurd inside (Nat.not_lt_zero _)

theorem Found.cons (fetched : byteAt offset = some byte)
    (found : Found byteAt (offset + 1) rest) : Found byteAt offset (byte :: rest) := by
  intro index inside
  cases index with
  | zero => exact fetched
  | succ index =>
      have later := found index (Nat.lt_of_succ_lt_succ inside)
      rwa [Nat.add_assoc, Nat.add_comm 1] at later

theorem found_iff_isPrefix :
    Found (fun position => bytes[position]?) offset encoded ↔ encoded <+: bytes.drop offset := by
  rw [List.prefix_iff_getElem?]
  simp only [Found, List.getElem?_drop]
  constructor
  · intro found index inside
    rw [found index inside, List.getElem?_eq_getElem inside]
  · intro stands index inside
    rw [stands index inside, List.getElem?_eq_getElem inside]

end Finding

section Reading

theorem exists_trailing_of_readGroups
    (found : Id.run (readGroups (fun position => pure (byteAt position)) limit value offset) =
      some (result, next)) :
    ∃ rest, Trailing rest ∧ Found byteAt offset rest ∧ rest.length ≤ limit ∧
      next = offset + rest.length ∧ result = rest.foldl append value := by
  induction limit generalizing value offset with
  | zero => cases found
  | succ limit inductionHypothesis =>
      cases fetched : byteAt offset with
      | none => simp [readGroups, fetched] at found
      | some byte =>
          simp only [readGroups, fetched, pure_bind] at found
          split at found
          next marked =>
            cases found
            exact ⟨[byte], .last (marked_eight_iff_le.mpr marked),
              (found_nil byteAt _).cons fetched, Nat.succ_le_succ (Nat.zero_le _), rfl, rfl⟩
          next unmarked =>
            obtain ⟨rest, trailing, held, few, rfl, rfl⟩ := inductionHypothesis found
            refine ⟨byte :: rest, .more (mt marked_eight_iff_le.mp unmarked) trailing,
              held.cons fetched, Nat.succ_le_succ few, ?_, rfl⟩
            rw [List.length_cons]
            omega

theorem readGroups_of_trailing (trailing : Trailing rest) (found : Found byteAt offset rest)
    (few : rest.length ≤ limit) :
    Id.run (readGroups (fun position => pure (byteAt position)) limit value offset) =
      some (rest.foldl append value, offset + rest.length) := by
  induction trailing generalizing limit value offset with
  | last marked =>
      obtain ⟨limit, rfl⟩ : ∃ less, limit = less + 1 := ⟨limit - 1, (Nat.sub_add_cancel few).symm⟩
      simp only [readGroups, found.head, pure_bind, if_pos (marked_eight_iff_le.mp marked)]
      rfl
  | @more byte rest unmarked trailing inductionHypothesis =>
      rw [List.length_cons] at few
      obtain ⟨limit, rfl⟩ : ∃ less, limit = less + 1 := ⟨limit - 1, by omega⟩
      simp only [readGroups, found.head, pure_bind,
        if_neg (mt marked_eight_iff_le.mpr unmarked)]
      rw [inductionHypothesis found.tail (Nat.le_of_succ_le_succ few), List.length_cons,
        List.foldl_cons]
      congr 2
      omega

theorem exists_trailing_of_followGroups
    (found : followGroups value offset bytes = some (result, next)) :
    ∃ rest, Trailing rest ∧ rest <+: bytes ∧ next = offset + rest.length ∧
      result = rest.foldl append value := by
  fun_induction followGroups value offset bytes with
  | case1 => contradiction
  | case2 value offset byte tail marked =>
      cases found
      exact ⟨[byte], .last (marked_eight_iff_le.mpr marked), List.prefix_append [byte] tail, rfl,
        rfl⟩
  | case3 value offset byte tail unmarked inductionHypothesis =>
      obtain ⟨rest, trailing, begins, rfl, rfl⟩ := inductionHypothesis found
      refine ⟨byte :: rest, .more (mt marked_eight_iff_le.mp unmarked) trailing,
        (List.prefix_cons_inj byte).mpr begins, ?_, rfl⟩
      rw [List.length_cons]
      omega

theorem single_digit (positive : 1 ≤ bits) (marked : Marked bits first) :
    first.toNat % 1 <<< bits - 1 <<< (bits - 1) = number bits [first] := by
  rw [number_cons, Nat.one_shiftLeft, Nat.one_shiftLeft, toNat_mod_two_pow positive, if_pos marked,
    Nat.add_sub_cancel]
  rfl

theorem leading_digit (positive : 1 ≤ bits) (unmarked : ¬ Marked bits first) :
    first.toNat % 1 <<< bits = first.toNat % 2 ^ (bits - 1) := by
  rw [Nat.one_shiftLeft, toNat_mod_two_pow positive, if_neg unmarked, Nat.add_zero]

theorem exists_framed_of_read?_eq_some (positive : 1 ≤ bits)
    (found : read? bits byteAt offset = some (value, next)) :
    ∃ encoded, Framed bits encoded ∧ Found byteAt offset encoded ∧ encoded.length ≤ maxLength ∧
      next = offset + encoded.length ∧ value = (number bits encoded).toUInt64 := by
  cases fetched : byteAt offset with
  | none => simp [read?, read, fetched] at found
  | some first =>
      simp only [read?, read, fetched, pure_bind, ← marked_iff_le positive] at found
      split at found
      next marked =>
        cases found
        exact ⟨[first], .single marked, (found_nil byteAt _).cons fetched,
          Nat.succ_le_succ (Nat.zero_le _), rfl, congrArg _ (single_digit positive marked)⟩
      next unmarked =>
        obtain ⟨rest, trailing, held, few, rfl, rfl⟩ := exists_trailing_of_readGroups found
        refine ⟨first :: rest, .trailed unmarked trailing, held.cons fetched,
          Nat.succ_le_succ few, ?_, ?_⟩
        · rw [List.length_cons]
          omega
        · rw [leading_digit positive unmarked, foldl_append, number_cons]

theorem Framed.read?_eq_some (framed : Framed bits encoded) (positive : 1 ≤ bits)
    (found : Found byteAt offset encoded) (short : encoded.length ≤ maxLength) :
    read? bits byteAt offset =
      some ((number bits encoded).toUInt64, offset + encoded.length) := by
  cases framed with
  | single marked =>
      simp only [read?, read, found.head, pure_bind, ← marked_iff_le positive, if_pos marked,
        single_digit positive marked]
      rfl
  | @trailed first rest unmarked trailing =>
      have few : rest.length ≤ maxLength - 1 := Nat.le_of_succ_le_succ short
      simp only [read?, read, found.head, pure_bind, ← marked_iff_le positive, if_neg unmarked,
        leading_digit positive unmarked]
      rw [readGroups_of_trailing trailing found.tail few, foldl_append, number_cons,
        List.length_cons]
      congr 2
      omega

theorem exists_framed_of_decodeUnlimited?_eq_some (positive : 1 ≤ bits)
    (found : decodeUnlimited? bits bytes offset = some (value, next)) :
    ∃ encoded, Framed bits encoded ∧ encoded <+: bytes.drop offset ∧
      next = offset + encoded.length ∧ value = (number bits encoded).toUInt64 := by
  rw [decodeUnlimited?] at found
  split at found
  next => contradiction
  next first tail stands =>
    simp only [← marked_iff_le positive] at found
    rw [stands]
    split at found
    next marked =>
      cases found
      exact ⟨[first], .single marked, List.prefix_append [first] tail, rfl,
        congrArg _ (single_digit positive marked)⟩
    next unmarked =>
      obtain ⟨rest, trailing, begins, rfl, rfl⟩ := exists_trailing_of_followGroups found
      refine ⟨first :: rest, .trailed unmarked trailing, (List.prefix_cons_inj first).mpr begins,
        ?_, ?_⟩
      · rw [List.length_cons]
        omega
      · rw [leading_digit positive unmarked, foldl_append, number_cons]

end Reading

section Ending

theorem exists_trailing_of_marked {index : Nat} (stands : bytes[index]? = some byte)
    (marked : Marked 8 byte) :
    ∃ rest, Trailing rest ∧ rest <+: bytes ∧ rest.length ≤ index + 1 := by
  induction bytes generalizing index with
  | nil => contradiction
  | cons head tail inductionHypothesis =>
      by_cases ends : Marked 8 head
      · exact ⟨[head], .last ends, List.prefix_append [head] tail, Nat.succ_le_succ (Nat.zero_le _)⟩
      · cases index with
        | zero =>
            cases stands
            contradiction
        | succ index =>
            obtain ⟨rest, trailing, begins, few⟩ := inductionHypothesis stands
            exact ⟨head :: rest, .more ends trailing, (List.prefix_cons_inj head).mpr begins,
              Nat.succ_le_succ few⟩

theorem exists_framed_of_marked {index : Nat} (stands : bytes[index]? = some byte)
    (marked : Marked (widthAt bits index) byte) :
    ∃ encoded, Framed bits encoded ∧ encoded <+: bytes ∧ encoded.length ≤ index + 1 := by
  cases bytes with
  | nil => contradiction
  | cons head tail =>
      by_cases ends : Marked bits head
      · exact ⟨[head], .single ends, List.prefix_append [head] tail,
          Nat.succ_le_succ (Nat.zero_le _)⟩
      · cases index with
        | zero =>
            cases stands
            contradiction
        | succ index =>
            have later : tail[index]? = some byte := stands
            obtain ⟨rest, trailing, begins, few⟩ := exists_trailing_of_marked later marked
            exact ⟨head :: rest, .trailed ends trailing, (List.prefix_cons_inj head).mpr begins,
              Nat.succ_le_succ few⟩

theorem Trailing.exists_marked (trailing : Trailing rest) :
    ∃ index byte, index + 1 = rest.length ∧ rest[index]? = some byte ∧ Marked 8 byte := by
  induction trailing with
  | @last byte marked => exact ⟨0, byte, rfl, rfl, marked⟩
  | more unmarked trailing inductionHypothesis =>
      obtain ⟨index, byte, last, stands, marked⟩ := inductionHypothesis
      exact ⟨index + 1, byte, congrArg _ last, stands, marked⟩

theorem Framed.exists_marked (framed : Framed bits encoded) :
    ∃ index byte, index + 1 = encoded.length ∧ encoded[index]? = some byte ∧
      Marked (widthAt bits index) byte := by
  cases framed with
  | @single first marked => exact ⟨0, first, rfl, rfl, marked⟩
  | trailed unmarked trailing =>
      obtain ⟨index, byte, last, stands, marked⟩ := trailing.exists_marked
      exact ⟨index + 1, byte, congrArg _ last, stands, marked⟩

end Ending

section Asking

/-- Of the `limit` bytes from `offset` on, whoever looks for a marker asks for `count`: for each one
behind a byte that is there and not marked, and for no other. -/
structure Asks (width : Nat → Nat) (byteAt : Nat → Option UInt8) (offset limit count : Nat) :
    Prop where
  le_limit : count ≤ limit
  positive : 0 < limit → 0 < count
  passed : ∀ index, index + 1 < count →
    ∃ byte, byteAt (offset + index) = some byte ∧ ¬ Marked (width index) byte
  stopped : ∀ index, index + 1 = count → count < limit →
    ∀ byte, byteAt (offset + index) = some byte → Marked (width index) byte

variable {width : Nat → Nat}

theorem asks_one (stops : ∀ byte, byteAt offset = some byte → Marked (width 0) byte) (limit : Nat) :
    Asks width byteAt offset (limit + 1) 1 where
  le_limit := Nat.succ_le_succ (Nat.zero_le _)
  positive _ := Nat.one_pos
  passed index more := by omega
  stopped index last _ := by
    obtain rfl : index = 0 := by omega
    exact stops

theorem Asks.succ (asks : Asks (fun index => width (index + 1)) byteAt (offset + 1) limit count)
    (fetched : byteAt offset = some byte) (unmarked : ¬ Marked (width 0) byte) :
    Asks width byteAt offset (limit + 1) (count + 1) where
  le_limit := Nat.succ_le_succ asks.le_limit
  positive _ := Nat.succ_pos _
  passed index more := by
    cases index with
    | zero => exact ⟨byte, fetched, unmarked⟩
    | succ index =>
        have later := asks.passed index (Nat.lt_of_succ_lt_succ more)
        rwa [Nat.add_assoc, Nat.add_comm 1] at later
  stopped index last short := by
    cases index with
    | zero =>
        have asked := asks.positive (by omega)
        omega
    | succ index =>
        have later := asks.stopped index (Nat.succ.inj last) (Nat.lt_of_succ_lt_succ short)
        rwa [Nat.add_assoc, Nat.add_comm 1] at later

/-- An accessor that keeps a list of the offsets it is asked for. -/
def logged (byteAt : Nat → Option UInt8) (position : Nat) : StateM (List Nat) (Option UInt8) := do
  modify fun asked => asked ++ [position]
  pure (byteAt position)

theorem run_logged_bind {α : Type} (byteAt : Nat → Option UInt8) (position : Nat)
    (next : Option UInt8 → StateM (List Nat) α) (asked : List Nat) :
    (logged byteAt position >>= next).run asked =
      (next (byteAt position)).run (asked ++ [position]) :=
  rfl

theorem exists_asks_readGroups (byteAt : Nat → Option UInt8) (limit : Nat) (value : UInt64)
    (offset : Nat) (asked : List Nat) :
    ∃ count, Asks (fun _ => 8) byteAt offset limit count ∧
      ((readGroups (logged byteAt) limit value offset).run asked).2 =
        asked ++ List.range' offset count := by
  induction limit generalizing value offset asked with
  | zero =>
      exact ⟨0, ⟨Nat.le_refl _, id, by omega, by omega⟩, (List.append_nil asked).symm⟩
  | succ limit inductionHypothesis =>
      rw [readGroups, run_logged_bind]
      cases fetched : byteAt offset with
      | none => exact ⟨1, asks_one (by simp [fetched]) limit, rfl⟩
      | some byte =>
          dsimp only
          split
          next marked =>
            rw [← marked_eight_iff_le] at marked
            exact ⟨1, asks_one (by simpa [fetched] using marked) limit, rfl⟩
          next unmarked =>
            rw [← marked_eight_iff_le] at unmarked
            obtain ⟨count, asks, done⟩ :=
              inductionHypothesis (append value byte) (offset + 1) (asked ++ [offset])
            refine ⟨count + 1, asks.succ fetched unmarked, ?_⟩
            rw [done, List.append_assoc, List.range'_succ]
            rfl

theorem exists_asks (positive : 1 ≤ bits) (byteAt : Nat → Option UInt8) (offset : Nat) :
    ∃ count, Asks (widthAt bits) byteAt offset maxLength count ∧
      probes bits byteAt offset = List.range' offset count := by
  have asked : probes bits byteAt offset = ((read bits (logged byteAt) offset).run []).2 := rfl
  rw [asked, read, run_logged_bind, List.nil_append]
  cases fetched : byteAt offset with
  | none => exact ⟨1, asks_one (by simp [fetched]) 10, rfl⟩
  | some byte =>
      simp only [← marked_iff_le positive]
      split
      next marked => exact ⟨1, asks_one (by simpa [fetched, widthAt] using marked) 10, rfl⟩
      next unmarked =>
        obtain ⟨count, asks, done⟩ := exists_asks_readGroups byteAt (maxLength - 1)
          (byte.toNat % 1 <<< bits).toUInt64 (offset + 1) [offset]
        refine ⟨count + 1, asks.succ fetched unmarked, ?_⟩
        rw [done, List.range'_succ]
        rfl

end Asking

/-- A reader asks for one byte after the other, up to the first that is marked or missing, and never
for more than `maxLength`. In a byte string it finds an integer just if one of these bytes is there
and marked. The integer is then the number written in the bytes up to the marker, modulo `2 ^ 64`,
and the reader without a limit gives the same; conversely, what that one gives is found within the
limit unless it takes more bytes. -/
theorem decode?_agrees_decodeUnlimited? (positive : 1 ≤ bits) (bytes : Bytes) (offset : Nat) :
    (∀ byteAt, ∃ count, probes bits byteAt offset = List.range' offset count ∧
      Asks (widthAt bits) byteAt offset maxLength count) ∧
    ((∃ value next, decode? bits bytes offset = some (value, next)) ↔
      ∃ index byte, index < maxLength ∧ bytes[offset + index]? = some byte ∧
        Marked (widthAt bits index) byte) ∧
    (∀ value next, decode? bits bytes offset = some (value, next) →
      decodeUnlimited? bits bytes offset = some (value, next) ∧
        ∃ encoded, Framed bits encoded ∧ encoded <+: bytes.drop offset ∧
          next = offset + encoded.length ∧ value = (number bits encoded).toUInt64) ∧
    ∀ value next, decodeUnlimited? bits bytes offset = some (value, next) →
      next - offset ≤ maxLength → decode? bits bytes offset = some (value, next) := by
  refine ⟨?_, ⟨?_, ?_⟩, ?_, ?_⟩
  · intro byteAt
    obtain ⟨count, asks, asked⟩ := exists_asks positive byteAt offset
    exact ⟨count, asked, asks⟩
  · rintro ⟨value, next, decoded⟩
    obtain ⟨encoded, framed, found, short, -⟩ := exists_framed_of_read?_eq_some positive decoded
    obtain ⟨index, byte, last, stands, marked⟩ := framed.exists_marked
    refine ⟨index, byte, by omega, ?_, marked⟩
    rw [← stands]
    exact found index (by omega)
  · rintro ⟨index, byte, early, stands, marked⟩
    rw [← List.getElem?_drop] at stands
    obtain ⟨encoded, framed, begins, short⟩ := exists_framed_of_marked stands marked
    exact ⟨_, _, framed.read?_eq_some positive (found_iff_isPrefix.mpr begins)
      (Nat.le_trans short early)⟩
  · intro value next decoded
    obtain ⟨encoded, framed, found, -, stop, denoted⟩ :=
      exists_framed_of_read?_eq_some positive decoded
    exact ⟨decodeUnlimited?_of_decode?_eq_some decoded, encoded, framed,
      found_iff_isPrefix.mp found, stop, denoted⟩
  · intro value next decoded short
    obtain ⟨encoded, framed, begins, rfl, rfl⟩ :=
      exists_framed_of_decodeUnlimited?_eq_some positive decoded
    rw [Nat.add_sub_cancel_left] at short
    exact framed.read?_eq_some positive (found_iff_isPrefix.mpr begins) short

/-- Seventy bits set, in as many bytes as a reader takes. -/
def overflowing : Bytes :=
  0xFE :: List.replicate 9 0x7F ++ [0xFF]

theorem decode?_agrees_decodeUnlimited?_overflowing :
    1 ≤ 1 ∧ decodeUnlimited? 1 overflowing 0 = some (18446744073709551615, 11) ∧
      decode? 1 overflowing 0 = some (18446744073709551615, 11) ∧
      ∃ encoded, Framed 1 encoded ∧ encoded <+: overflowing ∧ 11 = encoded.length ∧
        18446744073709551615 = (number 1 encoded).toUInt64 := by
  have unlimited : decodeUnlimited? 1 overflowing 0 = some (18446744073709551615, 11) := by decide
  obtain ⟨-, -, denoted, limited⟩ :=
    decode?_agrees_decodeUnlimited? (Nat.le_refl 1) overflowing 0
  have decoded := limited _ _ unlimited (by decide)
  obtain ⟨-, encoded, framed, begins, stop, value⟩ := denoted _ _ decoded
  rw [Nat.zero_add] at stop
  exact ⟨Nat.le_refl 1, unlimited, decoded, encoded, framed, begins, stop, value⟩

end PackedTrie.VarInt
