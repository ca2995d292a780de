import Mathlib
import PackedTrie.Lookup.Machine
import PackedTrie.Proofs.Lookup.Traversal
import PackedTrie.Proofs.VarInt.Fetching

/-!
Single reads in machine words. Whatever the bytes are, a byte that is there has an offset below the
payload's size, and this leaves room for the few sums that no comparison guards; all other sums are
compared with the size. So every read gives what it gives without bounds on numbers.
-/

namespace PackedTrie

open Payload

namespace Cursor

variable {α : Type} [Payload α] {τ : ValueType} {payload : α} {offset : Nat}

theorem lt_size_of_byte?_eq_some {byte : UInt8} (found : byte? payload offset = some byte) :
    offset < size payload := by
  rw [byte?_eq] at found
  rw [size_eq]
  exact (List.getElem?_eq_some_iff.mp found).1

theorem lt_size_of_byteAt_eq_ok {byte : UInt8} (fetched : byteAt payload offset = .ok byte) :
    offset < size payload := by
  unfold byteAt at fetched
  split at fetched
  · exact lt_size_of_byte?_eq_some ‹_›
  · contradiction

theorem kindAt_of_byteAt_eq_ok {byte : UInt8} (fetched : byteAt payload offset = .ok byte) :
    kindAt payload offset = .ok (.ofLead byte) := by
  simp [kindAt, fetched]

theorem kindAt_of_byteAt_eq_error {fault : Corruption}
    (fetched : byteAt payload offset = .error fault) :
    kindAt payload offset = .error fault := by
  simp [kindAt, fetched]

theorem le_size_of_integerAt_eq_ok {bits next : Nat} {value : UInt64}
    (found : integerAt payload bits offset = .ok (value, next)) : next ≤ size payload := by
  unfold integerAt at found
  split at found
  · cases found
    obtain ⟨last, byte, rfl, fetched⟩ := VarInt.exists_of_read?_eq_some ‹_›
    exact lt_size_of_byte?_eq_some fetched
  · contradiction

/-- The integer in front of the value of a suffix leaf is read twice, with one result. -/
theorem suffixLeafAt_eq (offset : Nat) : suffixLeafAt τ payload offset = (do
    let (head, next) ← integerAt payload Node.leadBits offset
    let value ← valueAt τ payload head next
    let next ← advance payload next (τ.payloadLength head)
    let (length, next) ← integerAt payload 8 next
    let suffix ← regionAt payload next length.toNat
    pure (value, suffix, next + length.toNat)) := by
  unfold suffixLeafAt leadValue afterValue
  cases integerAt payload Node.leadBits offset <;> rfl

end Cursor

namespace Machine

variable {α : Type} [Payload α] {width : Nat} {τ : ValueType} {payload : α}

/-- A machine can hold the payload: words have at least 16 bits, and no object takes up more than
half of the addresses. -/
structure Addressable (width : Nat) (payload : α) : Prop where
  wide : 16 ≤ width
  short : size payload < 2 ^ (width - 1)

section Lift

variable {β γ ε : Type}

/-- What a machine gives that halts only over a contradiction in the payload. -/
def lift (result : Except Corruption β) : Except Halt β :=
  result.mapError .corruption

@[simp] theorem lift_ok (result : β) : lift (.ok result) = .ok result := rfl

@[simp] theorem lift_error (fault : Corruption) :
    lift (.error fault : Except Corruption β) = .error (.corruption fault) := rfl

@[simp] theorem lift_pure (result : β) : lift (pure result) = pure result := rfl

theorem lift_bind (first : Except Corruption β) (second : β → Except Corruption γ) :
    lift (first >>= second) = lift first >>= fun result => lift (second result) := by
  cases first <;> rfl

theorem lift_map (change : β → γ) (result : Except Corruption β) :
    lift (change <$> result) = change <$> lift result := by
  cases result <;> rfl

theorem lift_bind_congr {first : Except Corruption β} {second third : β → Except Halt γ}
    (same : ∀ result, first = .ok result → second result = third result) :
    lift first >>= second = lift first >>= third := by
  cases first with
  | error fault => rfl
  | ok result => exact same result rfl

theorem lift_eq_ok_iff {first : Except Corruption β} {result : β} :
    lift first = .ok result ↔ first = .ok result := by
  cases first <;> simp

theorem ok_bind (result : β) (next : β → Except ε γ) :
    (Except.ok result >>= next) = next result := rfl

theorem error_bind (fault : ε) (next : β → Except ε γ) :
    (Except.error fault >>= next) = Except.error fault := rfl

end Lift

section Words

theorem Addressable.add_eq_ok (fits : Addressable width payload) {left right : Nat}
    (near : left + right ≤ size payload + VarInt.maxLength) :
    add width left right = .ok (left + right) := by
  obtain ⟨wide, short⟩ := fits
  obtain ⟨more, rfl⟩ := Nat.exists_eq_add_of_le wide
  have half : 2 ^ (16 + more) = 2 * 2 ^ (16 + more - 1) := by
    rw [← pow_succ']
    congr 1
    omega
  have room : 2 ^ 15 ≤ 2 ^ (16 + more - 1) := Nat.pow_le_pow_right (by decide) (by omega)
  unfold add VarInt.maxLength at *
  rw [if_pos (by omega)]

theorem Addressable.succ_eq_ok (fits : Addressable width payload) {offset : Nat}
    (inside : offset < size payload) : add width offset 1 = .ok (offset + 1) := by
  apply fits.add_eq_ok
  unfold VarInt.maxLength
  omega

theorem Addressable.lt (fits : Addressable width payload) {length : Nat}
    (bounded : length ≤ size payload) : length < 2 ^ width := by
  have added : add width length 0 = .ok (length + 0) := fits.add_eq_ok (by omega)
  unfold add at added
  split at added
  · assumption
  · contradiction

end Words

section Reads

theorem byteAt_eq (offset : Nat) : byteAt payload offset = lift (Cursor.byteAt payload offset) := by
  unfold byteAt Cursor.byteAt
  cases byte? payload offset <;> rfl

theorem region?_eq (fits : Addressable width payload) :
    region? width payload = Payload.region? payload := by
  funext offset length
  unfold region?
  split
  · rfl
  · rename_i long
    rw [Payload.region?_eq, if_neg]
    intro inside
    rw [← size_eq] at inside
    exact long (fits.lt (by omega))

theorem regionAt_eq (fits : Addressable width payload) (offset length : Nat) :
    regionAt width payload offset length = lift (Cursor.regionAt payload offset length) := by
  unfold regionAt Cursor.regionAt
  rw [region?_eq fits]
  cases Payload.region? payload offset length <;> rfl

theorem valueAt_eq (fits : Addressable width payload) (head : UInt64) (offset : Nat) :
    valueAt width τ payload head offset = lift (Cursor.valueAt τ payload head offset) := by
  unfold valueAt Cursor.valueAt
  rw [region?_eq fits]
  cases τ.readValue? (Payload.region? payload) head offset <;> rfl

theorem advance_eq (fits : Addressable width payload) (offset length : Nat) :
    advance width payload offset length = lift (Cursor.advance payload offset length) := by
  unfold advance Cursor.advance
  by_cases inside : offset + length ≤ size payload
  · have short : length < 2 ^ width := fits.lt (by omega)
    rw [if_pos ⟨short, fits.lt inside, inside⟩, if_pos inside]
    rfl
  · rw [if_neg (fun bounds => inside bounds.2.2), if_neg inside]
    rfl

theorem groupsAt_eq (fits : Addressable width payload) (value : UInt64) (offset count : Nat) :
    groupsAt width payload value offset (offset + count) =
      .ok (Id.run (VarInt.readGroups (fun position => pure (byte? payload position)) count value
        offset)) := by
  induction count generalizing value offset with
  | zero =>
      rw [groupsAt, if_neg (by omega)]
      rfl
  | succ count inductionHypothesis =>
      rw [groupsAt, if_pos (by omega)]
      cases fetched : byte? payload offset with
      | none => simp [VarInt.readGroups, fetched]
      | some byte =>
          have added := fits.succ_eq_ok (Cursor.lt_size_of_byte?_eq_some fetched)
          have later := inductionHypothesis (VarInt.append value byte) (offset + 1)
          have limit : offset + (count + 1) = offset + 1 + count := by omega
          simp only [VarInt.readGroups, fetched, pure_bind, limit]
          split
          · rename_i failed
            rw [added] at failed
            contradiction
          · rename_i next moved
            rw [added] at moved
            cases moved
            split
            · rfl
            · exact later

/-- Only after its first byte was read does an integer have a limit, which then is a word. -/
theorem integer?_eq (fits : Addressable width payload) (bits offset : Nat) :
    integer? width payload bits offset = .ok (VarInt.read? bits (byte? payload) offset) := by
  unfold integer?
  cases fetched : byte? payload offset with
  | none =>
      have missing : VarInt.read? bits (byte? payload) offset = none := by
        simp [VarInt.read?, VarInt.read, fetched]
      rw [missing]
      rfl
  | some byte =>
      have inside := Cursor.lt_size_of_byte?_eq_some fetched
      have limit : add width offset VarInt.maxLength = .ok (offset + 1 + (VarInt.maxLength - 1)) :=
        fits.add_eq_ok (by omega)
      simp only [fits.succ_eq_ok inside, limit, groupsAt_eq fits, VarInt.read?, VarInt.read,
        fetched, bind, Except.bind, pure, Except.pure]
      split <;> rfl

theorem integerAt_eq (fits : Addressable width payload) (bits offset : Nat) :
    integerAt width payload bits offset = lift (Cursor.integerAt payload bits offset) := by
  unfold integerAt Cursor.integerAt
  rw [integer?_eq fits]
  cases VarInt.read? bits (byte? payload) offset <;> rfl

theorem blockAt_eq (fits : Addressable width payload) (bits offset : Nat) :
    blockAt width payload bits offset = lift (Cursor.blockAt payload bits offset) := by
  unfold blockAt Cursor.blockAt
  simp only [integerAt_eq fits, advance_eq fits, lift_bind]
  rfl

theorem skip_eq (fits : Addressable width payload) (offset : Nat) :
    skip width τ payload offset = lift (Cursor.skip τ payload offset) := by
  unfold skip Cursor.skip Cursor.tailAt Cursor.afterValue Cursor.blockAt
  simp only [byteAt_eq, integerAt_eq fits, advance_eq fits]
  cases fetched : Cursor.byteAt payload offset with
  | error fault => simp [Cursor.kindAt_of_byteAt_eq_error fetched, error_bind]
  | ok byte =>
      simp only [Cursor.kindAt_of_byteAt_eq_ok fetched, lift_ok, ok_bind]
      cases NodeKind.ofLead byte <;> simp [lift_bind]

end Reads

end Machine

end PackedTrie
