import PackedTrie.Error
import PackedTrie.Payload
import PackedTrie.VarInt.Decode
import PackedTrie.Node.Basic

/-!
Reading single fields of serialized nodes at given offsets. Nothing is assumed of the bytes: every
read checks what it relies on, and reports the contradiction otherwise.

The *tail* of a node is its last part: the suffix of a leaf, or the children block of a branch. It
ends where the node ends, so `skip`, which looks only for the tail, moves past a node without
going into it.
-/

namespace PackedTrie.Cursor

variable {α : Type} [Payload α] {τ : ValueType}

def byteAt (payload : α) (offset : Nat) : Except Corruption UInt8 :=
  match Payload.byte? payload offset with
  | some byte => .ok byte
  | none => .error (.nodeOutside offset)

def kindAt (payload : α) (offset : Nat) : Except Corruption NodeKind :=
  match byteAt payload offset with
  | .ok byte => .ok (.ofLead byte)
  | .error fault => .error fault

/-- The integer at `offset`, and the offset after it. -/
def integerAt (payload : α) (bits offset : Nat) : Except Corruption (UInt64 × Nat) :=
  match VarInt.read? bits (Payload.byte? payload) offset with
  | some found => .ok found
  | none => .error (.brokenInteger offset)

def valueAt (τ : ValueType) (payload : α) (head : UInt64) (offset : Nat) :
    Except Corruption τ.Value :=
  match τ.readValue? (Payload.region? payload) head offset with
  | some value => .ok value
  | none => .error (.valueOutside offset)

def regionAt (payload : α) (offset length : Nat) : Except Corruption Bytes :=
  match Payload.region? payload offset length with
  | some region => .ok region
  | none => .error (.regionOutside length offset)

/-- The offset `length` bytes further on, which may be the end of the payload but not beyond. -/
def advance (payload : α) (offset length : Nat) : Except Corruption Nat :=
  if offset + length ≤ Payload.size payload then .ok (offset + length)
  else .error (.lengthOutside length offset)

def afterValue (τ : ValueType) (payload : α) (offset : Nat) : Except Corruption Nat := do
  let (head, next) ← integerAt payload Node.leadBits offset
  advance payload next (τ.payloadLength head)

def leadValue (τ : ValueType) (payload : α) (offset : Nat) : Except Corruption τ.Value := do
  let (head, next) ← integerAt payload Node.leadBits offset
  valueAt τ payload head next

def suffixLeafAt (τ : ValueType) (payload : α) (offset : Nat) :
    Except Corruption (τ.Value × Bytes × Nat) := do
  let value ← leadValue τ payload offset
  let next ← afterValue τ payload offset
  let (length, next) ← integerAt payload 8 next
  let suffix ← regionAt payload next length.toNat
  pure (value, suffix, next + length.toNat)

def blockAt (payload : α) (bits offset : Nat) : Except Corruption (Nat × Nat) := do
  let (length, start) ← integerAt payload bits offset
  let stop ← advance payload start length.toNat
  pure (start, stop)

/-- Where the tail of the node at `offset` starts and where it ends; that of a plain leaf is
empty. -/
def tailAt (τ : ValueType) (payload : α) (offset : Nat) : Except Corruption (Nat × Nat) := do
  match ← kindAt payload offset with
  | .leaf =>
      let stop ← afterValue τ payload offset
      pure (stop, stop)
  | .branch => blockAt payload Node.leadBits offset
  | .suffixLeaf | .valueBranch => blockAt payload 8 (← afterValue τ payload offset)

def skip (τ : ValueType) (payload : α) (offset : Nat) : Except Corruption Nat := do
  let (_, stop) ← tailAt τ payload offset
  pure stop

theorem lt_of_integerAt_eq_ok {payload : α} {bits offset next : Nat} {value : UInt64}
    (found : integerAt payload bits offset = .ok (value, next)) : offset < next := by
  unfold integerAt at found
  split at found
  · cases found
    exact VarInt.lt_of_read?_eq_some ‹_›
  · contradiction

theorem advance_eq_ok_iff {payload : α} {offset length stop : Nat} :
    advance payload offset length = .ok stop ↔
      stop = offset + length ∧ stop ≤ Payload.size payload := by
  unfold advance
  split
  · simp only [Except.ok.injEq]
    omega
  · simp only [reduceCtorEq, false_iff]
    omega

theorem regionAt_eq_ok {payload : α} {offset length : Nat} {region : Bytes}
    (found : regionAt payload offset length = .ok region) :
    offset + length ≤ Payload.size payload := by
  unfold regionAt at found
  split at found
  · exact (Payload.le_size_of_region?_eq_some ‹_›).1
  · contradiction

theorem lt_of_afterValue_eq_ok {payload : α} {offset next : Nat}
    (found : afterValue τ payload offset = .ok next) :
    offset < next ∧ next ≤ Payload.size payload := by
  simp only [afterValue, bind, Except.bind] at found
  split at found
  · contradiction
  · rename_i integer
    have forward := lt_of_integerAt_eq_ok integer
    have bounded := advance_eq_ok_iff.mp found
    omega

theorem lt_of_suffixLeafAt_eq_ok {payload : α} {offset stop : Nat} {value : τ.Value}
    {suffix : Bytes} (found : suffixLeafAt τ payload offset = .ok (value, suffix, stop)) :
    offset < stop ∧ stop ≤ Payload.size payload := by
  simp only [suffixLeafAt, bind, Except.bind, pure, Except.pure] at found
  split at found
  · contradiction
  · split at found
    · contradiction
    · rename_i afterward
      split at found
      · contradiction
      · rename_i integer
        split at found
        · contradiction
        · rename_i region
          cases found
          have past := lt_of_afterValue_eq_ok afterward
          have forward := lt_of_integerAt_eq_ok integer
          have bounded := regionAt_eq_ok region
          omega

theorem lt_of_blockAt_eq_ok {payload : α} {bits offset start stop : Nat}
    (found : blockAt payload bits offset = .ok (start, stop)) :
    offset < start ∧ start ≤ stop ∧ stop ≤ Payload.size payload := by
  simp only [blockAt, bind, Except.bind, pure, Except.pure] at found
  split at found
  · contradiction
  · rename_i integer
    split at found
    · contradiction
    · rename_i advanced
      cases found
      have forward := lt_of_integerAt_eq_ok integer
      have bounded := advance_eq_ok_iff.mp advanced
      omega

theorem lt_of_tailAt_eq_ok {payload : α} {offset start stop : Nat}
    (found : tailAt τ payload offset = .ok (start, stop)) :
    offset < start ∧ start ≤ stop ∧ stop ≤ Payload.size payload := by
  have valued : ∀ {next : Nat}, afterValue τ payload offset = .ok next →
      blockAt payload 8 next = .ok (start, stop) →
      offset < start ∧ start ≤ stop ∧ stop ≤ Payload.size payload := by
    intro next afterward block
    have past := lt_of_afterValue_eq_ok afterward
    have inside := lt_of_blockAt_eq_ok block
    omega
  simp only [tailAt, bind, Except.bind, pure, Except.pure] at found
  split at found
  · contradiction
  · split at found
    · split at found
      · contradiction
      · rename_i afterward
        cases found
        have past := lt_of_afterValue_eq_ok afterward
        omega
    · exact lt_of_blockAt_eq_ok found
    · split at found
      · contradiction
      · exact valued ‹_› found
    · split at found
      · contradiction
      · exact valued ‹_› found

theorem lt_of_skip_eq_ok {payload : α} {offset stop : Nat}
    (found : skip τ payload offset = .ok stop) :
    offset < stop ∧ stop ≤ Payload.size payload := by
  simp only [skip, bind, Except.bind, pure, Except.pure] at found
  split at found
  · contradiction
  · rename_i tail
    cases found
    have inside := lt_of_tailAt_eq_ok tail
    omega

end PackedTrie.Cursor
