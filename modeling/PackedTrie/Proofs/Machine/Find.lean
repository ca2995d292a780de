import PackedTrie.Proofs.Machine.Reads

/-!
The search in machine words. It moves on by at least one byte of the payload in each step, which
bounds the number of steps, and by at most as many bytes of the key, so the position in the key
stays a word; and it reads the key only where the key goes on.
-/

namespace PackedTrie.Machine

open Payload

variable {α : Type} [Payload α] {width : Nat} {τ : ValueType} {payload : α}

section Find

variable {key rest : Bytes} {wanted : UInt8} {fuel offset stop position : Nat}

theorem findBelow_eq (wanted : UInt8) (rest : Bytes) (offset stop : Nat) :
    Trie.findBelow τ payload wanted rest offset stop =
      if offset < stop then do
        let byte ← Cursor.byteAt payload offset
        if byte = wanted then Trie.findFrom τ payload rest (offset + 1)
        else
          let next ← Cursor.skip τ payload (offset + 1)
          Trie.findBelow τ payload wanted rest next stop
      else if offset = stop then pure none
      else .error (.childOverrun offset stop) := by
  unfold Trie.findBelow
  rw [Trie.scan]
  split
  · cases Cursor.byteAt payload offset with
    | error fault => rfl
    | ok byte =>
        simp only [ok_bind]
        split
        · rfl
        · split
          · rename_i failed
            rw [failed]
            rfl
          · rename_i skipped
            rw [skipped]
            rfl
  · split <;> rfl

theorem keyByte_of_drop (remaining : key.drop position = wanted :: rest) :
    keyByte key position = .ok wanted := by
  have first := congrArg List.head? remaining
  rw [List.head?_drop, List.head?_cons] at first
  rw [keyByte, first]

theorem findFrom_cons_of_tail {kind : NodeKind} (found : Cursor.kindAt payload offset = .ok kind)
    (branching : kind = .branch ∨ kind = .valueBranch) :
    Trie.findFrom τ payload (wanted :: rest) offset =
      Cursor.tailAt τ payload offset >>= fun block =>
        Trie.findBelow τ payload wanted rest block.1 block.2 := by
  rcases branching with rfl | rfl <;> simp only [Trie.findFrom, found, ok_bind] <;> rfl

/-- A search that is right about the children blocks it comes to is right about the node. -/
theorem findNode_eq_of_block (fits : Addressable width payload)
    (below : ∀ start stop wanted rest, key.drop position = wanted :: rest → offset < start →
      start ≤ stop → stop ≤ size payload →
      findBlock width τ payload key fuel wanted start stop position =
        lift (Trie.findBelow τ payload wanted rest start stop))
    (remaining : key.drop position = rest) (within : position ≤ key.length) :
    findNode width τ payload key (fuel + 1) offset position =
      lift (Trie.findFrom τ payload rest offset) := by
  have ended : position = key.length ↔ rest = [] := by
    rw [← remaining, List.drop_eq_nil_iff]
    omega
  have left : keyRest key position = .ok rest := by
    rw [keyRest, if_pos within, remaining]
  rw [findNode]
  simp only [byteAt_eq, integerAt_eq fits, valueAt_eq fits, advance_eq fits, regionAt_eq fits,
    blockAt_eq fits, left, ended]
  cases fetched : Cursor.byteAt payload offset with
  | error fault =>
      have kind := Cursor.kindAt_of_byteAt_eq_error fetched
      cases rest <;> simp only [Trie.findFrom, kind] <;> rfl
  | ok byte =>
      have kind := Cursor.kindAt_of_byteAt_eq_ok fetched
      simp only [lift_ok, ok_bind]
      cases kindFound : NodeKind.ofLead byte with
      | leaf =>
          cases rest <;> simp [Trie.findFrom, kind, kindFound, Cursor.leadValue, lift_bind,
            lift_map, ok_bind]
      | suffixLeaf =>
          have found : Trie.findFrom τ payload rest offset =
              Trie.findSuffix τ payload rest offset := by
            cases rest <;> simp only [Trie.findFrom, kind, kindFound] <;> rfl
          rw [found, Trie.findSuffix, Cursor.suffixLeafAt_eq]
          simp [lift_bind, lift_map]
      | branch =>
          rcases rest with _ | ⟨wanted, rest⟩
          · simp [Trie.findFrom, kind, kindFound, ok_bind]
          · rw [findFrom_cons_of_tail kind (.inl kindFound), lift_bind]
            simp only [Cursor.tailAt, kind, kindFound, keyByte_of_drop remaining, ok_bind]
            apply lift_bind_congr
            intro block bounds
            have inside := Cursor.lt_of_blockAt_eq_ok bounds
            exact below _ _ wanted rest remaining inside.1 inside.2.1 inside.2.2
      | valueBranch =>
          rcases rest with _ | ⟨wanted, rest⟩
          · simp [Trie.findFrom, kind, kindFound, Cursor.leadValue, lift_bind, lift_map, ok_bind]
          · rw [findFrom_cons_of_tail kind (.inr kindFound), lift_bind]
            simp only [Cursor.tailAt, Cursor.afterValue, kind, kindFound,
              keyByte_of_drop remaining, ok_bind, lift_bind, bind_assoc]
            apply lift_bind_congr
            intro integer found
            have forward := Cursor.lt_of_integerAt_eq_ok found
            apply lift_bind_congr
            intro past advanced
            have later := Cursor.advance_eq_ok_iff.mp advanced
            apply lift_bind_congr
            intro block bounds
            have inside := Cursor.lt_of_blockAt_eq_ok bounds
            exact below _ _ wanted rest remaining (by omega) inside.2.1 inside.2.2

theorem findBlock_eq_of_node (fits : Addressable width payload)
    (child : ∀ start, offset < start → start ≤ size payload →
      key.drop (position + 1) = rest →
      findNode width τ payload key fuel start (position + 1) =
        lift (Trie.findFrom τ payload rest start))
    (others : ∀ next, offset < next → next ≤ size payload →
      findBlock width τ payload key fuel wanted next stop position =
        lift (Trie.findBelow τ payload wanted rest next stop))
    (remaining : key.drop position = wanted :: rest) (earlier : position ≤ offset) :
    findBlock width τ payload key (fuel + 1) wanted offset stop position =
      lift (Trie.findBelow τ payload wanted rest offset stop) := by
  rw [findBelow_eq, findBlock]
  split
  · rw [byteAt_eq]
    cases fetched : Cursor.byteAt payload offset with
    | error fault => rfl
    | ok byte =>
        have inside := Cursor.lt_size_of_byteAt_eq_ok fetched
        have deeper := fits.succ_eq_ok (Nat.lt_of_le_of_lt earlier inside)
        simp only [lift_ok, ok_bind, fits.succ_eq_ok inside, deeper, skip_eq fits]
        split
        · apply child (offset + 1) (by omega) (by omega)
          rw [← List.tail_drop, remaining, List.tail_cons]
        · cases skipped : Cursor.skip τ payload (offset + 1) with
          | error fault => rfl
          | ok past =>
              have forward := Cursor.lt_of_skip_eq_ok skipped
              exact others past (by omega) (by omega)
  · split <;> rfl

/-- Each step of the search moves on in the payload, so the step limit is not met. -/
theorem findNode_eq (fits : Addressable width payload) (key : Bytes) (fuel : Nat) :
    (∀ offset position rest, key.drop position = rest → position ≤ key.length →
      position ≤ offset → offset ≤ size payload → size payload < fuel + offset →
        findNode width τ payload key fuel offset position =
          lift (Trie.findFrom τ payload rest offset)) ∧
      ∀ offset stop position wanted rest, key.drop position = wanted :: rest →
        position ≤ offset → offset ≤ size payload → size payload < fuel + offset →
          findBlock width τ payload key fuel wanted offset stop position =
            lift (Trie.findBelow τ payload wanted rest offset stop) := by
  induction fuel with
  | zero =>
      constructor
      · intro offset position rest _ _ _ inside enough
        omega
      · intro offset stop position wanted rest _ _ inside enough
        omega
  | succ fuel inductionHypothesis =>
      obtain ⟨nodes, blocks⟩ := inductionHypothesis
      constructor
      · intro offset position rest remaining within earlier inside enough
        apply findNode_eq_of_block fits _ remaining within
        intro start stop wanted rest remaining forward ordered bounded
        exact blocks start stop position wanted rest remaining (by omega) (by omega) (by omega)
      · intro offset stop position wanted rest remaining earlier inside enough
        have within : position < key.length := by
          apply Nat.lt_of_not_le
          intro beyond
          rw [List.drop_eq_nil_of_le beyond] at remaining
          contradiction
        apply findBlock_eq_of_node fits _ _ remaining earlier
        · intro start forward bounded left
          exact nodes start (position + 1) rest left within (by omega) bounded (by omega)
        · intro next forward bounded
          exact blocks next stop position wanted rest remaining (by omega) bounded (by omega)

end Find

end PackedTrie.Machine
