import PackedTrie.Proofs.Lookup.Unambiguous
import PackedTrie.Proofs.Node.BlockLength

/-!
How many bytes the entries that a walk visits stand in. A walk accepts far more than what a built
trie looks like: integers with leading zeros, chains of branches that are no suffix, branches
without children, children in any order. All of these take at least the bytes that the trie of the
entries takes, as long as no branch has two children under one byte.
-/

namespace PackedTrie

open Entries Node

namespace Cursor

variable {α : Type} [Payload α] {τ : ValueType} {payload : α} {offset : Nat}

theorem le_of_integerAt_eq_ok {bits next : Nat} {value : UInt64} (positive : 1 ≤ bits)
    (found : integerAt payload bits offset = .ok (value, next)) :
    offset + VarInt.length bits value.toNat ≤ next := by
  unfold integerAt at found
  split at found
  · cases found
    exact VarInt.length_le_of_read?_eq_some positive ‹_›
  · contradiction

/-- A value that is read has the integer it was announced by, and as many bytes after it as this
integer says. -/
theorem valueAt_eq_ok {head : UInt64} {value : τ.Value}
    (found : valueAt τ payload head offset = .ok value) :
    value.headInteger = head.toNat ∧ value.payload.length = τ.payloadLength head := by
  unfold valueAt at found
  split at found
  next stored read =>
    cases found
    cases τ with
    | integer =>
        cases read
        exact ⟨rfl, rfl⟩
    | bytes =>
        have sized := (Payload.le_size_of_region?_eq_some read).2
        exact ⟨sized, sized⟩
  next => contradiction

theorem le_of_leadValue_eq_ok {value : τ.Value} {next : Nat}
    (found : leadValue τ payload offset = .ok value)
    (afterward : afterValue τ payload offset = .ok next) :
    offset + value.length leadBits ≤ next := by
  obtain ⟨⟨head, past⟩, integer, valued⟩ := bind_eq_ok_iff.mp found
  obtain ⟨same, sized⟩ := valueAt_eq_ok valued
  simp only [afterValue, integer, bind, Except.bind] at afterward
  have ended := (advance_eq_ok_iff.mp afterward).1
  have opening := le_of_integerAt_eq_ok (by decide) integer
  rw [ValueType.Value.length, same, sized]
  omega

theorem le_of_blockAt_eq_ok {bits start stop : Nat} (positive : 1 ≤ bits)
    (found : blockAt payload bits offset = .ok (start, stop)) :
    offset + VarInt.length bits (stop - start) ≤ start ∧ start ≤ stop := by
  obtain ⟨⟨length, next⟩, integer, advanced⟩ := bind_eq_ok_iff.mp found
  obtain ⟨past, bounded, same⟩ := bind_eq_ok_iff.mp advanced
  cases same
  have opening := le_of_integerAt_eq_ok positive integer
  have ended := (advance_eq_ok_iff.mp bounded).1
  have size : stop - start = length.toNat := by omega
  rw [size]
  omega

end Cursor

open Cursor

namespace Trie

variable {α : Type} [Payload α] {τ : ValueType} {payload : α} {offset stop : Nat} {reorder : Bool}

/-- The node at `offset` takes no fewer bytes than the trie of the entries visited in it. -/
def NodeExtent (reorder : Bool) (τ : ValueType) (payload : α) (offset stop : Nat) : Prop :=
  offset + (ofEntries reorder (walkNode τ payload offset).visited).length ≤ stop

/-- The block from `offset` to `stop` takes no fewer bytes than the children block for the entries
visited in it, whose keys begin with the bytes of the children. -/
structure BlockExtent (reorder : Bool) (τ : ValueType) (payload : α) (offset stop : Nat) :
    Prop where
  led : ∀ key ∈ keys (walkBlock τ payload offset stop).visited, ∃ byte rest, key = byte :: rest ∧
    byte ∈ (childrenRead τ payload offset stop).map Prod.fst
  fits : offset + blockLength reorder (walkBlock τ payload offset stop).visited ≤ stop

theorem BlockExtent.nil_not_mem (extent : BlockExtent reorder τ payload offset stop) :
    [] ∉ keys (walkBlock τ payload offset stop).visited := by
  intro member
  obtain ⟨byte, rest, same, -⟩ := extent.led [] member
  contradiction

theorem BlockExtent.tails_eq_nil {byte : UInt8}
    (extent : BlockExtent reorder τ payload offset stop)
    (fresh : byte ∉ (childrenRead τ payload offset stop).map Prod.fst) :
    tails byte (walkBlock τ payload offset stop).visited = [] := by
  apply List.eq_nil_iff_forall_not_mem.mpr
  rintro ⟨rest, value⟩ member
  obtain ⟨first, more, same, read⟩ :=
    extent.led (byte :: rest) (mem_keys.mpr ⟨value, mem_tails.mp member⟩)
  cases same
  exact fresh read

theorem nodeExtent_of_blockExtent {start : Nat}
    (opened : (openNode τ payload offset).outcome = .ok (start, stop))
    (walked : (walkBlock τ payload start stop).outcome = .ok ())
    (extent : BlockExtent reorder τ payload start stop) :
    NodeExtent reorder τ payload offset stop := by
  have together : (walkNode τ payload offset).visited =
      (openNode τ payload offset).visited ++ (walkBlock τ payload start stop).visited := by
    rw [walkNode_of_ok opened walked]
  have found := opened_of_outcome_eq_ok opened
  have fits := extent.fits
  rw [NodeExtent, together]
  generalize (openNode τ payload offset).visited = here at found
  cases found with
  | @leaf value stop kind valued tail =>
      have read : (afterValue τ payload offset >>= fun past => pure (past, past)) =
          .ok (stop, stop) := by
        rw [← tail, tailAt, kind]
        rfl
      obtain ⟨past, afterward, same⟩ := bind_eq_ok_iff.mp read
      cases same
      rw [walkBlock_self, List.append_nil, ofEntries_leaf, length_leaf]
      exact le_of_leadValue_eq_ok valued afterward
  | @suffixLeaf value suffix stop kind found =>
      obtain ⟨past, length, next, valued, afterward, integer, region, ended⟩ :=
        suffixLeafAt_eq_ok_iff.mp found
      have size := le_of_leadValue_eq_ok valued afterward
      have opening := le_of_integerAt_eq_ok (by decide) integer
      have short : (ofEntries reorder [(suffix, value)]).length ≤
          value.length leadBits + VarInt.length 8 suffix.length + suffix.length :=
        length_ofEntries_singleton_le suffix value
      rw [length_of_regionAt_eq_ok region] at short
      rw [walkBlock_self, List.append_nil]
      omega
  | branch kind tail =>
      have block : blockAt payload leadBits offset = .ok (start, stop) := by
        rw [← tail, tailAt, kind]
        rfl
      obtain ⟨opening, ordered⟩ := le_of_blockAt_eq_ok (by decide) block
      have short := length_ofEntries_le_branch extent.nil_not_mem (Nat.le_sub_of_add_le' fits)
      rw [branchLength] at short
      rw [List.nil_append]
      omega
  | @valueBranch value start stop kind valued tail =>
      have read : (afterValue τ payload offset >>= blockAt payload 8) = .ok (start, stop) := by
        rw [← tail, tailAt, kind]
        rfl
      obtain ⟨past, afterward, block⟩ := bind_eq_ok_iff.mp read
      have size := le_of_leadValue_eq_ok valued afterward
      obtain ⟨opening, ordered⟩ := le_of_blockAt_eq_ok (by decide) block
      have short := length_ofEntries_le_valueBranch value (Nat.le_sub_of_add_le' fits)
      rw [branchLength] at short
      rw [List.singleton_append]
      omega

theorem blockExtent_self : BlockExtent reorder τ payload stop stop where
  led key member := by
    rw [walkBlock_self] at member
    contradiction
  fits := by
    rw [walkBlock_self, blockLength_nil]
    exact Nat.le_refl _

theorem blockExtent_of_lt {byte : UInt8} {next : Nat} (inside : offset < stop)
    (fetched : byteAt payload offset = .ok byte)
    (walked : (walkNode τ payload (offset + 1)).outcome = .ok next)
    (fresh : byte ∉ (childrenRead τ payload next stop).map Prod.fst)
    (child : NodeExtent reorder τ payload (offset + 1) next)
    (others : BlockExtent reorder τ payload next stop) :
    BlockExtent reorder τ payload offset stop where
  led key member := by
    rw [visited_walkBlock_of_ok inside fetched walked, keys_append] at member
    rw [childrenRead_of_ok inside fetched walked]
    rcases List.mem_append.mp member with first | later
    · obtain ⟨value, found⟩ := mem_keys.mp first
      obtain ⟨⟨rest, stored⟩, -, same⟩ := List.mem_map.mp found
      cases same
      exact ⟨byte, rest, rfl, List.mem_cons_self⟩
    · obtain ⟨first, rest, same, read⟩ := others.led key later
      exact ⟨first, rest, same, List.mem_cons_of_mem _ read⟩
  fits := by
    rw [visited_walkBlock_of_ok inside fetched walked,
      blockLength_under_append (others.tails_eq_nil fresh)]
    have first := childLength_le reorder (walkNode τ payload (offset + 1)).visited
    have later := others.fits
    unfold NodeExtent at child
    omega

/-- Whatever bytes are walked through well without ambiguity, they are at least as many as those of
the trie of what is visited. -/
theorem UnambiguousFrom.nodeExtent (unambiguous : UnambiguousFrom τ payload offset)
    (walked : (walkNode τ payload offset).outcome = .ok stop) :
    NodeExtent reorder τ payload offset stop := by
  refine (walk_induction τ payload
    (fun offset => UnambiguousFrom τ payload offset → ∀ stop,
      (walkNode τ payload offset).outcome = .ok stop → NodeExtent reorder τ payload offset stop)
    (fun offset stop => ((childrenRead τ payload offset stop).map Prod.fst).Nodup →
      (∀ byte child, (byte, child) ∈ childrenRead τ payload offset stop →
        UnambiguousFrom τ payload child) → (walkBlock τ payload offset stop).outcome = .ok () →
          BlockExtent reorder τ payload offset stop)
    ?_ ?_ ?_ ?_ ?_).1 offset unambiguous stop walked
  · intro offset below unambiguous stop walked
    obtain ⟨start, opened, blockWalked⟩ := outcome_walkNode_eq_ok_iff.mp walked
    obtain ⟨distinct, children⟩ := unambiguousFrom_iff.mp unambiguous
    rw [DistinctBytes, children_of_ok opened] at distinct
    rw [children_of_ok opened] at children
    exact nodeExtent_of_blockExtent opened blockWalked
      (below start stop opened distinct children blockWalked)
  · intro offset stop byte inside fetched child others distinct children walked
    rw [walkBlock_of_lt inside fetched] at walked
    obtain ⟨next, childWalked, restWalked⟩ := Walk.outcome_andThen_eq_ok_iff.mp walked
    rw [childrenRead_of_ok inside fetched childWalked] at distinct children
    obtain ⟨fresh, restDistinct⟩ := List.nodup_cons.mp distinct
    apply blockExtent_of_lt inside fetched childWalked fresh
    · exact child (children byte _ List.mem_cons_self) next childWalked
    · apply others next childWalked restDistinct _ restWalked
      intro byte child read
      exact children byte child (List.mem_cons_of_mem _ read)
  · intro offset stop fault inside fetched _ _ walked
    rw [walkBlock_of_fault inside fetched] at walked
    contradiction
  · intro stop _ _ _
    exact blockExtent_self
  · intro offset stop beyond _ _ walked
    rw [walkBlock_of_gt beyond] at walked
    contradiction

end Trie

end PackedTrie
