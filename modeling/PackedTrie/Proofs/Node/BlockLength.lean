import PackedTrie.Proofs.Node.Prefixes
import PackedTrie.Proofs.VarInt.Shortest

/-!
How many bytes the trie of a list of entries takes. The children block of the trie is as long as
the tries of its groups, whatever order the entries come in. No node is longer than a branch over
its block would be: where a single entry is left, the suffix of a leaf takes the place of a chain of
branches, each of which would cost two bytes, while a longer suffix has a length that is longer by
at most one byte.
-/

namespace PackedTrie.Node

open Entries

section Tails

variable {V : Type} {byte : UInt8} {entries visited : List (Bytes × V)}

theorem tails_under_self (byte : UInt8) (entries : List (Bytes × V)) :
    tails byte (under byte entries) = entries := by
  induction entries with
  | nil => rfl
  | cons entry entries inductionHypothesis =>
      rw [under_cons, tails_cons_self, inductionHypothesis]

theorem tails_under_of_ne {first : UInt8} (different : first ≠ byte) (entries : List (Bytes × V)) :
    tails byte (under first entries) = [] := by
  induction entries with
  | nil => rfl
  | cons entry entries inductionHypothesis =>
      rw [under_cons, tails_cons_of_ne different, inductionHypothesis]

theorem tails_perm (same : visited.Perm entries) (byte : UInt8) :
    (tails byte visited).Perm (tails byte entries) :=
  same.filterMap _

theorem lookup_of_perm (ascending : Ascending entries) (same : visited.Perm entries) (key : Bytes) :
    visited.lookup key = entries.lookup key := by
  cases found : visited.lookup key with
  | none =>
      apply Eq.symm
      apply lookup_eq_none_of_not_mem
      intro value member
      rw [List.lookup_eq_none_iff] at found
      exact absurd (found _ (same.mem_iff.mpr member)) (by simp)
  | some value =>
      obtain ⟨earlier, later, split, -⟩ := List.lookup_eq_some_iff.mp found
      have member : (key, value) ∈ visited := by
        rw [split]
        simp
      exact (ascending.lookup_eq_some (same.mem_iff.mp member)).symm

end Tails

variable {τ : ValueType} {reorder : Bool} {byte : UInt8}
  {entries visited below others : List (Bytes × τ.Value)}

/-- The bytes that the trie of the entries takes in the children block of its parent; where there
are no entries, there is no child. -/
def childLength (reorder : Bool) : List (Bytes × τ.Value) → Nat
  | [] => 0
  | entry :: entries => entryLength (ofEntries reorder (entry :: entries))

/-- The length of the children block of a branch at which the keys of the entries part. -/
def blockLength (reorder : Bool) (entries : List (Bytes × τ.Value)) : Nat :=
  ∑ code ∈ Finset.range 256, childLength reorder (tails code.toUInt8 entries)

section Block

theorem childLength_of_ne_nil (nonempty : entries ≠ []) :
    childLength reorder entries = 1 + (ofEntries reorder entries).length := by
  cases entries with
  | nil => contradiction
  | cons entry entries => rfl

theorem childLength_le (reorder : Bool) (entries : List (Bytes × τ.Value)) :
    childLength reorder entries ≤ 1 + (ofEntries reorder entries).length := by
  cases entries with
  | nil => exact Nat.zero_le _
  | cons entry entries => exact Nat.le_refl _

theorem contentLength_eq_sum (children : List (UInt8 × Node τ)) :
    contentLength children = (children.map fun entry => entryLength entry.2).sum := by
  induction children with
  | nil => simp
  | cons entry children inductionHypothesis =>
      obtain ⟨byte, child⟩ := entry
      rw [contentLength_cons, inductionHypothesis]
      rfl

theorem contentLength_arrange_groupTries (reorder : Bool) (entries : List (Bytes × τ.Value)) :
    contentLength (arrange reorder (groupTries reorder (groups entries))) =
      blockLength reorder entries := by
  have parts : ∀ codes : List Nat,
      ((groupTries reorder (codes.filterMap fun code =>
          if tails code.toUInt8 entries = [] then none
          else some (code.toUInt8, tails code.toUInt8 entries))).map
        fun entry => entryLength entry.2).sum =
      (codes.map fun code => childLength reorder (tails code.toUInt8 entries)).sum := by
    intro codes
    induction codes with
    | nil => rfl
    | cons code codes inductionHypothesis =>
        by_cases empty : tails code.toUInt8 entries = []
        · simp only [List.filterMap_cons, if_pos empty, List.map_cons, List.sum_cons,
            inductionHypothesis]
          rw [empty, childLength, Nat.zero_add]
        · simp only [List.filterMap_cons, if_neg empty, groupTries_cons, List.map_cons,
            List.sum_cons, inductionHypothesis, childLength_of_ne_nil empty]
          rfl
  rw [contentLength_eq_sum, ((arrange_perm reorder _).map _).sum_eq, groups, parts]
  rfl

@[simp] theorem blockLength_nil : blockLength reorder ([] : List (Bytes × τ.Value)) = 0 := by
  simp [blockLength, childLength]

theorem blockLength_cons_nil (value : τ.Value) (entries : List (Bytes × τ.Value)) :
    blockLength reorder (([], value) :: entries) = blockLength reorder entries := rfl

/-- Entries under a byte of their own add the trie of what is below it. -/
theorem blockLength_under_append (fresh : tails byte others = []) :
    blockLength reorder (under byte below ++ others) =
      childLength reorder below + blockLength reorder others := by
  have parts : ∀ code ∈ Finset.range 256,
      childLength reorder (tails code.toUInt8 (under byte below ++ others)) =
        (if code = byte.toNat then childLength reorder below else 0) +
          childLength reorder (tails code.toUInt8 others) := by
    intro code bounded
    rw [tails_append]
    by_cases same : code = byte.toNat
    · have led : code.toUInt8 = byte := by
        rw [same]
        exact UInt8.ofNat_toNat
      rw [if_pos same, led, tails_under_self, fresh, List.append_nil]
      rfl
    · have other : byte ≠ code.toUInt8 := by
        rintro rfl
        exact same (UInt8.toNat_ofNat_of_lt' (Finset.mem_range.mp bounded)).symm
      rw [if_neg same, tails_under_of_ne other, List.nil_append, Nat.zero_add]
  rw [blockLength, Finset.sum_congr rfl parts, Finset.sum_add_distrib, Finset.sum_ite_eq',
    if_pos (Finset.mem_range.mpr byte.toNat_lt)]
  rfl

@[simp] theorem blockLength_singleton_cons (byte : UInt8) (rest : Bytes) (value : τ.Value) :
    blockLength reorder [(byte :: rest, value)] =
      1 + (ofEntries reorder [(rest, value)]).length := by
  have alone : blockLength reorder (under byte [(rest, value)] ++ []) =
      childLength reorder [(rest, value)] + blockLength reorder [] :=
    blockLength_under_append (tails_nil byte)
  rw [blockLength_nil, Nat.add_zero, childLength_of_ne_nil (List.cons_ne_nil _ _)] at alone
  exact alone

end Block

section Length

/-- The length of a branch over a block of the given length. -/
def branchLength (value : Option τ.Value) (content : Nat) : Nat :=
  match value with
  | none => VarInt.length leadBits content + content
  | some value => value.length leadBits + VarInt.length 8 content + content

theorem length_ofEntries_of_two_le (several : 2 ≤ entries.length) :
    (ofEntries reorder entries).length =
      branchLength (emptyKeyValue? entries) (blockLength reorder entries) := by
  rw [ofEntries_of_two_le several, ← contentLength_arrange_groupTries]
  cases emptyKeyValue? entries with
  | none => exact length_branch_none _
  | some value => exact length_branch_some value _

theorem branchLength_mono (value : Option τ.Value) {smaller larger : Nat}
    (ordered : smaller ≤ larger) : branchLength value smaller ≤ branchLength value larger := by
  cases value with
  | none =>
      have opening := VarInt.length_mono leadBits ordered
      simp only [branchLength]
      omega
  | some value =>
      have opening := VarInt.length_mono 8 ordered
      simp only [branchLength]
      omega

/-- The length depends neither on the order of the entries nor on that of the children. -/
theorem length_ofEntries_of_perm (reorder other : Bool) (ascending : Ascending entries)
    (same : visited.Perm entries) :
    (ofEntries reorder visited).length = (ofEntries other entries).length := by
  induction entries using entries_induction generalizing visited with
  | nil => rw [same.eq_nil, ofEntries_nil, ofEntries_nil]
  | single key value =>
      rw [same.eq_singleton]
      cases key <;> simp
  | several entries several inductionHypothesis =>
      have blocks : blockLength reorder visited = blockLength other entries := by
        refine Finset.sum_congr rfl ?_
        intro code _
        have rearranged := tails_perm same code.toUInt8
        by_cases empty : tails code.toUInt8 entries = []
        · rw [empty] at rearranged ⊢
          rw [rearranged.eq_nil]
          rfl
        · have nonempty : tails code.toUInt8 visited ≠ [] := by
            intro none
            rw [none] at rearranged
            exact empty rearranged.nil_eq.symm
          have shorter := inductionHypothesis (code.toUInt8, tails code.toUInt8 entries)
            (mem_groups.mpr ⟨rfl, empty⟩) (ascending_tails ascending _) rearranged
          rw [childLength_of_ne_nil nonempty, childLength_of_ne_nil empty, shorter]
      rw [length_ofEntries_of_two_le (same.length_eq ▸ several),
        length_ofEntries_of_two_le several, blocks, emptyKeyValue?_eq_lookup,
        emptyKeyValue?_eq_lookup, lookup_of_perm ascending same]

theorem length_ofEntries_singleton_le (key : Bytes) (value : τ.Value) :
    (ofEntries reorder [(key, value)]).length ≤
      value.length leadBits + VarInt.length 8 key.length + key.length := by
  cases key with
  | nil =>
      rw [ofEntries_leaf, length_leaf]
      omega
  | cons byte rest => rw [ofEntries_suffixLeaf, length_suffixLeaf]

/-- The trie of nonempty keys is no longer than a branch. A suffix instead of the branch saves the
byte that leads to the child and the opening of the branch. -/
theorem length_ofEntries_le_branch (absent : [] ∉ keys entries) {content : Nat}
    (fits : blockLength reorder entries ≤ content) :
    (ofEntries reorder entries).length ≤ branchLength (none : Option τ.Value) content := by
  refine Nat.le_trans ?_ (branchLength_mono _ fits)
  rcases entries with _ | ⟨⟨key, value⟩, _ | ⟨second, others⟩⟩
  · simp [branchLength, length_branch_none]
  · cases key with
    | nil => simp [keys] at absent
    | cons byte rest =>
        have opening := VarInt.length_pos leadBits (1 + (ofEntries reorder [(rest, value)]).length)
        rw [ofEntries_suffixLeaf, length_suffixLeaf, branchLength, blockLength_singleton_cons]
        cases rest with
        | nil =>
            have single : VarInt.length 8 1 = 1 := by simp [VarInt.length, VarInt.groupCount_zero]
            rw [ofEntries_leaf, length_leaf] at opening ⊢
            simp only [List.length_cons, List.length_nil, Nat.zero_add, single]
            omega
        | cons next more =>
            have longer := VarInt.length_succ_le 8 (next :: more).length
            rw [ofEntries_suffixLeaf, length_suffixLeaf] at opening ⊢
            rw [List.length_cons]
            omega
  · rw [length_ofEntries_of_two_le (by simp), emptyKeyValue?_eq_none_iff.mpr absent]

theorem length_ofEntries_le_valueBranch (value : τ.Value) {content : Nat}
    (fits : blockLength reorder entries ≤ content) :
    (ofEntries reorder (([], value) :: entries)).length ≤ branchLength (some value) content := by
  refine Nat.le_trans ?_ (branchLength_mono _ fits)
  cases entries with
  | nil =>
      rw [ofEntries_leaf, length_leaf, branchLength]
      omega
  | cons second others =>
      rw [length_ofEntries_of_two_le (by simp), blockLength_cons_nil]
      rfl

end Length

end PackedTrie.Node
