import PackedTrie.Proofs.Node.BlockLength

/-!
The nodes below a branch, in the order in which they are laid out. Whether the longer ones are put
in front or not, they are the same nodes under the same bytes, and each of them takes as many bytes.
The order by length is one of the nodes as they are laid out in the end, and among nodes of one
length it is the order of their bytes.
-/

namespace PackedTrie.Node

open Entries

section Sorting

variable {γ : Type} {le : γ → γ → Bool} {R : γ → γ → Prop}

/-- Sorting keeps the order of what it does not tell apart. -/
theorem pairwise_mergeSort_of_pairwise
    (trans : ∀ first second third, le first second → le second third → le first third)
    (total : ∀ first second, le first second || le second first) {items : List γ}
    (ordered : items.Pairwise R) :
    (items.mergeSort le).Pairwise fun earlier later =>
      le earlier later ∧ (le later earlier → R earlier later) := by
  induction items with
  | nil => simp
  | cons first others inductionHypothesis =>
      obtain ⟨before, ordered⟩ := List.pairwise_cons.mp ordered
      obtain ⟨smaller, rest, sorted, split, strict⟩ :=
        List.mergeSort_cons trans total first others
      have remaining := inductionHypothesis ordered
      have whole := List.pairwise_mergeSort trans total (first :: others)
      rw [split, List.pairwise_append] at remaining
      rw [sorted, List.pairwise_append, List.pairwise_cons] at whole
      rw [sorted, List.pairwise_append, List.pairwise_cons]
      obtain ⟨front, back, across⟩ := remaining
      refine ⟨front, ⟨?_, back⟩, ?_⟩
      -- the first item ties only with some that it stood before, and these are still behind it
      · intro later member
        have found : later ∈ others.mergeSort le := by
          rw [split]
          exact List.mem_append_right _ member
        exact ⟨whole.2.1.1 later member, fun _ => before later (List.mem_mergeSort.mp found)⟩
      · intro earlier member later found
        rcases List.mem_cons.mp found with rfl | inside
        · refine ⟨whole.2.2 earlier member later List.mem_cons_self, ?_⟩
          intro reached
          have apart := strict earlier member
          rw [reached] at apart
          contradiction
        · exact across earlier member later inside

end Sorting

variable {τ : ValueType} {entries : List (Bytes × τ.Value)} {byte : UInt8} {child : Node τ}

theorem pairwise_sortByLength {R : UInt8 × Node τ → UInt8 × Node τ → Prop}
    {children : List (UInt8 × Node τ)} (ordered : children.Pairwise R) :
    (sortByLength children).Pairwise fun earlier later =>
      later.2.length ≤ earlier.2.length ∧
        (earlier.2.length ≤ later.2.length → R earlier later) := by
  unfold sortByLength
  refine (pairwise_mergeSort_of_pairwise lengths_trans lengths_total ordered).imp ?_
  intro earlier later
  simp only [decide_eq_true_eq]
  exact id

theorem kind_ofEntries_reorder (reorder other : Bool) (entries : List (Bytes × τ.Value)) :
    (ofEntries reorder entries).kind = (ofEntries other entries).kind := by
  by_cases nonempty : entries = []
  · rw [nonempty, ofEntries_nil, ofEntries_nil]
  · rw [kind_ofEntries reorder nonempty, kind_ofEntries other nonempty]

/-- The children of a branch in the order of their layout. -/
def children : Node τ → List (UInt8 × Node τ)
  | .branch _ children => children
  | _ => []

/-- The same, of each child only the byte that leads to it and the number of bytes it takes. -/
def siblings (node : Node τ) : List (UInt8 × Nat) :=
  node.children.map fun entry => (entry.1, entry.2.length)

/-- The order of siblings if the longer ones are put in front. -/
def LongerFirst (earlier later : UInt8 × Nat) : Prop :=
  later.2 < earlier.2 ∨ later.2 = earlier.2 ∧ earlier.1 < later.1

theorem children_ofEntries_of_two_le (reorder : Bool) (several : 2 ≤ entries.length) :
    (ofEntries reorder entries).children =
      arrange reorder (groupTries reorder (groups entries)) := by
  rw [ofEntries_of_two_le several, children]

theorem children_ofEntries_of_lt_two (reorder : Bool) (few : entries.length < 2) :
    (ofEntries reorder entries).children = [] := by
  rcases entries with _ | ⟨⟨key, value⟩, _ | ⟨second, others⟩⟩
  · rw [ofEntries_nil, children]
  · cases key <;> simp [children]
  · simp at few

theorem mem_children_ofEntries {reorder : Bool} :
    (byte, child) ∈ (ofEntries reorder entries).children ↔ 2 ≤ entries.length ∧
      tails byte entries ≠ [] ∧ child = ofEntries reorder (tails byte entries) := by
  by_cases several : 2 ≤ entries.length
  · rw [children_ofEntries_of_two_le reorder several, (arrange_perm _ _).mem_iff, groupTries,
      List.mem_map]
    constructor
    · rintro ⟨group, inside, same⟩
      obtain ⟨tail, nonempty⟩ := mem_groups.mp inside
      cases same
      rw [tail] at nonempty ⊢
      exact ⟨several, nonempty, rfl⟩
    · rintro ⟨-, nonempty, rfl⟩
      exact ⟨(byte, tails byte entries), mem_groups.mpr ⟨rfl, nonempty⟩, rfl⟩
  · rw [children_ofEntries_of_lt_two reorder (by omega)]
    exact iff_of_false List.not_mem_nil fun found => several found.1

/-- Where several keys go on, there is a node for each byte that one of them goes on with. -/
theorem mem_siblings_below {bytes : Bytes} (reorder : Bool) (several : 2 ≤ sharing entries bytes)
    (byte : UInt8) :
    byte ∈ (ofEntries reorder (below bytes entries)).siblings.map Prod.fst ↔
      bytes ++ [byte] ∈ prefixes entries := by
  rw [← sharing_pos_iff, ← length_below, ← below_below, List.length_pos_iff, siblings,
    List.map_map, List.mem_map]
  constructor
  · rintro ⟨⟨other, child⟩, member, same⟩
    obtain ⟨-, nonempty, -⟩ := mem_children_ofEntries.mp member
    exact same ▸ nonempty
  · intro nonempty
    rw [← length_below] at several
    exact ⟨(byte, _), mem_children_ofEntries.mpr ⟨several, nonempty, rfl⟩, rfl⟩

theorem siblings_groupTries (reorder : Bool) (entries : List (Bytes × τ.Value)) :
    ((groupTries reorder (groups entries)).map fun entry => (entry.1, entry.2.length)) =
      (groups entries).map fun group => (group.1, (ofEntries reorder group.2).length) := by
  rw [groupTries, List.map_map]
  rfl

theorem siblings_ofEntries_perm (ascending : Ascending entries) (reorder other : Bool) :
    (ofEntries reorder entries).siblings.Perm (ofEntries other entries).siblings := by
  by_cases several : 2 ≤ entries.length
  · have same : (groups entries).map (fun group => (group.1, (ofEntries reorder group.2).length)) =
        (groups entries).map fun group => (group.1, (ofEntries other group.2).length) := by
      refine List.map_congr_left ?_
      intro group member
      have below : Ascending group.2 := by
        rw [(mem_groups.mp member).1]
        exact ascending_tails ascending group.1
      rw [length_ofEntries_of_perm reorder other below (.refl _)]
    have laidOut : ∀ order : Bool, (ofEntries order entries).siblings.Perm
        ((groups entries).map fun group => (group.1, (ofEntries order group.2).length)) := by
      intro order
      rw [siblings, children_ofEntries_of_two_le order several, ← siblings_groupTries]
      exact (arrange_perm order _).map _
    exact (laidOut reorder).trans (same ▸ (laidOut other).symm)
  · rw [siblings, siblings, children_ofEntries_of_lt_two _ (by omega),
      children_ofEntries_of_lt_two _ (by omega)]

theorem pairwise_siblings_ofEntries_false (entries : List (Bytes × τ.Value)) :
    (ofEntries false entries).siblings.Pairwise fun earlier later => earlier.1 < later.1 := by
  by_cases several : 2 ≤ entries.length
  · rw [siblings, children_ofEntries_of_two_le false several]
    exact List.pairwise_map.mpr (List.pairwise_map.mpr (ordered_groups entries))
  · rw [siblings, children_ofEntries_of_lt_two false (by omega)]
    exact List.Pairwise.nil

theorem pairwise_siblings_ofEntries_true (entries : List (Bytes × τ.Value)) :
    (ofEntries true entries).siblings.Pairwise LongerFirst := by
  by_cases several : 2 ≤ entries.length
  · have ordered : (groupTries true (groups entries)).Pairwise fun earlier later =>
        earlier.1 < later.1 := List.pairwise_map.mpr (ordered_groups entries)
    rw [siblings, children_ofEntries_of_two_le true several, List.pairwise_map]
    refine (pairwise_sortByLength ordered).imp ?_
    rintro earlier later ⟨shorter, tied⟩
    rcases Nat.lt_or_eq_of_le shorter with less | same
    · exact .inl less
    · exact .inr ⟨same, tied same.ge⟩
  · rw [siblings, children_ofEntries_of_lt_two true (by omega)]
    exact List.Pairwise.nil

end PackedTrie.Node
