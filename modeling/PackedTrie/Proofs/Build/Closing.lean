import PackedTrie.Build.OpenNode
import PackedTrie.Proofs.Node.OfEntries

/-!
Closing a node. If the node holds the value of the empty key, and a finished child for each group
of the other entries, it closes to a node that lays out as the trie of the entries does.
-/

namespace PackedTrie

open Entries

namespace Node

variable {τ : ValueType} {reorder : Bool}

/-- A finished node lays out as the trie of its entries. Where only one entry is left it is that
trie, so it can still be moved up. -/
structure Finished (reorder : Bool) (node : Node τ) (entries : List (Bytes × τ.Value)) : Prop where
  bytes : node.serialize = (ofEntries reorder entries).serialize
  single : entries.length = 1 → node = ofEntries reorder entries

def FinishedChildren (reorder : Bool) (children : List (UInt8 × Node τ))
    (groups : List (UInt8 × List (Bytes × τ.Value))) : Prop :=
  List.Forall₂ (fun child group => child.1 = group.1 ∧ Finished reorder child.2 group.2)
    children groups

theorem flattenChildren_arrange (reorder : Bool) (children : List (UInt8 × Node τ)) :
    flattenChildren (arrange reorder children) = arrange reorder (flattenChildren children) := by
  cases reorder with
  | false => rfl
  | true => exact sortByLength_flattenChildren children

theorem FinishedChildren.flattenChildren_eq {children : List (UInt8 × Node τ)}
    {groups : List (UInt8 × List (Bytes × τ.Value))}
    (finished : FinishedChildren reorder children groups) :
    flattenChildren children = flattenChildren (groupTries reorder groups) := by
  induction finished with
  | nil => rfl
  | @cons child group children groups first _ inductionHypothesis =>
      obtain ⟨byte, node⟩ := child
      obtain ⟨rfl, closed⟩ := first
      rw [groupTries_cons, flattenChildren_cons, flattenChildren_cons, inductionHypothesis,
        flatten_eq_iff.mpr closed.bytes]

theorem isLeaf_kind_branch (value : Option τ.Value) (children : List (UInt8 × Node τ)) :
    (branch value children).kind.isLeaf = false := by
  cases value <;> rfl

end Node

namespace OpenNode

open Node

variable {τ : ValueType}

/-- A branch may be flattened or not; its bytes are the same. -/
theorem exists_node_branch (value : Option τ.Value) (children : List (UInt8 × Node τ))
    (flattened : Bool) :
    ∃ closed, (Closing.branch value children flattened).node = .ok closed ∧
      closed.serialize = (branch value children).serialize := by
  cases flattened with
  | false => exact ⟨_, rfl, rfl⟩
  | true => exact ⟨_, rfl, serialize_flatten _⟩

/-- A node with several entries becomes a branch: neither is it a leaf, nor is its only child. -/
theorem closing_of_two_le (options : Options) {node : OpenNode τ}
    {entries : List (Bytes × τ.Value)} (ascending : Ascending entries)
    (value : node.value = emptyKeyValue? entries)
    (children : FinishedChildren options.reorderChildren node.children (groups entries))
    (several : 2 ≤ entries.length) :
    node.closing options = closingBranch options node.value node.children := by
  obtain ⟨stored, below⟩ := node
  have whole := regroup_groups ascending
  simp only at value children
  rw [← value] at whole
  rcases below with _ | ⟨⟨byte, child⟩, _ | ⟨second, others⟩⟩
  · -- without children at most the entry of the empty key is left
    rw [List.forall₂_nil_left_iff.mp children] at whole
    have few : entries.length ≤ 1 := by
      rw [← whole]
      cases stored <;> simp [regroup]
    omega
  · cases stored with
    | some value => rfl
    | none =>
        obtain ⟨group, rest, ⟨-, closed⟩, none, only⟩ := List.forall₂_cons_left_iff.mp children
        rw [List.forall₂_nil_left_iff.mp none] at only
        rw [only] at whole
        have many : 2 ≤ group.2.length := by
          rw [← whole] at several
          simpa [regroup] using several
        -- all entries are below the only child, so it has as many of them
        have branching : child.kind.isLeaf = false := by
          rw [kind_eq_of_serialize_eq closed.bytes, ofEntries_of_two_le many]
          exact isLeaf_kind_branch _ _
        simp [closing, branching]
  · cases stored <;> rfl

/-- An open node with the value of the empty key and a finished child for each group closes. -/
theorem exists_node_closing (options : Options) {node : OpenNode τ}
    {entries : List (Bytes × τ.Value)} (ascending : Ascending entries)
    (value : node.value = emptyKeyValue? entries)
    (children : FinishedChildren options.reorderChildren node.children (groups entries)) :
    ∃ closed, (node.closing options).node = .ok closed ∧
      Finished options.reorderChildren closed entries := by
  rcases entries with _ | ⟨⟨key, found⟩, _ | ⟨second, others⟩⟩
  · obtain ⟨stored, below⟩ := node
    simp only [groups_nil] at value children
    obtain rfl := List.forall₂_nil_right_iff.mp children
    subst value
    exact ⟨.branch none [], rfl, by rw [ofEntries_nil], nofun⟩
  · obtain ⟨stored, below⟩ := node
    cases key with
    | nil =>
        simp only [groups_singleton_nil] at value children
        obtain rfl := List.forall₂_nil_right_iff.mp children
        subst value
        exact ⟨.leaf found, rfl, by rw [ofEntries_leaf], fun _ => (ofEntries_leaf found).symm⟩
    | cons byte rest =>
        simp only [groups_singleton_cons] at value children
        obtain ⟨⟨first, child⟩, none, ⟨rfl, closed⟩, last, rfl⟩ :=
          List.forall₂_cons_right_iff.mp children
        obtain rfl := List.forall₂_nil_right_iff.mp last
        subst value
        have alone := closed.single rfl
        simp only at alone
        refine ⟨.suffixLeaf found (first :: rest), ?_, by rw [ofEntries_suffixLeaf],
          fun _ => (ofEntries_suffixLeaf first rest found).symm⟩
        cases rest with
        | nil =>
            rw [alone, ofEntries_leaf]
            rfl
        | cons next rest =>
            rw [alone, ofEntries_suffixLeaf]
            rfl
  · have several : 2 ≤ ((key, found) :: second :: others).length := by simp
    rw [closing_of_two_le options ascending value children several]
    obtain ⟨closed, done, bytes⟩ := exists_node_branch node.value
      (arrange options.reorderChildren node.children) _
    refine ⟨closed, done, ?_, fun alone => by omega⟩
    rw [bytes, ofEntries_of_two_le several, ← value]
    apply serialize_branch_congr
    rw [flattenChildren_arrange, flattenChildren_arrange, children.flattenChildren_eq]

theorem close_of_node_eq_ok {options : Options} {node : OpenNode τ} {closed : Node τ}
    (done : (node.closing options).node = .ok closed) (report : Report) :
    node.close options report = .ok closed ((node.closing options).record report) := by
  rw [close, done]

theorem close_eq_ok_iff {options : Options} {node : OpenNode τ} {closed : Node τ}
    {report after : Report} :
    node.close options report = .ok closed after ↔
      (node.closing options).node = .ok closed ∧
        after = (node.closing options).record report := by
  rw [close]
  cases (node.closing options).node with
  | error error => simp
  | ok other => simp [eq_comm]

end OpenNode

end PackedTrie
