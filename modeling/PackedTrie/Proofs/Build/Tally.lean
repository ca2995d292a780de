import PackedTrie.Proofs.Build.Spine
import PackedTrie.Proofs.Node.Prefixes

/-!
What closing a node counts. What a node is closed to is decided by the entries below the bytes that
lead to it, so each counter is a number of such bytes: of those below which there are entries that
it counts.
-/

namespace PackedTrie

open Entries Node

/-- What is counted when nodes are closed. -/
inductive Counter where
  | closed (kind : NodeKind)
  | flattened
  deriving DecidableEq

namespace Stats

def read (stats : Stats) : Counter → Nat
  | .closed .leaf => stats.leaves
  | .closed .suffixLeaf => stats.suffixFolds
  | .closed .branch => stats.branches
  | .closed .valueBranch => stats.valueBranches
  | .flattened => stats.serializedNodes

/-- The counters that have nothing to do with closing. -/
def apart (stats : Stats) : Stats :=
  { stats with
    leaves := 0
    suffixFolds := 0
    branches := 0
    valueBranches := 0
    serializedNodes := 0 }

end Stats

namespace Counter

variable {τ : ValueType}

/-- A finished node counts. -/
def Counts (node : Node τ) : Counter → Prop
  | .closed kind => node.kind = kind
  | .flattened => node.isFlat = true

instance (node : Node τ) (counter : Counter) : Decidable (counter.Counts node) := by
  cases counter <;> unfold Counts <;> infer_instance

/-- The node that is closed for the entries counts. -/
def CountsFor (options : Options) (entries : List (Bytes × τ.Value)) : Counter → Prop
  | .closed kind => (ofEntries options.reorderChildren entries).kind = kind
  | .flattened => 2 ≤ entries.length ∧
      (ofEntries options.reorderChildren entries).length < options.serializeThreshold

instance (options : Options) (entries : List (Bytes × τ.Value)) (counter : Counter) :
    Decidable (counter.CountsFor options entries) := by
  cases counter <;> unfold CountsFor <;> infer_instance

end Counter

section Closing

variable {τ : ValueType} {options : Options} {closed : Node τ}

theorem read_count {closing : Closing τ} (done : closing.node = .ok closed) (stats : Stats)
    (counter : Counter) :
    (closing.count stats).read counter =
      stats.read counter + if counter.Counts closed then 1 else 0 := by
  cases closing with
  | leaf value =>
      cases done
      rcases counter with (_ | _) | _ <;> rfl
  | fold byte child =>
      obtain ⟨value, suffix, rfl⟩ := fold_eq_ok done
      rcases counter with (_ | _) | _ <;> rfl
  | branch value children flattened =>
      cases done
      rcases counter with (_ | _) | _ <;> cases value <;> cases flattened <;>
        simp [Closing.count, Stats.read, Counter.Counts, flatten, isFlat, kind, ofLead_lead]

theorem apart_count (closing : Closing τ) (stats : Stats) :
    (closing.count stats).apart = stats.apart := by
  rcases closing with _ | _ | ⟨_ | _, _, _ | _⟩ <;> rfl

end Closing

namespace OpenNode

variable {τ : ValueType} {options : Options} {closed : Node τ}

theorem isFlat_closingBranch {value : Option τ.Value} {children : List (UInt8 × Node τ)}
    (done : (closingBranch options value children).node = .ok closed) :
    closed.isFlat = true ↔ closed.length < options.serializeThreshold := by
  obtain ⟨arranged, same⟩ : ∃ arranged, closingBranch options value children =
      .branch value arranged ((branch value arranged).length < options.serializeThreshold) :=
    ⟨arrange options.reorderChildren children, rfl⟩
  rw [same] at done
  cases done
  by_cases short : (branch value arranged).length < options.serializeThreshold
  · simp only [short, decide_true, if_true, length_flatten]
    exact iff_of_true rfl trivial
  · simp [short, isFlat]

theorem isFlat_closing {node : OpenNode τ} {entries : List (Bytes × τ.Value)}
    (ascending : Ascending entries) (value : node.value = emptyKeyValue? entries)
    (children : FinishedChildren options.reorderChildren node.children (groups entries))
    (done : (node.closing options).node = .ok closed) :
    closed.isFlat = true ↔ 2 ≤ entries.length ∧ closed.length < options.serializeThreshold := by
  rcases entries with _ | ⟨⟨key, found⟩, _ | ⟨second, others⟩⟩
  · obtain ⟨stored, below⟩ := node
    simp only [groups_nil] at value children
    obtain rfl := List.forall₂_nil_right_iff.mp children
    subst value
    cases done
    simp [isFlat]
  · -- a single entry is closed to a leaf, which is left as it is
    obtain ⟨leaf, decided, finished⟩ := exists_node_closing options ascending value children
    cases done.symm.trans decided
    rw [finished.single rfl]
    cases key <;> simp [isFlat]
  · have several : 2 ≤ ((key, found) :: second :: others).length := by simp
    rw [closing_of_two_le options ascending value children several] at done
    rw [isFlat_closingBranch done]
    exact ⟨fun short => ⟨several, short⟩, And.right⟩

end OpenNode

namespace Builder

variable {τ : ValueType} {entries : List (Bytes × τ.Value)} {options : Options} {bytes : Bytes}

theorem Level.counts_iff {node : OpenNode τ} {closed : Node τ}
    (level : Level options.reorderChildren none node entries) (ascending : Ascending entries)
    (done : (node.closing options).node = .ok closed) (counter : Counter) :
    counter.Counts closed ↔ counter.CountsFor options entries := by
  obtain ⟨other, decided, finished⟩ := level.exists_closing ascending
  cases done.symm.trans decided
  cases counter with
  | closed kind =>
      rw [Counter.Counts, Counter.CountsFor, kind_eq_of_serialize_eq finished.bytes]
  | flattened =>
      obtain ⟨groups, split, children⟩ := level.children
      rw [Option.toList_none, List.map_nil, List.append_nil] at split
      rw [← split] at children
      rw [Counter.Counts, Counter.CountsFor, ← length_eq_of_serialize_eq finished.bytes]
      exact OpenNode.isFlat_closing ascending level.value children done

theorem Level.read_count {node : OpenNode τ} {closed : Node τ}
    (level : Level options.reorderChildren none node entries) (ascending : Ascending entries)
    (done : (node.closing options).node = .ok closed) (stats : Stats) (counter : Counter) :
    ((node.closing options).count stats).read counter =
      stats.read counter + if counter.CountsFor options entries then 1 else 0 := by
  rw [PackedTrie.read_count done]
  simp only [level.counts_iff ascending done]

section Nodes

/-- The bytes that lead to the nodes of a trie. There is a root also if there are no keys. -/
def nodes (entries : List (Bytes × τ.Value)) : Finset Bytes :=
  insert [] (prefixes entries)

/-- The bytes that lead to a node that is not on the path to `openKey`. -/
def closedNodes (entries : List (Bytes × τ.Value)) (openKey : Bytes) : Finset Bytes :=
  (nodes entries).filter fun bytes => ¬ bytes <+: openKey

/-- Each counter tells how many of the nodes it counts. -/
def Tallied (options : Options) (entries : List (Bytes × τ.Value)) (chosen : Finset Bytes)
    (stats : Stats) : Prop :=
  ∀ counter : Counter, stats.read counter =
    (chosen.filter fun bytes => counter.CountsFor options (below bytes entries)).card

theorem Tallied.insert {chosen : Finset Bytes} {stats others : Stats}
    (tallied : Tallied options entries chosen stats) (fresh : bytes ∉ chosen)
    (counted : ∀ counter : Counter, others.read counter = stats.read counter +
      if counter.CountsFor options (below bytes entries) then 1 else 0) :
    Tallied options entries (insert bytes chosen) others := by
  intro counter
  rw [counted, tallied, Finset.filter_insert]
  split
  · rw [Finset.card_insert_of_notMem]
    intro member
    exact fresh (Finset.mem_of_mem_filter _ member)
  · rfl

theorem mem_nodes_of_isPrefix {longer : Bytes} (leads : longer ∈ nodes entries)
    (begins : bytes <+: longer) : bytes ∈ nodes entries := by
  rcases Finset.mem_insert.mp leads with rfl | leads
  · rw [List.prefix_nil.mp begins]
    exact Finset.mem_insert_self _ _
  · exact Finset.mem_insert_of_mem (mem_prefixes_of_isPrefix leads begins)

/-- Closing the deepest open node closes the node that the open bytes lead to, and no other. -/
theorem closedNodes_dropLast {openKey : Bytes} (leads : openKey ∈ nodes entries)
    (deeper : openKey ≠ []) :
    closedNodes entries openKey.dropLast = insert openKey (closedNodes entries openKey) := by
  obtain ⟨above, last, rfl⟩ := List.eq_nil_or_concat' openKey |>.resolve_left deeper
  rw [List.dropLast_concat]
  ext bytes
  simp only [closedNodes, Finset.mem_insert, Finset.mem_filter, List.prefix_concat_iff]
  constructor
  · rintro ⟨member, outside⟩
    by_cases same : bytes = above ++ [last]
    · exact .inl same
    · exact .inr ⟨member, by simp [same, outside]⟩
  · rintro (rfl | ⟨member, outside⟩)
    · refine ⟨leads, fun longer => ?_⟩
      have short := longer.length_le
      simp at short
    · exact ⟨member, fun inside => outside (.inr inside)⟩

theorem nodes_eq_insert (entries : List (Bytes × τ.Value)) :
    nodes entries = insert [] (closedNodes entries []) := by
  ext bytes
  simp only [closedNodes, nodes, Finset.mem_insert, Finset.mem_filter, List.prefix_nil]
  tauto

theorem nodes_eq_prefixes (nonempty : entries ≠ []) : nodes entries = prefixes entries := by
  obtain ⟨entry, others, rfl⟩ := List.exists_cons_of_ne_nil nonempty
  have member : entry.1 ∈ keys (entry :: others) := List.mem_cons_self
  exact Finset.insert_eq_of_mem (mem_prefixes.mpr ⟨entry.1, member, List.nil_prefix⟩)

end Nodes

end Builder

end PackedTrie
