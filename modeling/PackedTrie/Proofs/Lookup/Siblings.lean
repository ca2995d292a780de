import PackedTrie.Proofs.Lookup.Unambiguous
import PackedTrie.Proofs.Node.Siblings

/-!
The nodes of a payload, each found by the bytes that lead to it, and the nodes below each of them in
the order of their layout. Where the bytes of a list's trie stand, what is read below any bytes are
the children of the trie of the entries below these bytes, whether or not any of it was flattened.
-/

namespace PackedTrie

open Cursor Entries Node Payload

variable {α : Type} [Payload α] {τ : ValueType} {payload : α} {offset start : Nat}
  {reorder : Bool} {entries : List (Bytes × τ.Value)} {bytes : Bytes}

namespace Node

theorem isFlat_ofEntries (reorder : Bool) (entries : List (Bytes × τ.Value)) :
    (ofEntries reorder entries).isFlat = false := by
  rcases entries with _ | ⟨⟨key, value⟩, _ | ⟨second, others⟩⟩
  · rw [ofEntries_nil, isFlat]
    exact nofun
  · cases key <;> simp [isFlat]
  · rw [ofEntries_of_two_le (by simp), isFlat]
    exact nofun

theorem Fits.of_mem_children {node : Node τ} (fits : node.Fits) {entry : UInt8 × Node τ}
    (member : entry ∈ node.children) : entry.2.Fits := by
  cases node with
  | branch value children => exact fits.of_mem member
  | leaf value => contradiction
  | suffixLeaf value suffix => contradiction
  | flat lead body => contradiction

theorem faithful_of_mem_children (fits : (ofEntries reorder entries).Fits)
    {entry : UInt8 × Node τ} (member : entry ∈ (ofEntries reorder entries).children) :
    Faithful entry.2 := by
  obtain ⟨-, -, same⟩ := mem_children_ofEntries.mp member
  have built : entry.2.Built := same ▸ built_ofEntries reorder _
  exact built.faithful (fits.of_mem_children member)

end Node

namespace Trie

section Reading

/-- A child read at an offset, under its byte, is the node that was laid out there. -/
def ReadAs (payload : α) (read : UInt8 × Nat) (entry : UInt8 × Node τ) : Prop :=
  read.1 = entry.1 ∧ Holds payload read.2 entry.2.serialize

theorem exists_of_forall₂_left {β γ : Type} {R : β → γ → Prop} {items : List β} {others : List γ}
    (related : List.Forall₂ R items others) {item : β} (member : item ∈ items) :
    ∃ other ∈ others, R item other := by
  induction related with
  | nil => contradiction
  | cons first _ inductionHypothesis =>
      rcases List.mem_cons.mp member with rfl | later
      · exact ⟨_, List.mem_cons_self, first⟩
      · obtain ⟨other, found, same⟩ := inductionHypothesis later
        exact ⟨other, List.mem_cons_of_mem _ found, same⟩

theorem map_fst_of_readAs {reads : List (UInt8 × Nat)} {children : List (UInt8 × Node τ)}
    (related : List.Forall₂ (ReadAs payload) reads children) :
    reads.map Prod.fst = children.map Prod.fst := by
  induction related with
  | nil => rfl
  | cons first _ inductionHypothesis =>
      rw [List.map_cons, List.map_cons, first.1, inductionHypothesis]

theorem childrenRead_content {children : List (UInt8 × Node τ)}
    (faithful : ∀ entry ∈ children, Faithful entry.2)
    (held : Holds payload start (content children)) :
    List.Forall₂ (ReadAs payload)
      (childrenRead τ payload start (start + contentLength children)) children := by
  induction children generalizing start with
  | nil =>
      rw [contentLength_nil, Nat.add_zero, childrenRead_of_le (Nat.le_refl _)]
      exact .nil
  | cons entry others inductionHypothesis =>
      obtain ⟨byte, child⟩ := entry
      rw [content_cons] at held
      have fetched : byteAt payload start = .ok byte := by simp [byteAt, held.byte?_head]
      have childHeld := held.tail.left
      have othersHeld := held.tail.right
      rw [length_serialize] at othersHeld
      obtain ⟨below, -, childWalked⟩ := (faithful (byte, child) List.mem_cons_self).walked
      have walked : (walkNode τ payload (start + 1)).outcome = .ok (start + 1 + child.length) := by
        rw [childWalked payload (start + 1) childHeld]
      have stop : start + contentLength ((byte, child) :: others) =
          start + 1 + child.length + contentLength others := by
        rw [contentLength_cons]
        omega
      rw [stop, childrenRead_of_ok (by omega) fetched walked]
      exact .cons ⟨rfl, childHeld⟩ (inductionHypothesis
        (fun entry member => faithful entry (List.mem_cons_of_mem _ member)) othersHeld)

theorem children_of_opened_empty {visited : List (Bytes × τ.Value)} {stop : Nat}
    (opened : Opened τ payload offset visited stop stop) : children τ payload offset = [] := by
  have outcome : (openNode τ payload offset).outcome = .ok (stop, stop) := by
    rw [opened.openNode_eq]
  rw [children_of_ok outcome, childrenRead_of_le (Nat.le_refl _)]

theorem children_of_holds {node : Node τ} (structured : node.isFlat = false)
    (faithful : ∀ entry ∈ node.children, Faithful entry.2) (fits : node.Fits)
    (held : Holds payload offset node.serialize) :
    List.Forall₂ (ReadAs payload) (children τ payload offset) node.children := by
  cases node with
  | leaf value =>
      rw [children_of_opened_empty (opened_leaf fits held)]
      exact .nil
  | suffixLeaf value suffix =>
      rw [children_of_opened_empty (opened_suffixLeaf fits held)]
      exact .nil
  | branch value children =>
      obtain ⟨start, -, below, opened⟩ := opened_branch fits held
      have outcome : (openNode τ payload offset).outcome =
          .ok (start, start + contentLength children) := by
        rw [opened.openNode_eq]
      rw [children_of_ok outcome]
      exact childrenRead_content faithful below
  | flat lead body => contradiction

theorem children_ofEntries (fits : (ofEntries reorder entries).Fits)
    (held : Holds payload offset (ofEntries reorder entries).serialize) :
    List.Forall₂ (ReadAs payload) (children τ payload offset)
      (ofEntries reorder entries).children :=
  children_of_holds (isFlat_ofEntries reorder entries)
    (fun _ member => faithful_of_mem_children fits member) fits held

end Reading

section Siblings

/-- The number of bytes of the node at `offset`. -/
def nodeLength (τ : ValueType) (payload : α) (offset : Nat) : Nat :=
  match skip τ payload offset with
  | .ok stop => stop - offset
  | .error _ => 0

/-- The nodes below the node at `offset` in the order of their layout: the byte that leads to each
of them, and the number of bytes it takes. -/
def siblings (τ : ValueType) (payload : α) (offset : Nat) : List (UInt8 × Nat) :=
  (children τ payload offset).map fun read => (read.1, nodeLength τ payload read.2)

theorem nodeLength_of_holds {node : Node τ} (faithful : Faithful node)
    (held : Holds payload offset node.serialize) :
    nodeLength τ payload offset = node.length := by
  rw [nodeLength, faithful.skipped payload offset held]
  exact Nat.add_sub_cancel_left _ _

theorem siblings_of_readAs {reads : List (UInt8 × Nat)} {children : List (UInt8 × Node τ)}
    (related : List.Forall₂ (ReadAs payload) reads children)
    (faithful : ∀ entry ∈ children, Faithful entry.2) :
    reads.map (fun read => (read.1, nodeLength τ payload read.2)) =
      children.map fun entry => (entry.1, entry.2.length) := by
  induction related with
  | nil => rfl
  | cons first _ inductionHypothesis =>
      obtain ⟨byte, held⟩ := first
      rw [List.map_cons, List.map_cons, byte,
        nodeLength_of_holds (faithful _ List.mem_cons_self) held,
        inductionHypothesis fun entry member => faithful entry (List.mem_cons_of_mem _ member)]

theorem siblings_ofEntries (fits : (ofEntries reorder entries).Fits)
    (held : Holds payload offset (ofEntries reorder entries).serialize) :
    siblings τ payload offset = (ofEntries reorder entries).siblings :=
  siblings_of_readAs (children_ofEntries fits held) fun _ member =>
    faithful_of_mem_children fits member

end Siblings

section Leading

/-- The bytes lead to the node at the offset, from child to child. -/
inductive LeadsTo (τ : ValueType) (payload : α) : Bytes → Nat → Prop where
  | root : LeadsTo τ payload [] 0
  | child {bytes : Bytes} {offset : Nat} {byte : UInt8} {below : Nat}
      (leads : LeadsTo τ payload bytes offset) (read : (byte, below) ∈ children τ payload offset) :
      LeadsTo τ payload (bytes ++ [byte]) below

/-- Wherever bytes lead, there stands the trie of the entries below them. -/
theorem holds_of_leadsTo (leads : LeadsTo τ payload bytes offset)
    (fits : (ofEntries reorder entries).Fits)
    (held : Holds payload 0 (ofEntries reorder entries).serialize) :
    (ofEntries reorder (below bytes entries)).Fits ∧
      Holds payload offset (ofEntries reorder (below bytes entries)).serialize := by
  induction leads with
  | root => exact ⟨fits, held⟩
  | @child bytes offset byte place leads read inductionHypothesis =>
      obtain ⟨aboveFits, aboveHeld⟩ := inductionHypothesis
      obtain ⟨⟨other, child⟩, member, same, childHeld⟩ :=
        exists_of_forall₂_left (children_ofEntries aboveFits aboveHeld) read
      simp only at same childHeld
      subst same
      have childFits := aboveFits.of_mem_children member
      obtain ⟨-, -, rfl⟩ := mem_children_ofEntries.mp member
      rw [← below_below]
      exact ⟨childFits, childHeld⟩

theorem siblings_of_leadsTo (leads : LeadsTo τ payload bytes offset)
    (fits : (ofEntries reorder entries).Fits)
    (held : Holds payload 0 (ofEntries reorder entries).serialize) :
    siblings τ payload offset = (ofEntries reorder (below bytes entries)).siblings := by
  obtain ⟨fitsBelow, heldBelow⟩ := holds_of_leadsTo leads fits held
  exact siblings_ofEntries fitsBelow heldBelow

/-- Bytes with which several keys begin lead to a node. -/
theorem exists_leadsTo (fits : (ofEntries reorder entries).Fits)
    (held : Holds payload 0 (ofEntries reorder entries).serialize)
    (several : 2 ≤ sharing entries bytes) : ∃ offset, LeadsTo τ payload bytes offset := by
  induction bytes using List.reverseRecOn with
  | nil => exact ⟨0, .root⟩
  | append_singleton bytes byte inductionHypothesis =>
      rw [← length_below, ← below_below] at several
      have nonempty : tails byte (below bytes entries) ≠ [] := by
        intro none
        rw [below, none] at several
        simp [below] at several
      have above : 2 ≤ (below bytes entries).length := by
        have fewer := sharing_le_length (below bytes entries) [byte]
        rw [← length_below] at fewer
        omega
      obtain ⟨offset, leads⟩ := inductionHypothesis (length_below bytes entries ▸ above)
      obtain ⟨aboveFits, aboveHeld⟩ := holds_of_leadsTo leads fits held
      obtain ⟨⟨other, place⟩, read, same, -⟩ :=
        exists_of_forall₂_left (children_ofEntries aboveFits aboveHeld).flip
          (mem_children_ofEntries.mpr ⟨above, nonempty, rfl⟩)
      simp only at same
      subst same
      exact ⟨place, leads.child read⟩

end Leading

end Trie

end PackedTrie
