import PackedTrie.Lookup.Graph
import PackedTrie.Proofs.Lookup.Agreement
import PackedTrie.Proofs.Lookup.Reading
import PackedTrie.Proofs.Lookup.Relocation

/-!
Traversals of bytes answer as the node does that was laid out. A node is faithful if this holds of
its bytes wherever they stand; leaves are faithful by reading their fields, branches if their
children are, and flat nodes if a walk through their bytes ends well.
-/

namespace PackedTrie

open Cursor Payload Trie

namespace Node

variable {τ : ValueType}

/-- A node as it can be made: from a value, by moving a leaf up, from children in any order, by
flattening, or from bytes that a walk goes through. -/
inductive Built : Node τ → Prop where
  | leaf (value : τ.Value) : Built (.leaf value)
  | fold {byte : UInt8} {node folded : Node τ} (built : Built node)
      (moved : node.fold byte = .ok folded) : Built folded
  | branch (value : Option τ.Value) (children : List (UInt8 × Node τ))
      (built : ∀ entry ∈ children, Built entry.2) : Built (.branch value children)
  | flatten {node : Node τ} (built : Built node) : Built node.flatten
  | ofBytes {bytes : Bytes} {node : Node τ} (made : ofBytes bytes = .ok node)
      (walked : (⟨bytes⟩ : Trie Bytes τ).walk.outcome = .ok ()) : Built node

/-- Wherever the bytes of the node stand, they are skipped, searched and walked through as the
node is. -/
structure Faithful (node : Node τ) : Prop where
  skipped : ∀ {α : Type} [Payload α] (payload : α) (offset : Nat),
    Holds payload offset node.serialize → skip τ payload offset = .ok (offset + node.length)
  found : ∀ {α : Type} [Payload α] (payload : α) (offset : Nat) (key : Bytes),
    Holds payload offset node.serialize → findFrom τ payload key offset = node.find key
  walked : ∃ visited, node.entries = .ok visited ∧
    ∀ {α : Type} [Payload α] (payload : α) (offset : Nat),
      Holds payload offset node.serialize →
        walkNode τ payload offset = ⟨visited, .ok (offset + node.length)⟩

section Opening

variable {α : Type} [Payload α] {payload : α} {offset : Nat}

theorem opened_leaf {value : τ.Value} (fits : (leaf value).Fits)
    (held : Holds payload offset (leaf value).serialize) :
    Opened τ payload offset [([], value)] (offset + (leaf value).length)
      (offset + (leaf value).length) := by
  have bounded := fits.leaf_headInteger
  rw [serialize_leaf] at held
  rw [length_leaf]
  have kind := kindAt_opening held
  refine .leaf kind (leadValue_opening held bounded) ?_
  simp [tailAt, kind, afterValue_opening held bounded, bind, Except.bind, pure, Except.pure]

theorem opened_suffixLeaf {value : τ.Value} {suffix : Bytes} (fits : (suffixLeaf value suffix).Fits)
    (held : Holds payload offset (suffixLeaf value suffix).serialize) :
    Opened τ payload offset [(suffix, value)] (offset + (suffixLeaf value suffix).length)
      (offset + (suffixLeaf value suffix).length) := by
  have bounded := fits.suffixLeaf_headInteger
  have short := fits.suffix_length
  rw [serialize_suffixLeaf, ← List.append_assoc] at held
  refine .suffixLeaf (kindAt_opening held.left) ?_
  have rest := held.right
  rw [List.length_append, length_opening, ← ValueType.Value.length] at rest
  have region := rest.right.region?
  rw [VarInt.length_encode] at region
  rw [suffixLeafAt_eq_ok_iff]
  refine ⟨_, _, _, leadValue_opening held.left bounded, afterValue_opening held.left bounded,
    integerAt_encode rest.left short, ?_, ?_⟩
  · rw [toNat_toUInt64 short, regionAt, region]
  · rw [toNat_toUInt64 short, length_suffixLeaf]
    omega

theorem opened_branch {value : Option τ.Value} {children : List (UInt8 × Node τ)}
    (fits : (branch value children).Fits)
    (held : Holds payload offset (branch value children).serialize) :
    ∃ start, start + contentLength children = offset + (branch value children).length ∧
      Holds payload start (content children) ∧
      Opened τ payload offset (value.toList.map fun value => ([], value)) start
        (start + contentLength children) := by
  have short := fits.contentLength_lt
  cases value with
  | none =>
      rw [serialize_branch_none] at held
      have below := held.right
      rw [length_opening] at below
      rw [← length_content] at held short below ⊢
      refine ⟨_, ?_, below, .branch (kindAt_opening held) ?_⟩
      · rw [length_branch_none, length_content]
        omega
      · simp [tailAt, kindAt_opening held, blockAt_opening held short, bind, Except.bind]
  | some value =>
      have bounded := fits.branch_headInteger
      rw [serialize_branch_some, ← List.append_assoc] at held
      have rest := held.right
      rw [List.length_append, length_opening, ← ValueType.Value.length] at rest
      have below := rest.right
      rw [VarInt.length_encode] at below
      rw [← length_content] at held short rest below ⊢
      have kind := kindAt_opening held.left
      refine ⟨_, ?_, below, .valueBranch kind (leadValue_opening held.left bounded) ?_⟩
      · rw [length_branch_some, length_content]
        omega
      · simp [tailAt, kind, afterValue_opening held.left bounded, blockAt_encode rest short, bind,
          Except.bind]

end Opening

section Leaf

/-- A node that opens as one entry with nothing below it is faithful. -/
theorem faithful_of_opened_entry {node : Node τ} {suffix : Bytes} {value : τ.Value}
    (opened : ∀ {α : Type} [Payload α] (payload : α) (offset : Nat),
      Holds payload offset node.serialize → Opened τ payload offset [(suffix, value)]
        (offset + node.length) (offset + node.length))
    (find : ∀ key, node.find key = .ok (if key = suffix then some value else none))
    (entries : node.entries = .ok [(suffix, value)]) : Faithful node where
  skipped payload offset held := (opened payload offset held).skip_eq
  found payload offset key held := by
    rw [(opened payload offset held).findFrom_eq, find]
    by_cases same : key = suffix
    · simp [List.lookup, same]
    · have different : (key == suffix) = false := beq_false_of_ne same
      cases key <;> simp [List.lookup, same, different, findBelow_self]
  walked := by
    refine ⟨[(suffix, value)], entries, ?_⟩
    intro α _ payload offset held
    have here := (opened payload offset held).openNode_eq
    have outcome : (openNode τ payload offset).outcome =
        .ok (offset + node.length, offset + node.length) := by rw [here]
    rw [walkNode_of_ok outcome (by rw [walkBlock_self]), here, walkBlock_self]
    rfl

theorem faithful_leaf {value : τ.Value} (fits : (leaf value).Fits) : Faithful (leaf value) :=
  faithful_of_opened_entry (fun _ _ held => opened_leaf fits held)
    (fun key => by simp [Node.find]) (by simp [Node.entries])

theorem faithful_suffixLeaf {value : τ.Value} {suffix : Bytes}
    (fits : (suffixLeaf value suffix).Fits) : Faithful (suffixLeaf value suffix) :=
  faithful_of_opened_entry (fun _ _ held => opened_suffixLeaf fits held)
    (fun key => by simp [Node.find]) (by simp [Node.entries])

end Leaf

section Branch

variable {children : List (UInt8 × Node τ)}

theorem findBelow_content (faithful : ∀ entry ∈ children, Faithful entry.2) {α : Type} [Payload α]
    (payload : α) (start : Nat) (wanted : UInt8) (rest : Bytes)
    (held : Holds payload start (content children)) :
    findBelow τ payload wanted rest start (start + contentLength children) =
      findChild children wanted rest := by
  induction children generalizing start with
  | nil => simp [findBelow_self, findChild]
  | cons entry others inductionHypothesis =>
      obtain ⟨byte, child⟩ := entry
      have childFaithful := faithful (byte, child) (by simp)
      rw [content_cons] at held
      have fetched : byteAt payload start = .ok byte := by simp [byteAt, held.byte?_head]
      have childHeld : Holds payload (start + 1) child.serialize := held.tail.left
      have inside : start < start + contentLength ((byte, child) :: others) := by
        rw [contentLength_cons]
        omega
      rw [findChild]
      by_cases same : byte = wanted
      · rw [if_pos same, findBelow_of_eq inside fetched same]
        exact childFaithful.found payload (start + 1) rest childHeld
      · have othersHeld := held.tail.right
        rw [length_serialize] at othersHeld
        have stop : start + contentLength ((byte, child) :: others) =
            start + 1 + child.length + contentLength others := by
          rw [contentLength_cons]
          omega
        rw [if_neg same, findBelow_of_ne inside fetched same
          (childFaithful.skipped payload (start + 1) childHeld), stop]
        exact inductionHypothesis (fun entry member => faithful entry (by simp [member])) _
          othersHeld

theorem walkBlock_content (faithful : ∀ entry ∈ children, Faithful entry.2) :
    ∃ visited, childEntries children = .ok visited ∧
      ∀ {α : Type} [Payload α] (payload : α) (start : Nat),
        Holds payload start (content children) →
          walkBlock τ payload start (start + contentLength children) = ⟨visited, .ok ()⟩ := by
  induction children with
  | nil =>
      refine ⟨[], by simp [childEntries], ?_⟩
      intro α _ payload start _
      simp [walkBlock_self]
  | cons entry others inductionHypothesis =>
      obtain ⟨byte, child⟩ := entry
      obtain ⟨below, childListed, childWalked⟩ := (faithful (byte, child) (by simp)).walked
      obtain ⟨visited, othersListed, othersWalked⟩ :=
        inductionHypothesis fun entry member => faithful entry (by simp [member])
      refine ⟨Entries.under byte below ++ visited, ?_, ?_⟩
      · simp [childEntries, childListed, othersListed, Entries.under, bind, Except.bind, pure,
          Except.pure]
      · intro α _ payload start held
        rw [content_cons] at held
        have fetched : byteAt payload start = .ok byte := by simp [byteAt, held.byte?_head]
        have othersHeld := held.tail.right
        rw [length_serialize] at othersHeld
        have stop : start + contentLength ((byte, child) :: others) =
            start + 1 + child.length + contentLength others := by
          rw [contentLength_cons]
          omega
        rw [stop, walkBlock_of_lt (by omega) fetched,
          childWalked payload (start + 1) held.tail.left]
        rw [Walk.andThen_of_ok rfl, othersWalked payload _ othersHeld]
        rfl

theorem faithful_branch {value : Option τ.Value} (fits : (branch value children).Fits)
    (faithful : ∀ entry ∈ children, Faithful entry.2) : Faithful (branch value children) where
  skipped payload offset held := by
    obtain ⟨start, stop, -, opened⟩ := opened_branch fits held
    rw [opened.skip_eq, stop]
  found payload offset key held := by
    obtain ⟨start, -, below, opened⟩ := opened_branch fits held
    rw [opened.findFrom_eq]
    cases key with
    | nil => cases value <;> simp [Node.find]
    | cons wanted rest =>
        have different : (wanted :: rest == ([] : Bytes)) = false := rfl
        have searched := findBelow_content faithful payload start wanted rest below
        cases value <;> simp [Node.find, List.lookup, different, searched]
  walked := by
    obtain ⟨visited, listed, walked⟩ := walkBlock_content faithful
    refine ⟨value.toList.map (fun value => ([], value)) ++ visited, ?_, ?_⟩
    · simp [Node.entries, listed, bind, Except.bind, pure, Except.pure]
    · intro α _ payload offset held
      obtain ⟨start, stop, below, opened⟩ := opened_branch fits held
      have outcome : (openNode τ payload offset).outcome =
          .ok (start, start + contentLength children) := by rw [opened.openNode_eq]
      have ended := walked payload start below
      rw [walkNode_of_ok outcome (by rw [ended]), opened.openNode_eq, ended, stop]

end Branch

section Whole

variable {α : Type} [Payload α] {trie : Trie α τ}

theorem outcome_walk_eq_ok_iff :
    trie.walk.outcome = .ok () ↔
      (walkNode τ trie.payload 0).outcome = .ok (size trie.payload) := by
  rw [Trie.walk, Walk.outcome_andThen_eq_ok_iff]
  constructor
  · rintro ⟨stop, walked, ended⟩
    split at ended
    next same => rw [walked, same]
    next different => contradiction
  · intro walked
    exact ⟨_, walked, by simp [Walk.ofResult]⟩

theorem walk_of_outcome_walkNode_eq_ok
    (walked : (walkNode τ trie.payload 0).outcome = .ok (size trie.payload)) :
    trie.walk = ⟨(walkNode τ trie.payload 0).visited, .ok ()⟩ := by
  rw [Trie.walk, Walk.andThen_of_ok walked]
  simp [Walk.ofResult]

theorem entries_of_walk_eq_ok {visited : List (Bytes × τ.Value)}
    (walked : trie.walk = ⟨visited, .ok ()⟩) : trie.entries = .ok visited := by
  rw [Trie.entries, walked]
  rfl

theorem size_toTrie (node : Node τ) : size node.toTrie.payload = node.length :=
  length_serialize node

theorem Faithful.find_toTrie {node : Node τ} (faithful : Faithful node) (key : Bytes) :
    node.toTrie.find key = node.find key :=
  faithful.found node.serialize 0 key (holds_toBytes _)

theorem Faithful.walk_toTrie {node : Node τ} (faithful : Faithful node) :
    ∃ visited, node.entries = .ok visited ∧ node.toTrie.walk = ⟨visited, .ok ()⟩ := by
  obtain ⟨visited, listed, walked⟩ := faithful.walked
  have here : walkNode τ node.toTrie.payload 0 = ⟨visited, .ok (0 + node.length)⟩ :=
    walked node.serialize 0 (holds_toBytes _)
  refine ⟨visited, listed, ?_⟩
  rw [walk_of_outcome_walkNode_eq_ok (by rw [here, size_toTrie, Nat.zero_add]), here]

theorem Faithful.find_eq_ok {node : Node τ} (faithful : Faithful node) (key : Bytes) :
    ∃ answer, node.find key = .ok answer := by
  obtain ⟨visited, -, walked⟩ := faithful.walked
  have own : Holds node.serialize 0 node.serialize := holds_toBytes _
  have ended : (walkNode τ node.serialize 0).outcome = .ok (0 + node.length) := by
    rw [walked node.serialize 0 own]
  obtain ⟨answer, found, -⟩ := answered_of_outcome_walkNode_eq_ok ended key
  exact ⟨answer, by rw [← faithful.found node.serialize 0 key own, found]⟩

end Whole

section Flat

/-- Bytes that a walk goes through are faithful to themselves wherever they are placed. -/
theorem faithful_flat {lead : UInt8} {body : Bytes}
    (walked : ((flat lead body : Node τ).toTrie).walk.outcome = .ok ()) :
    Faithful (flat lead body : Node τ) := by
  have ended := outcome_walk_eq_ok_iff.mp walked
  have listed := entries_of_walk_eq_ok (walk_of_outcome_walkNode_eq_ok ended)
  rw [size_toTrie] at ended
  refine ⟨?_, ?_, (walkNode τ (flat lead body : Node τ).toTrie.payload 0).visited, ?_, ?_⟩
  · intro α _ payload offset held
    exact skip_carries held 0 _ (skip_of_outcome_walkNode_eq_ok ended)
  · intro α _ payload offset key held
    obtain ⟨answer, found, -⟩ := answered_of_outcome_walkNode_eq_ok ended key
    rw [Node.find, Trie.find, found]
    exact findFrom_carries held key 0 answer found
  · rw [Node.entries, listed]
  · intro α _ payload offset held
    exact (walkNode_extends held 0).finished _ ended

theorem Faithful.flatten {node : Node τ} (faithful : Faithful node) : Faithful node.flatten := by
  obtain ⟨visited, listed, placed⟩ := faithful.walked
  obtain ⟨again, listedAgain, walked⟩ := faithful.walk_toTrie
  have same : again = visited := by
    rw [listed] at listedAgain
    exact (Except.ok.inj listedAgain).symm
  refine ⟨?_, ?_, visited, ?_, ?_⟩
  · intro α _ payload offset held
    rw [length_flatten]
    exact faithful.skipped payload offset held
  · intro α _ payload offset key held
    rw [faithful.found payload offset key held]
    exact (faithful.find_toTrie key).symm
  · rw [Node.flatten, Node.entries, ← same]
    exact entries_of_walk_eq_ok walked
  · intro α _ payload offset held
    rw [length_flatten]
    exact placed payload offset held

end Flat

theorem fold_eq_ok {byte : UInt8} {node folded : Node τ} (moved : node.fold byte = .ok folded) :
    ∃ value suffix, folded = suffixLeaf value suffix := by
  cases node with
  | leaf value =>
      cases moved
      exact ⟨value, [byte], rfl⟩
  | suffixLeaf value suffix =>
      cases moved
      exact ⟨value, byte :: suffix, rfl⟩
  | branch value children => contradiction
  | flat lead body => contradiction

theorem Built.faithful {node : Node τ} (built : Built node) (fits : node.Fits) :
    Faithful node := by
  induction built with
  | leaf value => exact faithful_leaf fits
  | fold built moved _ =>
      obtain ⟨value, suffix, rfl⟩ := fold_eq_ok moved
      exact faithful_suffixLeaf fits
  | branch value children built inductionHypothesis =>
      exact faithful_branch fits fun entry member =>
        inductionHypothesis entry member (fits.of_mem member)
  | @flatten node built inductionHypothesis =>
      rw [Fits, length_flatten] at fits
      exact (inductionHypothesis fits).flatten
  | @ofBytes bytes node made walked =>
      cases bytes with
      | nil => contradiction
      | cons lead body =>
          cases made
          exact faithful_flat walked

/-- The bytes of a node are searched and walked through as its graph is: a leaf holds only its own
key, a branch leads each key to its first child under the key's first byte, and the entries come in
the order of the layout. A search succeeds for every key. -/
theorem traversals_eq_graph {node : Node τ} (built : Built node) (fits : node.Fits) :
    (∀ key, ∃ answer, node.find key = .ok answer ∧ node.toTrie.find key = .ok answer) ∧
      ∃ visited, node.entries = .ok visited ∧ node.toTrie.walk = ⟨visited, .ok ()⟩ := by
  have faithful := built.faithful fits
  refine ⟨?_, faithful.walk_toTrie⟩
  intro key
  obtain ⟨answer, found⟩ := faithful.find_eq_ok key
  exact ⟨answer, found, by rw [faithful.find_toTrie, found]⟩

/-- A branch with a value and two children under one byte, the first of them flattened; of a third
child there are only bytes, with an integer that is longer than it has to be. -/
def mixedNode : Node .integer :=
  .branch (some (300 : UInt64))
    [(0x61, (branch none [(0x62, suffixLeaf (5 : UInt64) [0x63])]).flatten),
      (0x61, .leaf (7 : UInt64)), (0x00, .flat 0xA3 [0x7A, 0x00, 0x85])]

theorem traversals_eq_graph_mixedNode :
    mixedNode.Built ∧ mixedNode.Fits ∧
      (∀ key, ∃ answer, mixedNode.find key = .ok answer ∧
        mixedNode.toTrie.find key = .ok answer) ∧
      ∃ visited, mixedNode.entries = .ok visited ∧ mixedNode.toTrie.walk = ⟨visited, .ok ()⟩ := by
  have folded : (suffixLeaf (τ := .integer) (5 : UInt64) [0x63]).Built :=
    .fold (.leaf (5 : UInt64)) rfl
  have made : ofBytes [0xA3, 0x7A, 0x00, 0x85] =
      .ok (flat 0xA3 [0x7A, 0x00, 0x85] : Node .integer) := rfl
  have walked : (⟨[0xA3, 0x7A, 0x00, 0x85]⟩ : Trie Bytes .integer).walk.outcome = .ok () := by
    cbv
  have built : mixedNode.Built := by
    refine .branch _ _ ?_
    intro entry member
    simp only [List.mem_cons, List.not_mem_nil, or_false] at member
    rcases member with rfl | rfl | rfl
    · exact .flatten (.branch _ _ fun entry member => List.mem_singleton.mp member ▸ folded)
    · exact .leaf _
    · exact .ofBytes made walked
  have fits : mixedNode.Fits := by
    show mixedNode.length < 2 ^ 64
    decide +kernel
  exact ⟨built, fits, traversals_eq_graph built fits⟩

end Node

end PackedTrie
