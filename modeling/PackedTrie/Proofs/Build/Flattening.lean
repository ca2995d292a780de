import PackedTrie.Proofs.Build.Closing

/-!
Closing a node when some of its children are flat. Of a flat child the kind and the length are read
off its bytes, so it is decided upon as it was before it was flattened, and what is closed has the
same bytes and is counted in the same way. Only the suffix of a leaf is no longer at hand when the
leaf is flat: a node that such a leaf would have to be moved into cannot be closed.
-/

namespace PackedTrie

open Node

namespace Node

variable {τ : ValueType} {node : Node τ} {byte : UInt8} {error : Error}

theorem fold_eq_error_iff_of_isLeaf (leaf : node.kind.isLeaf = true) :
    node.fold byte = .error error ↔
      ∃ lead body, node = .flat lead body ∧ error = .internal (.notFoldable (.ofLead lead)) := by
  cases node with
  | leaf value => simp [fold]
  | suffixLeaf value suffix => simp [fold]
  | branch value children => simp [isLeaf_kind_branch] at leaf
  | flat lead body => simp [fold, kind, eq_comm]

@[simp] theorem kind_flatten (node : Node τ) : node.flatten.kind = node.kind :=
  kind_eq_of_serialize_eq (serialize_flatten node)

end Node

namespace Closing

variable {τ : ValueType} {closing other : Closing τ} {error : Error}

theorem node_eq_error_iff : closing.node = .error error ↔
    ∃ byte child, closing = .fold byte child ∧ child.fold byte = .error error := by
  cases closing <;> simp [node]

/-- The second child is the first one, or is left of it as its bytes. -/
def Kept (child other : UInt8 × Node τ) : Prop :=
  other.1 = child.1 ∧ (other.2 = child.2 ∨ other.2 = child.2.flatten)

/-- Two decisions that differ only in how the nodes below are kept. -/
inductive Alike : Closing τ → Closing τ → Prop where
  | leaf (value : τ.Value) : Alike (.leaf value) (.leaf value)
  | fold (byte : UInt8) {child other : Node τ} (kept : other = child ∨ other = child.flatten) :
      Alike (.fold byte child) (.fold byte other)
  | branch (value : Option τ.Value) {children others : List (UInt8 × Node τ)} (flattened : Bool)
      (same : flattenChildren others = flattenChildren children) :
      Alike (.branch value children flattened) (.branch value others flattened)

theorem length_branch_congr (value : Option τ.Value) {children others : List (UInt8 × Node τ)}
    (same : flattenChildren others = flattenChildren children) :
    (Node.branch value others).length = (Node.branch value children).length :=
  length_eq_of_serialize_eq (serialize_branch_congr value same)

theorem Alike.record_eq (alike : Alike closing other) (report : Report) :
    other.record report = closing.record report := by
  cases alike with
  | leaf value => rfl
  | fold byte kept => rfl
  | @branch value children others flattened same =>
      have kinds : (Node.branch value others).kind = (Node.branch value children).kind :=
        kind_eq_of_serialize_eq (serialize_branch_congr value same)
      cases flattened with
      | false => rfl
      | true =>
          simp only [record, event?, kinds, length_branch_congr value same]
          rfl

theorem Alike.serialize_eq (alike : Alike closing other) {closed otherClosed : Node τ}
    (done : closing.node = .ok closed) (otherDone : other.node = .ok otherClosed) :
    otherClosed.serialize = closed.serialize ∧ otherClosed.isFlat = closed.isFlat := by
  cases alike with
  | leaf value =>
      cases done
      cases otherDone
      exact ⟨rfl, rfl⟩
  | @fold byte child other kept =>
      rcases kept with rfl | rfl
      · cases done.symm.trans otherDone
        exact ⟨rfl, rfl⟩
      · contradiction
  | @branch value children others flattened same =>
      cases done
      cases otherDone
      cases flattened with
      | false => exact ⟨serialize_branch_congr value same, rfl⟩
      | true => exact ⟨serialize_branch_congr value same, rfl⟩

theorem flattenChildren_eq_of_kept {children others : List (UInt8 × Node τ)}
    (kept : List.Forall₂ Kept children others) :
    flattenChildren others = flattenChildren children := by
  induction kept with
  | nil => rfl
  | @cons child other children others first _ inductionHypothesis =>
      obtain ⟨byte, node⟩ := child
      obtain ⟨otherByte, otherNode⟩ := other
      obtain ⟨same, kept⟩ := first
      simp only at same kept
      subst same
      have flat : otherNode.flatten = node.flatten := by
        rcases kept with rfl | rfl
        · rfl
        · exact flatten_flat _ _
      rw [flattenChildren_cons, flattenChildren_cons, inductionHypothesis, flat]

end Closing

namespace OpenNode

open Closing

variable {τ : ValueType} {node other : OpenNode τ} {error : Error} {report after : Report}

/-- The other node has the same value and the same children, some or all of them flattened. -/
structure SomeFlattened (node other : OpenNode τ) : Prop where
  value : other.value = node.value
  children : List.Forall₂ Kept node.children other.children

theorem closingBranch_alike (options : Options) (value : Option τ.Value)
    {children others : List (UInt8 × Node τ)} (kept : List.Forall₂ Kept children others) :
    Alike (closingBranch options value children) (closingBranch options value others) := by
  have same := flattenChildren_eq_of_kept kept
  have arranged : flattenChildren (arrange options.reorderChildren others) =
      flattenChildren (arrange options.reorderChildren children) := by
    rw [flattenChildren_arrange, flattenChildren_arrange, same]
  have short := length_branch_congr value arranged
  unfold arrange at arranged short
  simp only [closingBranch, short]
  exact .branch value _ arranged

theorem SomeFlattened.closing_alike (flattened : SomeFlattened node other) (options : Options) :
    Alike (node.closing options) (other.closing options) := by
  obtain ⟨value, children⟩ := node
  obtain ⟨otherValue, others⟩ := other
  obtain ⟨same, kept⟩ := flattened
  simp only at same kept
  subst same
  cases otherValue with
  | some value =>
      cases kept with
      | nil => exact .leaf value
      | cons first rest => exact closingBranch_alike options _ (.cons first rest)
  | none =>
      cases kept with
      | nil => exact .branch none false rfl
      | @cons child other children others first rest =>
          cases rest with
          | cons second rest =>
              exact closingBranch_alike options _ (.cons first (.cons second rest))
          | nil =>
              -- a flat child is of the same kind, so it is folded if the other one is
              obtain ⟨byte, child⟩ := child
              obtain ⟨otherByte, other⟩ := other
              obtain ⟨same, kept⟩ := first
              simp only at same kept
              subst same
              have kinds : other.kind = child.kind := by
                rcases kept with rfl | rfl
                · rfl
                · exact kind_flatten child
              simp only [closing, kinds]
              split
              · exact .fold _ kept
              · exact closingBranch_alike options _ (.cons ⟨rfl, kept⟩ .nil)

theorem closing_eq_fold_iff {options : Options} {byte : UInt8} {child : Node τ} :
    node.closing options = .fold byte child ↔
      node.value = none ∧ node.children = [(byte, child)] ∧ child.kind.isLeaf = true := by
  obtain ⟨value, children⟩ := node
  rcases value with _ | value <;> rcases children with _ | ⟨⟨first, only⟩, _ | ⟨second, others⟩⟩
  case none.cons.nil =>
    by_cases leaf : only.kind.isLeaf = true
    · simp only [closing, leaf, if_true, Closing.fold.injEq, List.cons.injEq, Prod.mk.injEq,
        and_true, true_and]
      constructor
      · rintro ⟨rfl, rfl⟩
        exact ⟨⟨rfl, rfl⟩, leaf⟩
      · exact And.left
    · simp only [closing, leaf, if_false, closingBranch, reduceCtorEq, false_iff,
        List.cons.injEq, Prod.mk.injEq, and_true, true_and]
      rintro ⟨⟨rfl, rfl⟩, folded⟩
      exact leaf folded
  all_goals simp [closing, closingBranch]

theorem close_eq_error_iff {options : Options} :
    node.close options report = .error error after ↔
      (node.closing options).node = .error error ∧
        after = (node.closing options).record report := by
  rw [close]
  cases (node.closing options).node with
  | error other => simp [eq_comm]
  | ok closed => simp

/-- Closing fails in one case: a flat leaf is the only child of a node without a value. -/
theorem closing_node_eq_error_iff (options : Options) :
    (node.closing options).node = .error error ↔
      node.value = none ∧ ∃ byte lead body, node.children = [(byte, .flat lead body)] ∧
        (NodeKind.ofLead lead).isLeaf = true ∧ error = .internal (.notFoldable (.ofLead lead)) := by
  rw [node_eq_error_iff]
  constructor
  · rintro ⟨byte, child, folding, failed⟩
    obtain ⟨value, children, leaf⟩ := closing_eq_fold_iff.mp folding
    obtain ⟨lead, body, rfl, which⟩ := (fold_eq_error_iff_of_isLeaf leaf).mp failed
    exact ⟨value, byte, lead, body, children, leaf, which⟩
  · rintro ⟨value, byte, lead, body, children, leaf, which⟩
    have folded : (Node.flat lead body : Node τ).kind.isLeaf = true := leaf
    exact ⟨byte, .flat lead body, closing_eq_fold_iff.mpr ⟨value, children, folded⟩,
      (fold_eq_error_iff_of_isLeaf folded).mpr ⟨lead, body, rfl, which⟩⟩

example :
    let only : Node .integer := (Node.leaf 7).flatten
    ({ children := [(97, only)] } : OpenNode .integer).close {} {} =
      .error (.internal (.notFoldable .leaf)) { stats := { suffixFolds := 1 } } := by cbv

/-- Closing fails if the only child of a node without a value is a flat leaf, and in no other case.
Whether children are flat shows in nothing else: if a node closes and still does with some of its
children flattened, then the bytes and the kind are the same, and so is all that is counted and
told. -/
theorem close_indifferent_to_flattening (options : Options) {node other : OpenNode τ}
    (flattened : SomeFlattened node other) (report : Report) :
    (∀ error after, node.close options report = .error error after ↔
      (node.value = none ∧ ∃ byte lead body, node.children = [(byte, .flat lead body)] ∧
        (NodeKind.ofLead lead).isLeaf = true ∧
        error = .internal (.notFoldable (.ofLead lead))) ∧
      after = { report with
        stats := { report.stats with suffixFolds := report.stats.suffixFolds + 1 } }) ∧
    ∀ closed otherClosed after otherAfter, node.close options report = .ok closed after →
      other.close options report = .ok otherClosed otherAfter →
      otherClosed.serialize = closed.serialize ∧ otherClosed.kind = closed.kind ∧
        otherClosed.isFlat = closed.isFlat ∧ otherAfter = after := by
  refine ⟨fun error after => ?_, fun closed otherClosed after otherAfter done otherDone => ?_⟩
  · rw [close_eq_error_iff, ← closing_node_eq_error_iff options]
    refine and_congr_right fun failed => ?_
    obtain ⟨byte, child, folding, -⟩ := node_eq_error_iff.mp failed
    rw [folding]
    rfl
  · obtain ⟨made, rfl⟩ := close_eq_ok_iff.mp done
    obtain ⟨otherMade, rfl⟩ := close_eq_ok_iff.mp otherDone
    have alike := flattened.closing_alike options
    obtain ⟨bytes, flat⟩ := alike.serialize_eq made otherMade
    exact ⟨bytes, kind_eq_of_serialize_eq bytes, flat, alike.record_eq report⟩

theorem close_indifferent_to_flattening_longerSecond :
    let options : Options := { reorderChildren := true, serializeThreshold := 64 }
    let short : Node .integer := .leaf 7
    let long : Node .integer := .suffixLeaf 300 [120, 121]
    let node : OpenNode .integer := { children := [(97, short), (98, long)] }
    let other : OpenNode .integer := { children := [(97, short), (98, long.flatten)] }
    ∃ closed otherClosed after, SomeFlattened node other ∧
      node.close options {} = .ok closed after ∧ other.close options {} = .ok otherClosed after ∧
      otherClosed.serialize = closed.serialize ∧ closed.isFlat = true ∧
      after.stats.branches = 1 ∧ after.stats.serializedNodes = 1 := by
  intro options short long node other
  have flattened : SomeFlattened node other :=
    ⟨rfl, .cons ⟨rfl, .inl rfl⟩ (.cons ⟨rfl, .inr rfl⟩ .nil)⟩
  have decided : node.closing options = .branch none [(98, long), (97, short)] true := by cbv
  obtain ⟨closed, after, done, flat, branches, serialized⟩ :
      ∃ closed after, node.close options {} = .ok closed after ∧ closed.isFlat = true ∧
        after.stats.branches = 1 ∧ after.stats.serializedNodes = 1 := by
    rw [close, decided]
    exact ⟨_, _, rfl, rfl, rfl, rfl⟩
  obtain ⟨otherClosed, otherAfter, otherDone⟩ :
      ∃ otherClosed otherAfter, other.close options {} = .ok otherClosed otherAfter :=
    ⟨_, _, rfl⟩
  obtain ⟨-, agree⟩ := close_indifferent_to_flattening options flattened {}
  obtain ⟨bytes, -, -, rfl⟩ := agree _ _ _ _ done otherDone
  exact ⟨closed, otherClosed, otherAfter, flattened, done, otherDone, bytes, flat, branches,
    serialized⟩

end OpenNode

end PackedTrie
