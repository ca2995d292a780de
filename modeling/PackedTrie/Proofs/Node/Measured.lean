import PackedTrie.Node.Measured
import PackedTrie.Proofs.Node.Emission

/-!
Nodes that keep the length of their children block are written as if nothing were kept. The number
that a branch was made with is the length of its block, so the length at hand is the number of bytes
written, in whichever way they are written; and it makes no difference which of the nodes below
were flattened before.
-/

namespace PackedTrie.Measured

open Emission

variable {τ : ValueType} {node other folded : Measured τ}
  {children others : List (UInt8 × Measured τ)}

/-- A node as it can be made: from a value, by moving a leaf up, from measured children, by
flattening, or from any bytes. -/
inductive Made : Measured τ → Prop where
  | leaf (value : τ.Value) : Made (.leaf value)
  | fold {byte : UInt8} {node folded : Measured τ} (made : Made node)
      (moved : node.fold byte = .ok folded) : Made folded
  | ofChildren (value : Option τ.Value) (children : List (UInt8 × Measured τ))
      (made : ∀ entry ∈ children, Made entry.2) : Made (ofChildren value children)
  | flatten {node : Measured τ} (made : Made node) : Made node.flatten
  | ofBytes {bytes : Bytes} {node : Measured τ} (done : ofBytes bytes = .ok node) : Made node

mutual

/-- The second node is the first one after some of the nodes in it were flattened. -/
inductive Flattens : Measured τ → Measured τ → Prop where
  | keep (node : Measured τ) : Flattens node node
  | inside (value : Option τ.Value) {children others : List (UInt8 × Measured τ)}
      (each : FlattensEach children others) :
      Flattens (ofChildren value children) (ofChildren value others)
  | flatten {node other : Measured τ} (flattens : Flattens node other) :
      Flattens node other.flatten

inductive FlattensEach : List (UInt8 × Measured τ) → List (UInt8 × Measured τ) → Prop where
  | nil : FlattensEach [] []
  | cons (byte : UInt8) {child other : Measured τ} {children others : List (UInt8 × Measured τ)}
      (first : Flattens child other) (rest : FlattensEach children others) :
      FlattensEach ((byte, child) :: children) ((byte, other) :: others)

end

section Keeping

/-- What is at hand at the node is true of the node without the lengths it keeps. -/
structure Accurate (node : Measured τ) : Prop where
  length : node.length = node.node.length
  emit : node.emit = node.node.emit

theorem kind_node (node : Measured τ) : node.node.kind = node.kind := by
  rcases node with _ | _ | ⟨_ | _, _, _⟩ | _ <;> rfl

theorem accurate_leaf (value : τ.Value) : Accurate (.leaf value) :=
  ⟨(Node.length_leaf value).symm, by rw [emit, node, Node.emit]⟩

theorem accurate_suffixLeaf (value : τ.Value) (suffix : Bytes) :
    Accurate (.suffixLeaf value suffix) :=
  ⟨(Node.length_suffixLeaf value suffix).symm, by rw [emit, node, Node.emit]⟩

theorem accurate_flat (lead : UInt8) (body : Bytes) : Accurate (.flat lead body : Measured τ) :=
  ⟨by rw [length, node, Node.length], by rw [emit, node, Node.emit]⟩

theorem contentLength_nodes (accurate : ∀ entry ∈ children, Accurate entry.2) :
    Node.contentLength (nodes children) = contentLength children := by
  induction children with
  | nil => rw [nodes, Node.contentLength_nil, contentLength, List.foldr_nil]
  | cons entry rest inductionHypothesis =>
      obtain ⟨byte, child⟩ := entry
      have kept := (accurate (byte, child) List.mem_cons_self).length
      rw [nodes, Node.contentLength_cons, contentLength, List.foldr_cons, ← contentLength, ← kept,
        inductionHypothesis fun entry member => accurate entry (List.mem_cons_of_mem _ member)]

theorem emitContent_nodes (accurate : ∀ entry ∈ children, Accurate entry.2) :
    emitContent children = Node.emitContent (nodes children) := by
  induction children with
  | nil => rw [emitContent, nodes, Node.emitContent]
  | cons entry rest inductionHypothesis =>
      obtain ⟨byte, child⟩ := entry
      have kept := (accurate (byte, child) List.mem_cons_self).emit
      rw [emitContent, nodes, Node.emitContent, kept,
        inductionHypothesis fun entry member => accurate entry (List.mem_cons_of_mem _ member)]

theorem accurate_ofChildren (value : Option τ.Value)
    (accurate : ∀ entry ∈ children, Accurate entry.2) : Accurate (ofChildren value children) := by
  have measured := contentLength_nodes accurate
  have written := emitContent_nodes accurate
  cases value with
  | none =>
      constructor
      · rw [ofChildren, length, node, Node.length_branch_none, measured]
      · rw [ofChildren, emit, node, Node.emit, measured, written]
  | some value =>
      constructor
      · rw [ofChildren, length, node, Node.length_branch_some, measured]
      · rw [ofChildren, emit, node, Node.emit, measured, written]

theorem accurate_flatten (accurate : Accurate node) : Accurate node.flatten := by
  unfold flatten
  split
  · exact accurate_flat _ _
  · split
    · exact accurate
    · exact accurate_flat _ _

theorem fold_eq_ok {byte : UInt8} (moved : node.fold byte = .ok folded) :
    ∃ value suffix, folded = suffixLeaf value suffix := by
  cases node with
  | leaf value =>
      cases moved
      exact ⟨value, [byte], rfl⟩
  | suffixLeaf value suffix =>
      cases moved
      exact ⟨value, byte :: suffix, rfl⟩
  | branch value children contentLength => contradiction
  | flat lead body => contradiction

theorem Made.accurate (made : Made node) : Accurate node := by
  induction made with
  | leaf value => exact accurate_leaf value
  | fold _ moved _ =>
      obtain ⟨value, suffix, rfl⟩ := fold_eq_ok moved
      exact accurate_suffixLeaf value suffix
  | ofChildren value children _ inductionHypothesis =>
      exact accurate_ofChildren value inductionHypothesis
  | flatten _ inductionHypothesis => exact accurate_flatten inductionHypothesis
  | @ofBytes bytes node done =>
      cases bytes with
      | nil => contradiction
      | cons lead body =>
          cases done
          exact accurate_flat lead body

end Keeping

section Writing

theorem Accurate.writeTo_eq (accurate : Accurate node) : node.writeTo = node.node.writeTo := by
  funext scratch sink
  rw [writeTo, accurate.emit]
  rfl

variable (accurate : Accurate node) (fits : node.node.Fits)

include accurate fits

theorem Accurate.appendTo_eq (buffer : Array UInt8) :
    node.appendTo buffer = buffer ++ node.node.serialize := by
  have roomy : Node.minimumScratch ≤ Node.blankScratch.length := by decide
  have written := Node.writeTo_eq_put fits roomy (Sink.sound_unbounded buffer)
  rw [appendTo, accurate.writeTo_eq, written, Sink.put_unbounded]

theorem Accurate.serialize_eq : node.serialize = node.node.serialize := by
  rw [serialize, accurate.appendTo_eq fits, Array.toList_appendList, List.nil_append]

theorem Accurate.node_flatten : node.flatten.node = node.node.flatten := by
  have bytes := accurate.serialize_eq fits
  cases node with
  | flat lead body => rfl
  | leaf | suffixLeaf | branch =>
      rw [flatten, bytes]
      · rfl
      · exact nofun

end Writing

section Flattening

theorem Made.of_mem {value : Option τ.Value} {contentLength : Nat}
    (made : Made (.branch value children contentLength)) :
    ∀ entry ∈ children, Made entry.2 := by
  generalize same : branch value children contentLength = node at made
  induction made with
  | leaf => contradiction
  | fold _ moved _ =>
      obtain ⟨value, suffix, rfl⟩ := fold_eq_ok moved
      contradiction
  | ofChildren value children made _ =>
      cases same
      exact made
  | flatten _ inductionHypothesis =>
      unfold Measured.flatten at same
      split at same
      · contradiction
      · split at same
        · exact inductionHypothesis same
        · contradiction
  | @ofBytes bytes node done =>
      cases bytes with
      | nil => contradiction
      | cons lead body =>
          cases done
          contradiction

mutual

/-- Whichever nodes inside are flattened, the bytes stay the same. -/
theorem Flattens.same : {node other : Measured τ} → Flattens node other → Made node →
    node.node.Fits → Made other ∧ other.node.serialize = node.node.serialize
  | _, _, .keep _, made, _ => ⟨made, rfl⟩
  | _, _, .inside value each, made, fits => by
      obtain ⟨othersMade, same⟩ := each.same made.of_mem fits.contentLength_lt
      exact ⟨.ofChildren value _ othersMade, Node.serialize_branch_congr value same⟩
  | _, _, .flatten flattens, made, fits => by
      obtain ⟨otherMade, same⟩ := flattens.same made fits
      rw [Node.Fits, ← Node.length_eq_of_serialize_eq same] at fits
      refine ⟨.flatten otherMade, ?_⟩
      rw [otherMade.accurate.node_flatten fits, Node.serialize_flatten, same]

theorem FlattensEach.same : {children others : List (UInt8 × Measured τ)} →
    FlattensEach children others → (∀ entry ∈ children, Made entry.2) →
    Node.contentLength (nodes children) < 2 ^ 64 → (∀ entry ∈ others, Made entry.2) ∧
      Node.flattenChildren (nodes others) = Node.flattenChildren (nodes children)
  | _, _, .nil, made, _ => ⟨made, rfl⟩
  | _, _, .cons byte first rest, made, bounded => by
      rw [nodes, Node.contentLength_cons] at bounded
      obtain ⟨childMade, othersMade⟩ := List.forall_mem_cons.mp made
      obtain ⟨otherMade, same⟩ := first.same childMade (by unfold Node.Fits; omega)
      obtain ⟨restMade, sameRest⟩ := rest.same othersMade (by omega)
      refine ⟨List.forall_mem_cons.mpr ⟨otherMade, restMade⟩, ?_⟩
      rw [nodes, nodes, Node.flattenChildren_cons, Node.flattenChildren_cons, sameRest,
        Node.flatten_eq_iff.mpr same]

end

/-- The length that is kept is the number of bytes written, which are those of the layout, whether
they go to a new buffer, behind what a buffer holds, or through any scratch buffer to a sink. The
first of them tells the kind of the node. And flattening some of the nodes inside changes neither
the length nor the kind nor the bytes. -/
theorem emission_agrees (made : node.Made) (fits : node.length < 2 ^ 64) :
    (node.length = node.node.length ∧ node.kind = node.node.kind ∧
      node.serialize = node.node.serialize ∧ node.writeTo = node.node.writeTo) ∧
    node.serialize.length = node.length ∧
    (∀ buffer, node.appendTo buffer = buffer ++ node.serialize) ∧
    (∀ scratch held, Node.minimumScratch ≤ scratch.length →
      node.writeTo scratch ⟨none, held⟩ = .ok () ⟨none, held ++ node.serialize⟩) ∧
    (∃ lead body, node.serialize = lead :: body ∧ NodeKind.ofLead lead = node.kind) ∧
    ∀ other, Flattens node other → other.length = node.length ∧ other.kind = node.kind ∧
      other.serialize = node.serialize := by
  have accurate := made.accurate
  rw [accurate.length] at fits
  have bytes := accurate.serialize_eq fits
  refine ⟨⟨accurate.length, (kind_node node).symm, bytes, accurate.writeTo_eq⟩, ?_, ?_, ?_, ?_, ?_⟩
  · rw [bytes, Node.length_serialize, accurate.length]
  · intro buffer
    rw [accurate.appendTo_eq fits, bytes]
  · intro scratch held roomy
    rw [accurate.writeTo_eq, Node.writeTo_eq_put fits roomy (Sink.sound_unbounded held), bytes,
      Sink.put_unbounded]
  · refine ⟨_, _, bytes, ?_⟩
    rw [Node.ofLead_lead, kind_node]
  · intro other flattens
    obtain ⟨otherMade, same⟩ := flattens.same made fits
    have otherFits : other.node.Fits := by
      rw [Node.Fits, Node.length_eq_of_serialize_eq same]
      exact fits
    refine ⟨?_, ?_, ?_⟩
    · rw [otherMade.accurate.length, Node.length_eq_of_serialize_eq same, accurate.length]
    · rw [← kind_node, Node.kind_eq_of_serialize_eq same, kind_node]
    · rw [otherMade.accurate.serialize_eq otherFits, same, bytes]

/-- A branch with a value above a branch with a folded leaf, and bytes that are no node. -/
def nestedBranch : Measured .bytes :=
  ofChildren (some [1, 2]) [(0x61, ofChildren none [(0x62, .suffixLeaf [] [0x63])]),
    (0x00, .flat 0xFF [0x00])]

/-- The same with the branch inside flattened. -/
def flatBranch : Measured .bytes :=
  ofChildren (some [1, 2]) [(0x61, (ofChildren none [(0x62, .suffixLeaf [] [0x63])]).flatten),
    (0x00, .flat 0xFF [0x00])]

theorem emission_agrees_nestedBranch :
    nestedBranch.Made ∧ nestedBranch.length < 2 ^ 64 ∧ Flattens nestedBranch flatBranch ∧
      nestedBranch.serialize =
        [0xE2, 1, 2, 0x89, 0x61, 0xA4, 0x62, 0x60, 0x81, 0x63, 0x00, 0xFF, 0x00] ∧
      nestedBranch.length = 13 ∧
      nestedBranch.writeTo (List.replicate 64 0xFF) ⟨none, #[7]⟩ =
        .ok () ⟨none, (#[7] : Array UInt8) ++ nestedBranch.serialize⟩ ∧
      flatBranch.length = 13 ∧ flatBranch.serialize = nestedBranch.serialize := by
  have folded : (suffixLeaf (τ := .bytes) [] [0x63]).Made := .fold (.leaf []) rfl
  have inside : (ofChildren (τ := .bytes) none [(0x62, .suffixLeaf [] [0x63])]).Made :=
    .ofChildren _ _ fun entry member => List.mem_singleton.mp member ▸ folded
  have taken : ofBytes [0xFF, 0x00] = .ok (flat 0xFF [0x00] : Measured .bytes) := rfl
  have bytes := Made.ofBytes taken
  have made : nestedBranch.Made := by
    refine .ofChildren _ _ ?_
    intro entry member
    simp only [List.mem_cons, List.not_mem_nil, or_false] at member
    rcases member with rfl | rfl
    · exact inside
    · exact bytes
  have flattens : Flattens nestedBranch flatBranch :=
    .inside _ (.cons _ (.flatten (.keep _)) (.cons _ (.keep _) .nil))
  have length : nestedBranch.length = 13 := by cbv
  have fits : nestedBranch.length < 2 ^ 64 := by
    rw [length]
    decide
  obtain ⟨⟨-, -, layout, -⟩, -, -, written, -, same⟩ := emission_agrees made fits
  obtain ⟨sameLength, -, sameBytes⟩ := same flatBranch flattens
  exact ⟨made, fits, flattens, layout.trans (by cbv), length,
    written _ _ (by decide), sameLength.trans length, sameBytes⟩

end Flattening

end PackedTrie.Measured
