import Mathlib
import PackedTrie.File.Write
import PackedTrie.Proofs.Node.Layout
import PackedTrie.Proofs.Sequencing

/-!
What arrives in the sink when a node is written out piece by piece. It is the layout of the node,
as if it had been written in one run; where the sink is too small the failure is that of the one
run too. The scratch buffer in which the integers are staged is large enough for each of them.
-/

namespace PackedTrie

open Sequencing

namespace Sink

variable {sink : Sink} {capacity : Nat} {held : Array UInt8}

/-- The sink holds no more than it has room for. -/
def Sound (sink : Sink) : Prop :=
  sink.fits [] = true

theorem sound_unbounded (held : Array UInt8) : Sound ⟨none, held⟩ := rfl

theorem sound_bounded_iff : Sound ⟨some capacity, held⟩ ↔ held.size ≤ capacity := by
  simp [Sound, fits]

theorem put_unbounded (bytes : Bytes) (held : Array UInt8) :
    put bytes ⟨none, held⟩ = .ok () ⟨none, held ++ bytes⟩ := rfl

theorem put_of_le {bytes : Bytes} (fitting : held.size + bytes.length ≤ capacity) :
    put bytes ⟨some capacity, held⟩ = .ok () ⟨some capacity, held ++ bytes⟩ := by
  have whole : bytes.take (capacity - held.size) = bytes := List.take_of_length_le (by omega)
  simp only [put, fits, take, decide_eq_true fitting, if_true, whole]

theorem put_of_lt {bytes : Bytes} (overfull : capacity < held.size + bytes.length) :
    put bytes ⟨some capacity, held⟩ = .error (.io .shortWrite)
      ⟨some capacity, held ++ bytes.take (capacity - held.size)⟩ := by
  simp only [put, fits, take, decide_eq_false (Nat.not_le.mpr overfull), Bool.false_eq_true,
    if_false]

theorem put_nil (sound : sink.Sound) : put [] sink = .ok () sink := by
  obtain ⟨capacity, held⟩ := sink
  cases capacity with
  | none => rw [put_unbounded, Array.appendList_nil]
  | some capacity => rw [put_of_le (sound_bounded_iff.mp sound), Array.appendList_nil]

theorem size_appendList (held : Array UInt8) (bytes : Bytes) :
    (held ++ bytes).size = held.size + bytes.length := by
  rw [← Array.length_toList, Array.toList_appendList, List.length_append, Array.length_toList]

theorem appendList_append (held : Array UInt8) (first second : Bytes) :
    held ++ (first ++ second) = held ++ first ++ second := by
  apply Array.toList_inj.mp
  simp only [Array.toList_appendList, List.append_assoc]

theorem sound_of_put {after : Sink} {bytes : Bytes} (done : put bytes sink = .ok () after) :
    after.Sound := by
  obtain ⟨capacity, held⟩ := sink
  cases capacity with
  | none =>
      cases done
      exact sound_unbounded _
  | some capacity =>
      by_cases fitting : held.size + bytes.length ≤ capacity
      · rw [put_of_le fitting] at done
        cases done
        rw [sound_bounded_iff, size_appendList]
        exact fitting
      · rw [put_of_lt (Nat.not_le.mp fitting)] at done
        contradiction

theorem put_append (first second : Bytes) (sink : Sink) :
    (put first >>= fun _ => put second) sink = put (first ++ second) sink := by
  obtain ⟨capacity, held⟩ := sink
  cases capacity with
  | none =>
      rw [bind_of_ok (put_unbounded first held), put_unbounded, put_unbounded, appendList_append]
  | some capacity =>
      by_cases fitting : held.size + first.length ≤ capacity
      · rw [bind_of_ok (put_of_le fitting)]
        have size : (held ++ first).size = held.size + first.length := size_appendList held first
        by_cases all : held.size + (first ++ second).length ≤ capacity
        · rw [put_of_le all, put_of_le (by simpa [size, Nat.add_assoc] using all),
            appendList_append]
        · have overfull := Nat.not_le.mp all
          have whole : first.take (capacity - held.size) = first :=
            List.take_of_length_le (by omega)
          have room : capacity - held.size - first.length = capacity - (held ++ first).size := by
            omega
          rw [put_of_lt overfull,
            put_of_lt (by simpa [size, Nat.add_assoc] using overfull),
            List.take_append, whole, room, appendList_append]
      · have overfull := Nat.not_le.mp fitting
        rw [bind_of_error (put_of_lt overfull), put_of_lt (by rw [List.length_append]; omega),
          List.take_append_of_le_length (by omega)]

end Sink

namespace Emission

/-- The scratch buffer is as large as is asked for, and the sink is not overfull. -/
structure Ready (emission : Emission) : Prop where
  roomy : Node.minimumScratch ≤ emission.scratch.length
  sound : emission.sink.Sound

/-- What the action does to the sink is to write `bytes`. It may leave anything in the scratch
buffer. -/
def Writes (action : EStateM Error Emission Unit) (bytes : Bytes) : Prop :=
  ∀ sink scratch, Ready ⟨sink, scratch⟩ →
    ∃ left, Node.minimumScratch ≤ left.length ∧ action ⟨sink, scratch⟩ = put bytes ⟨sink, left⟩

variable {first second : EStateM Error Emission Unit} {bytes front back : Bytes}
  {sink : Sink} {scratch : Bytes}

theorem writes_put (bytes : Bytes) : Writes (put bytes) bytes :=
  fun _ scratch ready => ⟨scratch, ready.roomy, rfl⟩

theorem writes_pure : Writes (pure ()) [] := by
  intro sink scratch ready
  refine ⟨scratch, ready.roomy, ?_⟩
  simp only [put, Sink.put_nil ready.sound]
  rfl

theorem Writes.append (writesFront : Writes first front) (writesBack : Writes second back) :
    Writes (first >>= fun _ => second) (front ++ back) := by
  intro sink scratch ready
  obtain ⟨left, roomy, begun⟩ := writesFront sink scratch ready
  cases putting : Sink.put front sink with
  | error error full =>
      have whole : Sink.put (front ++ back) sink = .error error full := by
        rw [← Sink.put_append, bind_of_error putting]
      refine ⟨left, roomy, ?_⟩
      simp only [put, putting] at begun
      rw [bind_of_error begun]
      simp only [put, whole]
  | ok result between =>
      obtain ⟨leftover, stillRoomy, ended⟩ :=
        writesBack between left ⟨roomy, Sink.sound_of_put putting⟩
      have whole : Sink.put (front ++ back) sink = Sink.put back between := by
        rw [← Sink.put_append, bind_of_ok putting]
      refine ⟨leftover, stillRoomy, ?_⟩
      simp only [put, putting] at begun
      rw [bind_of_ok begun, ended]
      simp only [put, whole]

section Staging

theorem length_le_minimumScratch (bits : Nat) {value : Nat} (bounded : value < 2 ^ 64) :
    VarInt.length bits value ≤ Node.minimumScratch :=
  calc
    VarInt.length bits value ≤ 10 + 1 := Nat.succ_le_succ (VarInt.groupCount_le_ten bits bounded)
    _ ≤ Node.minimumScratch := by decide

theorem stage_eq (bits : Nat) {value : Nat} (bounded : value < 2 ^ 64) (sink : Sink)
    (roomy : Node.minimumScratch ≤ scratch.length) :
    stage bits value ⟨sink, scratch⟩ = .ok (VarInt.length bits value)
      ⟨sink, VarInt.encode bits value ++ scratch.drop (VarInt.length bits value)⟩ := by
  have inside : 0 + (VarInt.encode bits value).length ≤ scratch.length := by
    rw [Nat.zero_add, VarInt.length_encode]
    exact Nat.le_trans (length_le_minimumScratch bits bounded) roomy
  have written : VarInt.write? bits value scratch 0 = some (VarInt.length bits value,
      VarInt.encode bits value ++ scratch.drop (VarInt.length bits value)) := by
    rw [VarInt.write?, Bytes.overwrite?, if_pos inside]
    simp only [List.take_zero, List.nil_append, VarInt.length_encode, Nat.zero_add,
      Option.map_some]
  simp only [stage, written]

theorem putStaged_append (bytes rest : Bytes) (sink : Sink) :
    putStaged bytes.length ⟨sink, bytes ++ rest⟩ = put bytes ⟨sink, bytes ++ rest⟩ := by
  have front : (bytes ++ rest).take bytes.length = bytes := List.take_left
  show put ((bytes ++ rest).take bytes.length) ⟨sink, bytes ++ rest⟩ = _
  rw [front]

theorem roomy_of_overlaid (roomy : Node.minimumScratch ≤ scratch.length)
    (inside : bytes.length ≤ scratch.length) :
    Node.minimumScratch ≤ (bytes ++ scratch.drop bytes.length).length := by
  rw [List.length_append, List.length_drop]
  omega

theorem writes_putInteger {value : Nat} (bounded : value < 2 ^ 64) :
    Writes (putInteger value) (VarInt.encode 8 value) := by
  intro sink scratch ready
  have inside : (VarInt.encode 8 value).length ≤ scratch.length := by
    rw [VarInt.length_encode]
    exact Nat.le_trans (length_le_minimumScratch 8 bounded) ready.roomy
  refine ⟨_, roomy_of_overlaid ready.roomy inside, ?_⟩
  rw [putInteger, bind_of_ok (stage_eq 8 bounded sink ready.roomy), ← VarInt.length_encode,
    putStaged_append]

theorem writes_putLead (kind : NodeKind) {number : Nat} (bounded : number < 2 ^ 64) :
    Writes (putLead kind number) (Node.opening kind number) := by
  intro sink scratch ready
  have inside : (Node.opening kind number).length ≤ scratch.length := by
    rw [Node.length_opening]
    exact Nat.le_trans (length_le_minimumScratch Node.leadBits bounded) ready.roomy
  refine ⟨_, roomy_of_overlaid ready.roomy inside, ?_⟩
  have marked : mark kind ⟨sink, VarInt.encode Node.leadBits number ++
        scratch.drop (VarInt.length Node.leadBits number)⟩ =
      .ok () ⟨sink, Node.opening kind number ++
        scratch.drop (Node.opening kind number).length⟩ := by
    rw [Node.length_opening]
    rfl
  rw [putLead, bind_of_ok (stage_eq Node.leadBits bounded sink ready.roomy), bind_of_ok marked,
    ← Node.length_opening kind number, putStaged_append]

end Staging

end Emission

namespace Node

open Emission

variable {τ : ValueType}

mutual

/-- Piece by piece, the layout of the node. -/
theorem writes_emit : (node : Node τ) → node.Fits → Writes node.emit node.serialize
  | .leaf value, fits => by
      rw [emit, serialize_leaf]
      exact (writes_putLead .leaf fits.leaf_headInteger).append (writes_put _)
  | .suffixLeaf value suffix, fits => by
      rw [emit, serialize_suffixLeaf]
      exact (writes_putLead .suffixLeaf fits.suffixLeaf_headInteger).append
        ((writes_put _).append ((writes_putInteger fits.suffix_length).append (writes_put _)))
  | .branch none children, fits => by
      rw [emit, serialize_branch_none]
      exact (writes_putLead .branch fits.contentLength_lt).append
        (writes_emitContent children fits.contentLength_lt)
  | .branch (some value) children, fits => by
      rw [emit, serialize_branch_some]
      exact (writes_putLead .valueBranch fits.branch_headInteger).append
        ((writes_put _).append ((writes_putInteger fits.contentLength_lt).append
          (writes_emitContent children fits.contentLength_lt)))
  | .flat lead body, _ => by
      rw [emit]
      exact writes_put _

theorem writes_emitContent : (children : List (UInt8 × Node τ)) →
    contentLength children < 2 ^ 64 → Writes (emitContent children) (content children)
  | [], _ => by
      rw [emitContent, content_nil]
      exact writes_pure
  | (byte, child) :: rest, bounded => by
      rw [contentLength_cons] at bounded
      have childFits : child.Fits := by
        unfold Fits
        omega
      have restBounded : contentLength rest < 2 ^ 64 := by omega
      rw [emitContent, content_cons]
      exact (writes_put [byte]).append
        ((writes_emit child childFits).append (writes_emitContent rest restBounded))

end

/-- Writing a node is writing its layout in one run. -/
theorem writeTo_eq_put {node : Node τ} (fits : node.Fits) {scratch : Bytes}
    (roomy : minimumScratch ≤ scratch.length) {sink : Sink} (sound : sink.Sound) :
    node.writeTo scratch sink = Sink.put node.serialize sink := by
  obtain ⟨left, -, emitted⟩ := writes_emit node fits sink scratch ⟨roomy, sound⟩
  rw [writeTo, if_neg (Nat.not_lt.mpr roomy), emitted]
  simp only [Emission.put]
  cases Sink.put node.serialize sink <;> rfl

/-- The bytes of a finished trie, with or without a header in front. -/
def document (root : Node τ) (withHeader : Bool) : Bytes :=
  if withHeader then root.header.encode ++ root.serialize else root.serialize

theorem length_document (root : Node τ) (withHeader : Bool) :
    (root.document withHeader).length =
      if withHeader then Header.size + root.length else root.length := by
  cases withHeader with
  | false => exact length_serialize root
  | true =>
      simp only [document, if_true, List.length_append, Header.length_encode, length_serialize]

/-- Writing a trie is writing its bytes in one run. -/
theorem writeTrie_eq {root : Node τ} (fits : root.Fits) (withHeader : Bool) {sink : Sink}
    (sound : sink.Sound) (journal : List Event) :
    root.writeTrie withHeader ⟨sink, journal⟩ =
      match Sink.put (root.document withHeader) sink with
      | .ok _ sink =>
          .ok (root.document withHeader).length ⟨sink, .wrote root.length :: journal⟩
      | .error error sink => .error error ⟨sink, journal⟩ := by
  have body : ∀ {before : Sink}, before.Sound →
      root.writeTo blankScratch before = Sink.put root.serialize before :=
    fun before => writeTo_eq_put fits (by decide) before
  rw [length_document]
  cases withHeader with
  | false =>
      cases putting : Sink.put root.serialize sink <;>
        simp only [writeTrie, document, Bool.false_eq_true, if_false, body sound, putting]
  | true =>
      have headed : (do Sink.put root.header.encode; root.writeTo blankScratch) sink =
          Sink.put (root.header.encode ++ root.serialize) sink := by
        rw [← Sink.put_append]
        cases putting : Sink.put root.header.encode sink with
        | error error full => rw [bind_of_error putting, bind_of_error putting]
        | ok result between =>
            rw [bind_of_ok putting, bind_of_ok putting, body (Sink.sound_of_put putting)]
      cases putting : Sink.put (root.header.encode ++ root.serialize) sink <;>
        simp only [writeTrie, document, if_true, headed, putting]

theorem writeTrie_unbounded {root : Node τ} (fits : root.Fits) (withHeader : Bool)
    (held : Array UInt8) (journal : List Event) :
    root.writeTrie withHeader ⟨⟨none, held⟩, journal⟩ =
      .ok (root.document withHeader).length
        ⟨⟨none, held ++ root.document withHeader⟩, .wrote root.length :: journal⟩ := by
  rw [writeTrie_eq fits withHeader (Sink.sound_unbounded held), Sink.put_unbounded]

end Node

end PackedTrie
