import PackedTrie.Proofs.Node.Emission

/-!
Writing to a sink of fixed size. Whatever the sink has no room for is missing at the end and
nowhere else: many small writes go into it, and the first that fails is the last.
-/

namespace PackedTrie

namespace Sink

theorem put_bounded (bytes : Bytes) (capacity : Nat) :
    put bytes { capacity := some capacity } =
      if bytes.length ≤ capacity then .ok () ⟨some capacity, (bytes.take capacity).toArray⟩
      else .error (.io .shortWrite) ⟨some capacity, (bytes.take capacity).toArray⟩ := by
  have empty : (#[] : Array UInt8).size = 0 := rfl
  by_cases fitting : bytes.length ≤ capacity
  · rw [if_pos fitting, put_of_le (by omega), List.take_of_length_le fitting]
    simp
  · rw [if_neg fitting, put_of_lt (by omega)]
    simp

theorem sound_bounded (capacity : Nat) : Sound { capacity := some capacity } :=
  sound_bounded_iff.mpr (Nat.zero_le capacity)

end Sink

namespace Node

variable {τ : ValueType}

/-- Writing a trie into a sink of fixed size leaves the bytes there that fit, from the first on,
whether the header is among them or not. If all of them fit, their number is returned, and if not
the failure is that the sink is full. Writing the root alone does the same with the bytes of the
root, whatever the scratch buffer. -/
theorem writeTrie_cut_off {root : Node τ} (fits : root.Fits) (withHeader : Bool) (capacity : Nat)
    (journal : List Event) :
    let document := if withHeader then root.header.encode ++ root.serialize else root.serialize
    (root.writeTrie withHeader ⟨{ capacity := some capacity }, journal⟩ =
      if document.length ≤ capacity then
        .ok document.length
          ⟨⟨some capacity, (document.take capacity).toArray⟩, .wrote root.length :: journal⟩
      else
        .error (.io .shortWrite) ⟨⟨some capacity, (document.take capacity).toArray⟩, journal⟩) ∧
    ∀ scratch, minimumScratch ≤ scratch.length →
      root.writeTo scratch { capacity := some capacity } =
        if root.serialize.length ≤ capacity then
          .ok () ⟨some capacity, (root.serialize.take capacity).toArray⟩
        else
          .error (.io .shortWrite) ⟨some capacity, (root.serialize.take capacity).toArray⟩ := by
  intro document
  constructor
  · have bytes : root.document withHeader = document := rfl
    rw [writeTrie_eq fits withHeader (Sink.sound_bounded capacity), bytes, Sink.put_bounded]
    by_cases fitting : document.length ≤ capacity
    · rw [if_pos fitting, if_pos fitting]
    · rw [if_neg fitting, if_neg fitting]
  · intro scratch roomy
    rw [writeTo_eq_put fits roomy (Sink.sound_bounded capacity), Sink.put_bounded]

/-- A branch above a leaf and a leaf with a suffix. -/
def pairedLeaves : Node .bytes :=
  .branch none [(0x61, .leaf [1, 2]), (0x62, .suffixLeaf [3] [0x63, 0x64])]

theorem writeTrie_cut_off_pairedLeaves :
    pairedLeaves.Fits ∧
      pairedLeaves.writeTrie true ⟨{ capacity := some 22 }, []⟩ =
        .error (.io .shortWrite)
          ⟨⟨some 22, (pairedLeaves.header.encode ++ [0xAA, 0x61, 0x22, 1, 2, 0x62]).toArray⟩, []⟩ ∧
      pairedLeaves.writeTrie true ⟨{ capacity := some 27 }, []⟩ =
        .ok 27 ⟨⟨some 27, (pairedLeaves.header.encode ++ pairedLeaves.serialize).toArray⟩,
          [.wrote 11]⟩ ∧
      pairedLeaves.writeTo (List.replicate 64 0xFF) { capacity := some 8 } =
        .error (.io .shortWrite)
          ⟨some 8, #[0xAA, 0x61, 0x22, 1, 2, 0x62, 0x61, 3]⟩ := by
  have fits : pairedLeaves.Fits := by
    show pairedLeaves.length < 2 ^ 64
    decide +kernel
  obtain ⟨cut, -⟩ := writeTrie_cut_off fits true 22 []
  obtain ⟨whole, -⟩ := writeTrie_cut_off fits true 27 []
  obtain ⟨-, alone⟩ := writeTrie_cut_off fits false 8 []
  exact ⟨fits, cut.trans (by cbv), whole.trans (by cbv), (alone _ (by decide)).trans (by cbv)⟩

end Node

end PackedTrie
