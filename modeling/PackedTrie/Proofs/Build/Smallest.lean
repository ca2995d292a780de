import PackedTrie.Proofs.Build.RoundTrip
import PackedTrie.Proofs.Lookup.Extent
import PackedTrie.Proofs.Lookup.Siblings

/-!
A built trie is the smallest one. Its bytes are walked through well and without ambiguity, and no
other bytes of which this is true and from which the same entries come are fewer.
-/

namespace PackedTrie

open Cursor Entries Node Payload

namespace Trie

variable {α : Type} [Payload α] {τ : ValueType} {payload : α} {offset : Nat}
  {reorder : Bool} {entries : List (Bytes × τ.Value)}

/-- The trie is walked through well and holds exactly the entries, in whatever order, and none of
its branches has two children under one byte. -/
structure Encodes (trie : Trie α τ) (entries : List (Bytes × τ.Value)) : Prop where
  walked : trie.walk.outcome = .ok ()
  visited : trie.walk.visited.Perm entries
  unambiguous : trie.Unambiguous

theorem Encodes.length_ofEntries_le {trie : Trie α τ} (encodes : trie.Encodes entries)
    (ascending : Ascending entries) (reorder : Bool) :
    (ofEntries reorder entries).length ≤ size trie.payload := by
  have filled := outcome_walk_eq_ok_iff.mp encodes.walked
  have extent : NodeExtent reorder τ trie.payload 0 (size trie.payload) :=
    encodes.unambiguous.nodeExtent filled
  have same := encodes.visited
  rw [visited_walk] at same
  rw [NodeExtent, Nat.zero_add, length_ofEntries_of_perm reorder reorder ascending same] at extent
  exact extent

theorem unambiguousFrom_of_lt_two (few : entries.length < 2)
    (fits : (ofEntries reorder entries).Fits)
    (held : Holds payload offset (ofEntries reorder entries).serialize) :
    UnambiguousFrom τ payload offset := by
  have none := children_ofEntries fits held
  rw [children_ofEntries_of_lt_two reorder few] at none
  exact unambiguousFrom_of_children_eq_nil (List.forall₂_nil_right_iff.mp none)

/-- Wherever the bytes of a list's trie stand, the groups of each branch are under bytes of their
own. -/
theorem unambiguousFrom_ofEntries (fits : (ofEntries reorder entries).Fits)
    (held : Holds payload offset (ofEntries reorder entries).serialize) :
    UnambiguousFrom τ payload offset := by
  induction entries using entries_induction generalizing offset with
  | nil => exact unambiguousFrom_of_lt_two (by simp) fits held
  | single key value => exact unambiguousFrom_of_lt_two (by simp) fits held
  | several entries several inductionHypothesis =>
      have related := children_ofEntries fits held
      rw [unambiguousFrom_iff, DistinctBytes, map_fst_of_readAs related]
      constructor
      · rw [children_ofEntries_of_two_le reorder several]
        exact List.pairwise_map.mpr (distinct_arrange_groupTries entries)
      · intro byte child read
        obtain ⟨⟨other, node⟩, member, -, childHeld⟩ := exists_of_forall₂_left related read
        have childFits := fits.of_mem_children member
        obtain ⟨-, nonempty, rfl⟩ := mem_children_ofEntries.mp member
        exact inductionHypothesis (other, tails other entries) (mem_groups.mpr ⟨rfl, nonempty⟩)
          childFits childHeld

end Trie

namespace Builder

open Trie

variable {τ : ValueType} {entries : List (Bytes × τ.Value)}

/-- A built trie encodes its entries, and nothing that does has fewer bytes. -/
theorem rootOf_smallest {options : Options} (valid : 1 ≤ options.serializeThreshold)
    (ascending : Ascending entries) :
    ∃ root, rootOf options entries = .ok root ∧ (root.Fits → root.toTrie.Encodes entries) ∧
      ∀ {α : Type} [Payload α] (trie : Trie α τ), trie.Encodes entries →
        root.serialize.length ≤ size trie.payload := by
  obtain ⟨root, built, bytes⟩ := exists_rootOf_eq_ok valid ascending
  refine ⟨root, built, ?_, ?_⟩
  · intro fits
    obtain ⟨visited, walked, enumerates⟩ := exists_walk_of_bytes ascending fits bytes
    refine ⟨by rw [walked], by rw [walked]; exact enumerates.perm, ?_⟩
    rw [Fits, length_eq_of_serialize_eq bytes] at fits
    have held : Payload.Holds root.toTrie.payload 0 root.serialize := holds_toBytes _
    rw [bytes] at held
    exact unambiguousFrom_ofEntries fits held
  · intro α _ trie encodes
    rw [bytes, length_serialize]
    exact encodes.length_ofEntries_le ascending _

/-- An integer with a leading zero, a branch that could be a suffix, children in descending order,
and a branch without children. -/
def roundabout : Trie Bytes .integer :=
  ⟨[0xA9, 0x63, 0x00, 0x85, 0x61, 0xA2, 0x62, 0x27, 0x64, 0xA0]⟩

def parted : List (Bytes × ValueType.integer.Value) :=
  [([0x61, 0x62], (7 : UInt64)), ([0x63], (5 : UInt64))]

theorem encodes_roundabout : roundabout.Encodes parted where
  walked := by cbv
  visited := by
    have visited : roundabout.walk.visited =
        [([0x63], (5 : UInt64)), ([0x61, 0x62], (7 : UInt64))] := by cbv
    rw [visited]
    exact List.Perm.swap _ _ _
  unambiguous := by
    have root : (openNode .integer roundabout.payload 0).outcome = .ok (1, 10) := by cbv
    have first : (walkNode .integer roundabout.payload 2).outcome = .ok 4 := by cbv
    have second : (walkNode .integer roundabout.payload 5).outcome = .ok 8 := by cbv
    have third : (walkNode .integer roundabout.payload 9).outcome = .ok 10 := by cbv
    have inner : (openNode .integer roundabout.payload 5).outcome = .ok (6, 8) := by cbv
    have leaf : (walkNode .integer roundabout.payload 7).outcome = .ok 8 := by cbv
    have read : children .integer roundabout.payload 0 = [(0x63, 2), (0x61, 5), (0x64, 9)] := by
      rw [children_of_ok root, childrenRead_of_ok (by decide) rfl first,
        childrenRead_of_ok (by decide) rfl second, childrenRead_of_ok (by decide) rfl third,
        childrenRead_of_le le_rfl]
    have below : children .integer roundabout.payload 5 = [(0x62, 7)] := by
      rw [children_of_ok inner, childrenRead_of_ok (by decide) rfl leaf, childrenRead_of_le le_rfl]
    have chain : UnambiguousFrom .integer roundabout.payload 5 := by
      rw [unambiguousFrom_iff, DistinctBytes, below]
      refine ⟨List.nodup_singleton _, ?_⟩
      intro byte child member
      cases List.mem_singleton.mp member
      exact unambiguousFrom_of_children_eq_nil (by cbv)
    rw [Unambiguous, unambiguousFrom_iff, DistinctBytes, read]
    refine ⟨by decide, ?_⟩
    intro byte child member
    simp only [List.mem_cons, List.not_mem_nil, or_false, Prod.mk.injEq] at member
    rcases member with ⟨-, rfl⟩ | ⟨-, rfl⟩ | ⟨-, rfl⟩
    · exact unambiguousFrom_of_children_eq_nil (by cbv)
    · exact chain
    · exact unambiguousFrom_of_children_eq_nil (by cbv)

theorem rootOf_smallest_roundabout :
    1 ≤ nestedOptions.serializeThreshold ∧ Ascending parted ∧ roundabout.Encodes parted ∧
      ∃ root, rootOf nestedOptions parted = .ok root ∧ root.serialize.length = 7 ∧
        root.toTrie.Encodes parted ∧ root.serialize.length ≤ size roundabout.payload := by
  have valid : 1 ≤ nestedOptions.serializeThreshold := by decide
  have ascending : Ascending parted := by decide
  have measured : (rootOf nestedOptions parted).toOption.map Node.length = some 7 := by cbv
  obtain ⟨root, built, encodes, least⟩ := rootOf_smallest valid ascending
  have fits := fits_of_length built measured (by decide)
  rw [built] at measured
  exact ⟨valid, ascending, encodes_roundabout, root, built,
    (length_serialize root).trans (Option.some.inj measured), encodes fits,
    least roundabout encodes_roundabout⟩

end Builder

end PackedTrie
