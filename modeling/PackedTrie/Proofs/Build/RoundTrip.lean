import PackedTrie.Proofs.Build.Intake

/-!
What was built is read back. A search in the bytes of a built trie finds each of its entries and
nothing else, and a walk through them visits the entries; so different lists build different bytes,
and a list that was read back builds the same bytes again.
-/

namespace PackedTrie.Builder

open Entries Node

variable {τ : ValueType} {builder : Builder τ} {entries : List (Bytes × τ.Value)}

theorem valid_of_rootOf_eq_ok {options : Options} {root : Node τ}
    (built : rootOf options entries = .ok root) : 1 ≤ options.serializeThreshold := by
  cases made : (ofOptions options : Except Error (Builder τ)) with
  | ok start => exact valid_of_ofOptions_eq_ok made
  | error error => simp [rootOf, made, bind, Except.bind] at built

theorem faithful_of_bytes {root : Node τ} {reorder : Bool} (fits : root.Fits)
    (bytes : root.serialize = (ofEntries reorder entries).serialize) :
    root.toTrie = (ofEntries reorder entries).toTrie ∧ (ofEntries reorder entries).Faithful := by
  rw [Fits, length_eq_of_serialize_eq bytes] at fits
  exact ⟨congrArg Trie.mk bytes, (built_ofEntries reorder entries).faithful fits⟩

theorem fits_of_length {options : Options} {root : Node τ} {length : Nat}
    (built : rootOf options entries = .ok root)
    (measured : (rootOf options entries).toOption.map Node.length = some length)
    (short : length < 2 ^ 64) : root.Fits := by
  rw [built] at measured
  rw [Fits, Option.some.inj measured]
  exact short

/-- A built trie finds every key that was stored, with its value, and no other key; a search never
fails. -/
theorem find_rootOf {options : Options} (valid : 1 ≤ options.serializeThreshold)
    (ascending : Ascending entries) :
    ∃ root, rootOf options entries = .ok root ∧ (root.Fits → ∀ key,
      (∀ value, (key, value) ∈ entries → root.toTrie.find key = .ok (some value)) ∧
        ((∀ value, (key, value) ∉ entries) → root.toTrie.find key = .ok none)) := by
  obtain ⟨root, built, bytes⟩ := exists_rootOf_eq_ok valid ascending
  refine ⟨root, built, ?_⟩
  intro fits key
  obtain ⟨same, faithful⟩ := faithful_of_bytes fits bytes
  have found : root.toTrie.find key = .ok (entries.lookup key) := by
    rw [same, faithful.find_toTrie, find_ofEntries]
  constructor
  · intro value member
    rw [found, ascending.lookup_eq_some member]
  · intro absent
    rw [found, lookup_eq_none_of_not_mem absent]

theorem find_rootOf_nested :
    1 ≤ nestedOptions.serializeThreshold ∧ Ascending nestedEntries ∧
      ∃ root, rootOf nestedOptions nestedEntries = .ok root ∧ root.Fits ∧ ∀ key,
        (∀ value, (key, value) ∈ nestedEntries → root.toTrie.find key = .ok (some value)) ∧
          ((∀ value, (key, value) ∉ nestedEntries) → root.toTrie.find key = .ok none) := by
  have valid : 1 ≤ nestedOptions.serializeThreshold := by decide
  have measured : (rootOf nestedOptions nestedEntries).toOption.map Node.length = some 20 := by cbv
  obtain ⟨root, built, found⟩ := find_rootOf valid ascending_nested
  have fits := fits_of_length built measured (by decide)
  exact ⟨valid, ascending_nested, root, built, fits, found fits⟩

section Rebuilding

theorem entries_ofPairs {V : Type} (pairs : List (Bytes × V)) :
    Item.entries (Source.items (Source.ofPairs pairs).steps) = pairs := by
  rw [Item.entries, Source.items, Source.ofPairs, List.map_map, List.filterMap_map]
  calc
    (pairs.zipIdx 1).filterMap (some ∘ Prod.fst) = (pairs.zipIdx 1).map Prod.fst := by
      rw [List.filterMap_eq_map]
    _ = pairs := List.zipIdx_map_fst 1 pairs

theorem fault_not_mem_ofPairs {V : Type} (pairs : List (Bytes × V)) (error : Error) :
    .fault error ∉ Source.items (Source.ofPairs pairs).steps := by
  intro member
  rw [Source.items, Source.ofPairs, List.map_map] at member
  obtain ⟨pair, -, contradictory⟩ := List.mem_map.mp member
  contradiction

theorem payloadOfPairs_eq_ok (ascending : Ascending entries) (report : Report) :
    ∃ after, payloadOfPairs entries report = .ok (ofEntries false entries).serialize after := by
  have listed := entries_ofPairs entries
  have smooth : Item.Smooth DuplicatePolicy.reject (Source.items (Source.ofPairs entries).steps)
      (Source.ofPairs entries).steps.length := by
    apply Item.smooth_of_ascending (fault_not_mem_ofPairs entries)
    rwa [listed]
  obtain ⟨read, root, after, built, bytes⟩ :=
    build_of_smooth (holding_start ({} : Options) report) rfl smooth
  rw [Item.climbing, listed, ascending.destutter_climbs] at bytes
  refine ⟨after.report, ?_⟩
  simp only [payloadOfPairs, built, bytes]

end Rebuilding

theorem exists_walk_of_bytes (ascending : Ascending entries) {root : Node τ} {reorder : Bool}
    (fits : root.Fits) (bytes : root.serialize = (ofEntries reorder entries).serialize) :
    ∃ visited, root.toTrie.walk = ⟨visited, .ok ()⟩ ∧ Enumerates reorder visited entries := by
  obtain ⟨same, faithful⟩ := faithful_of_bytes fits bytes
  obtain ⟨visited, listed, enumerates⟩ := entries_ofEntries reorder ascending
  obtain ⟨below, belowListed, walked⟩ := faithful.walk_toTrie
  cases listed.symm.trans belowListed
  exact ⟨visited, by rw [same, walked], enumerates⟩

/-- Lists that build the same bytes are the same: what is visited in the bytes is a rearrangement of
both, and there is only one in ascending order. -/
theorem eq_of_serialize_eq {first second : List (Bytes × τ.Value)} {firstRoot secondRoot : Node τ}
    {firstOptions secondOptions : Options} (fits : firstRoot.Fits)
    (firstAscending : Ascending first) (secondAscending : Ascending second)
    (firstBuilt : rootOf firstOptions first = .ok firstRoot)
    (secondBuilt : rootOf secondOptions second = .ok secondRoot)
    (same : secondRoot.serialize = firstRoot.serialize) : second = first := by
  obtain ⟨root, built, firstBytes⟩ :=
    exists_rootOf_eq_ok (valid_of_rootOf_eq_ok firstBuilt) firstAscending
  cases firstBuilt.symm.trans built
  obtain ⟨root, built, secondBytes⟩ :=
    exists_rootOf_eq_ok (valid_of_rootOf_eq_ok secondBuilt) secondAscending
  cases secondBuilt.symm.trans built
  obtain ⟨visited, walked, ofFirst⟩ := exists_walk_of_bytes firstAscending fits firstBytes
  obtain ⟨others, othersWalked, ofSecond⟩ :=
    exists_walk_of_bytes secondAscending fits (same.symm.trans secondBytes)
  cases walked.symm.trans othersWalked
  refine (ofSecond.perm.symm.trans ofFirst.perm).eq_of_pairwise ?_ secondAscending firstAscending
  intro left right _ _ below above
  exact absurd (List.lt_trans below above) (List.lt_irrefl _)

/-- A walk through a built trie visits its entries, in their order unless children were put in
another one; no other list builds the same bytes, and the entries as visited in their order build
them once more. -/
theorem walk_rootOf {options : Options} (valid : 1 ≤ options.serializeThreshold)
    (ascending : Ascending entries) :
    ∃ root, rootOf options entries = .ok root ∧ (root.Fits →
      (∃ visited, root.toTrie.walk = ⟨visited, .ok ()⟩ ∧ root.toTrie.entries = .ok visited ∧
        root.toTrie.entryCount = .ok entries.length ∧ visited.Perm entries ∧
          (options.reorderChildren = false → visited = entries ∧ ∀ report, ∃ after,
            payloadOfPairs visited report = .ok root.serialize after)) ∧
        ∀ otherOptions other otherRoot, Ascending other →
          rootOf otherOptions other = .ok otherRoot → otherRoot.serialize = root.serialize →
            other = entries) := by
  obtain ⟨root, built, bytes⟩ := exists_rootOf_eq_ok valid ascending
  refine ⟨root, built, ?_⟩
  intro fits
  obtain ⟨visited, walked, enumerates⟩ := exists_walk_of_bytes ascending fits bytes
  have listed : root.toTrie.entries = .ok visited := entries_of_walk_eq_ok walked
  refine ⟨⟨visited, walked, listed, ?_, enumerates.perm, ?_⟩, ?_⟩
  · rw [Trie.entryCount, listed, ← enumerates.perm.length_eq]
    rfl
  · intro kept
    have inOrder := enumerates.same kept
    refine ⟨inOrder, ?_⟩
    intro report
    rw [inOrder, bytes, kept]
    exact payloadOfPairs_eq_ok ascending report
  · intro otherOptions other otherRoot otherAscending otherBuilt same
    exact eq_of_serialize_eq fits ascending otherAscending built otherBuilt same

theorem walk_rootOf_nested :
    1 ≤ { nestedOptions with reorderChildren := false }.serializeThreshold ∧
      Ascending nestedEntries ∧
      ∃ root, rootOf { nestedOptions with reorderChildren := false } nestedEntries = .ok root ∧
        root.Fits ∧ root.toTrie.walk = ⟨nestedEntries, .ok ()⟩ ∧
          root.toTrie.entries = .ok nestedEntries ∧ root.toTrie.entryCount = .ok 6 ∧
            (∀ report, ∃ after, payloadOfPairs nestedEntries report = .ok root.serialize after) ∧
              ∀ otherOptions other otherRoot, Ascending other →
                rootOf otherOptions other = .ok otherRoot → otherRoot.serialize = root.serialize →
                  other = nestedEntries := by
  have valid : 1 ≤ { nestedOptions with reorderChildren := false }.serializeThreshold := by decide
  have measured : (rootOf { nestedOptions with reorderChildren := false }
      nestedEntries).toOption.map Node.length = some 20 := by cbv
  obtain ⟨root, built, read⟩ := walk_rootOf valid ascending_nested
  have fits := fits_of_length built measured (by decide)
  obtain ⟨⟨visited, walked, listed, counted, -, kept⟩, only⟩ := read fits
  obtain ⟨rfl, rebuilt⟩ := kept rfl
  exact ⟨valid, ascending_nested, root, built, fits, walked, listed, counted, rebuilt, only⟩

end PackedTrie.Builder
