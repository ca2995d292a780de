import PackedTrie.Proofs.Build.Counters

/-!
Which branches are kept as bytes only makes no difference to what is built. Builders that differ in
their threshold, or in how often they report, answer every call alike and accept the same entries.
In the end their roots have the same bytes, and their counters agree but for the number of nodes
that were flattened.
-/

namespace PackedTrie

open Entries Node Sequencing

theorem Stats.eq_of_apart_eq {stats others : Stats} (apart : stats.apart = others.apart)
    (closed : ∀ kind, stats.read (.closed kind) = others.read (.closed kind)) :
    { stats with serializedNodes := 0 } = { others with serializedNodes := 0 } := by
  have leaves : stats.leaves = others.leaves := closed .leaf
  have suffixFolds : stats.suffixFolds = others.suffixFolds := closed .suffixLeaf
  have branches : stats.branches = others.branches := closed .branch
  have valueBranches : stats.valueBranches = others.valueBranches := closed .valueBranch
  unfold Stats.apart at apart
  rw [Stats.mk.injEq] at apart ⊢
  grind

namespace Builder

variable {τ : ValueType} {builder after first second : Builder τ}
  {entries : List (Bytes × τ.Value)} {options : Options} {key : Bytes} {value : τ.Value}

section Apart

theorem apart_closeDeepest (closed : closeDeepest builder = .ok () after) :
    after.stats.apart = builder.stats.apart := by
  obtain ⟨byte, node, rest, finished, -, -, rfl⟩ := closeDeepest_eq_ok_iff.mp closed
  rw [stats_attach]
  exact apart_count _ _

theorem apart_closeLast {count : Nat} (closed : closeLast count builder = .ok () after) :
    after.stats.apart = builder.stats.apart := by
  induction count generalizing builder with
  | zero =>
      cases closed
      rfl
  | succ count inductionHypothesis =>
      obtain ⟨_, next, deepest, others⟩ := bind_eq_ok_iff.mp closed
      exact (inductionHypothesis others).trans (apart_closeDeepest deepest)

theorem apart_accept {common : Nat} (taken : accept common key value builder = .ok () after) :
    after.stats.apart =
      { builder.stats.apart with keysAdded := builder.stats.apart.keysAdded + 1 } := by
  obtain ⟨closed, done, rfl⟩ := accept_eq_ok_iff.mp taken
  rw [stats_countKey, stats_setValue, ← apart_closeLast done]
  rfl

end Apart

section Calling

theorem Holding.taken_of_after (holding : builder.Holding entries) {common : Nat}
    (placed : builder.placement key = .after common) (value : τ.Value) :
    Taken builder entries key value (builder.offer (key, value)) := by
  rcases holding.offer_cases key value with taken | turnedDown
  · exact taken
  · obtain ⟨last, latest, notBeyond⟩ := turnedDown.latest
    rw [holding.placement_eq, latest] at placed
    exact absurd (Placement.lt_of_ofKeys_eq_after placed) notBeyond

theorem Taken.result_eq (taken : Taken builder entries key value after) :
    builder.result (key, value) = .ok () := by
  obtain ⟨common, placed, accepted⟩ := taken.accepted
  rw [result, add_of_after placed, accepted]

/-- Two builders that have taken in the same entries and answer in the same way. Their thresholds
may differ, and so may the nodes they have closed. -/
structure Alike (first second : Builder τ) (entries : List (Bytes × τ.Value)) : Prop where
  holding : first.Holding entries
  otherHolding : second.Holding entries
  reorderChildren : first.options.reorderChildren = second.options.reorderChildren
  duplicatePolicy : first.options.duplicatePolicy = second.options.duplicatePolicy
  offered : first.offered = second.offered
  apart : first.stats.apart = second.stats.apart

namespace Alike

theorem called (alike : Alike first second entries) :
    Alike first.called second.called entries :=
  ⟨alike.holding.offer _, alike.otherHolding.offer _, alike.reorderChildren,
    alike.duplicatePolicy, congrArg (· + 1) alike.offered, alike.apart⟩

theorem skipDuplicate (alike : Alike first second entries) (position : Nat) :
    Alike (first.skipDuplicate position) (second.skipDuplicate position) entries :=
  ⟨⟨alike.holding.ascending, alike.holding.held, alike.holding.latest⟩,
    ⟨alike.otherHolding.ascending, alike.otherHolding.held, alike.otherHolding.latest⟩,
    alike.reorderChildren, alike.duplicatePolicy, alike.offered,
    congrArg (fun stats : Stats => { stats with duplicatesSkipped := stats.duplicatesSkipped + 1 })
      alike.apart⟩

theorem taken (alike : Alike first second entries)
    (taken : Taken first entries key value (first.offer (key, value)))
    (otherTaken : Taken second entries key value (second.offer (key, value))) :
    Alike (first.offer (key, value)) (second.offer (key, value)) (entries ++ [(key, value)]) := by
  obtain ⟨common, -, accepted⟩ := taken.accepted
  obtain ⟨otherCommon, -, otherAccepted⟩ := otherTaken.accepted
  have counts := countsKey_accept accepted
  have otherCounts := countsKey_accept otherAccepted
  have called := alike.called
  refine ⟨taken.holding, otherTaken.holding, ?_, ?_, ?_, ?_⟩
  · rw [counts.options, otherCounts.options, called.reorderChildren]
  · rw [counts.options, otherCounts.options, called.duplicatePolicy]
  · rw [counts.offered, otherCounts.offered, called.offered]
  · rw [apart_accept accepted, apart_accept otherAccepted, called.apart]

/-- Both accept the entry, or both turn it down. -/
structure Step (first second : Builder τ) (entries : List (Bytes × τ.Value))
    (entry : Bytes × τ.Value) : Prop where
  result : first.result entry = second.result entry
  offered : (first.accepts entry = true ∧ second.accepts entry = true ∧
      Alike (first.offer entry) (second.offer entry) (entries ++ [entry])) ∨
    (first.accepts entry = false ∧ second.accepts entry = false ∧
      Alike (first.offer entry) (second.offer entry) entries)

theorem step_of_error {error : Error} (alike : Alike first second entries)
    (failed : add key value first = .error error first.called)
    (otherFailed : add key value second = .error error second.called) :
    Step first second entries (key, value) := by
  refine ⟨by simp only [result, failed, otherFailed],
    .inr ⟨by simp only [accepts, failed], by simp only [accepts, otherFailed], ?_⟩⟩
  simpa only [Builder.offer, failed, otherFailed] using alike.called

theorem offer (alike : Alike first second entries) (key : Bytes) (value : τ.Value) :
    Step first second entries (key, value) := by
  have same : second.placement key = first.placement key := by
    rw [alike.holding.placement_eq, alike.otherHolding.placement_eq]
  cases placed : first.placement key with
  | after common =>
      have taken := alike.holding.taken_of_after placed value
      have otherTaken := alike.otherHolding.taken_of_after (same.trans placed) value
      exact ⟨taken.result_eq.trans otherTaken.result_eq.symm,
        .inl ⟨taken.accepts, otherTaken.accepts, alike.taken taken otherTaken⟩⟩
  | before fault =>
      have failed : add key value first = _ := add_of_before placed
      rw [alike.offered] at failed
      exact alike.step_of_error failed (add_of_before (same.trans placed))
  | repeated =>
      have added : add key value first = _ := add_of_repeated placed
      have otherAdded : add key value second = _ := add_of_repeated (same.trans placed)
      rw [alike.duplicatePolicy, alike.offered] at added
      cases policy : second.options.duplicatePolicy with
      | reject =>
          rw [policy] at added otherAdded
          exact alike.step_of_error added otherAdded
      | skip =>
          rw [policy] at added otherAdded
          refine ⟨by simp only [result, added, otherAdded],
            .inr ⟨accepts_eq_false_of_skipped added, accepts_eq_false_of_skipped otherAdded, ?_⟩⟩
          simpa only [Builder.offer, added, otherAdded] using alike.called.skipDuplicate _

theorem offerAll (alike : Alike first second entries) (calls : List (Bytes × τ.Value)) :
    first.results calls = second.results calls ∧ first.accepted calls = second.accepted calls ∧
      Alike (first.offerAll calls) (second.offerAll calls) (entries ++ first.accepted calls) := by
  induction calls generalizing first second entries with
  | nil => exact ⟨rfl, rfl, by rwa [accepted, List.append_nil]⟩
  | cons entry calls inductionHypothesis =>
      obtain ⟨key, value⟩ := entry
      obtain ⟨result, offered⟩ := alike.offer key value
      rw [results, results, accepted, accepted, Builder.offerAll, Builder.offerAll,
        List.foldl_cons, List.foldl_cons, result]
      rcases offered with ⟨accepts, otherAccepts, next⟩ | ⟨accepts, otherAccepts, next⟩
      · obtain ⟨results, accepted, later⟩ := inductionHypothesis next
        rw [if_pos accepts, if_pos otherAccepts, results, accepted, List.append_cons]
        rw [accepted] at later
        exact ⟨rfl, rfl, later⟩
      · obtain ⟨results, accepted, later⟩ := inductionHypothesis next
        rw [accepts, otherAccepts, results]
        exact ⟨rfl, accepted, later⟩

end Alike

end Calling

section Finishing

variable {root : Node τ} {stats : Stats}

theorem apart_finishWithStats (holding : builder.Holding entries)
    (finished : builder.finishWithStats = .ok (root, stats)) :
    stats.apart = { builder.stats.apart with payloadLength := root.length } := by
  obtain ⟨closed, emptied, -, -, -, rfl⟩ := exists_root_of_finishWithStats holding finished
  have kept := (apart_count (closed.root.closing builder.options) closed.stats).trans
    (apart_closeLast emptied)
  rw [← kept]
  rfl

/-- The root is flattened like any other node. -/
theorem isFlat_root (holding : builder.Holding entries)
    (finished : builder.finishWithStats = .ok (root, stats)) :
    root.isFlat = true ↔
      2 ≤ entries.length ∧ root.length < builder.options.serializeThreshold := by
  obtain ⟨closed, -, -, level, decided, -⟩ := exists_root_of_finishWithStats holding finished
  obtain ⟨other, otherStats, otherFinished, bytes⟩ := finishWithStats_holding holding
  cases finished.symm.trans otherFinished
  rw [length_eq_of_serialize_eq bytes]
  exact level.counts_iff holding.ascending decided .flattened

/-- The nodes flattened are those with several keys below them and a short layout. -/
theorem Tallied.serializedNodes_eq (tallied : Tallied options entries (nodes entries) stats) :
    stats.serializedNodes = ((prefixes entries).filter fun bytes =>
      2 ≤ sharing entries bytes ∧
        ∃ node ∈ (ofEntries options.reorderChildren entries).descendant? bytes,
          node.length < options.serializeThreshold).card := by
  refine (tallied .flattened).trans (congrArg Finset.card ?_)
  ext bytes
  simp only [Finset.mem_filter, Counter.CountsFor, length_below]
  constructor
  · rintro ⟨-, several, short⟩
    have leads : bytes ∈ prefixes entries := sharing_pos_iff.mp (by omega)
    exact ⟨leads, several, _, descendant?_ofEntries _ several, short⟩
  · rintro ⟨leads, several, node, found, short⟩
    rw [descendant?_ofEntries _ several] at found
    cases found
    exact ⟨Finset.mem_insert_of_mem leads, several, short⟩

theorem alike_of_ofOptions {others : Options} (made : ofOptions options = .ok first)
    (otherMade : ofOptions others = .ok second)
    (same : { others with
      serializeThreshold := options.serializeThreshold
      progressInterval := options.progressInterval } = options) : Alike first second [] := by
  have start : first.Holding [] := (holding_of_ofOptions made []).1
  have otherStart : second.Holding [] := (holding_of_ofOptions otherMade []).1
  obtain rfl := eq_of_ofOptions_eq_ok made
  obtain rfl := eq_of_ofOptions_eq_ok otherMade
  exact ⟨start, otherStart, (congrArg Options.reorderChildren same).symm,
    (congrArg Options.duplicatePolicy same).symm, rfl, rfl⟩

/-- Builders whose options differ in nothing but the threshold and the interval of progress reports
return the same from every call. Their roots have the same bytes and are of the same kind, and the
counters agree but for the number of flattened nodes. These are the nodes below which there are
several keys and whose layout is shorter than the threshold. -/
theorem threshold_unobservable {others : Options} (made : ofOptions options = .ok first)
    (otherMade : ofOptions others = .ok second)
    (same : { others with
      serializeThreshold := options.serializeThreshold
      progressInterval := options.progressInterval } = options)
    (calls : List (Bytes × τ.Value)) :
    let entries := first.accepted calls
    let trie := ofEntries options.reorderChildren entries
    first.results calls = second.results calls ∧ second.accepted calls = entries ∧
      ∃ root stats otherRoot otherStats,
        (first.offerAll calls).finishWithStats = .ok (root, stats) ∧
        (second.offerAll calls).finishWithStats = .ok (otherRoot, otherStats) ∧
        root.kind = otherRoot.kind ∧ root.length = otherRoot.length ∧
        root.serialize = otherRoot.serialize ∧ root.serialize = trie.serialize ∧
        { stats with serializedNodes := 0 } = { otherStats with serializedNodes := 0 } ∧
        stats.serializedNodes = ((prefixes entries).filter fun bytes =>
          2 ≤ sharing entries bytes ∧
            ∃ node ∈ trie.descendant? bytes, node.length < options.serializeThreshold).card ∧
        (options.serializeThreshold ≤ others.serializeThreshold →
          stats.serializedNodes ≤ otherStats.serializedNodes) ∧
        (root.isFlat = true ↔ 2 ≤ entries.length ∧ root.length < options.serializeThreshold) := by
  intro entries trie
  have reorder : options.reorderChildren = others.reorderChildren :=
    (congrArg Options.reorderChildren same).symm
  obtain ⟨results, accepted, alike⟩ := (alike_of_ofOptions made otherMade same).offerAll calls
  obtain ⟨holding, -, kept⟩ := holding_of_ofOptions made calls
  obtain ⟨otherHolding, -, otherKept⟩ := holding_of_ofOptions otherMade calls
  obtain ⟨root, stats, finished, bytes⟩ := finishWithStats_holding holding
  obtain ⟨otherRoot, otherStats, otherFinished, otherBytes⟩ := finishWithStats_holding otherHolding
  obtain ⟨-, tallied⟩ :=
    finishWithStats_counted holding (counted_of_ofOptions made calls) finished
  obtain ⟨-, otherTallied⟩ :=
    finishWithStats_counted otherHolding (counted_of_ofOptions otherMade calls) otherFinished
  rw [kept] at bytes tallied
  rw [otherKept, ← accepted] at otherBytes otherTallied
  rw [← reorder] at otherBytes
  have agree : root.serialize = otherRoot.serialize := bytes.trans otherBytes.symm
  have flattened := tallied.serializedNodes_eq
  have otherFlattened := otherTallied.serializedNodes_eq
  refine ⟨results, accepted.symm, root, stats, otherRoot, otherStats, finished, otherFinished,
    kind_eq_of_serialize_eq agree, length_eq_of_serialize_eq agree, agree, bytes, ?_, flattened,
    ?_, ?_⟩
  · apply Stats.eq_of_apart_eq
    · rw [apart_finishWithStats holding finished, apart_finishWithStats otherHolding otherFinished,
        alike.apart, length_eq_of_serialize_eq agree]
    · intro kind
      rw [tallied, otherTallied]
      refine congrArg Finset.card (Finset.filter_congr ?_)
      intro bytes _
      rw [Counter.CountsFor, Counter.CountsFor, reorder]
  · intro lower
    rw [flattened, otherFlattened, ← reorder]
    refine Finset.card_le_card (Finset.monotone_filter_right _ ?_)
    rintro bytes - ⟨several, node, found, short⟩
    exact ⟨several, node, found, short.trans_le lower⟩
  · rw [isFlat_root holding finished, kept]

theorem threshold_unobservable_severalCalls :
    let options := { nestedOptions with serializeThreshold := 6 }
    let others := { nestedOptions with serializeThreshold := 64000, progressInterval := 0 }
    let first : Builder .integer := { options }
    let second : Builder .integer := { options := others }
    ofOptions options = .ok first ∧ ofOptions others = .ok second ∧
      { others with serializeThreshold := 6, progressInterval := 2 } = options ∧
      first.results severalCalls = second.results severalCalls ∧
      ∃ root stats otherRoot otherStats,
        (first.offerAll severalCalls).finishWithStats = .ok (root, stats) ∧
        (second.offerAll severalCalls).finishWithStats = .ok (otherRoot, otherStats) ∧
        root.serialize = otherRoot.serialize ∧ stats.serializedNodes = 1 ∧
        otherStats.serializedNodes = 3 ∧ root.isFlat = false ∧ otherRoot.isFlat = true := by
  intro options others first second
  have made : ofOptions options = .ok first := rfl
  have otherMade : ofOptions others = .ok second := rfl
  have same : { others with serializeThreshold := 6, progressInterval := 2 } = options := rfl
  obtain ⟨results, -, root, stats, otherRoot, otherStats, finished, otherFinished, -, -, agree,
    -⟩ := threshold_unobservable made otherMade same severalCalls
  have few : (first.offerAll severalCalls).finishWithStats.toOption.map
      (fun done => (done.2.serializedNodes, done.1.isFlat)) = some (1, false) := by cbv
  have many : (second.offerAll severalCalls).finishWithStats.toOption.map
      (fun done => (done.2.serializedNodes, done.1.isFlat)) = some (3, true) := by cbv
  rw [finished] at few
  rw [otherFinished] at many
  obtain ⟨one, structured⟩ := Prod.mk.inj (Option.some.inj few)
  obtain ⟨three, flat⟩ := Prod.mk.inj (Option.some.inj many)
  exact ⟨made, otherMade, same, results, root, stats, otherRoot, otherStats, finished,
    otherFinished, agree, one, three, structured, flat⟩

end Finishing

end Builder

end PackedTrie
