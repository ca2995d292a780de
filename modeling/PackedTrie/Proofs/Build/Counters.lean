import PackedTrie.Proofs.Build.Order
import PackedTrie.Proofs.Build.Tally

/-!
What the counters of a build count. A node is closed once, when the input moves past the keys that
begin with the bytes which lead to it. So at any time each counter tells how many nodes of its kind
there are among those that no longer lead to the latest key, and at the end how many there are in
the whole trie.
-/

namespace PackedTrie.Builder

open Entries Node Sequencing

variable {τ : ValueType} {builder after start : Builder τ} {entries : List (Bytes × τ.Value)}
  {options : Options} {bytes : Bytes}

section Closing

/-- The counters tell what was closed: the nodes that no longer lead to the open key. -/
structure Counted (builder : Builder τ) (entries : List (Bytes × τ.Value)) : Prop where
  leads : builder.openKey ∈ nodes entries
  keysAdded : builder.stats.keysAdded = entries.length
  tallied : Tallied builder.options entries (closedNodes entries builder.openKey) builder.stats

theorem descend_eq_below {V : Type} (path : Bytes) (entries : List (Bytes × V)) :
    descend path entries = below path.reverse entries := by
  induction path with
  | nil => rfl
  | cons byte path inductionHypothesis =>
      rw [descend, inductionHypothesis, List.reverse_cons, ← below_below]
      rfl

@[simp] theorem stats_attach (builder : Builder τ) (byte : UInt8) (child : Node τ) :
    (builder.attach byte child).stats = builder.stats := by
  unfold attach
  split <;> rfl

theorem holds_of_closeDeepest (ascending : Ascending entries) (held : builder.Holds entries)
    (closed : closeDeepest builder = .ok () after) :
    after.openKey = builder.openKey.dropLast ∧ after.Holds entries := by
  obtain ⟨byte, node, rest, finished, path, -⟩ := closeDeepest_eq_ok_iff.mp closed
  obtain ⟨other, done, -, shorter, otherHeld⟩ :=
    closeDeepest_holds ascending held (path ▸ List.cons_ne_nil _ rest)
  cases closed.symm.trans done
  exact ⟨shorter, otherHeld⟩

theorem closeDeepest_counted (ascending : Ascending entries) (held : builder.Holds entries)
    (counted : builder.Counted entries) (closed : closeDeepest builder = .ok () after) :
    after.Counted entries := by
  have counts := sameCounts_closeDeepest closed
  have shorter := (holds_of_closeDeepest ascending held closed).1
  obtain ⟨byte, node, rest, finished, path, done, rfl⟩ := closeDeepest_eq_ok_iff.mp closed
  refine ⟨?_, counts.keysAdded.trans counted.keysAdded, ?_⟩
  · rw [shorter]
    exact mem_nodes_of_isPrefix counted.leads (List.dropLast_prefix _)
  · rw [shorter, counts.options]
    have openKey_eq : builder.openKey = (byte :: rest.map Prod.fst).reverse := by
      simp [openKey, path]
    have deeper : builder.openKey ≠ [] := by simp [openKey_eq]
    rw [Holds, path] at held
    obtain ⟨level, -⟩ := held
    rw [descend_eq_below, ← openKey_eq] at level
    rw [closedNodes_dropLast counted.leads deeper, stats_attach]
    apply counted.tallied.insert
    · simp [closedNodes]
    · exact level.read_count (ascending_below ascending _) done builder.stats

theorem closeLast_counted {count : Nat} (ascending : Ascending entries)
    (held : builder.Holds entries) (counted : builder.Counted entries)
    (closed : closeLast count builder = .ok () after) : after.Counted entries := by
  induction count generalizing builder with
  | zero =>
      cases closed
      exact counted
  | succ count inductionHypothesis =>
      obtain ⟨_, next, deepest, others⟩ := bind_eq_ok_iff.mp closed
      have nextHeld := (holds_of_closeDeepest ascending held deepest).2
      exact inductionHypothesis nextHeld (closeDeepest_counted ascending held counted deepest)
        others

end Closing

section Calling

variable {key : Bytes} {value : τ.Value}

theorem mem_nodes_append :
    bytes ∈ nodes (entries ++ [(key, value)]) ↔ bytes ∈ nodes entries ∨ bytes <+: key := by
  simp only [nodes, Finset.mem_insert, mem_prefixes, keys_append, List.mem_append]
  constructor
  · rintro (rfl | ⟨other, before | same, begins⟩)
    · exact .inl (.inl rfl)
    · exact .inl (.inr ⟨other, before, begins⟩)
    · rw [List.mem_singleton.mp same] at begins
      exact .inr begins
  · rintro ((rfl | ⟨other, before, begins⟩) | begins)
    · exact .inl rfl
    · exact .inr ⟨other, .inl before, begins⟩
    · exact .inr ⟨key, .inr (List.mem_singleton_self key), begins⟩

theorem Holding.latest_cases (holding : builder.Holding entries) :
    (builder.hasPrevious = false ∧ entries = [] ∧ builder.path = []) ∨
      (builder.hasPrevious = true ∧ lastKey? entries = some builder.openKey) := by
  rcases holding.latest with first | ⟨previous, earlier, value, same⟩
  · exact .inl first
  · exact .inr ⟨previous, by rw [same, lastKey?_append_singleton]⟩

/-- Where a key leaves the open path, it leaves all nodes. -/
theorem Holding.parting (holding : builder.Holding entries) {common : Nat}
    (beyond : ∀ last ∈ lastKey? entries, last < key)
    (placed : builder.placement key = .after common) :
    builder.openKey.take common <+: key ∧
      ∀ bytes ∈ nodes entries, bytes <+: key → bytes <+: builder.openKey.take common := by
  rcases holding.latest_cases with ⟨first, rfl, -⟩ | ⟨previous, latest⟩
  · rw [placement, if_neg (by simp [first]), Placement.after.injEq] at placed
    subst placed
    refine ⟨List.nil_prefix, ?_⟩
    intro bytes member _
    simpa [nodes, prefixes, keys] using member
  · obtain ⟨shared, dropped, byte, rest, split, rfl, smaller, reached⟩ :=
      Placement.ofKeys_of_lt (beyond _ latest) 0
    rw [placement, if_pos previous, reached, Nat.zero_add, Placement.after.injEq] at placed
    subst placed
    rw [split, List.take_left]
    rw [split] at latest
    refine ⟨List.prefix_append shared _, ?_⟩
    intro bytes member begins
    rcases Finset.mem_insert.mp member with rfl | leads
    · exact List.nil_prefix
    · exact isPrefix_of_beyond holding.ascending latest smaller leads begins

/-- The nodes that a new key does not lead to are those that were closed for it. -/
theorem closedNodes_append {shared : Bytes} (begins : shared <+: key)
    (parted : ∀ bytes ∈ nodes entries, bytes <+: key → bytes <+: shared) (value : τ.Value) :
    closedNodes (entries ++ [(key, value)]) key = closedNodes entries shared := by
  ext bytes
  simp only [closedNodes, Finset.mem_filter, mem_nodes_append]
  constructor
  · rintro ⟨member | inside, outside⟩
    · exact ⟨member, fun inside => outside (inside.trans begins)⟩
    · contradiction
  · rintro ⟨member, outside⟩
    exact ⟨.inl member, fun inside => outside (parted bytes member inside)⟩

/-- A further entry counts nowhere but at the nodes it leads to. -/
theorem Tallied.append {chosen : Finset Bytes} {stats : Stats}
    (tallied : Tallied options entries chosen stats) (outside : ∀ bytes ∈ chosen, ¬ bytes <+: key)
    (value : τ.Value) : Tallied options (entries ++ [(key, value)]) chosen stats := by
  intro counter
  rw [tallied]
  refine congrArg Finset.card (Finset.filter_congr ?_)
  intro bytes member
  rw [below_append, below_singleton_of_not_isPrefix (outside bytes member), List.append_nil]

@[simp] theorem stats_setValue (builder : Builder τ) (value : τ.Value) :
    (builder.setValue value).stats = builder.stats := by
  unfold setValue
  split <;> rfl

theorem read_countKey (builder : Builder τ) (counter : Counter) :
    builder.countKey.stats.read counter = builder.stats.read counter := by
  rw [stats_countKey]
  rcases counter with (_ | _) | _ <;> rfl

theorem Holding.openKey_eq (holding : builder.Holding (entries ++ [(key, value)])) :
    builder.openKey = key := by
  rcases holding.latest_cases with ⟨-, none, -⟩ | ⟨-, latest⟩
  · simp at none
  · rw [lastKey?_append_singleton] at latest
    exact (Option.some.inj latest).symm

theorem exists_closed_of_accept {common : Nat} (holding : builder.Holding entries)
    (taken : accept common key value builder = .ok () after) :
    ∃ closed, closeLast (builder.path.length - common) builder = .ok () closed ∧
      closed.openKey = builder.openKey.take common ∧
      after = ((closed.openBelow (key.drop common)).setValue value).countKey := by
  obtain ⟨closed, emptied, same⟩ := accept_eq_ok_iff.mp taken
  obtain ⟨other, otherEmptied, -, kept, -⟩ :=
    closeLast_holds holding.ascending holding.held (builder.path.length - common) (Nat.sub_le _ _)
  cases emptied.symm.trans otherEmptied
  refine ⟨closed, emptied, ?_, same⟩
  rw [kept, List.take_eq_take_iff, length_openKey]
  omega

theorem Counted.called (counted : builder.Counted entries) : builder.called.Counted entries :=
  ⟨counted.leads, counted.keysAdded, counted.tallied⟩

theorem Taken.counted (taken : Taken builder entries key value after)
    (holding : builder.Holding entries) (counted : builder.Counted entries) :
    after.Counted (entries ++ [(key, value)]) := by
  obtain ⟨common, placed, accepted⟩ := taken.accepted
  obtain ⟨begins, parted⟩ := holding.parting taken.beyond placed
  have openKey_eq := taken.holding.openKey_eq
  have counts := countsKey_accept accepted
  have called : builder.called.Holding entries := holding.offer _
  obtain ⟨closed, emptied, closedKey, same⟩ := exists_closed_of_accept called accepted
  refine ⟨?_, ?_, ?_⟩
  · rw [openKey_eq]
    exact mem_nodes_append.mpr (.inr List.prefix_rfl)
  · rw [counts.keysAdded, List.length_append, List.length_singleton]
    exact congrArg (· + 1) counted.keysAdded
  · have split := closedNodes_append begins parted value
    have outside : ∀ bytes ∈ closedNodes entries (builder.openKey.take common),
        ¬ bytes <+: key := by
      rw [← split]
      intro bytes member
      exact (Finset.mem_filter.mp member).2
    obtain ⟨-, -, tallied⟩ :=
      closeLast_counted called.ascending called.held counted.called emptied
    rw [closedKey, (sameCounts_closeLast emptied).options] at tallied
    rw [openKey_eq, split, counts.options]
    intro counter
    rw [same, read_countKey, stats_setValue]
    exact tallied.append outside value counter

theorem TurnedDown.counted (turnedDown : TurnedDown builder entries key value after)
    (counted : builder.Counted entries) : after.Counted entries := by
  rcases turnedDown.untouched with rfl | ⟨position, rfl⟩
  · exact counted.called
  · refine ⟨counted.leads, counted.keysAdded, ?_⟩
    intro counter
    refine Eq.trans ?_ (counted.tallied counter)
    rcases counter with (_ | _) | _ <;> rfl

theorem offerAll_counted (holding : builder.Holding entries) (counted : builder.Counted entries)
    (calls : List (Bytes × τ.Value)) :
    (builder.offerAll calls).Counted (entries ++ builder.accepted calls) := by
  induction calls generalizing builder entries with
  | nil => rwa [accepted, List.append_nil]
  | cons entry calls inductionHypothesis =>
      obtain ⟨key, value⟩ := entry
      rw [offerAll, List.foldl_cons, accepted]
      rcases holding.offer_cases key value with taken | turnedDown
      · have later := inductionHypothesis taken.holding (taken.counted holding counted)
        rw [if_pos taken.accepts, List.append_cons]
        exact later
      · have later := inductionHypothesis (turnedDown.holding holding) (turnedDown.counted counted)
        rw [turnedDown.accepts]
        exact later

theorem counted_of_ofOptions (made : ofOptions options = .ok start)
    (calls : List (Bytes × τ.Value)) :
    (start.offerAll calls).Counted (start.accepted calls) := by
  have begun : start.Holding [] := (holding_of_ofOptions made []).1
  obtain rfl := eq_of_ofOptions_eq_ok made
  apply offerAll_counted begun
  refine ⟨Finset.mem_insert_self _ _, rfl, ?_⟩
  intro counter
  rcases counter with (_ | _) | _ <;> rfl

end Calling

section Finishing

variable {root : Node τ} {stats : Stats}

/-- When all other nodes are closed the root holds all entries, and is closed as well. -/
theorem exists_root_of_finishWithStats (holding : builder.Holding entries)
    (finished : builder.finishWithStats = .ok (root, stats)) :
    ∃ closed, closeLast builder.path.length builder = .ok () closed ∧ closed.openKey = [] ∧
      Level builder.options.reorderChildren none closed.root entries ∧
      (closed.root.closing builder.options).node = .ok root ∧
      stats = { (closed.root.closing builder.options).count closed.stats with
        payloadLength := root.length } := by
  obtain ⟨closed, emptied, options, key, held⟩ :=
    closeLast_holds holding.ascending holding.held builder.path.length le_rfl
  rw [length_openKey, Nat.sub_self, List.take_zero] at key
  have bare : closed.path = [] := by
    rw [← List.length_eq_zero_iff, ← length_openKey, key, List.length_nil]
  rw [Holds, bare, options] at held
  unfold finishWithStats at finished
  split at finished
  next closedRoot after done =>
    cases finished
    obtain ⟨other, otherEmptied, rooted⟩ := finish_eq_ok_iff.mp done
    cases emptied.symm.trans otherEmptied
    obtain ⟨decided, rfl⟩ := closeRoot_eq_ok_iff.mp rooted
    rw [options] at decided ⊢
    exact ⟨closed, emptied, key, held, decided, rfl⟩
  next => contradiction

theorem finishWithStats_counted (holding : builder.Holding entries)
    (counted : builder.Counted entries) (finished : builder.finishWithStats = .ok (root, stats)) :
    stats.keysAdded = entries.length ∧ Tallied builder.options entries (nodes entries) stats := by
  obtain ⟨closed, emptied, key, level, decided, rfl⟩ :=
    exists_root_of_finishWithStats holding finished
  obtain ⟨-, keysAdded, tallied⟩ :=
    closeLast_counted holding.ascending holding.held counted emptied
  rw [key, (sameCounts_closeLast emptied).options] at tallied
  refine ⟨(keysAdded_count _ _).trans keysAdded, ?_⟩
  rw [nodes_eq_insert]
  apply tallied.insert
  · simp [closedNodes]
  · intro counter
    rw [below, ← level.read_count holding.ascending decided]
    rcases counter with (_ | _) | _ <;> rfl

end Finishing

section Totals

variable {chosen : Finset Bytes} {stats : Stats}

/-- The counters tell how many of the chosen nodes there are of each kind. -/
structure CountsNodes (entries : List (Bytes × τ.Value)) (chosen : Finset Bytes)
    (stats : Stats) : Prop where
  leaves : stats.leaves =
    (chosen.filter fun bytes => bytes ∈ keys entries ∧ sharing entries bytes = 1).card
  valueBranches : stats.valueBranches =
    (chosen.filter fun bytes => bytes ∈ keys entries ∧ 2 ≤ sharing entries bytes).card
  branches : stats.branches =
    (chosen.filter fun bytes => bytes ∉ keys entries ∧ 2 ≤ sharing entries bytes).card
  suffixFolds : stats.suffixFolds =
    (chosen.filter fun bytes => bytes ∉ keys entries ∧ sharing entries bytes = 1).card

theorem Tallied.countsNodes (tallied : Tallied options entries chosen stats)
    (inside : chosen ⊆ prefixes entries) : CountsNodes entries chosen stats := by
  refine ⟨(tallied (.closed .leaf)).trans ?_, (tallied (.closed .valueBranch)).trans ?_,
    (tallied (.closed .branch)).trans ?_, (tallied (.closed .suffixLeaf)).trans ?_⟩
  all_goals
    refine congrArg Finset.card (Finset.filter_congr fun bytes member => ?_)
    exact kind_ofEntries_below_eq_iff _ (inside member) _

/-- Nodes that keys lead to have one key below them, or several. -/
theorem card_filter_sharing (inside : chosen ⊆ prefixes entries) (P : Bytes → Prop)
    [DecidablePred P] :
    (chosen.filter fun bytes => P bytes ∧ sharing entries bytes = 1).card +
      (chosen.filter fun bytes => P bytes ∧ 2 ≤ sharing entries bytes).card =
        (chosen.filter P).card := by
  have several : (chosen.filter fun bytes => P bytes ∧ 2 ≤ sharing entries bytes) =
      chosen.filter fun bytes => P bytes ∧ ¬ sharing entries bytes = 1 := by
    apply Finset.filter_congr
    intro bytes member
    have some := sharing_pos_iff.mpr (inside member)
    have goesOn : 2 ≤ sharing entries bytes ↔ ¬ sharing entries bytes = 1 := by omega
    rw [goesOn]
  have split := Finset.card_filter_add_card_filter_not (s := chosen.filter P)
    fun bytes => sharing entries bytes = 1
  rwa [Finset.filter_filter, Finset.filter_filter, ← several] at split

theorem Tallied.of_nil (tallied : Tallied options entries (nodes entries) stats)
    (empty : entries = []) (kind : NodeKind) :
    stats.read (.closed kind) = if kind = .branch then 1 else 0 := by
  subst empty
  have alone : nodes ([] : List (Bytes × τ.Value)) = {[]} := rfl
  rw [tallied, alone, Finset.filter_singleton]
  cases kind <;> simp [Counter.CountsFor, below, Node.kind]

namespace CountsNodes

theorem sum (counts : CountsNodes entries chosen stats) (inside : chosen ⊆ prefixes entries) :
    stats.leaves + stats.suffixFolds + stats.branches + stats.valueBranches = chosen.card := by
  have ends := card_filter_sharing inside (· ∈ keys entries)
  have goesOn := card_filter_sharing inside (· ∉ keys entries)
  have split := Finset.card_filter_add_card_filter_not (s := chosen) (· ∈ keys entries)
  rw [← counts.leaves, ← counts.valueBranches] at ends
  rw [← counts.suffixFolds, ← counts.branches] at goesOn
  omega

theorem leaves_add_valueBranches (counts : CountsNodes entries (prefixes entries) stats)
    (ascending : Ascending entries) : stats.leaves + stats.valueBranches = entries.length := by
  have ends := card_filter_sharing (Finset.Subset.refl (prefixes entries)) (· ∈ keys entries)
  have whole : (prefixes entries).filter (· ∈ keys entries) = (keys entries).toFinset := by
    ext bytes
    simp only [Finset.mem_filter, mem_prefixes, List.mem_toFinset, and_iff_right_iff_imp]
    intro member
    exact ⟨bytes, member, List.prefix_rfl⟩
  rw [counts.leaves, counts.valueBranches, ends, whole,
    List.toFinset_card_of_nodup ascending.nodup_keys, keys, List.length_map]

end CountsNodes

/-- The nodes that do not lead to the latest key, if there is one. -/
theorem Holding.closedNodes_eq (holding : builder.Holding entries) :
    closedNodes entries builder.openKey = (prefixes entries).filter fun bytes =>
      ∀ last ∈ lastKey? entries, ¬ bytes <+: last := by
  rcases holding.latest_cases with ⟨-, rfl, bare⟩ | ⟨-, latest⟩
  · rw [openKey, bare]
    rfl
  · rw [latest, closedNodes, nodes, Finset.filter_insert, if_neg (not_not_intro List.nil_prefix)]
    simp

/-- At any time the counters tell how many of the nodes that do not lead to the last accepted key
there are of each kind, and at the end how many of all nodes. So every key is counted at one node,
and every node is closed once. -/
theorem counters_count_nodes (made : ofOptions options = .ok start)
    (calls : List (Bytes × τ.Value)) :
    let entries := start.accepted calls
    let running := (start.offerAll calls).stats
    Ascending entries ∧ running.keysAdded = entries.length ∧
      CountsNodes entries
        ((prefixes entries).filter fun bytes => ∀ last ∈ lastKey? entries, ¬ bytes <+: last)
        running ∧
      ∃ root final, (start.offerAll calls).finishWithStats = .ok (root, final) ∧
        final.keysAdded = entries.length ∧
        (entries ≠ [] → CountsNodes entries (prefixes entries) final) ∧
        (entries = [] → final.branches = 1 ∧ final.leaves = 0 ∧ final.valueBranches = 0 ∧
          final.suffixFolds = 0) ∧
        final.leaves + final.valueBranches = final.keysAdded ∧
        final.leaves + final.suffixFolds + final.branches + final.valueBranches =
          (insert [] (prefixes entries)).card := by
  intro entries running
  obtain ⟨holding, -, -⟩ := holding_of_ofOptions made calls
  have counted := counted_of_ofOptions made calls
  obtain ⟨root, final, finished, -⟩ := finishWithStats_holding holding
  obtain ⟨keysAdded, tallied⟩ := finishWithStats_counted holding counted finished
  have closed := counted.tallied
  rw [holding.closedNodes_eq] at closed
  refine ⟨holding.ascending, counted.keysAdded, closed.countsNodes (Finset.filter_subset _ _), root,
    final, finished, keysAdded, ?_⟩
  by_cases empty : entries = []
  · have counts := tallied.of_nil empty
    obtain ⟨branches, leaves, valueBranches, suffixFolds⟩ :
        final.branches = 1 ∧ final.leaves = 0 ∧ final.valueBranches = 0 ∧ final.suffixFolds = 0 :=
      ⟨counts .branch, counts .leaf, counts .valueBranch, counts .suffixLeaf⟩
    refine ⟨absurd empty, fun _ => ⟨branches, leaves, valueBranches, suffixFolds⟩, ?_, ?_⟩
    · rw [leaves, valueBranches, keysAdded]
      exact (congrArg List.length empty).symm
    · rw [leaves, suffixFolds, branches, valueBranches, empty]
      rfl
  · rw [nodes_eq_prefixes empty] at tallied
    have counts := tallied.countsNodes Finset.Subset.rfl
    refine ⟨fun _ => counts, fun none => absurd none empty, ?_, ?_⟩
    · rw [counts.leaves_add_valueBranches holding.ascending, keysAdded]
    · rw [counts.sum Finset.Subset.rfl]
      exact congrArg Finset.card (nodes_eq_prefixes empty).symm

/-- Five of these calls are accepted; among the others are a repeat and a key out of order. The
last key leads away from all the others. -/
def severalCalls : List (Bytes × ValueType.integer.Value) :=
  [([], (1 : UInt64)), ([0x61], (2 : UInt64)), ([0x61], (3 : UInt64)),
    ([0x61, 0x62, 0x63], (4 : UInt64)), ([0x00], (5 : UInt64)), ([0x61, 0x62, 0x64], (6 : UInt64)),
    ([0x7A, 0x7A], (7 : UInt64))]

theorem counters_count_nodes_severalCalls :
    let start : Builder .integer := { options := nestedOptions }
    let running := (start.offerAll severalCalls).stats
    ofOptions nestedOptions = .ok start ∧
      keys (start.accepted severalCalls) =
        [[], [0x61], [0x61, 0x62, 0x63], [0x61, 0x62, 0x64], [0x7A, 0x7A]] ∧
      running.keysAdded = 5 ∧ running.leaves = 2 ∧ running.valueBranches = 1 ∧
      running.branches = 1 ∧ running.suffixFolds = 0 ∧
      ∃ root final, (start.offerAll severalCalls).finishWithStats = .ok (root, final) ∧
        final.leaves = 3 ∧ final.valueBranches = 2 ∧ final.branches = 1 ∧
        final.suffixFolds = 1 := by
  intro start running
  have made : ofOptions nestedOptions = .ok start := rfl
  have accepted : start.accepted severalCalls = [([], (1 : UInt64)), ([0x61], (2 : UInt64)),
      ([0x61, 0x62, 0x63], (4 : UInt64)), ([0x61, 0x62, 0x64], (6 : UInt64)),
      ([0x7A, 0x7A], (7 : UInt64))] := by
    rw [accepted_eq_destutter made]
    decide
  obtain ⟨-, keysAdded, closed, root, final, finished, -, whole, -⟩ :=
    counters_count_nodes made severalCalls
  have counts := whole (by rw [accepted]; exact List.cons_ne_nil _ _)
  rw [accepted] at keysAdded closed counts
  refine ⟨made, by rw [accepted]; rfl, keysAdded, ?_, ?_, ?_, ?_, root, final, finished, ?_, ?_, ?_,
    ?_⟩
  · exact closed.leaves.trans (by decide)
  · exact closed.valueBranches.trans (by decide)
  · exact closed.branches.trans (by decide)
  · exact closed.suffixFolds.trans (by decide)
  · exact counts.leaves.trans (by decide)
  · exact counts.valueBranches.trans (by decide)
  · exact counts.branches.trans (by decide)
  · exact counts.suffixFolds.trans (by decide)

end Totals

end PackedTrie.Builder
