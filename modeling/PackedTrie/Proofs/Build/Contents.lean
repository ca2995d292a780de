import PackedTrie.Proofs.Build.Counters
import PackedTrie.Proofs.Node.Proper

/-!
What a builder holds, taken together: the values of the open nodes and the entries of the closed
children. Closing a node moves its entries into a proper child, opening nodes brings in one entry
more, so after any calls the entries accepted are there.
-/

namespace PackedTrie

open Entries Node Sequencing

/-- The entries with `bytes` in front of every key. -/
def Entries.ledBy {V : Type} (bytes : Bytes) (entries : List (Bytes × V)) : List (Bytes × V) :=
  entries.map fun entry => (bytes ++ entry.1, entry.2)

theorem Entries.ledBy_append {V : Type} (bytes : Bytes) (first second : List (Bytes × V)) :
    ledBy bytes (first ++ second) = ledBy bytes first ++ ledBy bytes second :=
  List.map_append

theorem Entries.ledBy_under {V : Type} (bytes : Bytes) (byte : UInt8)
    (entries : List (Bytes × V)) :
    ledBy bytes (under byte entries) = ledBy (bytes ++ [byte]) entries := by
  simp [ledBy, under]

theorem Node.Enumerates.ledBy {V : Type} {reorder : Bool} {first second : List (Bytes × V)}
    (bytes : Bytes) (same : Enumerates reorder first second) :
    Enumerates reorder (Entries.ledBy bytes first) (Entries.ledBy bytes second) :=
  ⟨same.perm.map _, fun kept => by rw [same.same kept]⟩

namespace OpenNode

variable {τ : ValueType} {options : Options} {node : OpenNode τ} {closed : Node τ}
  {value : Option τ.Value} {children : List (UInt8 × Node τ)} {own : List (Bytes × τ.Value)}

/-- The entries in a node: that of its value, and those of its children. -/
def entries (node : OpenNode τ) : Except Corruption (List (Bytes × τ.Value)) :=
  (Node.branch node.value node.children).entries

section Closing

/-- What a node may become when it is closed. -/
inductive Closes (options : Options) : OpenNode τ → Node τ → Prop where
  | leaf (value : τ.Value) : Closes options ⟨some value, []⟩ (.leaf value)
  | bare : Closes options {} (.branch none [])
  | fold {byte : UInt8} {child folded : Node τ} (leaf : child.kind.isLeaf = true)
      (moved : child.fold byte = .ok folded) : Closes options ⟨none, [(byte, child)]⟩ folded
  | branch (value : Option τ.Value) {children : List (UInt8 × Node τ)} (occupied : children ≠ []) :
      Closes options ⟨value, children⟩ (.branch value (arrange options.reorderChildren children))
  | flatten (value : Option τ.Value) {children : List (UInt8 × Node τ)} (occupied : children ≠ [])
      (short : (Node.branch value (arrange options.reorderChildren children)).length <
        options.serializeThreshold) :
      Closes options ⟨value, children⟩
        (Node.branch value (arrange options.reorderChildren children)).flatten

theorem closes_of_closingBranch (occupied : children ≠ [])
    (done : (closingBranch options value children).node = .ok closed) :
    Closes options ⟨value, children⟩ closed := by
  have decided : closingBranch options value children =
      .branch value (arrange options.reorderChildren children)
        ((Node.branch value (arrange options.reorderChildren children)).length <
          options.serializeThreshold) := rfl
  rw [decided] at done
  by_cases short : (Node.branch value (arrange options.reorderChildren children)).length <
      options.serializeThreshold
  · rw [decide_eq_true short] at done
    cases done
    exact .flatten value occupied short
  · rw [decide_eq_false short] at done
    cases done
    exact .branch value occupied

theorem closes_of_closing (done : (node.closing options).node = .ok closed) :
    Closes options node closed := by
  rcases node with ⟨_ | value, _ | ⟨⟨byte, child⟩, _ | ⟨second, others⟩⟩⟩
  · cases done
    exact .bare
  · by_cases leaf : child.kind.isLeaf = true
    · simp only [closing, leaf, if_true] at done
      exact .fold leaf done
    · simp only [closing, leaf, Bool.false_eq_true, if_false] at done
      exact closes_of_closingBranch (List.cons_ne_nil _ _) done
  · exact closes_of_closingBranch (List.cons_ne_nil _ _) done
  · cases done
    exact .leaf value
  · exact closes_of_closingBranch (List.cons_ne_nil _ _) done
  · exact closes_of_closingBranch (List.cons_ne_nil _ _) done

theorem proper_arrange (value : Option τ.Value) (reorder : Bool) (occupied : children ≠ [])
    (proper : ∀ child ∈ children, child.2.Proper) :
    (Node.branch value (arrange reorder children)).Proper := by
  have moved := arrange_perm reorder children
  refine .branch value _ ?_ ?_
  · intro none
    rw [none] at moved
    exact occupied moved.nil_eq.symm
  · intro child member
    exact proper child (moved.mem_iff.mp member)

theorem Closes.proper (closes : Closes options node closed)
    (bounded : options.serializeThreshold < 2 ^ 64)
    (proper : ∀ child ∈ node.children, child.2.Proper)
    (occupied : node.value ≠ none ∨ node.children ≠ []) : closed.Proper := by
  cases closes with
  | leaf value => exact .leaf value
  | bare => simp at occupied
  | @fold byte child folded leaf moved =>
      obtain ⟨value, suffix, -, folds⟩ :=
        (proper _ (List.mem_singleton_self _)).exists_fold leaf byte
      cases moved.symm.trans folds
      exact .suffixLeaf value byte suffix
  | branch value nonempty => exact proper_arrange value _ nonempty proper
  | flatten value nonempty short =>
      exact .flatten (proper_arrange value _ nonempty proper) (Nat.lt_trans short bounded)

theorem Closes.exists_entries (closes : Closes options node closed)
    (bounded : options.serializeThreshold < 2 ^ 64)
    (proper : ∀ child ∈ node.children, child.2.Proper) (listed : node.entries = .ok own) :
    ∃ again, closed.entries = .ok again ∧ Enumerates options.reorderChildren again own := by
  cases closes with
  | leaf value =>
      obtain ⟨below, none, rfl⟩ := entries_branch_eq_ok_iff.mp listed
      rw [childEntries] at none
      cases none
      exact ⟨[([], value)], by rw [Node.entries], .refl _ _⟩
  | bare => exact ⟨own, listed, .refl _ _⟩
  | @fold byte child folded leaf moved =>
      obtain ⟨value, suffix, alone, folds⟩ :=
        (proper _ (List.mem_singleton_self _)).exists_fold leaf byte
      cases moved.symm.trans folds
      obtain ⟨below, belowListed, rfl⟩ := entries_branch_eq_ok_iff.mp listed
      obtain ⟨first, rest, firstListed, none, rfl⟩ := childEntries_cons_eq_ok_iff.mp belowListed
      rw [childEntries] at none
      cases none
      cases alone.symm.trans firstListed
      exact ⟨[(byte :: suffix, value)], by rw [Node.entries], .refl _ _⟩
  | branch value nonempty => exact exists_entries_arrange listed
  | @flatten value children nonempty short =>
      have built : (Node.branch value (arrange options.reorderChildren children)).Built :=
        (proper_arrange value _ nonempty proper).built
      rw [entries_flatten built (Nat.lt_trans short bounded)]
      exact exists_entries_arrange listed

theorem entries_push_eq_ok {byte : UInt8} {child : Node τ} {below : List (Bytes × τ.Value)}
    (listed : node.entries = .ok own) (childListed : child.entries = .ok below) :
    (node.push byte child).entries = .ok (own ++ under byte below) := by
  obtain ⟨others, othersListed, rfl⟩ := entries_branch_eq_ok_iff.mp listed
  have last : childEntries [(byte, child)] = .ok (under byte below) := by
    apply childEntries_cons_eq_ok_iff.mpr
    exact ⟨below, [], childListed, by rw [childEntries], (List.append_nil _).symm⟩
  apply entries_branch_eq_ok_iff.mpr
  exact ⟨_, childEntries_append_eq_ok_iff.mpr ⟨_, _, othersListed, last, rfl⟩,
    List.append_assoc _ _ _⟩

end Closing

theorem entries_fresh : ({} : OpenNode τ).entries = .ok [] := by
  rw [entries, entries_branch_eq_ok_iff]
  exact ⟨[], by rw [childEntries], rfl⟩

theorem entries_value (value : τ.Value) :
    (⟨some value, []⟩ : OpenNode τ).entries = .ok [([], value)] := by
  rw [entries, entries_branch_eq_ok_iff]
  exact ⟨[], by rw [childEntries], rfl⟩

end OpenNode

namespace Builder

variable {τ : ValueType} {builder after start : Builder τ} {entries : List (Bytes × τ.Value)}
  {options : Options} {key : Bytes} {value : τ.Value}

section Contents

/-- The open nodes from the root down, each with the byte that leads to it. None leads to the
root; its byte is zero. -/
def spine (builder : Builder τ) : List (UInt8 × OpenNode τ) :=
  (0, builder.root) :: builder.path.reverse

/-- The entries in the root and in the open nodes below it, of which the deepest comes first. -/
def pathEntries (root : OpenNode τ) :
    List (UInt8 × OpenNode τ) → Except Corruption (List (Bytes × τ.Value))
  | [] => root.entries
  | (byte, node) :: path => do
      let above ← pathEntries root path
      let own ← node.entries
      pure (above ++ ledBy ((path.map Prod.fst).reverse ++ [byte]) own)

def contents (builder : Builder τ) : Except Corruption (List (Bytes × τ.Value)) :=
  pathEntries builder.root builder.path

variable {root node : OpenNode τ} {path : List (UInt8 × OpenNode τ)} {byte : UInt8}
  {visited own : List (Bytes × τ.Value)}

theorem mem_spine {level : UInt8 × OpenNode τ} :
    level ∈ builder.spine ↔ level = (0, builder.root) ∨ level ∈ builder.path := by
  rw [spine, List.mem_cons, List.mem_reverse]

theorem pathEntries_cons_eq_ok_iff :
    pathEntries root ((byte, node) :: path) = .ok visited ↔
      ∃ above own, pathEntries root path = .ok above ∧ node.entries = .ok own ∧
        visited = above ++ ledBy ((path.map Prod.fst).reverse ++ [byte]) own := by
  rw [pathEntries]
  cases pathEntries root path with
  | error fault => simp [bind, Except.bind]
  | ok above =>
      cases node.entries with
      | error fault => simp [bind, Except.bind]
      | ok own => simp [bind, Except.bind, pure, Except.pure, eq_comm]

theorem contents_attach {child : Node τ} (listed : builder.contents = .ok visited)
    (childListed : child.entries = .ok own) :
    (builder.attach byte child).contents =
      .ok (visited ++ ledBy (builder.openKey ++ [byte]) own) := by
  obtain ⟨options, root, path, previous, offered, report⟩ := builder
  cases path with
  | nil =>
      have pushed : (root.push byte child).entries = .ok (visited ++ under byte own) :=
        OpenNode.entries_push_eq_ok listed childListed
      exact pushed
  | cons deepest path =>
      obtain ⟨last, node⟩ := deepest
      obtain ⟨above, before, aboveListed, nodeListed, rfl⟩ := pathEntries_cons_eq_ok_iff.mp listed
      apply pathEntries_cons_eq_ok_iff.mpr
      refine ⟨above, _, aboveListed, OpenNode.entries_push_eq_ok nodeListed childListed, ?_⟩
      rw [ledBy_append, ledBy_under, List.append_assoc]
      simp [openKey]

theorem contents_first (bare : builder.path = []) (empty : builder.root = {})
    (listed : builder.contents = .ok visited) :
    (builder.setValue value).contents = .ok (visited ++ [(builder.openKey, value)]) := by
  obtain ⟨options, root, path, previous, offered, report⟩ := builder
  cases bare
  cases empty
  cases OpenNode.entries_fresh.symm.trans listed
  exact OpenNode.entries_value value

/-- New nodes are empty, until the deepest of them is given its value. -/
theorem contents_extend (listed : builder.contents = .ok visited) (byte : UInt8) (rest : Bytes)
    (value : τ.Value) :
    ((builder.openBelow (byte :: rest)).setValue value).contents =
      .ok (visited ++ [(builder.openKey ++ byte :: rest, value)]) := by
  induction rest generalizing byte builder with
  | nil =>
      apply pathEntries_cons_eq_ok_iff.mpr
      exact ⟨visited, _, listed, OpenNode.entries_value value, by simp [ledBy, openKey]⟩
  | cons next rest inductionHypothesis =>
      have opened : ({ builder with path := (byte, {}) :: builder.path } : Builder τ).contents =
          .ok visited := by
        apply pathEntries_cons_eq_ok_iff.mpr
        exact ⟨visited, _, listed, OpenNode.entries_fresh, (List.append_nil visited).symm⟩
      have deeper := inductionHypothesis opened next
      have spelled : ({ builder with path := (byte, {}) :: builder.path } : Builder τ).openKey ++
          next :: rest = builder.openKey ++ byte :: next :: rest := by
        simp [openKey]
      rw [spelled] at deeper
      exact deeper

end Contents

section Containing

/-- The entries are in the builder, and what it has closed is proper. The deepest node is not
empty. -/
structure Contains (builder : Builder τ) (entries : List (Bytes × τ.Value)) : Prop where
  proper : ∀ level ∈ builder.spine, ∀ child ∈ level.2.children, child.2.Proper
  occupied : ∀ deepest ∈ builder.path.head?, deepest.2.value ≠ none ∨ deepest.2.children ≠ []
  listed : ∃ visited, builder.contents = .ok visited ∧
    Enumerates builder.options.reorderChildren visited entries

theorem contains_start (options : Options) : Contains ({ options } : Builder τ) [] := by
  refine ⟨?_, nofun, [], OpenNode.entries_fresh, .refl _ _⟩
  intro level member child childMember
  rcases mem_spine.mp member with rfl | below
  · contradiction
  · contradiction

theorem mem_children_attach {byte : UInt8} {closed : Node τ} {level : UInt8 × OpenNode τ}
    {child : UInt8 × Node τ} (member : level ∈ (builder.attach byte closed).spine)
    (inside : child ∈ level.2.children) :
    child = (byte, closed) ∨ ∃ other ∈ builder.spine, child ∈ other.2.children := by
  obtain ⟨options, root, path, previous, offered, report⟩ := builder
  cases path with
  | nil =>
      rcases mem_spine.mp member with rfl | below
      · rcases List.mem_append.mp inside with before | last
        · exact .inr ⟨_, mem_spine.mpr (.inl rfl), before⟩
        · exact .inl (List.mem_singleton.mp last)
      · contradiction
  | cons deepest path =>
      obtain ⟨last, node⟩ := deepest
      rcases mem_spine.mp member with rfl | below
      · exact .inr ⟨_, mem_spine.mpr (.inl rfl), inside⟩
      · rcases List.mem_cons.mp below with rfl | above
        · rcases List.mem_append.mp inside with before | last
          · exact .inr ⟨_, mem_spine.mpr (.inr List.mem_cons_self), before⟩
          · exact .inl (List.mem_singleton.mp last)
        · exact .inr ⟨_, mem_spine.mpr (.inr (List.mem_cons_of_mem _ above)), inside⟩

theorem occupied_attach (builder : Builder τ) (byte : UInt8) (closed : Node τ) :
    ∀ deepest ∈ (builder.attach byte closed).path.head?,
      deepest.2.value ≠ none ∨ deepest.2.children ≠ [] := by
  unfold attach
  split
  · next path =>
    rw [path]
    nofun
  · rintro deepest ⟨⟩
    exact .inr (List.append_ne_nil_of_right_ne_nil _ (List.cons_ne_nil _ _))

theorem closeDeepest_contains (bounded : builder.options.serializeThreshold < 2 ^ 64)
    (contains : builder.Contains entries) (closed : closeDeepest builder = .ok () after) :
    after.Contains entries := by
  obtain ⟨byte, node, rest, finished, path, done, rfl⟩ := closeDeepest_eq_ok_iff.mp closed
  have closes := OpenNode.closes_of_closing done
  have inside : (byte, node) ∈ builder.spine := mem_spine.mpr (.inr (by simp [path]))
  have proper := contains.proper _ inside
  have occupied := contains.occupied (byte, node) (by simp [path])
  have finishedProper := closes.proper bounded proper occupied
  refine ⟨?_, occupied_attach _ _ _, ?_⟩
  · intro level member child childMember
    rcases mem_children_attach member childMember with rfl | ⟨other, otherMember, within⟩
    · exact finishedProper
    · apply contains.proper other ?_ child within
      rcases mem_spine.mp otherMember with rfl | below
      · exact mem_spine.mpr (.inl rfl)
      · exact mem_spine.mpr (.inr (path ▸ List.mem_cons_of_mem _ below))
  · obtain ⟨visited, listed, enumerates⟩ := contains.listed
    rw [contents, path] at listed
    obtain ⟨above, own, aboveListed, nodeListed, rfl⟩ := pathEntries_cons_eq_ok_iff.mp listed
    obtain ⟨again, againListed, same⟩ := closes.exists_entries bounded proper nodeListed
    refine ⟨_, contents_attach aboveListed againListed, ?_⟩
    rw [options_attach]
    exact ((Enumerates.refl _ above).append (same.ledBy _)).trans enumerates

theorem closeLast_contains {count : Nat} (bounded : builder.options.serializeThreshold < 2 ^ 64)
    (contains : builder.Contains entries) (closed : closeLast count builder = .ok () after) :
    after.Contains entries := by
  induction count generalizing builder with
  | zero =>
      cases closed
      exact contains
  | succ count inductionHypothesis =>
      obtain ⟨_, next, deepest, others⟩ := bind_eq_ok_iff.mp closed
      refine inductionHypothesis ?_ (closeDeepest_contains bounded contains deepest) others
      rw [(sameCounts_closeDeepest deepest).options]
      exact bounded

theorem children_setValue {level : UInt8 × OpenNode τ}
    (member : level ∈ (builder.setValue value).spine) :
    ∃ other ∈ builder.spine, level.2.children = other.2.children := by
  obtain ⟨options, root, path, previous, offered, report⟩ := builder
  cases path with
  | nil =>
      rcases mem_spine.mp member with rfl | below
      · exact ⟨_, mem_spine.mpr (.inl rfl), rfl⟩
      · contradiction
  | cons deepest path =>
      rcases mem_spine.mp member with rfl | below
      · exact ⟨_, mem_spine.mpr (.inl rfl), rfl⟩
      · rcases List.mem_cons.mp below with rfl | above
        · exact ⟨_, mem_spine.mpr (.inr List.mem_cons_self), rfl⟩
        · exact ⟨_, mem_spine.mpr (.inr (List.mem_cons_of_mem _ above)), rfl⟩

theorem children_openBelow {bytes : Bytes} {level : UInt8 × OpenNode τ}
    (member : level ∈ (builder.openBelow bytes).spine) :
    level ∈ builder.spine ∨ level.2.children = [] := by
  induction bytes generalizing builder with
  | nil => exact .inl member
  | cons byte bytes inductionHypothesis =>
      have deeper : level ∈ (({ builder with path := (byte, {}) :: builder.path } :
          Builder τ).openBelow bytes).spine := member
      rcases inductionHypothesis deeper with before | empty
      · rcases mem_spine.mp before with rfl | below
        · exact .inl (mem_spine.mpr (.inl rfl))
        · rcases List.mem_cons.mp below with rfl | above
          · exact .inr rfl
          · exact .inl (mem_spine.mpr (.inr above))
      · exact .inr empty

theorem occupied_setValue (builder : Builder τ) (value : τ.Value) :
    ∀ deepest ∈ (builder.setValue value).path.head?,
      deepest.2.value ≠ none ∨ deepest.2.children ≠ [] := by
  unfold setValue
  split
  · next path =>
    rw [path]
    nofun
  · rintro deepest ⟨⟩
    exact .inl (Option.some_ne_none value)

theorem proper_extend {bytes : Bytes} (contains : builder.Contains entries) (value : τ.Value) :
    ∀ level ∈ ((builder.openBelow bytes).setValue value).spine,
      ∀ child ∈ level.2.children, child.2.Proper := by
  intro level member child childMember
  obtain ⟨other, otherMember, same⟩ := children_setValue member
  rw [same] at childMember
  rcases children_openBelow otherMember with before | empty
  · exact contains.proper other before child childMember
  · rw [empty] at childMember
    contradiction

theorem Contains.called (contains : builder.Contains entries) : builder.called.Contains entries :=
  ⟨contains.proper, contains.occupied, contains.listed⟩

theorem Level.childless {reorder : Bool} {node : OpenNode τ}
    (level : Level reorder none node entries) (leaf : groups entries = []) :
    node.children = [] := by
  obtain ⟨finished, split, children⟩ := level.children
  rw [leaf, Option.toList_none, List.map_nil, List.append_nil] at split
  rw [← split] at children
  exact List.forall₂_nil_right_iff.mp children

theorem Holding.root_eq_of_first (holding : builder.Holding []) (bare : builder.path = []) :
    builder.root = {} := by
  have level := holding.held
  rw [Holds, bare] at level
  have empty : builder.root.children = [] := Level.childless level groups_nil
  have valueless : builder.root.value = none := level.value
  obtain ⟨options, ⟨stored, below⟩, path, previous, offered, report⟩ := builder
  cases empty
  cases valueless
  rfl

/-- Only the first key of all may end where the open nodes do. -/
theorem Holding.first_of_drop_eq_nil (holding : builder.Holding entries) {common : Nat}
    (beyond : ∀ last ∈ lastKey? entries, last < key)
    (placed : builder.placement key = .after common) (ended : key.drop common = []) :
    entries = [] ∧ builder.path = [] := by
  rcases holding.latest_cases with ⟨-, none, bare⟩ | ⟨previous, latest⟩
  · exact ⟨none, bare⟩
  · obtain ⟨shared, dropped, byte, rest, split, rfl, smaller, reached⟩ :=
      Placement.ofKeys_of_lt (beyond _ latest) 0
    rw [placement, if_pos previous, reached, Nat.zero_add, Placement.after.injEq] at placed
    rw [← placed, List.drop_left] at ended
    contradiction

theorem Taken.contains (taken : Taken builder entries key value after)
    (bounded : builder.options.serializeThreshold < 2 ^ 64) (holding : builder.Holding entries)
    (contains : builder.Contains entries) : after.Contains (entries ++ [(key, value)]) := by
  obtain ⟨common, placed, accepted⟩ := taken.accepted
  have called : builder.called.Holding entries := holding.offer _
  have spelled := taken.holding.openKey_eq
  obtain ⟨closed, emptied, closedKey, rfl⟩ := exists_closed_of_accept called accepted
  have calledBounded : builder.called.options.serializeThreshold < 2 ^ 64 := bounded
  have kept : closed.Contains entries :=
    closeLast_contains calledBounded contains.called emptied
  obtain ⟨visited, listed, enumerates⟩ := kept.listed
  have key_eq : closed.openKey ++ key.drop common = key := by
    rw [← openKey_openBelow, ← openKey_setValue _ value]
    exact spelled
  have extended : ((closed.openBelow (key.drop common)).setValue value).contents =
      .ok (visited ++ [(key, value)]) := by
    cases opened : key.drop common with
    | cons byte rest =>
        rw [opened] at key_eq
        rw [contents_extend listed, key_eq]
    | nil =>
        obtain ⟨rfl, bare⟩ := holding.first_of_drop_eq_nil taken.beyond placed opened
        have unclosed : builder.called.path.length - common = 0 := by
          show builder.path.length - common = 0
          rw [bare]
          exact Nat.zero_sub _
        rw [unclosed] at emptied
        cases emptied
        have root := holding.root_eq_of_first bare
        rw [opened, List.append_nil] at key_eq
        rw [← key_eq]
        exact contents_first bare root listed
  refine ⟨proper_extend kept value, occupied_setValue _ value, _, extended, ?_⟩
  have options : ((closed.openBelow (key.drop common)).setValue value).countKey.options =
      closed.options := options_setValue _ value
  rw [options]
  exact enumerates.append (.refl _ _)

theorem TurnedDown.contains (turnedDown : TurnedDown builder entries key value after)
    (contains : builder.Contains entries) : after.Contains entries := by
  rcases turnedDown.untouched with rfl | ⟨position, rfl⟩
  · exact contains.called
  · exact ⟨contains.proper, contains.occupied, contains.listed⟩

theorem offerAll_contains (bounded : builder.options.serializeThreshold < 2 ^ 64)
    (holding : builder.Holding entries) (contains : builder.Contains entries)
    (calls : List (Bytes × τ.Value)) :
    (builder.offerAll calls).Contains (entries ++ builder.accepted calls) := by
  induction calls generalizing builder entries with
  | nil => rwa [accepted, List.append_nil]
  | cons entry calls inductionHypothesis =>
      obtain ⟨key, value⟩ := entry
      have same := (holding.offer_counts (key, value)).2
      rw [offerAll, List.foldl_cons, accepted]
      rw [← same] at bounded
      rcases holding.offer_cases key value with taken | turnedDown
      · have later := inductionHypothesis bounded taken.holding
          (taken.contains (same ▸ bounded) holding contains)
        rw [if_pos taken.accepts, List.append_cons]
        exact later
      · have later := inductionHypothesis bounded (turnedDown.holding holding)
          (turnedDown.contains contains)
        rw [turnedDown.accepts]
        exact later

end Containing

end Builder

end PackedTrie
