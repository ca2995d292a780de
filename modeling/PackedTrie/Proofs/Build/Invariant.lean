import PackedTrie.Proofs.Build.Contents

/-!
What is true of a builder at any time. The open nodes spell the key accepted last, the children of
each of them are closed and stand in order, before the byte of the open node below, and the values
on the way together with the entries of the children are the entries accepted so far. So nothing
fails in a builder but the calls that are out of order.
-/

namespace PackedTrie

open Entries Node Sequencing

theorem Node.FinishedChildren.map_fst {τ : ValueType} {reorder : Bool}
    {children : List (UInt8 × Node τ)} {groups : List (UInt8 × List (Bytes × τ.Value))}
    (finished : FinishedChildren reorder children groups) :
    groups.map Prod.fst = children.map Prod.fst := by
  induction finished with
  | nil => rfl
  | cons first _ inductionHypothesis =>
      rw [List.map_cons, List.map_cons, inductionHypothesis, first.1]

namespace Builder

variable {τ : ValueType} {builder after start : Builder τ} {entries : List (Bytes × τ.Value)}
  {options : Options} {key : Bytes} {value : τ.Value}

section Order

variable {reorder : Bool} {root node : OpenNode τ} {path : List (UInt8 × OpenNode τ)} {byte : UInt8}

theorem Level.sorted {next? : Option UInt8} (level : Level reorder next? node entries) :
    (node.children.map Prod.fst ++ next?.toList).Pairwise (· < ·) := by
  obtain ⟨finished, split, children⟩ := level.children
  have bytes : (groups entries).map Prod.fst = node.children.map Prod.fst ++ next?.toList := by
    rw [split, List.map_append, children.map_fst]
    cases next? <;> rfl
  rw [← bytes]
  exact List.pairwise_map.mpr (ordered_groups entries)

theorem Spine.sorted {next? : Option UInt8} (spine : Spine reorder root entries next? path) :
    ∀ level ∈ path ++ [(0, root)], (level.2.children.map Prod.fst).Pairwise (· < ·) := by
  induction path generalizing next? with
  | nil =>
      intro level member
      cases List.mem_singleton.mp member
      exact (List.pairwise_append.mp (Level.sorted spine)).1
  | cons deepest path inductionHypothesis =>
      obtain ⟨byte, node⟩ := deepest
      obtain ⟨own, above⟩ := spine
      intro level member
      rcases List.mem_cons.mp member with rfl | higher
      · exact (List.pairwise_append.mp own.sorted).1
      · exact inductionHypothesis above level higher

/-- The children of the upper node come before the byte that leads to the lower one. -/
def Before (upper lower : UInt8 × OpenNode τ) : Prop :=
  ∀ child ∈ upper.2.children, child.1 < lower.1

theorem Level.before (level : Level reorder (some byte) node entries) (leads : UInt8)
    (lower : OpenNode τ) : Before (leads, node) (byte, lower) := by
  intro child member
  exact (List.pairwise_append.mp level.sorted).2.2 child.1 (List.mem_map_of_mem member) byte
    (List.mem_singleton_self byte)

theorem Spine.isChain (spine : Spine reorder root entries (some byte) path) (lower : OpenNode τ) :
    List.IsChain (flip Before) ((byte, lower) :: (path ++ [(0, root)])) := by
  induction path generalizing byte lower with
  | nil => exact .cons_cons (Level.before spine 0 lower) (.singleton _)
  | cons deepest path inductionHypothesis =>
      obtain ⟨last, node⟩ := deepest
      obtain ⟨own, above⟩ := spine
      exact .cons_cons (own.before last lower) (inductionHypothesis above node)

theorem spine_eq_reverse (builder : Builder τ) :
    builder.spine = (builder.path ++ [(0, builder.root)]).reverse := by
  simp [spine]

theorem Holding.isChain_spine (holding : builder.Holding entries) :
    builder.spine.IsChain Before := by
  have held := holding.held
  rw [Holds] at held
  rw [spine_eq_reverse, List.isChain_reverse]
  cases path : builder.path with
  | nil => exact .singleton _
  | cons deepest rest =>
      obtain ⟨byte, node⟩ := deepest
      rw [path] at held
      exact held.2.isChain node

theorem Holding.sorted_spine (holding : builder.Holding entries) :
    ∀ level ∈ builder.spine, (level.2.children.map Prod.fst).Pairwise (· < ·) := by
  intro level member
  rw [spine_eq_reverse, List.mem_reverse] at member
  exact holding.held.sorted level member

theorem descend_latest {earlier : List (Bytes × τ.Value)}
    (ascending : Ascending (earlier ++ [(key, value)])) :
    descend key.reverse (earlier ++ [(key, value)]) = [([], value)] := by
  have parted := descend_append key.reverse [] value earlier
  rw [List.append_nil, List.reverse_reverse] at parted
  have bounded := ascending_descend ascending key.reverse
  rw [parted] at bounded ⊢
  have none : descend key.reverse earlier = [] := by
    apply List.eq_nil_iff_forall_not_mem.mpr
    intro entry member
    exact List.not_lt_nil entry.1
      ((List.pairwise_append.mp bounded).2.2 entry member _ (List.mem_singleton_self _))
  rw [none, List.nil_append]

theorem Holding.level_deepest (holding : builder.Holding entries) :
    ∃ level, builder.spine.getLast? = some level ∧
      Level builder.options.reorderChildren none level.2
        (descend builder.openKey.reverse entries) := by
  have held := holding.held
  rw [Holds] at held
  rw [← fst_path, spine_eq_reverse, List.getLast?_reverse]
  cases path : builder.path with
  | nil =>
      rw [path] at held
      exact ⟨_, rfl, held⟩
  | cons lowest rest =>
      rw [path] at held
      exact ⟨_, rfl, held.1⟩

theorem Holding.deepest (holding : builder.Holding entries) :
    ∃ level, builder.spine.getLast? = some level ∧ level.2.children = [] ∧
      level.2.value.isSome = builder.hasPrevious := by
  obtain ⟨level, last, own⟩ := holding.level_deepest
  refine ⟨level, last, ?_⟩
  rcases holding.latest with ⟨first, rfl, bare⟩ | ⟨previous, earlier, value, rfl⟩
  · have root := holding.root_eq_of_first bare
    rw [spine, bare, root] at last
    cases last
    rw [first]
    exact ⟨rfl, rfl⟩
  · rw [descend_latest holding.ascending] at own
    refine ⟨own.childless (groups_singleton_nil value), ?_⟩
    rw [own.value, previous]
    rfl

end Order

section Main

/-- The builder stands for the accepted entries: its open nodes lead to the last of them, the
children of these nodes are in order and fit to be moved or written, and everything in it taken
together is the entries. -/
structure Represents (builder : Builder τ) (accepted : List (Bytes × τ.Value)) : Prop where
  spelled : builder.spine.tail.map Prod.fst = (lastKey? accepted).getD []
  previous : builder.hasPrevious = !accepted.isEmpty
  deepest : ∃ level, builder.spine.getLast? = some level ∧ level.2.children = [] ∧
    level.2.value.isSome = builder.hasPrevious
  sorted : ∀ level ∈ builder.spine, (level.2.children.map Prod.fst).Pairwise (· < ·)
  before : builder.spine.IsChain Before
  proper : ∀ level ∈ builder.spine, ∀ child ∈ level.2.children, ∀ inner, Inside inner child.2 →
    inner ≠ .branch none [] ∧ (inner.isFlat = true → inner.kind.isLeaf = false)
  ascending : Ascending accepted
  listed : ∃ visited, builder.contents = .ok visited ∧
    Enumerates builder.options.reorderChildren visited accepted

/-- Nothing goes wrong inside the builder. Every open node below the root closes into its parent,
leaves can be moved up, and the errors of a call are those of its key: no call closes the root. -/
structure Unfailing (builder : Builder τ) : Prop where
  closes : ∀ count ≤ builder.path.length, ∃ after, closeLast count builder = .ok () after ∧
    after.path.length = builder.path.length - count
  folds : ∀ level ∈ builder.spine, ∀ child ∈ level.2.children, child.2.kind.isLeaf = true →
    ∃ folded, child.2.fold child.1 = .ok folded
  answers : ∀ offered key value position error after,
    addAt key value position { builder with offered } = .error error after →
      error.kind ≠ .internal
  finishes : ∃ root stats, builder.finishWithStats = .ok (root, stats)

theorem Holding.represents (holding : builder.Holding entries)
    (contains : builder.Contains entries) : builder.Represents entries := by
  refine ⟨?_, ?_, holding.deepest, holding.sorted_spine, holding.isChain_spine, ?_,
    holding.ascending, contains.listed⟩
  · have spelled : builder.spine.tail.map Prod.fst = builder.openKey := List.map_reverse
    rw [spelled]
    rcases holding.latest_cases with ⟨-, rfl, bare⟩ | ⟨-, latest⟩
    · rw [openKey, bare]
      rfl
    · rw [latest]
      rfl
  · rcases holding.latest with ⟨first, rfl, -⟩ | ⟨previous, earlier, value, rfl⟩
    · exact first
    · rw [previous]
      cases earlier <;> rfl
  · intro level member child childMember inner inside
    have proper := (contains.proper level member child childMember).of_inside inside
    exact ⟨proper.ne_bare, proper.isLeaf_of_isFlat⟩

theorem Holding.unfailing (holding : builder.Holding entries)
    (contains : builder.Contains entries) : builder.Unfailing := by
  refine ⟨?_, ?_, ?_, ?_⟩
  · intro count inside
    obtain ⟨after, closed, -, shorter, -⟩ :=
      closeLast_holds holding.ascending holding.held count inside
    refine ⟨after, closed, ?_⟩
    rw [← length_openKey, shorter, List.length_take, length_openKey]
    omega
  · intro level member child childMember leaf
    obtain ⟨value, suffix, -, folds⟩ :=
      (contains.proper level member child childMember).exists_fold leaf child.1
    exact ⟨_, folds⟩
  · intro offered key value position error after failed
    have answer := (holding.offer offered).answerAt key value position
    rw [failed] at answer
    cases answer with
    | rejected latest policy => exact nofun
    | outOfOrder latest behind explains => exact nofun
  · obtain ⟨root, stats, finished, -⟩ := finishWithStats_holding holding
    exact ⟨root, stats, finished⟩

/-- After any calls, whatever their answers, the builder stands for the entries it has accepted, and
nothing goes wrong inside it. -/
theorem represents_accepted (made : ofOptions options = .ok start)
    (bounded : options.serializeThreshold < 2 ^ 64) (calls : List (Bytes × τ.Value)) :
    (start.offerAll calls).Represents (start.accepted calls) ∧
      (start.offerAll calls).Unfailing := by
  obtain ⟨holding, -, -⟩ := holding_of_ofOptions made calls
  have begun : start.Holding [] := (holding_of_ofOptions made []).1
  obtain rfl := eq_of_ofOptions_eq_ok made
  have contains := offerAll_contains bounded begun (contains_start options) calls
  exact ⟨holding.represents contains, holding.unfailing contains⟩

theorem represents_accepted_severalCalls :
    let start : Builder .integer := { options := nestedOptions }
    ofOptions nestedOptions = .ok start ∧ nestedOptions.serializeThreshold < 2 ^ 64 ∧
      keys (start.accepted severalCalls) =
        [[], [0x61], [0x61, 0x62, 0x63], [0x61, 0x62, 0x64], [0x7A, 0x7A]] ∧
      (start.offerAll severalCalls).Represents (start.accepted severalCalls) ∧
      (start.offerAll severalCalls).Unfailing := by
  intro start
  have made : ofOptions nestedOptions = .ok start := rfl
  have bounded : nestedOptions.serializeThreshold < 2 ^ 64 := by decide
  refine ⟨made, bounded, ?_, represents_accepted made bounded severalCalls⟩
  rw [accepted_eq_destutter made]
  decide

end Main

end Builder

end PackedTrie
