import PackedTrie.Build.FromSource
import PackedTrie.Proofs.Build.Threshold
import PackedTrie.Proofs.Node.Emission

/-!
Taking in a source. A builder reads up to the first item that offends: a fault of the source, or an
entry out of order. Up to there it accepts the entries that climb, and the source stands right
behind the item that offends.
-/

namespace PackedTrie

open Entries

namespace Item

variable {V : Type} {policy : DuplicatePolicy} {last? : Option Bytes} {items : List (Item V)}
  {item : Item V} {key : Bytes} {value : V} {position index : Nat} {error : Error}

def keyed? : Item V → Option (Bytes × V)
  | .entry key value _ => some (key, value)
  | .fault _ | .nothing => none

def entries (items : List (Item V)) : List (Bytes × V) :=
  items.filterMap keyed?

/-- The entries that are accepted if the items are offered one after the other. -/
def climbing (items : List (Item V)) : List (Bytes × V) :=
  (entries items).destutter Climbs

/-- The item stops a build in which `last?` is the last key accepted. -/
inductive Offends (policy : DuplicatePolicy) (last? : Option Bytes) : Item V → Error → Prop where
  | fault (error : Error) : Offends policy last? (.fault error) error
  | outOfOrder {key : Bytes} {value : V} {position : Nat} {last : Bytes} {fault : OrderFault}
      (latest : last? = some last) (behind : key < last)
      (explains : Placement.Explains 0 key last fault) :
      Offends policy last? (.entry key value position) (.outOfOrder position fault)
  | duplicate {key : Bytes} {value : V} {position : Nat} (latest : last? = some key)
      (rejecting : policy = .reject) :
      Offends policy last? (.entry key value position) (.duplicateKey position)

/-- The item at the index stops a build from the items. -/
def OffendsAt (policy : DuplicatePolicy) (items : List (Item V)) (index : Nat)
    (error : Error) : Prop :=
  ∃ item, items[index]? = some item ∧
    item.Offends policy (lastKey? (climbing (items.take index))) error

/-- None of the first `count` items offends. -/
def Smooth (policy : DuplicatePolicy) (items : List (Item V)) (count : Nat) : Prop :=
  ∀ index < count, ∀ error, ¬ OffendsAt policy items index error

/-- An entry that does not offend is beyond the last one accepted, or a repeat to be skipped. -/
theorem cases_of_not_offends
    (passes : ∀ error, ¬ (Item.entry key value position).Offends policy last? error) :
    (∀ last ∈ last?, last < key) ∨ (last? = some key ∧ policy = .skip) := by
  cases latest : last? with
  | none => exact .inl nofun
  | some last =>
      rcases Std.lt_trichotomy last key with beyond | rfl | behind
      · left
        rintro other ⟨⟩
        exact beyond
      · right
        cases chosen : policy with
        | skip => exact ⟨rfl, rfl⟩
        | reject => exact absurd (.duplicate latest chosen) (passes _)
      · obtain ⟨fault, -, explains⟩ := Placement.ofKeys_of_gt behind 0
        exact absurd (.outOfOrder latest behind explains) (passes _)

section Climbing

theorem entries_append_singleton (items : List (Item V)) (item : Item V) :
    entries (items ++ [item]) = entries items ++ item.keyed?.toList := by
  rw [entries, List.filterMap_append]
  cases stored : item.keyed? <;> simp [entries, stored]

theorem entries_append_of_none (passed : item.keyed? = none) :
    entries (items ++ [item]) = entries items := by
  rw [entries_append_singleton, passed, Option.toList_none, List.append_nil]

theorem climbing_append_of_none (passed : item.keyed? = none) :
    climbing (items ++ [item]) = climbing items := by
  rw [climbing, entries_append_of_none passed, climbing]

theorem climbing_append_of_beyond (beyond : ∀ last ∈ lastKey? (climbing items), last < key) :
    climbing (items ++ [.entry key value position]) = climbing items ++ [(key, value)] := by
  rw [climbing, entries_append_singleton]
  apply destutter_append_of_rel
  intro last latest
  apply beyond
  rw [lastKey?, Option.mem_def, climbing, Option.mem_def.mp latest]
  rfl

theorem exists_latest (latest : lastKey? (climbing items) = some key) :
    ∃ value, (climbing items).getLast? = some (key, value) := by
  rw [lastKey?, Option.map_eq_some_iff] at latest
  obtain ⟨⟨stored, value⟩, last, rfl⟩ := latest
  exact ⟨value, last⟩

theorem climbing_append_of_repeated (latest : lastKey? (climbing items) = some key) :
    climbing (items ++ [.entry key value position]) = climbing items := by
  obtain ⟨stored, last⟩ := exists_latest latest
  rw [climbing, entries_append_singleton]
  exact destutter_append_of_not_rel last (List.lt_irrefl key)

theorem ascending_climbing (items : List (Item V)) : Ascending (climbing items) := by
  have climbs : IsTrans (Bytes × V) Climbs := ⟨fun _ _ _ => List.lt_trans⟩
  exact List.isChain_iff_pairwise.mp (List.isChain_destutter Climbs (entries items))

theorem Smooth.passes (smooth : Smooth policy items (index + 1)) (inside : index < items.length) :
    ∀ error, ¬ items[index].Offends policy (lastKey? (climbing (items.take index))) error := by
  intro error offends
  exact smooth index (Nat.lt_succ_self index) error
    ⟨items[index], List.getElem?_eq_getElem inside, offends⟩

theorem Smooth.of_succ (smooth : Smooth policy items (index + 1)) : Smooth policy items index :=
  fun earlier before => smooth earlier (Nat.lt_succ_of_lt before)

/-- As long as nothing offends, the entries accepted are those that do not repeat the one before. -/
theorem destutter_differs_of_smooth {count : Nat} (inside : count ≤ items.length)
    (smooth : Smooth policy items count) :
    (entries (items.take count)).destutter Differs = climbing (items.take count) := by
  induction count with
  | zero => rfl
  | succ count inductionHypothesis =>
      have before := inductionHypothesis (Nat.le_of_succ_le inside) smooth.of_succ
      have passes := smooth.passes inside
      rw [List.take_succ_eq_append_getElem inside]
      cases item : items[count] with
      | nothing =>
          rw [entries_append_of_none rfl, climbing_append_of_none rfl, before]
      | fault error =>
          rw [entries_append_of_none rfl, climbing_append_of_none rfl, before]
      | entry key value position =>
          rw [item] at passes
          rw [entries_append_singleton]
          rcases cases_of_not_offends passes with beyond | ⟨latest, -⟩
          · rw [climbing_append_of_beyond beyond, ← before]
            apply destutter_append_of_rel
            intro last latest
            rw [before] at latest
            have below : last.1 < key := by
              apply beyond
              rw [lastKey?, Option.mem_def, Option.mem_def.mp latest]
              rfl
            intro same
            rw [show last.1 = key from same] at below
            exact List.lt_irrefl key below
          · obtain ⟨stored, last⟩ := exists_latest latest
            rw [climbing_append_of_repeated latest, ← before]
            rw [← before] at last
            exact destutter_append_of_not_rel last (not_not.mpr rfl)

theorem mem_of_latest (latest : lastKey? (climbing items) = some key) :
    ∃ value, (key, value) ∈ entries items := by
  obtain ⟨value, last⟩ := exists_latest latest
  exact ⟨value, (List.destutter_sublist Climbs (entries items)).subset (List.mem_of_getLast? last)⟩

theorem smooth_of_ascending (sound : ∀ error, .fault error ∉ items)
    (ascending : Ascending (entries items)) (count : Nat) : Smooth policy items count := by
  rintro index - error ⟨item, found, offends⟩
  obtain ⟨inside, same⟩ := List.getElem?_eq_some_iff.mp found
  have beyond : ∀ key value position, item = .entry key value position →
      ∀ last, lastKey? (climbing (items.take index)) = some last → last < key := by
    rintro key value position rfl last latest
    obtain ⟨stored, before⟩ := mem_of_latest latest
    rw [← List.take_append_drop index items, entries, List.filterMap_append,
      List.drop_eq_getElem_cons inside, same] at ascending
    exact (List.pairwise_append.mp ascending).2.2 _ before (key, value) (by simp [keyed?])
  cases offends with
  | fault error => exact sound error (List.mem_of_getElem? found)
  | outOfOrder latest behind explains =>
      exact List.lt_asymm behind (beyond _ _ _ rfl _ latest)
  | duplicate latest rejecting => exact List.lt_irrefl _ (beyond _ _ _ rfl _ latest)

end Climbing

end Item

namespace Source

open Builder

variable {τ : ValueType} {builder after : Builder τ} {source : Source τ.Value}
  {steps rest : List (Step τ.Value)} {step : Step τ.Value} {position : Option Nat}
  {entries : List (Bytes × τ.Value)} {count : Nat} {error : Error}

def items {V : Type} (steps : List (Step V)) : List (Item V) :=
  steps.map Step.item

/-- The position of the source after the steps. -/
def reached {V : Type} (position : Option Nat) (steps : List (Step V)) : Option Nat :=
  (steps.getLast?.map Step.position).getD position

theorem reached_append_singleton {V : Type} (position : Option Nat) (steps : List (Step V))
    (step : Step V) : reached position (steps ++ [step]) = step.position := by
  rw [reached, List.getLast?_concat]
  rfl

section Steps

theorem readAll_step {before : List (Item τ.Value)}
    (holding : builder.Holding (Item.climbing before))
    (passes : ∀ error, ¬ step.item.Offends builder.options.duplicatePolicy
      (lastKey? (Item.climbing before)) error) (position : Option Nat) :
    ∃ after, readAll.go source addAt (step :: rest) position builder =
        readAll.go source addAt rest step.position after ∧
      after.options = builder.options ∧
      after.Holding (Item.climbing (before ++ [step.item])) := by
  obtain ⟨item, reading⟩ := step
  cases item with
  | nothing =>
      rw [Item.climbing_append_of_none rfl]
      exact ⟨builder, rfl, rfl, holding⟩
  | fault error => exact absurd (.fault error) (passes error)
  | entry key value number =>
      rcases Item.cases_of_not_offends passes with beyond | ⟨latest, skipping⟩
      · obtain ⟨after, added, options, afterHolding⟩ := addAt_holding holding
          (holding.ascending.append_singleton beyond value) number
        rw [Item.climbing_append_of_beyond beyond]
        refine ⟨after, ?_, options, afterHolding⟩
        simp only [readAll.go, added]
      · have repeated : builder.placement key = .repeated := by
          rw [holding.placement_eq, latest]
          exact Placement.ofKeys_self 0 key
        have added := addAt_of_repeated repeated value number
        rw [skipping] at added
        rw [Item.climbing_append_of_repeated latest]
        refine ⟨builder.skipDuplicate number, ?_, rfl,
          holding.ascending, holding.held, holding.latest⟩
        simp only [readAll.go, added]

theorem readAll_smooth (holding : builder.Holding []) (inside : count ≤ steps.length)
    (smooth : Item.Smooth builder.options.duplicatePolicy (items steps) count)
    (position : Option Nat) :
    ∃ after, readAll.go source addAt steps position builder =
        readAll.go source addAt (steps.drop count) (reached position (steps.take count)) after ∧
      after.options = builder.options ∧
      after.Holding (Item.climbing ((items steps).take count)) := by
  induction count with
  | zero => exact ⟨builder, rfl, rfl, holding⟩
  | succ count inductionHypothesis =>
      obtain ⟨between, read, options, held⟩ :=
        inductionHypothesis (Nat.le_of_succ_le inside) smooth.of_succ
      have itemsInside : count < (items steps).length := by
        rw [items, List.length_map]
        exact inside
      have passes := smooth.passes itemsInside
      have item : (items steps)[count] = steps[count].item := List.getElem_map _
      rw [item, ← options] at passes
      obtain ⟨after, stepped, sameOptions, afterHeld⟩ :=
        readAll_step held passes (reached position (steps.take count))
      refine ⟨after, ?_, sameOptions.trans options, ?_⟩
      · rw [read, List.drop_eq_getElem_cons inside, stepped,
          List.take_succ_eq_append_getElem inside, reached_append_singleton]
      · rw [List.take_succ_eq_append_getElem itemsInside, item]
        exact afterHeld

/-- At an item that offends the reading stops, and leaves the builder as it is. -/
theorem readAll_offence (holding : builder.Holding entries)
    (offends : step.item.Offends builder.options.duplicatePolicy (lastKey? entries) error)
    (position : Option Nat) :
    readAll.go source addAt (step :: rest) position builder =
      ({ source with steps := rest, position := step.position }, .error error builder) := by
  obtain ⟨item, reading⟩ := step
  cases offends with
  | fault error => rfl
  | @outOfOrder key value number last fault latest behind explains =>
      have placed : builder.placement key = .before fault := by
        rw [holding.placement_eq, latest]
        exact explains.ofKeys_eq
      simp only [readAll.go, addAt_of_before placed]
  | @duplicate key value number latest rejecting =>
      have repeated : builder.placement key = .repeated := by
        rw [holding.placement_eq, latest]
        exact Placement.ofKeys_self 0 key
      have failed := addAt_of_repeated repeated value number
      rw [rejecting] at failed
      simp only [readAll.go, failed]

end Steps

section Reading

theorem readAll_whole (holding : builder.Holding [])
    (smooth : Item.Smooth builder.options.duplicatePolicy (items source.steps)
      source.steps.length) :
    ∃ after, source.readAll addAt builder =
        ({ source with steps := [], position := reached source.position source.steps },
          match source.failure with
          | none => .ok () after
          | some error => .error error after) ∧
      after.options = builder.options ∧ after.Holding (Item.climbing (items source.steps)) := by
  obtain ⟨after, done, options, held⟩ :=
    readAll_smooth holding (Nat.le_refl _) smooth source.position
  have whole : (items source.steps).take source.steps.length = items source.steps := by
    rw [items, ← List.length_map Step.item, List.take_length]
  rw [List.drop_length, List.take_length] at done
  rw [whole] at held
  exact ⟨after, done, options, held⟩

theorem readAll_of_smooth (holding : builder.Holding []) (complete : source.failure = none)
    (smooth : Item.Smooth builder.options.duplicatePolicy (items source.steps)
      source.steps.length) :
    ∃ read after, source.readAll addAt builder = (read, .ok () after) ∧
      read.position = reached source.position source.steps ∧ after.options = builder.options ∧
      after.Holding (Item.climbing (items source.steps)) := by
  obtain ⟨after, done, options, held⟩ := readAll_whole holding smooth
  rw [complete] at done
  exact ⟨_, after, done, rfl, options, held⟩

theorem readAll_of_offence {index : Nat} (holding : builder.Holding [])
    (offends : Item.OffendsAt builder.options.duplicatePolicy (items source.steps) index error)
    (smooth : Item.Smooth builder.options.duplicatePolicy (items source.steps) index) :
    ∃ read after, source.readAll addAt builder = (read, .error error after) ∧
      read.steps = source.steps.drop (index + 1) ∧
      read.position = reached source.position (source.steps.take (index + 1)) := by
  obtain ⟨item, found, offends⟩ := offends
  obtain ⟨step, atIndex, rfl⟩ : ∃ step, source.steps[index]? = some step ∧ step.item = item := by
    rw [items, List.getElem?_map, Option.map_eq_some_iff] at found
    exact found
  obtain ⟨inside, same⟩ := List.getElem?_eq_some_iff.mp atIndex
  obtain ⟨after, done, options, held⟩ :=
    readAll_smooth holding (Nat.le_of_lt inside) smooth source.position
  rw [← options] at offends
  rw [List.drop_eq_getElem_cons inside, same, readAll_offence held offends] at done
  refine ⟨_, after, done, rfl, ?_⟩
  rw [List.take_succ_eq_append_getElem inside, reached_append_singleton, same]

end Reading

end Source

namespace Item

variable {V : Type} {policy : DuplicatePolicy} {items : List (Item V)}

theorem exists_first_offence (offence : ∃ index error, OffendsAt policy items index error) :
    ∃ index error, OffendsAt policy items index error ∧ Smooth policy items index := by
  classical
  obtain ⟨error, offends⟩ := Nat.find_spec offence
  refine ⟨Nat.find offence, error, offends, ?_⟩
  intro earlier before other otherOffends
  exact Nat.find_min offence before ⟨other, otherOffends⟩

theorem OffendsAt.lt {index : Nat} {error : Error} (offends : OffendsAt policy items index error) :
    index < items.length := by
  obtain ⟨item, found, -⟩ := offends
  exact (List.getElem?_eq_some_iff.mp found).1

end Item

namespace Builder

open Source

variable {τ : ValueType} {builder : Builder τ} {source : Source τ.Value} {error : Error}
  {index : Nat}

theorem Holding.note {entries : List (Bytes × τ.Value)} (holding : builder.Holding entries)
    (event : Event) : (builder.note event).Holding entries :=
  ⟨holding.ascending, holding.held, holding.latest⟩

section Consuming

theorem consume_of_smooth (holding : builder.Holding []) (complete : source.failure = none)
    (smooth : Item.Smooth builder.options.duplicatePolicy (items source.steps)
      source.steps.length) :
    ∃ read after, builder.consume source = (read, .ok () after) ∧
      after.stats.inputPosition = reached source.position source.steps ∧
      after.options = builder.options ∧ after.Holding (Item.climbing (items source.steps)) := by
  obtain ⟨read, after, done, position, options, held⟩ :=
    readAll_of_smooth holding complete smooth
  refine ⟨read, after.setInputPosition read.position, ?_, position, options,
    held.ascending, held.held, held.latest⟩
  simp only [consume, done]

theorem consume_of_offence (holding : builder.Holding [])
    (offends : Item.OffendsAt builder.options.duplicatePolicy (items source.steps) index error)
    (smooth : Item.Smooth builder.options.duplicatePolicy (items source.steps) index) :
    ∃ read after, builder.consume source = (read, .error error after) ∧
      read.position = reached source.position (source.steps.take (index + 1)) := by
  obtain ⟨read, after, failed, -, position⟩ := readAll_of_offence holding offends smooth
  refine ⟨read, (after.setInputPosition read.position).note (.stopped read.position error), ?_,
    position⟩
  simp only [consume, failed]

theorem build_of_smooth (holding : builder.Holding []) (complete : source.failure = none)
    (smooth : Item.Smooth builder.options.duplicatePolicy (items source.steps)
      source.steps.length) :
    ∃ read root after, builder.build source = (read, .ok root after) ∧
      root.serialize = (Node.ofEntries builder.options.reorderChildren
        (Item.climbing (items source.steps))).serialize := by
  obtain ⟨read, added, consumed, -, options, held⟩ :=
    consume_of_smooth (holding.note (.building τ)) complete smooth
  obtain ⟨root, after, finished, bytes⟩ := finish_holding held
  rw [options] at bytes
  refine ⟨read, root, after, ?_, bytes⟩
  simp only [build, consumed, finished]

theorem build_of_offence (holding : builder.Holding [])
    (offends : Item.OffendsAt builder.options.duplicatePolicy (items source.steps) index error)
    (smooth : Item.Smooth builder.options.duplicatePolicy (items source.steps) index) :
    ∃ read after, builder.build source = (read, .error error after) ∧
      read.position = reached source.position (source.steps.take (index + 1)) := by
  obtain ⟨read, after, failed, position⟩ :=
    consume_of_offence (holding.note (.building τ)) offends smooth
  refine ⟨read, after, ?_, position⟩
  simp only [build, failed]

/-- The counters that are given back tell how far the source was read. To a sink that grows nothing
stops the trie from being written. -/
theorem buildAndWrite_of_smooth (holding : builder.Holding []) (complete : source.failure = none)
    (smooth : Item.Smooth builder.options.duplicatePolicy (items source.steps)
      source.steps.length) (withHeader : Bool) :
    (∀ sink stats result, (builder.buildAndWrite source withHeader sink).2 = .ok stats result →
      stats.inputPosition = reached source.position source.steps) ∧
    ((Node.ofEntries builder.options.reorderChildren
        (Item.climbing (items source.steps))).Fits →
      ∀ before, ∃ stats result,
        (builder.buildAndWrite source withHeader ⟨none, before⟩).2 = .ok stats result) := by
  obtain ⟨read, added, consumed, position, options, held⟩ :=
    consume_of_smooth holding complete smooth
  obtain ⟨root, after, finished, bytes⟩ := finish_holding held
  rw [options] at bytes
  have counted : added.finishWithStats = .ok (root, after.stats) := by
    rw [finishWithStats, finished]
  have kept : after.stats.apart.inputPosition = added.stats.inputPosition := by
    rw [apart_finishWithStats held counted]
    rfl
  constructor
  · intro sink stats result done
    simp only [buildAndWrite, consumed, finished] at done
    split at done
    · cases done
      exact kept.trans position
    · contradiction
  · intro fits before
    have rootFits : root.Fits := by
      rw [Node.Fits, Node.length_eq_of_serialize_eq bytes]
      exact fits
    simp only [buildAndWrite, consumed, finished, Node.writeTrie_unbounded rootFits]
    exact ⟨_, _, rfl⟩

end Consuming

end Builder

end PackedTrie
