import PackedTrie.Proofs.Build.Intake
import PackedTrie.Proofs.Source.Lines

/-!
Building from lines of text. The build stops at the first line that is malformed, or whose entry is
out of order, and names it by its number among all lines of the text.
-/

namespace PackedTrie

open Entries

namespace Line

variable {V : Type} {separator : UInt8} {value? : Bytes → Option V}

/-- What the lines hand out, each at its number. -/
def items (lines : List (Line V)) : List (Item V) :=
  lines.mapIdx fun index line => line.item (index + 1)

/-- The error tells what is wrong with the line, and its number. -/
inductive Names (number : Nat) : Line V → Error → Prop where
  | malformed (text : Bytes) :
      Names number (.malformed text) (.invalidFormat (.malformedLine number text))
  | outOfOrder (key : Bytes) (value : V) (fault : OrderFault) :
      Names number (.entry key value) (.outOfOrder number fault)
  | duplicate (key : Bytes) (value : V) : Names number (.entry key value) (.duplicateKey number)

theorem exists_names {policy : DuplicatePolicy} {lines : List (Line V)} {index : Nat}
    {error : Error} (offends : Item.OffendsAt policy (items lines) index error) :
    ∃ line, lines[index]? = some line ∧ line.Names (index + 1) error := by
  obtain ⟨item, found, offends⟩ := offends
  rw [items, List.getElem?_mapIdx, Option.map_eq_some_iff] at found
  obtain ⟨line, atIndex, rfl⟩ := found
  refine ⟨line, atIndex, ?_⟩
  cases line with
  | skipped => cases offends
  | malformed text =>
      cases offends
      exact .malformed text
  | entry key value =>
      cases offends with
      | outOfOrder latest behind explains => exact .outOfOrder key value _
      | duplicate latest rejecting => exact .duplicate key value

theorem items_steps (lines : List (Line V)) : Source.items (steps lines) = items lines := by
  apply List.ext_getElem?
  intro index
  rw [Source.items, items, List.getElem?_map, getElem?_steps, List.getElem?_mapIdx, Option.map_map]
  rfl

/-- The position of the source is the number of the line read last. -/
theorem reached_steps (lines : List (Line V)) {count : Nat} (inside : count ≤ lines.length) :
    Source.reached (some 0) ((steps lines).take count) = some count := by
  cases count with
  | zero => rfl
  | succ index =>
      have stepsInside : index < (steps lines).length := by
        rw [length_steps]
        exact inside
      have last : (steps lines)[index].position = some (index + 1) := by
        have found := getElem?_steps lines index
        rw [List.getElem?_eq_getElem stepsInside, List.getElem?_eq_getElem inside] at found
        rw [Option.some.inj found]
      rw [List.take_succ_eq_append_getElem stepsInside, Source.reached_append_singleton, last]

end Line

namespace Builder

open Source

variable {τ : ValueType} {start : Builder τ} {options : Options}

variable {separator : UInt8} {text : Bytes} {index : Nat} {error : Error}

theorem items_ofText (separator : UInt8) (value? : Bytes → Option τ.Value) (text : Bytes) :
    items (Source.ofText separator value? text none).steps =
      Line.items (Line.ofText separator value? text) := by
  rw [Line.steps_ofText, Line.items_steps]

theorem reached_ofText {value? : Bytes → Option τ.Value} {count : Nat}
    (inside : count ≤ (Line.ofText separator value? text).length) :
    reached (some 0) ((Source.ofText separator value? text none).steps.take count) =
      some count := by
  rw [Line.steps_ofText, Line.reached_steps _ inside]

theorem reached_ofText_whole (separator : UInt8) (value? : Bytes → Option τ.Value) (text : Bytes) :
    reached (some 0) (Source.ofText separator value? text none).steps =
      some (Line.cut text).length := by
  have count : (Line.ofText separator value? text).length = (Line.cut text).length :=
    List.length_map _
  have whole : (Source.ofText separator value? text none).steps.length =
      (Line.ofText separator value? text).length := by
    rw [Line.steps_ofText, Line.length_steps]
  have reading := reached_ofText (Nat.le_refl (Line.ofText separator value? text).length)
  rwa [← whole, List.take_length, whole, count] at reading

/-- The build stops with the first line that offends, whose number it names. -/
theorem build_ofText_of_offence (holding : start.Holding [])
    (offends : Item.OffendsAt start.options.duplicatePolicy
      (Line.items (Line.ofText separator τ.ofText? text)) index error)
    (smooth : Item.Smooth start.options.duplicatePolicy
      (Line.items (Line.ofText separator τ.ofText? text)) index) :
    ∃ read after line, start.build (Source.ofText separator τ.ofText? text none) =
        (read, .error error after) ∧ read.position = some (index + 1) ∧
      (Line.ofText separator τ.ofText? text)[index]? = some line ∧
      line.Names (index + 1) error := by
  obtain ⟨line, atIndex, names⟩ := Line.exists_names offends
  have inside : index + 1 ≤ (Line.ofText separator τ.ofText? text).length :=
    (List.getElem?_eq_some_iff.mp atIndex).1
  rw [← items_ofText] at offends smooth
  obtain ⟨read, after, failed, position⟩ := build_of_offence holding offends smooth
  exact ⟨read, after, line, failed, position.trans (reached_ofText inside), atIndex, names⟩

theorem destutter_ofText {policy : DuplicatePolicy}
    (smooth : Item.Smooth policy (Line.items (Line.ofText separator τ.ofText? text))
      (Line.ofText separator τ.ofText? text).length) :
    (Item.entries (Line.items (Line.ofText separator τ.ofText? text))).destutter Differs =
      Item.climbing (Line.items (Line.ofText separator τ.ofText? text)) := by
  have count : (Line.items (Line.ofText separator τ.ofText? text)).length =
      (Line.ofText separator τ.ofText? text).length := List.length_mapIdx
  have kept := Item.destutter_differs_of_smooth (Nat.le_of_eq count.symm) smooth
  rwa [← count, List.take_length] at kept

section Smooth

variable (smooth : Item.Smooth start.options.duplicatePolicy
  (Line.items (Line.ofText separator τ.ofText? text)) (Line.ofText separator τ.ofText? text).length)

include smooth

theorem smooth_ofText :
    Item.Smooth start.options.duplicatePolicy
      (items (Source.ofText separator τ.ofText? text none).steps)
      (Source.ofText separator τ.ofText? text none).steps.length := by
  rw [items_ofText, Line.steps_ofText, Line.length_steps]
  exact smooth

theorem build_ofText_of_smooth (holding : start.Holding []) :
    ∃ read root after, start.build (Source.ofText separator τ.ofText? text none) =
        (read, .ok root after) ∧
      root.serialize = (Node.ofEntries start.options.reorderChildren
        (Item.climbing (Line.items (Line.ofText separator τ.ofText? text)))).serialize := by
  rw [← items_ofText]
  exact build_of_smooth holding rfl (smooth_ofText smooth)

theorem buildAndWrite_ofText_of_smooth (holding : start.Holding []) (withHeader : Bool) :
    (∀ sink stats result, (start.buildAndWrite (Source.ofText separator τ.ofText? text none)
        withHeader sink).2 = .ok stats result →
      stats.inputPosition = some (Line.cut text).length) ∧
    ((Node.ofEntries start.options.reorderChildren
        (Item.climbing (Line.items (Line.ofText separator τ.ofText? text)))).Fits →
      ∀ before, ∃ stats result, (start.buildAndWrite (Source.ofText separator τ.ofText? text none)
        withHeader ⟨none, before⟩).2 = .ok stats result) := by
  obtain ⟨positioned, written⟩ :=
    buildAndWrite_of_smooth holding rfl (smooth_ofText smooth) withHeader
  rw [items_ofText] at written
  refine ⟨?_, written⟩
  intro sink stats result done
  exact (positioned sink stats result done).trans (reached_ofText_whole separator τ.ofText? text)

end Smooth

/-- A build from a text fails just if there is a line that is malformed, or whose entry is out of
order, and then it names the first of these lines and has read nothing behind it. Otherwise the root
is that of the entries without those that repeat the one before, and the whole text was read. -/
theorem build_ofText (made : ofOptions options = .ok start) (separator : UInt8) (text : Bytes) :
    let lines := Line.ofText separator τ.ofText? text
    let source := Source.ofText separator τ.ofText? text none
    ((Line.cut text).flatten = text ∧ ∀ line ∈ Line.cut text,
      Line.Reads separator τ.ofText? (Ascii.trim line) (Line.ofBytes separator τ.ofText? line)) ∧
    ((∃ error after, (start.build source).2 = .error error after) ↔
      ∃ index error, Item.OffendsAt options.duplicatePolicy (Line.items lines) index error) ∧
    (∀ index error, Item.OffendsAt options.duplicatePolicy (Line.items lines) index error →
      Item.Smooth options.duplicatePolicy (Line.items lines) index →
      ∃ read after line, start.build source = (read, .error error after) ∧
        read.position = some (index + 1) ∧
        lines[index]? = some line ∧ line.Names (index + 1) error) ∧
    (Item.Smooth options.duplicatePolicy (Line.items lines) lines.length →
      ∃ read root after other, start.build source = (read, .ok root after) ∧
        rootOf options ((Item.entries (Line.items lines)).destutter Differs) = .ok other ∧
        root.serialize = other.serialize ∧
        ∀ withHeader,
          (∀ sink stats result, (start.buildAndWrite source withHeader sink).2 = .ok stats result →
            stats.inputPosition = some (Line.cut text).length) ∧
          (root.Fits → ∀ before, ∃ stats result,
            (start.buildAndWrite source withHeader ⟨none, before⟩).2 = .ok stats result)) := by
  intro lines source
  have holding : start.Holding [] := (holding_of_ofOptions made []).1
  have valid := valid_of_ofOptions_eq_ok made
  obtain rfl := eq_of_ofOptions_eq_ok made
  refine ⟨⟨Line.flatten_cut text, fun line _ => Line.reads_ofBytes separator τ.ofText? line⟩, ?_,
    fun index error offends smooth => build_ofText_of_offence holding offends smooth, ?_⟩
  · constructor
    · rintro ⟨error, after, failed⟩
      by_contra none
      have smooth : Item.Smooth options.duplicatePolicy (Line.items lines) lines.length :=
        fun index _ error offends => none ⟨index, error, offends⟩
      obtain ⟨read, root, other, built, -⟩ := build_ofText_of_smooth smooth holding
      rw [built] at failed
      contradiction
    · intro offence
      obtain ⟨index, error, offends, smooth⟩ := Item.exists_first_offence offence
      obtain ⟨read, after, line, failed, -⟩ := build_ofText_of_offence holding offends smooth
      exact ⟨error, after, by rw [failed]⟩
  · intro smooth
    obtain ⟨read, root, after, built, bytes⟩ := build_ofText_of_smooth smooth holding
    obtain ⟨other, otherBuilt, otherBytes⟩ :=
      exists_rootOf_eq_ok valid (Item.ascending_climbing (Line.items lines))
    refine ⟨read, root, after, other, built, by rw [destutter_ofText smooth, otherBuilt],
      bytes.trans otherBytes.symm, ?_⟩
    intro withHeader
    obtain ⟨positioned, written⟩ := buildAndWrite_ofText_of_smooth smooth holding withHeader
    refine ⟨positioned, ?_⟩
    intro fits
    apply written
    rw [Node.Fits, ← Node.length_eq_of_serialize_eq bytes]
    exact fits

def descendingText : Bytes :=
  [0x23, 0x0A, 0x62, 0x7C, 0x32, 0x0A, 0x61, 0x7C, 0x31]

theorem smooth_commented (policy : DuplicatePolicy) (rest : List (Item ValueType.integer.Value)) :
    Item.Smooth policy (.nothing :: .entry [0x62] (2 : UInt64) 2 :: rest) 2 := by
  rintro index below error ⟨item, found, offends⟩
  interval_cases index
  · cases found
    cases offends
  · cases found
    cases offends with
    | outOfOrder latest behind explains => contradiction
    | duplicate latest rejecting => contradiction

theorem build_ofText_descendingText :
    let start : Builder .integer := { options := nestedOptions }
    let front := descendingText.take 6
    let source := Source.ofText 0x7C ValueType.integer.ofText? descendingText none
    let frontSource := Source.ofText 0x7C ValueType.integer.ofText? front none
    ofOptions nestedOptions = .ok start ∧
      (∃ read after, start.build source =
          (read, .error (.outOfOrder 3 (.smallerByte 0x61 0 0x62)) after) ∧
        read.position = some 3) ∧
      ∃ read root after other, start.build frontSource = (read, .ok root after) ∧
        rootOf (τ := .integer) nestedOptions [([0x62], (2 : UInt64))] = .ok other ∧
        root.serialize = other.serialize := by
  intro start front source frontSource
  have made : ofOptions nestedOptions = .ok start := rfl
  obtain ⟨-, -, stops, -⟩ := build_ofText made 0x7C descendingText
  obtain ⟨-, -, -, builds⟩ := build_ofText made 0x7C front
  refine ⟨made, ?_, ?_⟩
  · obtain ⟨read, after, line, failed, position, -⟩ :=
      stops 2 (.outOfOrder 3 (.smallerByte 0x61 0 0x62)) ⟨.entry [0x61] (1 : UInt64) 3, rfl,
        .outOfOrder rfl (by decide) (.smallerByte [] (by decide) [] [])⟩ (smooth_commented _ _)
    exact ⟨read, after, failed, position⟩
  · obtain ⟨read, root, after, other, built, otherBuilt, bytes, -⟩ :=
      builds (smooth_commented _ [])
    exact ⟨read, root, after, other, built, otherBuilt, bytes⟩

end Builder

end PackedTrie
