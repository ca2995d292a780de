import PackedTrie.Proofs.Source.Readings

/-!
The readers of texts and of pairs. Whatever has been read, each stands for the source whose steps
are the lines that are left; so all of them can be read again and again without an entry being lost
or handed out twice.
-/

namespace PackedTrie

variable {V σ : Type} {failure : Option Error}

section Lines

/-- The steps of the lines behind the first `start`. -/
def Line.stepsFrom (start : Nat) (lines : List (Line V)) : List (Step V) :=
  (lines.zipIdx (start + 1)).map fun (line, number) => ⟨line.item number, some number⟩

/-- A source of which `start` lines have been read, and these are left. -/
def Source.behind (failure : Option Error) (start : Nat) (lines : List (Line V)) : Source V where
  steps := Line.stepsFrom start lines
  failure := failure
  position := some start

end Lines

namespace Source

/-- All that a reading uses of the source besides the steps is the failure at the end. -/
theorem readAll_go_congr (source other : Source V) (same : source.failure = other.failure)
    (handler : Handler V σ) (steps : List (Step V)) (position : Option Nat) (state : σ) :
    readAll.go source handler steps position state =
      readAll.go other handler steps position state := by
  induction steps generalizing position state with
  | nil => simp only [readAll.go, same]
  | cons step steps inductionHypothesis => simp only [readAll.go, same, inductionHypothesis]

section Behind

variable (failure : Option Error) (start : Nat) (lines : List (Line V)) (handler : Handler V σ)
  (state : σ)

theorem readAll_behind_nil :
    (behind failure start []).readAll handler state =
      (behind failure start [],
        match failure with
        | none => .ok () state
        | some error => .error error state) :=
  rfl

theorem readAll_behind_skipped :
    (behind failure start (.skipped :: lines)).readAll handler state =
      (behind failure (start + 1) lines).readAll handler state :=
  readAll_go_congr (behind failure start (.skipped :: lines)) (behind failure (start + 1) lines) rfl
    handler _ _ state

theorem readAll_behind_malformed (text : Bytes) :
    (behind failure start (.malformed text :: lines)).readAll handler state =
      (behind failure (start + 1) lines,
        .error (.invalidFormat (.malformedLine (start + 1) text)) state) :=
  rfl

theorem readAll_behind_entry (key : Bytes) (value : V) :
    (behind failure start (.entry key value :: lines)).readAll handler state =
      match handler key value (start + 1) state with
      | .ok _ state => (behind failure (start + 1) lines).readAll handler state
      | .error error state => (behind failure (start + 1) lines, .error error state) := by
  have step : (behind failure start (.entry key value :: lines)).readAll handler state =
      match handler key value (start + 1) state with
      | .ok _ state => readAll.go (behind failure start (.entry key value :: lines)) handler
          (Line.stepsFrom (start + 1) lines) (some (start + 1)) state
      | .error error state => (behind failure (start + 1) lines, .error error state) := rfl
  rw [step]
  cases handler key value (start + 1) state with
  | ok _ state =>
      exact readAll_go_congr (behind failure start (.entry key value :: lines))
        (behind failure (start + 1) lines) rfl handler _ _ state
  | error error state => rfl

end Behind

end Source

namespace Reading

open Source

theorem handler_of_none {verdict : Verdict V} {key : Bytes} {value : V} {number : Nat}
    (accepted : verdict key value number = none) (handed : List (Bytes × V × Nat)) :
    verdict.handler key value number handed = .ok () (handed ++ [(key, value, number)]) := by
  rw [Verdict.handler, accepted]

theorem handler_of_some {verdict : Verdict V} {key : Bytes} {value : V} {number : Nat}
    {error : Error} (refused : verdict key value number = some error)
    (handed : List (Bytes × V × Nat)) :
    verdict.handler key value number handed =
      .error error (handed ++ [(key, value, number)]) := by
  rw [Verdict.handler, refused]

/-- One reading goes through the lines up to the first that stops it. -/
theorem exists_covers (lines : List (Line V)) (failure : Option Error) (verdict : Verdict V)
    {start : Nat} (inside : start ≤ lines.length) (handed : List (Bytes × V × Nat)) :
    ∃ stop result reading,
      (behind failure start (lines.drop start)).readAll verdict.handler handed =
        (behind failure stop (lines.drop stop), result) ∧
      ofResult (some stop) result = { reading with handed := handed ++ reading.handed } ∧
      Covers lines failure verdict start stop reading := by
  generalize left : lines.drop start = rest
  induction rest generalizing start handed with
  | nil =>
      obtain rfl : start = lines.length :=
        Nat.le_antisymm inside (List.drop_eq_nil_iff.mp left)
      cases failure with
      | none =>
          refine ⟨lines.length, .ok () handed, _, ?_, ?_, covers_of_complete rfl⟩
          · rw [readAll_behind_nil, List.drop_length]
          · simp only [ofResult, List.append_nil]
      | some error =>
          refine ⟨lines.length, .error error handed, _, ?_, ?_, covers_of_failure rfl⟩
          · rw [readAll_behind_nil, List.drop_length]
          · simp only [ofResult, List.append_nil]
  | cons line rest inductionHypothesis =>
      have found : lines[start]? = some line := by
        rw [← List.head?_drop, left]
        rfl
      have later : lines.drop (start + 1) = rest := by
        rw [← List.tail_drop, left]
        rfl
      have before : start + 1 ≤ lines.length := (List.getElem?_eq_some_iff.mp found).1
      cases line with
      | skipped =>
          obtain ⟨stop, result, reading, read, noted, covers⟩ :=
            inductionHypothesis before handed later
          rw [readAll_behind_skipped]
          exact ⟨stop, result, reading, read, noted, covers.of_succ found nofun⟩
      | malformed text =>
          refine ⟨start + 1, .error (.invalidFormat (.malformedLine (start + 1) text)) handed, _,
            ?_, ?_, covers_of_stops found (.malformed text)⟩
          · rw [readAll_behind_malformed, later]
          · simp only [ofResult, Line.entry?, Option.toList_none, List.append_nil]
      | entry key value =>
          rw [readAll_behind_entry]
          cases answer : verdict key value (start + 1) with
          | none =>
              obtain ⟨stop, result, reading, read, noted, covers⟩ :=
                inductionHypothesis before (handed ++ [(key, value, start + 1)]) later
              have passes : ∀ error, ¬ (Line.entry key value).Stops verdict (start + 1) error := by
                rintro error (_ | refused)
                cases answer.symm.trans refused
              rw [handler_of_none answer]
              refine ⟨stop, result, _, read, ?_, covers.of_succ found passes⟩
              rw [noted, Line.entry?, Option.toList_some, List.append_assoc]
          | some error =>
              rw [handler_of_some answer]
              refine ⟨start + 1, .error error (handed ++ [(key, value, start + 1)]), _, ?_, rfl,
                covers_of_stops found (.refused answer)⟩
              rw [later]

/-- And the next reading goes on there. -/
theorem continues_inTurn (lines : List (Line V)) (failure : Option Error)
    (verdicts : List (Verdict V)) {start : Nat} (inside : start ≤ lines.length) :
    Continues lines failure start verdicts
      (inTurn (behind failure start (lines.drop start)) verdicts) := by
  induction verdicts generalizing start with
  | nil => exact .nil start
  | cons verdict verdicts inductionHypothesis =>
      obtain ⟨stop, result, reading, read, noted, covers⟩ :=
        exists_covers lines failure verdict inside []
      have first : Readable.readAll (behind failure start (lines.drop start)) verdict.handler [] =
          (behind failure stop (lines.drop stop), result) := read
      have position : Readable.position (behind failure stop (lines.drop stop)) = some stop := rfl
      rw [inTurn, first]
      dsimp only
      rw [position, noted, List.nil_append]
      exact .cons covers (inductionHypothesis covers.inside)

theorem resumes_inTurn (lines : List (Line V)) (failure : Option Error)
    (verdicts : List (Verdict V)) :
    Resumes lines failure verdicts (inTurn (behind failure 0 lines) verdicts) :=
  (continues_inTurn lines failure verdicts (Nat.zero_le lines.length)).resumes

/-- What can be seen as another source in all its readings gives the same readings. -/
theorem inTurn_view {S T : Type} [Readable S V] [Readable T V] (view : S → T)
    (read : ∀ (source : S) (handler : Handler V (List (Bytes × V × Nat)))
      (handed : List (Bytes × V × Nat)), Readable.readAll (view source) handler handed =
        Prod.map view id (Readable.readAll source handler handed))
    (position : ∀ source : S, Readable.position (view source) = Readable.position source)
    (source : S) (verdicts : List (Verdict V)) :
    inTurn (view source) verdicts = inTurn source verdicts := by
  induction verdicts generalizing source with
  | nil => rfl
  | cons verdict verdicts inductionHypothesis =>
      simp only [inTurn, read, Prod.map_fst, Prod.map_snd, id_eq, position, inductionHypothesis]

end Reading

namespace Line

theorem untilLineFeed_eq_nil {text : Bytes} (empty : (untilLineFeed text).1 = []) : text = [] := by
  fun_cases untilLineFeed text with
  | case1 => rfl
  | case2 text => simp [untilLineFeed] at empty
  | case3 byte text other => simp [untilLineFeed, other] at empty

theorem cut_eq_cons {text : Bytes} (nonempty : text ≠ []) :
    cut text = (untilLineFeed text).1 :: cut (untilLineFeed text).2 := by
  fun_induction untilLineFeed text with
  | case1 => contradiction
  | case2 text => rw [cut, if_pos rfl]
  | case3 byte text other inductionHypothesis =>
      rw [cut, if_neg other]
      cases text with
      | nil => rfl
      | cons next text => rw [inductionHypothesis (List.cons_ne_nil _ _)]

theorem untilLineFeed_of_not_mem {text : Bytes} (unended : lineFeed ∉ (untilLineFeed text).1) :
    (untilLineFeed text).2 = [] := by
  fun_induction untilLineFeed text with
  | case1 => rfl
  | case2 text => simp at unended
  | case3 byte text other inductionHypothesis =>
      exact inductionHypothesis fun member => unended (List.mem_cons_of_mem _ member)

end Line

namespace LineReader

variable {reader after : LineReader V} {line : Bytes} {first : UInt8} {error : Error}

theorem of_takeLine_eq_error (taken : takeLine reader = .error error after) :
    reader.failure = some error ∧ Line.counted reader.failure reader.text = [] ∧
      after = { reader with text := [] } := by
  unfold takeLine at taken
  dsimp only at taken
  split at taken
  · cases taken
  · rename_i failure broken
    split at taken <;> cases taken
    rename_i unended
    refine ⟨broken, ?_, rfl⟩
    rw [broken, Line.counted]
    by_cases empty : reader.text = []
    · rw [empty]
      rfl
    · rw [Line.cut_eq_cons empty, Line.untilLineFeed_of_not_mem unended]
      simp [Line.cut, unended]

theorem of_takeLine_eq_nil (taken : takeLine reader = .ok [] after) :
    reader.failure = none ∧ reader.text = [] ∧ after = reader := by
  unfold takeLine at taken
  dsimp only at taken
  split at taken
  · rename_i complete
    obtain ⟨empty, rfl⟩ := EStateM.Result.ok.inj taken
    have ended := Line.untilLineFeed_eq_nil empty
    refine ⟨complete, ended, ?_⟩
    rw [ended]
    cases reader
    cases ended
    rfl
  · split at taken
    · rename_i ended
      rw [(EStateM.Result.ok.inj taken).1] at ended
      contradiction
    · cases taken

theorem of_takeLine_eq_cons (taken : takeLine reader = .ok (first :: line) after) :
    Line.counted reader.failure reader.text =
        (first :: line) :: Line.counted reader.failure after.text ∧
      after = { reader with text := after.text } := by
  have nonempty : (Line.untilLineFeed reader.text).1 = first :: line → reader.text ≠ [] := by
    rintro front empty
    rw [empty] at front
    contradiction
  unfold takeLine at taken
  dsimp only at taken
  split at taken
  · rename_i complete
    obtain ⟨front, rfl⟩ := EStateM.Result.ok.inj taken
    refine ⟨?_, rfl⟩
    rw [complete, Line.counted, Line.cut_eq_cons (nonempty front), front]
    rfl
  · rename_i failure broken
    split at taken
    · rename_i ended
      obtain ⟨front, rfl⟩ := EStateM.Result.ok.inj taken
      refine ⟨?_, rfl⟩
      rw [front] at ended
      rw [broken, Line.counted, Line.cut_eq_cons (nonempty front), front]
      exact List.filter_cons_of_pos (decide_eq_true ended)
    · cases taken

def toSource (reader : LineReader V) : Source V :=
  .behind reader.failure reader.lineNumber
    ((Line.counted reader.failure reader.text).map (Line.ofBytes reader.separator reader.value?))

theorem toSource_of_takeLine_eq_cons (taken : takeLine reader = .ok (first :: line) after) :
    reader.toSource = .behind after.failure after.lineNumber
      (Line.ofBytes after.separator after.value? (first :: line) ::
        (Line.counted after.failure after.text).map
          (Line.ofBytes after.separator after.value?)) := by
  obtain ⟨counted, same⟩ := of_takeLine_eq_cons taken
  rw [toSource, counted, same]
  rfl

theorem readAll_toSource (reader : LineReader V) (handler : Handler V σ) (state : σ) :
    reader.toSource.readAll handler state =
      Prod.map toSource id (reader.readAll handler state) := by
  fun_induction readAll reader handler state with
  | case1 reader state error after taken =>
      obtain ⟨broken, none, rfl⟩ := of_takeLine_eq_error taken
      rw [toSource, none, List.map_nil, Source.readAll_behind_nil, broken]
      simp only [Prod.map, id_eq, toSource]
      rfl
  | case2 reader state after taken =>
      obtain ⟨complete, empty, rfl⟩ := of_takeLine_eq_nil taken
      have none : after.toSource = .behind Option.none after.lineNumber [] := by
        rw [toSource, complete, empty]
        rfl
      simp only [Prod.map, id_eq, none, Source.readAll_behind_nil]
  | case3 reader state first line after taken counted found inductionHypothesis =>
      have skipped : Line.ofBytes after.separator after.value? (first :: line) = .skipped := found
      rw [toSource_of_takeLine_eq_cons taken, skipped, Source.readAll_behind_skipped]
      exact inductionHypothesis
  | case4 reader state first line after taken counted text found =>
      have malformed : Line.ofBytes after.separator after.value? (first :: line) =
          .malformed text := found
      rw [toSource_of_takeLine_eq_cons taken, malformed, Source.readAll_behind_malformed]
      rfl
  | case5 reader state first line after taken counted key value found result next answer
      inductionHypothesis =>
      have entry : Line.ofBytes after.separator after.value? (first :: line) =
          .entry key value := found
      have accepted : handler key value (after.lineNumber + 1) state = .ok result next := answer
      rw [toSource_of_takeLine_eq_cons taken, entry, Source.readAll_behind_entry, accepted]
      exact inductionHypothesis
  | case6 reader state first line after taken counted key value found error next answer =>
      have entry : Line.ofBytes after.separator after.value? (first :: line) =
          .entry key value := found
      have refused : handler key value (after.lineNumber + 1) state = .error error next := answer
      rw [toSource_of_takeLine_eq_cons taken, entry, Source.readAll_behind_entry, refused]
      rfl

end LineReader

namespace PairReader

def toSource (reader : PairReader V) : Source V :=
  .behind none reader.taken (reader.pairs.map fun pair => .entry pair.1 pair.2)

theorem readAll_toSource (reader : PairReader V) (handler : Handler V σ) (state : σ) :
    reader.toSource.readAll handler state =
      Prod.map toSource id (reader.readAll handler state) := by
  obtain ⟨pairs, taken⟩ := reader
  induction pairs generalizing taken state with
  | nil => rfl
  | cons pair pairs inductionHypothesis =>
      obtain ⟨key, value⟩ := pair
      have split : toSource ⟨(key, value) :: pairs, taken⟩ =
          .behind none taken (.entry key value :: pairs.map fun pair => .entry pair.1 pair.2) := rfl
      rw [split, Source.readAll_behind_entry, readAll, readAll.go]
      cases handler key value (taken + 1) state with
      | ok _ state => exact inductionHypothesis state (taken + 1)
      | error error state => rfl

end PairReader

namespace Reading

open Source

theorem ofText_eq_behind (separator : UInt8) (value? : Bytes → Option V) (failure : Option Error)
    (text : Bytes) :
    Source.ofText separator value? text failure =
      behind failure 0 ((Line.counted failure text).map (Line.ofBytes separator value?)) := by
  have steps : (Source.ofText separator value? text failure).steps =
      Line.stepsFrom 0 ((Line.counted failure text).map (Line.ofBytes separator value?)) :=
    Line.steps_counted failure text
  rw [behind, ← steps]
  rfl

theorem ofPairs_eq_behind (pairs : List (Bytes × V)) :
    Source.ofPairs pairs = behind none 0 (pairs.map fun pair => .entry pair.1 pair.2) := by
  rw [behind, Line.stepsFrom, List.zipIdx_map, List.map_map]
  rfl

/-- A text or a list of pairs can be read again after every stop. The readings go through the lines
of the text one after the other, each line is read once, and only if it has a line feed or the text
can be read to its end; or they go through the pairs. And it makes no difference whether the lines
or pairs are taken as they come, or are laid out beforehand. -/
theorem readings_resume (verdicts : List (Verdict V)) :
    (∀ (separator : UInt8) (value? : Bytes → Option V) (failure : Option Error) (text : Bytes),
      let lines := (Line.counted failure text).map (Line.ofBytes separator value?)
      let readings := inTurn (⟨separator, value?, text, failure, 0⟩ : LineReader V) verdicts
      (∃ (fronts : List Bytes) (last : Bytes), (∀ front ∈ fronts, Line.lineFeed ∉ front) ∧
        Line.lineFeed ∉ last ∧ text = (fronts.map (· ++ [Line.lineFeed])).flatten ++ last ∧
        Line.counted failure text = fronts.map (· ++ [Line.lineFeed]) ++
          if last = [] ∨ failure.isSome then [] else [last]) ∧
      (∀ bytes, Line.Reads separator value? (Ascii.trim bytes)
        (Line.ofBytes separator value? bytes)) ∧
      Resumes lines failure verdicts readings ∧
      inTurn (Source.ofText separator value? text failure) verdicts = readings) ∧
    ∀ pairs : List (Bytes × V),
      let readings := inTurn (⟨pairs, 0⟩ : PairReader V) verdicts
      Resumes (pairs.map fun pair => .entry pair.1 pair.2) none verdicts readings ∧
      inTurn (Source.ofPairs pairs) verdicts = readings := by
  constructor
  · intro separator value? failure text lines readings
    have viewed : inTurn (behind failure 0 lines) verdicts = readings :=
      inTurn_view LineReader.toSource LineReader.readAll_toSource (fun _ => rfl)
        (⟨separator, value?, text, failure, 0⟩ : LineReader V) verdicts
    refine ⟨Line.exists_fronts failure text, Line.reads_ofBytes separator value?, ?_, ?_⟩
    · rw [← viewed]
      exact resumes_inTurn lines failure verdicts
    · rw [ofText_eq_behind, viewed]
  · intro pairs readings
    have viewed : inTurn (behind none 0 (pairs.map fun pair => .entry pair.1 pair.2)) verdicts =
        readings :=
      inTurn_view PairReader.toSource PairReader.readAll_toSource (fun _ => rfl)
        (⟨pairs, 0⟩ : PairReader V) verdicts
    constructor
    · rw [← viewed]
      exact resumes_inTurn _ none verdicts
    · rw [ofPairs_eq_behind, viewed]

end Reading

end PackedTrie
