import PackedTrie.Proofs.Source.Lines
import PackedTrie.Source.Reader

/-!
Readings one after the other. What is read is a list of lines, whether they come from a text or are
pairs; every reading goes on behind the line at which the one before stopped. So the entries that
are handed out in all readings are those of the lines that were read, and a malformed line stops one
reading only.
-/

namespace PackedTrie

variable {V : Type} {lines : List (Line V)} {line : Line V} {failure : Option Error}
  {verdict : Verdict V} {error : Error} {start stop index : Nat}

namespace Line

section Entries

def entry? (number : Nat) : Line V → Option (Bytes × V × Nat)
  | .entry key value => some (key, value, number)
  | .skipped | .malformed _ => none

/-- The entries of the lines, each at the number of its line. -/
def numbered (lines : List (Line V)) : List (Bytes × V × Nat) :=
  (lines.zipIdx 1).filterMap fun (line, number) => line.entry? number

theorem numbered_append_singleton (lines : List (Line V)) (line : Line V) :
    numbered (lines ++ [line]) = numbered lines ++ (line.entry? (lines.length + 1)).toList := by
  rw [numbered, List.zipIdx_append, List.filterMap_append, Nat.add_comm lines.length]
  cases stored : line.entry? (1 + lines.length) <;> simp [numbered, stored]

theorem numbered_take_succ (found : lines[index]? = some line) :
    numbered (lines.take (index + 1)) =
      numbered (lines.take index) ++ (line.entry? (index + 1)).toList := by
  obtain ⟨inside, rfl⟩ := List.getElem?_eq_some_iff.mp found
  rw [List.take_succ_eq_append_getElem inside, numbered_append_singleton,
    List.length_take_of_le (Nat.le_of_lt inside)]

theorem pairwise_numbered (lines : List (Line V)) :
    (numbered lines).Pairwise fun earlier later => earlier.2.2 < later.2.2 := by
  have numbers : (lines.zipIdx 1).Pairwise fun earlier later => earlier.2 < later.2 := by
    rw [← List.pairwise_map, List.zipIdx_map_snd]
    exact List.pairwise_lt_range'
  rw [numbered, List.pairwise_filterMap]
  refine numbers.imp ?_
  rintro ⟨earlier, number⟩ ⟨later, other⟩ below entry found otherEntry otherFound
  cases earlier <;> cases later <;> cases found <;> cases otherFound
  exact below

end Entries

section Stopping

/-- The line stops a reading with this error. -/
inductive Stops (verdict : Verdict V) (number : Nat) : Line V → Error → Prop where
  | malformed (text : Bytes) :
      Stops verdict number (.malformed text) (.invalidFormat (.malformedLine number text))
  | refused {key : Bytes} {value : V} {error : Error}
      (refused : verdict key value number = some error) :
      Stops verdict number (.entry key value) error

/-- None of the lines from `start` on and before `stop` stops a reading. -/
def Passed (verdict : Verdict V) (lines : List (Line V)) (start stop : Nat) : Prop :=
  ∀ index line error, start ≤ index → index < stop → lines[index]? = some line →
    ¬ line.Stops verdict (index + 1) error

theorem passed_self (verdict : Verdict V) (lines : List (Line V)) (start : Nat) :
    Passed verdict lines start start :=
  fun _ _ _ beyond before => absurd before (Nat.not_lt.mpr beyond)

theorem Passed.of_succ (passed : Passed verdict lines (start + 1) stop)
    (found : lines[start]? = some line) (passes : ∀ error, ¬ line.Stops verdict (start + 1) error) :
    Passed verdict lines start stop := by
  intro index other error beyond before otherFound
  rcases Nat.eq_or_lt_of_le beyond with rfl | later
  · cases found.symm.trans otherFound
    exact passes error
  · exact passed index other error later before otherFound

end Stopping

end Line

namespace Reading

open Line

/-- How a reading that starts behind `start` of the lines ends behind `stop` of them. -/
inductive Ends (lines : List (Line V)) (failure : Option Error) (verdict : Verdict V)
    (start : Nat) : Nat → Except Error Unit → Prop where
  /-- At the first line that stops it, and right behind this line. -/
  | stopped {index : Nat} {line : Line V} {error : Error} (beyond : start ≤ index)
      (found : lines[index]? = some line) (stops : line.Stops verdict (index + 1) error)
      (passed : Passed verdict lines start index) :
      Ends lines failure verdict start (index + 1) (.error error)
  /-- Behind all the lines, where the text cannot be read on. -/
  | failed {error : Error} (broken : failure = some error)
      (passed : Passed verdict lines start lines.length) :
      Ends lines failure verdict start lines.length (.error error)
  /-- Behind all the lines. -/
  | finished (complete : failure = none) (passed : Passed verdict lines start lines.length) :
      Ends lines failure verdict start lines.length (.ok ())

/-- The reading starts behind `start` of the lines, ends behind `stop` of them, and hands out the
entries in between. -/
structure Covers (lines : List (Line V)) (failure : Option Error) (verdict : Verdict V)
    (start stop : Nat) (reading : Reading V) : Prop where
  forward : start ≤ stop
  inside : stop ≤ lines.length
  position : reading.position = some stop
  handed : numbered (lines.take start) ++ reading.handed = numbered (lines.take stop)
  ends : Ends lines failure verdict start stop reading.result

/-- Readings that start behind `start` of the lines, each going on where the one before ended. -/
inductive Continues (lines : List (Line V)) (failure : Option Error) :
    Nat → List (Verdict V) → List (Reading V) → Prop where
  | nil (start : Nat) : Continues lines failure start [] []
  | cons {start stop : Nat} {verdict : Verdict V} {verdicts : List (Verdict V)}
      {reading : Reading V} {readings : List (Reading V)}
      (covers : reading.Covers lines failure verdict start stop)
      (later : Continues lines failure stop verdicts readings) :
      Continues lines failure start (verdict :: verdicts) (reading :: readings)

section Covers

variable {reading : Reading V}

theorem Ends.of_succ {result : Except Error Unit}
    (ends : Ends lines failure verdict (start + 1) stop result) (found : lines[start]? = some line)
    (passes : ∀ error, ¬ line.Stops verdict (start + 1) error) :
    Ends lines failure verdict start stop result := by
  cases ends with
  | stopped beyond atIndex stops passed =>
      exact .stopped (Nat.le_of_succ_le beyond) atIndex stops (passed.of_succ found passes)
  | failed broken passed => exact .failed broken (passed.of_succ found passes)
  | finished complete passed => exact .finished complete (passed.of_succ found passes)

theorem Covers.of_succ (covers : reading.Covers lines failure verdict (start + 1) stop)
    (found : lines[start]? = some line) (passes : ∀ error, ¬ line.Stops verdict (start + 1) error) :
    Covers lines failure verdict start stop
      { reading with handed := (line.entry? (start + 1)).toList ++ reading.handed } where
  forward := Nat.le_of_succ_le covers.forward
  inside := covers.inside
  position := covers.position
  handed := by rw [← covers.handed, numbered_take_succ found, List.append_assoc]
  ends := covers.ends.of_succ found passes

theorem covers_of_stops (found : lines[start]? = some line)
    (stops : line.Stops verdict (start + 1) error) :
    Covers lines failure verdict start (start + 1)
      ⟨(line.entry? (start + 1)).toList, .error error, some (start + 1)⟩ where
  forward := Nat.le_succ start
  inside := (List.getElem?_eq_some_iff.mp found).1
  position := rfl
  handed := (numbered_take_succ found).symm
  ends := .stopped (Nat.le_refl start) found stops (passed_self verdict lines start)

theorem covers_of_failure (broken : failure = some error) :
    Covers lines failure verdict lines.length lines.length
      ⟨[], .error error, some lines.length⟩ where
  forward := Nat.le_refl _
  inside := Nat.le_refl _
  position := rfl
  handed := List.append_nil _
  ends := .failed broken (passed_self verdict lines _)

theorem covers_of_complete (complete : failure = none) :
    Covers lines failure verdict lines.length lines.length ⟨[], .ok (), some lines.length⟩ where
  forward := Nat.le_refl _
  inside := Nat.le_refl _
  position := rfl
  handed := List.append_nil _
  ends := .finished complete (passed_self verdict lines _)

end Covers

section Continues

variable {verdicts : List (Verdict V)} {reading : Reading V} {readings : List (Reading V)}
  {calls : Nat}

theorem reached_cons (position : reading.position = some stop) (calls : Nat) :
    reached start (reading :: readings) (calls + 1) = reached stop readings calls := by
  cases calls with
  | zero => simp [reached, position]
  | succ calls => rfl

theorem Continues.le_reached (continues : Continues lines failure start verdicts readings)
    (made : calls ≤ readings.length) : start ≤ reached start readings calls := by
  induction continues generalizing calls with
  | nil start =>
      obtain rfl : calls = 0 := Nat.le_zero.mp made
      exact Nat.le_refl start
  | cons covers later inductionHypothesis =>
      cases calls with
      | zero => exact Nat.le_refl _
      | succ calls =>
          rw [reached_cons covers.position]
          exact Nat.le_trans covers.forward (inductionHypothesis (Nat.le_of_succ_le_succ made))

theorem Continues.handed (continues : Continues lines failure start verdicts readings)
    (made : calls ≤ readings.length) :
    numbered (lines.take start) ++ (readings.take calls).flatMap Reading.handed =
      numbered (lines.take (reached start readings calls)) := by
  induction continues generalizing calls with
  | nil start =>
      obtain rfl : calls = 0 := Nat.le_zero.mp made
      exact List.append_nil _
  | cons covers later inductionHypothesis =>
      cases calls with
      | zero => exact List.append_nil _
      | succ calls =>
          rw [reached_cons covers.position, List.take_succ_cons, List.flatMap_cons,
            ← List.append_assoc, covers.handed]
          exact inductionHypothesis (Nat.le_of_succ_le_succ made)

theorem Covers.eq_of_malformed {text : Bytes}
    (covers : reading.Covers lines failure verdict start stop) (beyond : start ≤ index)
    (before : index < stop) (found : lines[index]? = some (.malformed text)) :
    stop = index + 1 ∧
      reading.result = .error (.invalidFormat (.malformedLine (index + 1) text)) := by
  have stops : (Line.malformed text).Stops verdict (index + 1) _ := .malformed text
  have ends := covers.ends
  generalize reading.result = result at ends ⊢
  cases ends with
  | @stopped last line error _ atLast stopped passed =>
      rcases Nat.eq_or_lt_of_le (Nat.le_of_lt_succ before) with rfl | earlier
      · cases found.symm.trans atLast
        cases stopped
        exact ⟨rfl, rfl⟩
      · exact absurd stops (passed index _ _ beyond earlier found)
  | failed _ passed => exact absurd stops (passed index _ _ beyond before found)
  | finished _ passed => exact absurd stops (passed index _ _ beyond before found)

/-- A malformed line that was read has stopped exactly one of the readings. -/
theorem Continues.existsUnique_of_malformed {text : Bytes}
    (continues : Continues lines failure start verdicts readings) (beyond : start ≤ index)
    (before : index < reached start readings readings.length)
    (found : lines[index]? = some (.malformed text)) :
    ∃! call, reached start readings call ≤ index ∧ ∃ reading, readings[call]? = some reading ∧
      reading.position = some (index + 1) ∧
      reading.result = .error (.invalidFormat (.malformedLine (index + 1) text)) := by
  induction continues with
  | nil start => exact absurd before (Nat.not_lt.mpr beyond)
  | @cons start stop verdict verdicts reading readings covers later inductionHypothesis =>
      rw [List.length_cons, reached_cons covers.position] at before
      by_cases first : index < stop
      · obtain ⟨rfl, result⟩ := covers.eq_of_malformed beyond first found
        refine ⟨0, ⟨beyond, reading, rfl, covers.position, result⟩, ?_⟩
        rintro call ⟨behind, other, made, -⟩
        cases call with
        | zero => rfl
        | succ call =>
            rw [reached_cons covers.position] at behind
            have inside := Nat.lt_of_succ_lt_succ (List.getElem?_eq_some_iff.mp made).1
            have further := later.le_reached (Nat.le_of_lt inside)
            omega
      · obtain ⟨call, ⟨behind, other, made, position, result⟩, unique⟩ :=
          inductionHypothesis (Nat.not_lt.mp first) before
        refine ⟨call + 1, ⟨?_, other, made, position, result⟩, ?_⟩
        · rwa [reached_cons covers.position]
        · rintro (_ | another) ⟨reachedBefore, reading, made, position, result⟩
          · cases made
            cases covers.position.symm.trans position
            omega
          · rw [reached_cons covers.position] at reachedBefore
            rw [unique another ⟨reachedBefore, reading, made, position, result⟩]

end Continues

/-- The readings go through the lines without losing or repeating any of them. -/
structure Resumes (lines : List (Line V)) (failure : Option Error) (verdicts : List (Verdict V))
    (readings : List (Reading V)) : Prop where
  continues : Continues lines failure 0 verdicts readings
  /-- What is handed out up to any reading are the entries of the lines up to there, in order. -/
  handed : ∀ calls ≤ readings.length, (readings.take calls).flatMap Reading.handed =
    numbered (lines.take (reached 0 readings calls))
  ascending : (readings.flatMap Reading.handed).Pairwise fun earlier later =>
    earlier.2.2 < later.2.2
  /-- A malformed line that was read has stopped one reading, which names it and ends behind it. -/
  malformed : ∀ index text, index < reached 0 readings readings.length →
    lines[index]? = some (.malformed text) →
    ∃! call, reached 0 readings call ≤ index ∧ ∃ reading, readings[call]? = some reading ∧
      reading.position = some (index + 1) ∧
      reading.result = .error (.invalidFormat (.malformedLine (index + 1) text))

theorem Continues.resumes {verdicts : List (Verdict V)} {readings : List (Reading V)}
    (continues : Continues lines failure 0 verdicts readings) :
    Resumes lines failure verdicts readings where
  continues := continues
  handed _ made := continues.handed made
  ascending := by
    have whole := continues.handed (Nat.le_refl readings.length)
    rw [List.take_length, List.take_zero] at whole
    have handed : readings.flatMap Reading.handed = _ := whole
    rw [handed]
    exact pairwise_numbered _
  malformed _ _ before found := continues.existsUnique_of_malformed (Nat.zero_le _) before found

end Reading

end PackedTrie
