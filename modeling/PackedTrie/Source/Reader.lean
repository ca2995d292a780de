import PackedTrie.Source.Delimited

/-!
Sources as they are read. A reader holds what it has not read yet and counts what it has: a text is
read up to the next line feed, a list of pairs is taken from the front. A reading stops where an
entry is turned down, at a malformed line, where the text cannot be read on, and at the end; the
next one goes on from there. `Source`, which has all its steps laid out beforehand, is read in the
same way.
-/

namespace PackedTrie

abbrev Handler (V σ : Type) := Bytes → V → Nat → EStateM Error σ Unit

/-- What can be read any number of times, and each time hands out the entries that are left. -/
class Readable (S : Type) (V : outParam Type) where
  readAll {σ : Type} : S → Handler V σ → σ → S × EStateM.Result Error σ Unit
  position : S → Option Nat

instance {V : Type} : Readable (Source V) V where
  readAll := Source.readAll
  position := Source.position

def Line.untilLineFeed : Bytes → Bytes × Bytes
  | [] => ([], [])
  | byte :: text =>
      if byte = lineFeed then ([byte], text)
      else (byte :: (untilLineFeed text).1, (untilLineFeed text).2)

theorem Line.length_untilLineFeed (text : Bytes) :
    (untilLineFeed text).1.length + (untilLineFeed text).2.length = text.length := by
  fun_induction untilLineFeed text with
  | case1 => rfl
  | case2 text => exact Nat.add_comm _ _
  | case3 byte text other inductionHypothesis =>
      rw [List.length_cons, List.length_cons, ← inductionHypothesis]
      exact Nat.add_right_comm _ _ _

structure LineReader (V : Type) where
  separator : UInt8
  value? : Bytes → Option V
  /-- The bytes that have not been read yet. -/
  text : Bytes
  /-- The failure that is met behind these bytes, if they are not all there is. -/
  failure : Option Error := none
  lineNumber : Nat := 0

namespace LineReader

variable {V σ : Type}

/-- Takes the bytes up to the next line feed, with it, and at the end of the text all that are left;
what stands in front of a failure is lost. -/
def takeLine : EStateM Error (LineReader V) Bytes := fun reader =>
  let line := Line.untilLineFeed reader.text
  match reader.failure with
  | none => .ok line.1 { reader with text := line.2 }
  | some error =>
      if Line.lineFeed ∈ line.1 then .ok line.1 { reader with text := line.2 }
      else .error error { reader with text := [] }

def countLine (reader : LineReader V) : LineReader V :=
  { reader with lineNumber := reader.lineNumber + 1 }

theorem length_text_takeLine {reader after : LineReader V} {line : Bytes}
    (taken : takeLine reader = .ok line after) :
    line.length + after.text.length = reader.text.length := by
  have lengths := Line.length_untilLineFeed reader.text
  unfold takeLine at taken
  dsimp only at taken
  split at taken
  · cases taken
    exact lengths
  · split at taken <;> cases taken
    exact lengths

def readAll (reader : LineReader V) (handler : Handler V σ) (state : σ) :
    LineReader V × EStateM.Result Error σ Unit :=
  match _taken : takeLine reader with
  | .error error after => (after, .error error state)
  | .ok [] after => (after, .ok () state)
  | .ok (first :: line) after =>
      let reader := after.countLine
      match Line.ofBytes reader.separator reader.value? (first :: line) with
      | .skipped => reader.readAll handler state
      | .malformed text =>
          (reader, .error (.invalidFormat (.malformedLine reader.lineNumber text)) state)
      | .entry key value =>
          match handler key value reader.lineNumber state with
          | .ok _ state => reader.readAll handler state
          | .error error state => (reader, .error error state)
termination_by reader.text.length
decreasing_by
  all_goals
    have shorter := length_text_takeLine _taken
    simp only [List.length_cons] at shorter
    simp only [countLine]
    omega

instance : Readable (LineReader V) V where
  readAll := readAll
  position reader := some reader.lineNumber

end LineReader

structure PairReader (V : Type) where
  /-- The pairs that are still to come. -/
  pairs : List (Bytes × V)
  taken : Nat := 0

namespace PairReader

variable {V σ : Type}

def readAll (reader : PairReader V) (handler : Handler V σ) (state : σ) :
    PairReader V × EStateM.Result Error σ Unit :=
  go reader.pairs reader.taken state
where
  go : List (Bytes × V) → Nat → σ → PairReader V × EStateM.Result Error σ Unit
    | [], taken, state => (⟨[], taken⟩, .ok () state)
    | (key, value) :: pairs, taken, state =>
        match handler key value (taken + 1) state with
        | .ok _ state => go pairs (taken + 1) state
        | .error error state => (⟨pairs, taken + 1⟩, .error error state)

instance : Readable (PairReader V) V where
  readAll := readAll
  position reader := some reader.taken

end PairReader

/-- What is said to an entry that is handed out: the error it is turned down with, if it is. -/
abbrev Verdict (V : Type) := Bytes → V → Nat → Option Error

def Verdict.handler {V : Type} (verdict : Verdict V) : Handler V (List (Bytes × V × Nat)) :=
  fun key value position handed =>
    let handed := handed ++ [(key, value, position)]
    match verdict key value position with
    | none => .ok () handed
    | some error => .error error handed

/-- A reading: the entries handed out, how it ended, and the position of the source after it. -/
structure Reading (V : Type) where
  handed : List (Bytes × V × Nat)
  result : Except Error Unit
  position : Option Nat

namespace Reading

variable {S V : Type} [Readable S V]

def ofResult (position : Option Nat) :
    EStateM.Result Error (List (Bytes × V × Nat)) Unit → Reading V
  | .ok _ handed => ⟨handed, .ok (), position⟩
  | .error error handed => ⟨handed, .error error, position⟩

def inTurn : S → List (Verdict V) → List (Reading V)
  | _, [] => []
  | source, verdict :: later =>
      let (after, result) := Readable.readAll source verdict.handler []
      ofResult (Readable.position after) result :: inTurn after later

/-- Where a source stands after so many of the readings, if it stood at `start` before. -/
def reached (start : Nat) (readings : List (Reading V)) : Nat → Nat
  | 0 => start
  | call + 1 => (readings[call]?.bind Reading.position).getD 0

end Reading

end PackedTrie
