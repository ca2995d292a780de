import PackedTrie.Proofs.Text.Ascii
import PackedTrie.Source.Delimited

/-!
The lines of a text, and what each of them holds. The text is cut behind every line feed; since a
line feed is a blank, it makes no difference to a line whether it still has its own.
-/

namespace PackedTrie

namespace Line

variable {V : Type} {separator : UInt8} {value? : Bytes → Option V}

section Cutting

/-- The text cut behind each line feed. What follows the last line feed is a line too, if there is
anything. -/
def cut : Bytes → List Bytes
  | [] => []
  | byte :: text =>
      if byte = lineFeed then [byte] :: cut text
      else
        match cut text with
        | [] => [[byte]]
        | line :: lines => (byte :: line) :: lines

theorem flatten_cut (text : Bytes) : (cut text).flatten = text := by
  fun_induction cut text with
  | case1 => rfl
  | case2 text inductionHypothesis =>
      rw [List.flatten_cons, inductionHypothesis]
      rfl
  | case3 byte text other empty inductionHypothesis =>
      rw [empty] at inductionHypothesis
      rw [← inductionHypothesis]
      rfl
  | case4 byte text other line lines split inductionHypothesis =>
      rw [split] at inductionHypothesis
      rw [← inductionHypothesis]
      rfl

theorem split_cons (byte : UInt8) (text : Bytes) :
    split (byte :: text) =
      if byte = lineFeed then ([] :: (split text).1, (split text).2)
      else
        match (split text).1 with
        | [] => ([], byte :: (split text).2)
        | line :: rest => ((byte :: line) :: rest, (split text).2) :=
  rfl

/-- A line is what stands in front of a line feed, with it, or what is left at the end. -/
theorem cut_eq_split (text : Bytes) :
    cut text = (split text).1.map (· ++ [lineFeed]) ++
      if (split text).2 = [] then [] else [(split text).2] := by
  induction text with
  | nil => rfl
  | cons byte text inductionHypothesis =>
      by_cases ends : byte = lineFeed
      · rw [cut, if_pos ends, inductionHypothesis, split_cons, if_pos ends, ends]
        rfl
      · rw [cut, if_neg ends, inductionHypothesis, split_cons, if_neg ends]
        cases (split text).1 with
        | nil =>
            by_cases bare : (split text).2 = []
            · simp [bare]
            · simp [bare]
        | cons line rest => rfl

theorem lineFeed_not_mem_split (text : Bytes) : lineFeed ∉ (split text).2 := by
  induction text with
  | nil => exact List.not_mem_nil
  | cons byte text inductionHypothesis =>
      by_cases ends : byte = lineFeed
      · rwa [split_cons, if_pos ends]
      · rw [split_cons, if_neg ends]
        cases (split text).1 with
        | nil => exact List.not_mem_cons_of_ne_of_not_mem (Ne.symm ends) inductionHypothesis
        | cons line rest => exact inductionHypothesis

/-- The lines that count. If the text cannot be read to its end, a line without a line feed is none
of them. -/
def counted (failure : Option Error) (text : Bytes) : List Bytes :=
  match failure with
  | none => cut text
  | some _ => (cut text).filter (lineFeed ∈ ·)

theorem counted_eq_split (failure : Option Error) (text : Bytes) :
    counted failure text = (split text).1.map (· ++ [lineFeed]) ++
      if (split text).2 = [] ∨ failure.isSome then [] else [(split text).2] := by
  cases failure with
  | none =>
      simp only [counted, Option.isSome_none, Bool.false_eq_true, or_false]
      exact cut_eq_split text
  | some error =>
      have terminated : ((split text).1.map (· ++ [lineFeed])).filter (lineFeed ∈ ·) =
          (split text).1.map (· ++ [lineFeed]) := by
        rw [List.filter_eq_self]
        intro line member
        obtain ⟨front, -, rfl⟩ := List.mem_map.mp member
        simp
      have last := lineFeed_not_mem_split text
      simp only [counted, cut_eq_split, List.filter_append, terminated, Option.isSome_some, or_true,
        if_true]
      split <;> simp [last]

theorem lineFeed_not_mem_of_mem_split {text front : Bytes} (member : front ∈ (split text).1) :
    lineFeed ∉ front := by
  induction text generalizing front with
  | nil => contradiction
  | cons byte text inductionHypothesis =>
      rw [split_cons] at member
      by_cases ends : byte = lineFeed
      · rw [if_pos ends] at member
        rcases List.mem_cons.mp member with rfl | later
        · exact List.not_mem_nil
        · exact inductionHypothesis later
      · rw [if_neg ends] at member
        cases fronts : (split text).1 with
        | nil =>
            rw [fronts] at member
            contradiction
        | cons line rest =>
            rw [fronts] at member inductionHypothesis
            rcases List.mem_cons.mp member with rfl | later
            · exact List.not_mem_cons_of_ne_of_not_mem (Ne.symm ends)
                (inductionHypothesis List.mem_cons_self)
            · exact inductionHypothesis (List.mem_cons_of_mem line later)

theorem split_of_not_mem {text : Bytes} (unended : lineFeed ∉ text) : split text = ([], text) := by
  induction text with
  | nil => rfl
  | cons byte text inductionHypothesis =>
      obtain ⟨other, later⟩ := not_or.mp (mt List.mem_cons.mpr unended)
      rw [split_cons, if_neg (Ne.symm other), inductionHypothesis later]

theorem split_append_lineFeed {front : Bytes} (unended : lineFeed ∉ front) (text : Bytes) :
    split (front ++ lineFeed :: text) = (front :: (split text).1, (split text).2) := by
  induction front with
  | nil => rw [List.nil_append, split_cons, if_pos rfl]
  | cons byte front inductionHypothesis =>
      obtain ⟨other, later⟩ := not_or.mp (mt List.mem_cons.mpr unended)
      rw [List.cons_append, split_cons, if_neg (Ne.symm other), inductionHypothesis later]

theorem split_flatten {fronts : List Bytes} {last : Bytes}
    (unended : ∀ front ∈ fronts, lineFeed ∉ front) (lastUnended : lineFeed ∉ last) :
    split ((fronts.map (· ++ [lineFeed])).flatten ++ last) = (fronts, last) := by
  induction fronts with
  | nil => exact split_of_not_mem lastUnended
  | cons front fronts inductionHypothesis =>
      rw [List.map_cons, List.flatten_cons, List.append_assoc, List.append_assoc,
        List.singleton_append, split_append_lineFeed (unended front List.mem_cons_self),
        inductionHypothesis fun later member => unended later (List.mem_cons_of_mem front member)]

theorem exists_fronts (failure : Option Error) (text : Bytes) :
    ∃ (fronts : List Bytes) (last : Bytes), (∀ front ∈ fronts, lineFeed ∉ front) ∧
      lineFeed ∉ last ∧ text = (fronts.map (· ++ [lineFeed])).flatten ++ last ∧
      counted failure text = fronts.map (· ++ [lineFeed]) ++
        if last = [] ∨ failure.isSome then [] else [last] := by
  refine ⟨(split text).1, (split text).2, fun _ => lineFeed_not_mem_of_mem_split,
    lineFeed_not_mem_split text, ?_, counted_eq_split failure text⟩
  have whole := flatten_cut text
  rw [cut_eq_split, List.flatten_append] at whole
  split at whole
  · rename_i ended
    rw [ended, List.append_nil]
    simpa using whole.symm
  · simpa using whole.symm

end Cutting

section Reading

/-- What a line without blanks at its ends holds. The key reaches up to the first separator. -/
inductive Reads (separator : UInt8) (value? : Bytes → Option V) : Bytes → Line V → Prop where
  | blank : Reads separator value? [] .skipped
  | comment (rest : Bytes) : Reads separator value? (numberSign :: rest) .skipped
  | entry {key rest : Bytes} {value : V} (nonempty : key ≠ [])
      (uncommented : key.head? ≠ some numberSign) (first : separator ∉ key)
      (parsed : value? (Ascii.trim rest) = some value) :
      Reads separator value? (key ++ separator :: rest) (.entry key value)
  | malformed {text : Bytes} (nonempty : text ≠ []) (uncommented : text.head? ≠ some numberSign)
      (unread : ∀ key rest, key ≠ [] → separator ∉ key → text = key ++ separator :: rest →
        value? (Ascii.trim rest) = none) :
      Reads separator value? text (.malformed text)

theorem takeWhile_append_separator {key : Bytes} (first : separator ∉ key) (rest : Bytes) :
    (key ++ separator :: rest).takeWhile (· != separator) = key ∧
      (key ++ separator :: rest).dropWhile (· != separator) = separator :: rest := by
  have all : ∀ byte ∈ key, (byte != separator) = true := by
    intro byte member
    apply bne_iff_ne.mpr
    rintro rfl
    exact first member
  constructor
  · rw [List.takeWhile_append_of_pos all, List.takeWhile_cons_of_neg (by simp), List.append_nil]
  · rw [List.dropWhile_append_of_pos all, List.dropWhile_cons_of_neg (by simp)]

theorem ofTrimmed_of_first {key rest : Bytes} (nonempty : key ≠ []) (first : separator ∉ key) :
    ofTrimmed separator value? (key ++ separator :: rest) =
      match value? (Ascii.trim rest) with
      | some value => .entry key value
      | none => .malformed (key ++ separator :: rest) := by
  obtain ⟨before, after⟩ := takeWhile_append_separator first rest
  unfold ofTrimmed
  rw [before, after]
  cases key with
  | nil => contradiction
  | cons byte key => rfl

theorem first_separator_unique {key rest other tail : Bytes} (first : separator ∉ key)
    (otherFirst : separator ∉ other)
    (same : key ++ separator :: rest = other ++ separator :: tail) : rest = tail := by
  obtain ⟨-, after⟩ := takeWhile_append_separator first rest
  obtain ⟨-, otherAfter⟩ := takeWhile_append_separator otherFirst tail
  rw [same, otherAfter] at after
  exact (List.cons.inj after).2.symm

theorem ofTrimmed_of_none {text : Bytes}
    (none : ∀ key rest, key ≠ [] → separator ∉ key → text ≠ key ++ separator :: rest) :
    ofTrimmed separator value? text = .malformed text := by
  have split := List.takeWhile_append_dropWhile (p := (· != separator)) (l := text)
  have free : separator ∉ text.takeWhile (· != separator) := by
    intro member
    have differs := List.mem_takeWhile_imp member
    simp at differs
  unfold ofTrimmed
  cases before : text.takeWhile (· != separator) with
  | nil => rfl
  | cons byte key =>
      cases after : text.dropWhile (· != separator) with
      | nil => rfl
      | cons found rest =>
          have stopped := List.head?_dropWhile_not (· != separator) text
          rw [after] at stopped
          have same : found = separator := by simpa using stopped
          rw [before, after, same] at split
          rw [before] at free
          exact absurd split.symm (none (byte :: key) rest (List.cons_ne_nil _ _) free)

theorem reads_ofTrimmed {text : Bytes} (nonempty : text ≠ [])
    (uncommented : text.head? ≠ some numberSign) :
    Reads separator value? text (ofTrimmed separator value? text) := by
  by_cases separated : ∃ key rest, key ≠ [] ∧ separator ∉ key ∧ text = key ++ separator :: rest
  · obtain ⟨key, rest, named, first, rfl⟩ := separated
    rw [ofTrimmed_of_first named first]
    cases parsed : value? (Ascii.trim rest) with
    | some value =>
        rw [List.head?_append_of_ne_nil _ named] at uncommented
        exact .entry named uncommented first parsed
    | none =>
        refine .malformed nonempty uncommented ?_
        intro other tail _ otherFirst same
        rw [← first_separator_unique first otherFirst same]
        exact parsed
  · have none : ∀ key rest, key ≠ [] → separator ∉ key → text ≠ key ++ separator :: rest :=
      fun key rest named first same => separated ⟨key, rest, named, first, same⟩
    rw [ofTrimmed_of_none none]
    exact .malformed nonempty uncommented fun key rest named first same =>
      absurd same (none key rest named first)

theorem reads_ofBytes (separator : UInt8) (value? : Bytes → Option V) (line : Bytes) :
    Reads separator value? (Ascii.trim line) (ofBytes separator value? line) := by
  unfold ofBytes
  cases trimmed : Ascii.trim line with
  | nil => exact .blank
  | cons first rest =>
      by_cases sign : first = numberSign
      · rw [sign]
        exact .comment rest
      · simp only [if_neg sign]
        exact reads_ofTrimmed (List.cons_ne_nil _ _) fun same => sign (Option.some.inj same)

end Reading

section Steps

/-- The steps in which the lines are read. -/
def steps (lines : List (Line V)) : List (Step V) :=
  (lines.zipIdx 1).map fun (line, number) => ⟨line.item number, some number⟩

/-- The lines of a text as they are read. -/
def ofText (separator : UInt8) (value? : Bytes → Option V) (text : Bytes) : List (Line V) :=
  (cut text).map (ofBytes separator value?)

theorem ofBytes_append_lineFeed (bytes : Bytes) :
    ofBytes separator value? (bytes ++ [lineFeed]) = ofBytes separator value? bytes := by
  rw [ofBytes, Ascii.trim_append_blank rfl, ofBytes]

theorem getElem?_steps (lines : List (Line V)) (index : Nat) :
    (steps lines)[index]? =
      lines[index]?.map fun line => ⟨line.item (index + 1), some (index + 1)⟩ := by
  rw [steps, List.getElem?_map, List.getElem?_zipIdx, Nat.add_comm 1, Option.map_map]
  rfl

theorem length_steps (lines : List (Line V)) : (steps lines).length = lines.length := by
  rw [steps, List.length_map, List.length_zipIdx]

theorem map_counted (failure : Option Error) (text : Bytes) :
    (counted failure text).map (ofBytes separator value?) =
      (if (split text).2 = [] ∨ failure.isSome then (split text).1
        else (split text).1 ++ [(split text).2]).map (ofBytes separator value?) := by
  have plain : ((split text).1.map (· ++ [lineFeed])).map (ofBytes separator value?) =
      (split text).1.map (ofBytes separator value?) := by
    rw [List.map_map]
    exact List.map_congr_left fun bytes _ => ofBytes_append_lineFeed bytes
  rw [counted_eq_split, List.map_append, plain, ← List.map_append]
  split
  · rw [List.append_nil]
  · rfl

theorem steps_counted (failure : Option Error) (text : Bytes) :
    (Source.ofText separator value? text failure).steps =
      steps ((counted failure text).map (ofBytes separator value?)) := by
  rw [map_counted, steps, List.zipIdx_map, List.map_map]
  rfl

theorem steps_ofText (text : Bytes) :
    (Source.ofText separator value? text none).steps =
      steps (ofText separator value? text) :=
  steps_counted none text

end Steps

end Line

end PackedTrie
