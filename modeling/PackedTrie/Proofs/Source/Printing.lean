import PackedTrie.Proofs.Source.Readers

/-!
Entries written as a text and read back. A row of the text is blank, or a comment, or an entry with
blanks around it and behind its separator; wherever they stand, what is read is the entries, each at
the number of its row.
-/

namespace PackedTrie

variable {τ : ValueType} {separator : UInt8}

open Line

section Rows

def ValueType.toText : (τ : ValueType) → τ.Value → Bytes
  | .integer, number => Ascii.print (UInt64.toNat number)
  | .bytes, text => text

/-- Numbers can be written, and bytes that are a field within one line. -/
def ValueType.Writable : (τ : ValueType) → τ.Value → Prop
  | .integer, _ => True
  | .bytes, text => lineFeed ∉ text ∧ Ascii.Unpadded text

/-- Blanks within a line. -/
def Padding (bytes : Bytes) : Prop :=
  ∀ byte ∈ bytes, Ascii.isBlank byte = true ∧ byte ≠ lineFeed

/-- A line as it is written. -/
inductive Row (τ : ValueType) where
  | blank (padding : Bytes)
  | comment (padding text : Bytes)
  /-- With blanks before the key, between the separator and the value, and after the value. -/
  | entry (before key between : Bytes) (value : τ.Value) (after : Bytes)

namespace Row

def print (separator : UInt8) : Row τ → Bytes
  | .blank padding => padding
  | .comment padding text => padding ++ numberSign :: text
  | .entry before key between value after =>
      before ++ (key ++ separator :: (between ++ τ.toText value ++ after))

/-- The row is one line, and its parts can be told apart. The key may end in blanks. -/
def Writable (separator : UInt8) : Row τ → Prop
  | .blank padding => Padding padding
  | .comment padding text => Padding padding ∧ lineFeed ∉ text
  | .entry before key between value after =>
      (key ≠ [] ∧ separator ∉ key ∧ lineFeed ∉ key ∧ key.head?.any Ascii.isBlank = false ∧
        key.head? ≠ some numberSign) ∧
      τ.Writable value ∧ Padding before ∧ Padding between ∧ Padding after

def line : Row τ → Line τ.Value
  | .blank _ | .comment _ _ => .skipped
  | .entry _ key _ value _ => .entry key value

end Row

/-- The rows one after the other, each with a line feed. -/
def document (separator : UInt8) (rows : List (Row τ)) : Bytes :=
  ((rows.map (Row.print separator)).map (· ++ [lineFeed])).flatten

instance (bytes : Bytes) : Decidable (Padding bytes) :=
  inferInstanceAs (Decidable (∀ byte ∈ bytes, _ ∧ _))

instance (value : τ.Value) : Decidable (τ.Writable value) :=
  match τ, value with
  | .integer, _ => inferInstanceAs (Decidable True)
  | .bytes, _ => inferInstanceAs (Decidable (_ ∧ _))

instance (separator : UInt8) (row : Row τ) : Decidable (row.Writable separator) :=
  match row with
  | .blank padding => inferInstanceAs (Decidable (Padding padding))
  | .comment _ _ => inferInstanceAs (Decidable (_ ∧ _))
  | .entry _ _ _ _ _ => inferInstanceAs (Decidable ((_ ∧ _) ∧ _ ∧ _ ∧ _ ∧ _))

end Rows

section Fields

variable {value : τ.Value}

theorem Padding.blank {bytes : Bytes} (padding : Padding bytes) :
    ∀ byte ∈ bytes, Ascii.isBlank byte = true :=
  fun byte member => (padding byte member).1

theorem Padding.lineFeed_not_mem {bytes : Bytes} (padding : Padding bytes) : lineFeed ∉ bytes :=
  fun member => (padding lineFeed member).2 rfl

theorem ValueType.Writable.unpadded (writable : τ.Writable value) :
    Ascii.Unpadded (τ.toText value) := by
  cases τ with
  | integer => exact Ascii.unpadded_print _
  | bytes => exact writable.2

theorem ValueType.Writable.lineFeed_not_mem (writable : τ.Writable value) :
    lineFeed ∉ τ.toText value := by
  cases τ with
  | integer =>
      intro member
      have digit := Ascii.isDigit_of_mem_print member
      contradiction
  | bytes => exact writable.1

theorem ValueType.ofText?_toText (value : τ.Value) : τ.ofText? (τ.toText value) = some value := by
  cases τ with
  | integer => exact Ascii.parse?_print value
  | bytes => rfl

end Fields

namespace Row

variable {row : Row τ}

theorem Writable.lineFeed_not_mem (visible : Ascii.isBlank separator = false)
    (writable : row.Writable separator) : lineFeed ∉ row.print separator := by
  cases row with
  | blank padding => exact Padding.lineFeed_not_mem writable
  | comment padding text =>
      obtain ⟨padding, unended⟩ := writable
      simp only [print, List.mem_append, List.mem_cons, not_or]
      exact ⟨padding.lineFeed_not_mem, by decide, unended⟩
  | entry before key between value after =>
      obtain ⟨⟨-, -, unended, -, -⟩, written, before, between, after⟩ := writable
      have other : lineFeed ≠ separator := by
        rintro rfl
        contradiction
      simp only [print, List.mem_append, List.mem_cons, not_or]
      exact ⟨before.lineFeed_not_mem, unended, other,
        ⟨between.lineFeed_not_mem, written.lineFeed_not_mem⟩, after.lineFeed_not_mem⟩

theorem Writable.ofBytes_print (visible : Ascii.isBlank separator = false)
    (writable : row.Writable separator) :
    ofBytes separator τ.ofText? (row.print separator) = row.line := by
  cases row with
  | blank padding =>
      rw [print, ofBytes, Ascii.trim_of_blank (Padding.blank writable)]
      rfl
  | comment padding text =>
      rw [print, ofBytes, Ascii.trim_append_of_blank_left writable.1.blank, Ascii.trim_cons rfl]
      rfl
  | entry before key between value after =>
      obtain ⟨⟨named, first, -, start, uncommented⟩, written, before, between, after⟩ := writable
      -- The end of the line is trimmed before the value is taken from it, and the value is trimmed
      -- once more.
      have field : Ascii.trim ((_ ++ τ.toText value ++ _).rdropWhile Ascii.isBlank) =
          τ.toText value :=
        (Ascii.trim_rdropWhile _).trans (written.unpadded.trim_padded between.blank after.blank)
      obtain ⟨letter, rest, rfl⟩ := List.exists_cons_of_ne_nil named
      have visibleStart : Ascii.isBlank letter = false := start
      have sign : letter ≠ numberSign := fun same => uncommented (congrArg some same)
      rw [print, ofBytes, Ascii.trim_append_of_blank_left before.blank, List.cons_append,
        Ascii.trim_cons visibleStart, Ascii.rdropWhile_append_cons visible]
      dsimp only
      rw [if_neg sign, ← List.cons_append, ofTrimmed_of_first named first, field,
        ValueType.ofText?_toText]
      rfl

end Row

section Documents

variable {rows : List (Row τ)} {text : Bytes}

theorem lineFeed_not_mem_of_mem_map_print (visible : Ascii.isBlank separator = false)
    (writable : ∀ row ∈ rows, row.Writable separator) :
    ∀ front ∈ rows.map (Row.print separator), lineFeed ∉ front := by
  intro front member
  obtain ⟨row, among, rfl⟩ := List.mem_map.mp member
  exact (writable row among).lineFeed_not_mem visible

theorem map_ofBytes_print (visible : Ascii.isBlank separator = false)
    (writable : ∀ row ∈ rows, row.Writable separator) :
    (rows.map (Row.print separator)).map (ofBytes separator τ.ofText?) = rows.map Row.line := by
  rw [List.map_map]
  exact List.map_congr_left fun row member => (writable row member).ofBytes_print visible

theorem document_append_singleton (rows : List (Row τ)) (row : Row τ) :
    document separator (rows ++ [row]) =
      document separator rows ++ row.print separator ++ [lineFeed] := by
  simp only [document, List.map_append, List.map_cons, List.map_nil, List.flatten_append,
    List.flatten_cons, List.flatten_nil, List.append_nil, List.append_assoc]

theorem split_document_append {last : Bytes} (visible : Ascii.isBlank separator = false)
    (writable : ∀ row ∈ rows, row.Writable separator) (unended : lineFeed ∉ last) :
    split (document separator rows ++ last) = (rows.map (Row.print separator), last) :=
  split_flatten (lineFeed_not_mem_of_mem_map_print visible writable) unended

/-- The lines of a text are its rows. Without its line feed the last row is no line if it is
empty, but then it holds no entry either. -/
theorem exists_rows (visible : Ascii.isBlank separator = false)
    (writable : ∀ row ∈ rows, row.Writable separator)
    (written : text = document separator rows ∨ text ++ [lineFeed] = document separator rows) :
    ∃ shown : List (Row τ),
      (counted none text).map (ofBytes separator τ.ofText?) = shown.map Row.line ∧
      numbered (shown.map Row.line) = numbered (rows.map Row.line) := by
  rcases written with whole | unfinished
  · have splits := split_document_append visible writable List.not_mem_nil
    rw [List.append_nil, ← whole] at splits
    refine ⟨rows, ?_, rfl⟩
    rw [map_counted, splits, if_pos (.inl rfl), map_ofBytes_print visible writable]
  · rcases List.eq_nil_or_concat' rows with rfl | ⟨former, last, rfl⟩
    · exact absurd unfinished (List.append_ne_nil_of_right_ne_nil _ (List.cons_ne_nil _ _))
    · have lastWritable : last.Writable separator := writable last (by simp)
      have formerWritable : ∀ row ∈ former, row.Writable separator :=
        fun row member => writable row (List.mem_append_left _ member)
      rw [document_append_singleton] at unfinished
      have splits := split_document_append visible formerWritable
        (lastWritable.lineFeed_not_mem visible)
      rw [← List.append_cancel_right unfinished] at splits
      by_cases empty : last.print separator = []
      · have skipped : last.line = .skipped := by
          rw [← lastWritable.ofBytes_print visible, empty]
          rfl
        refine ⟨former, ?_, ?_⟩
        · rw [map_counted, splits, if_pos (.inl empty), map_ofBytes_print visible formerWritable]
        · rw [List.map_append, List.map_singleton, numbered_append_singleton, skipped, entry?,
            Option.toList_none, List.append_nil]
      · refine ⟨former ++ [last], ?_, rfl⟩
        have present : ¬ (last.print separator = [] ∨ (none : Option Error).isSome) :=
          not_or.mpr ⟨empty, Bool.false_ne_true⟩
        rw [map_counted, splits, if_neg present, ← map_ofBytes_print visible writable]
        simp only [List.map_append, List.map_singleton]

end Documents

section Handing

variable {V σ : Type} {lines : List (Line V)}

/-- The entries of the lines behind the first `start`, each at the number of its line. -/
def Line.numberedFrom (start : Nat) (lines : List (Line V)) : List (Bytes × V × Nat) :=
  (lines.zipIdx (start + 1)).filterMap fun (line, number) => line.entry? number

def Handler.forEntries (handler : Handler V σ) (entries : List (Bytes × V × Nat)) :
    EStateM Error σ Unit :=
  entries.forM fun (key, value, number) => handler key value number

theorem Handler.forEntries_cons (handler : Handler V σ) (key : Bytes) (value : V) (number : Nat)
    (entries : List (Bytes × V × Nat)) (state : σ) :
    handler.forEntries ((key, value, number) :: entries) state =
      match handler key value number state with
      | .ok _ state => handler.forEntries entries state
      | .error error state => .error error state := by
  rw [forEntries, List.forM_eq_forM, List.forM_cons]
  simp only [bind, EStateM.bind]
  cases handler key value number state <;> rfl

theorem Source.readAll_behind_of_wellFormed (wellFormed : ∀ text, .malformed text ∉ lines)
    (start : Nat) (handler : Handler V σ) (state : σ) :
    ((behind none start lines).readAll handler state).2 =
      handler.forEntries (numberedFrom start lines) state := by
  induction lines generalizing start state with
  | nil => rfl
  | cons line lines inductionHypothesis =>
      have later := inductionHypothesis fun text member =>
        wellFormed text (List.mem_cons_of_mem line member)
      cases line with
      | skipped =>
          rw [readAll_behind_skipped, later]
          rfl
      | malformed text => exact absurd List.mem_cons_self (wellFormed text)
      | entry key value =>
          have first : numberedFrom start (.entry key value :: lines) =
              (key, value, start + 1) :: numberedFrom (start + 1) lines := rfl
          rw [readAll_behind_entry, first, Handler.forEntries_cons]
          cases handler key value (start + 1) state with
          | ok _ next => exact later (start + 1) next
          | error error next => rfl

def Verdict.acceptAll : Verdict V :=
  fun _ _ _ => none

theorem forEntries_acceptAll (entries handed : List (Bytes × V × Nat)) :
    Verdict.acceptAll.handler.forEntries entries handed = .ok () (handed ++ entries) := by
  induction entries generalizing handed with
  | nil =>
      rw [List.append_nil]
      rfl
  | cons entry entries inductionHypothesis =>
      rw [List.append_cons, ← inductionHypothesis]
      rfl

end Handing

section Printing

variable {rows : List (Row τ)} {text : Bytes}

/-- A text of rows gives back the entries that were written in it, in order, each at the number of
its row; and the reading ends well, unless an entry is turned down. -/
theorem readAll_of_written (visible : Ascii.isBlank separator = false)
    (writable : ∀ row ∈ rows, row.Writable separator)
    (written : text = document separator rows ∨ text ++ [lineFeed] = document separator rows) :
    let entries := numbered (rows.map Row.line)
    let source := Source.ofText separator τ.ofText? text none
    let reader : LineReader τ.Value := ⟨separator, τ.ofText?, text, none, 0⟩
    (∀ (σ : Type) (handler : Handler τ.Value σ) (state : σ),
      (source.readAll handler state).2 = handler.forEntries entries state ∧
      (reader.readAll handler state).2 = (source.readAll handler state).2) ∧
    (source.readAll Verdict.acceptAll.handler []).2 = .ok () entries := by
  intro entries source reader
  obtain ⟨shown, lines, same⟩ := exists_rows visible writable written
  have viewed : source = reader.toSource :=
    Reading.ofText_eq_behind separator τ.ofText? none text
  have stands : source = .behind none 0 (shown.map Row.line) := by
    rw [viewed, LineReader.toSource, lines]
  have wellFormed : ∀ text, .malformed text ∉ shown.map Row.line := by
    intro text member
    obtain ⟨row, -, line⟩ := List.mem_map.mp member
    cases row <;> contradiction
  have handed : ∀ (σ : Type) (handler : Handler τ.Value σ) (state : σ),
      (source.readAll handler state).2 = handler.forEntries entries state := by
    intro σ handler state
    rw [stands, Source.readAll_behind_of_wellFormed wellFormed]
    exact congrArg (handler.forEntries · state) same
  refine ⟨fun σ handler state => ⟨handed σ handler state, ?_⟩, ?_⟩
  · rw [viewed, reader.readAll_toSource]
    rfl
  · rw [handed, forEntries_acceptAll, List.nil_append]

/-- A comment, a key that ends in a blank and a value with a separator in it, a blank line, and an
empty value. -/
def names : List (Row .bytes) :=
  [.comment [] [0x20, 0x6E], .entry [0x20, 0x20] [0x62, 0x20] [0x20] [0x78, 0x3B, 0x79] [0x0D],
    .blank [0x09], .entry [] [0x6B] [] [] []]

def namesText : Bytes :=
  [0x23, 0x20, 0x6E, 0x0A, 0x20, 0x20, 0x62, 0x20, 0x3B, 0x20, 0x78, 0x3B, 0x79, 0x0D, 0x0A, 0x09,
    0x0A, 0x6B, 0x3B]

theorem readAll_of_written_names :
    Ascii.isBlank 0x3B = false ∧ (∀ row ∈ names, row.Writable 0x3B) ∧
      namesText ++ [lineFeed] = document 0x3B names ∧
      ((Source.ofText 0x3B (ValueType.ofText? .bytes) namesText none).readAll
        Verdict.acceptAll.handler []).2 =
        .ok () [([0x62, 0x20], [0x78, 0x3B, 0x79], 2), ([0x6B], [], 4)] := by
  have visible : Ascii.isBlank 0x3B = false := rfl
  have writable : ∀ row ∈ names, row.Writable 0x3B := by decide +kernel
  have written : namesText ++ [lineFeed] = document 0x3B names := rfl
  exact ⟨visible, writable, written, (readAll_of_written visible writable (.inr written)).2⟩

end Printing

end PackedTrie
