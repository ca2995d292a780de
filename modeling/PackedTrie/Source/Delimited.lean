import PackedTrie.Source.Basic
import PackedTrie.Text.Ascii

/-!
Entries in lines of text, a key and a value with a separator between them. Blanks around a line and
around a value do not count; blank lines and lines that start with a number sign are passed over.
The position of an entry is the number of its line, all lines counted.
-/

namespace PackedTrie

namespace ValueType

def ofText? : (τ : ValueType) → Bytes → Option τ.Value
  | .integer, text => Ascii.parse? text
  | .bytes, text => some text

end ValueType

inductive Line (V : Type) where
  | skipped
  | entry (key : Bytes) (value : V)
  /-- Neither; with the text of the line. -/
  | malformed (text : Bytes)

namespace Line

variable {V : Type}

def lineFeed : UInt8 := 0x0A

def numberSign : UInt8 := 0x23

def defaultSeparator : UInt8 := 0x7C

/-- Reads a line without blanks at its ends. The key reaches up to the first separator and is not
empty. -/
def ofTrimmed (separator : UInt8) (value? : Bytes → Option V) (text : Bytes) : Line V :=
  match text.takeWhile (· != separator), text.dropWhile (· != separator) with
  | [], _ | _, [] => .malformed text
  | key, _ :: rest =>
      match value? (Ascii.trim rest) with
      | some value => .entry key value
      | none => .malformed text

def ofBytes (separator : UInt8) (value? : Bytes → Option V) (line : Bytes) : Line V :=
  match Ascii.trim line with
  | [] => .skipped
  | first :: rest =>
      if first = numberSign then .skipped else ofTrimmed separator value? (first :: rest)

/-- The lines that end in a line feed, without it, and the bytes after the last of them. -/
def split (text : Bytes) : List Bytes × Bytes :=
  text.foldr
    (fun byte (lines, last) =>
      if byte = lineFeed then ([] :: lines, last)
      else
        match lines with
        | [] => ([], byte :: last)
        | line :: rest => ((byte :: line) :: rest, last))
    ([], [])

def item (number : Nat) : Line V → Item V
  | .skipped => .nothing
  | .entry key value => .entry key value number
  | .malformed text => .fault (.invalidFormat (.malformedLine number text))

end Line

namespace Source

/-- The lines of a text. A last line without a line feed counts if the text ends there, and is
lost if the reader of the text fails there instead. -/
def ofText {V : Type} (separator : UInt8) (value? : Bytes → Option V) (text : Bytes)
    (failure : Option Error) : Source V :=
  let (lines, last) := Line.split text
  let lines := if last = [] ∨ failure.isSome then lines else lines ++ [last]
  { steps := (lines.zipIdx 1).map fun (line, number) =>
      ⟨(Line.ofBytes separator value? line).item number, some number⟩
    failure
    position := some 0 }

end Source

end PackedTrie
