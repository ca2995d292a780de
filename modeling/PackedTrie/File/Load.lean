import PackedTrie.Build.Report
import PackedTrie.Header
import PackedTrie.Lookup.Find

/-!
Loading a trie from the bytes of a file. The header is checked before anything of the payload is
looked at: its form, then the kind of the values, then whether the payload it declares is there.
What follows the payload is left alone.

The state that the loaders carry are the events, the latest first.
-/

namespace PackedTrie

abbrev Loading := EStateM Error (List Event)

namespace Loading

variable {τ : ValueType}

def note (event : Event) : Loading Unit :=
  modify (event :: ·)

def checkValueType (τ : ValueType) (header : Header) : Except Error Unit :=
  if header.valueType = τ then .ok ()
  else .error (.invalidArgument (.wrongValueType header.valueType τ))

def payloadWindow (τ : ValueType) (file : Array UInt8) : Loading Window := do
  let header ← ofExcept (Header.decode (file.extract 0 Header.size).toList 0)
  ofExcept (checkValueType τ header)
  if inside : Header.size + header.payloadLength ≤ file.size then
    note (.headerRead header.valueType header.payloadLength)
    pure ⟨file, Header.size, header.payloadLength, inside⟩
  else
    throw (.invalidFormat
      (.missingPayload header.payloadLength (file.size - Header.size)))

def ofArray (τ : ValueType) (file : Array UInt8) : Loading (Trie (Array UInt8) τ) := do
  let window ← payloadWindow τ file
  pure ⟨window.whole.extract window.start (window.start + window.size)⟩

def ofShared (τ : ValueType) (file : Array UInt8) : Loading (Trie Window τ) := do
  pure ⟨← payloadWindow τ file⟩

/-- Reads a named file, which may be missing, into memory. The size of the file is asked for first;
its bytes are then read as a stream, which could still end too soon. -/
def ofFile (τ : ValueType) (name : String) (file? : Option (Array UInt8)) :
    Loading (Trie (Array UInt8) τ) := do
  match file? with
  | none => throw (.io .missingFile)
  | some file =>
      if file.size < Header.size then throw (.invalidFormat .smallFile)
      let (rest, read) := Header.readFrom file.toList
      let header ← ofExcept read
      ofExcept (checkValueType τ header)
      let available := file.size - Header.size
      if available < header.payloadLength then
        throw (.invalidFormat (.missingPayload header.payloadLength available))
      note (.headerRead header.valueType header.payloadLength)
      note (.loading name)
      let payload := rest.take header.payloadLength
      if payload.length < header.payloadLength then throw (.io .shortRead)
      pure ⟨payload.toArray⟩

def ofMapped (τ : ValueType) (name : String) (file? : Option (Array UInt8)) :
    Loading (Trie Window τ) := do
  match file? with
  | none => throw (.io .missingFile)
  | some file =>
      let trie ← ofShared τ file
      note (.mapped name trie.payload.size)
      pure trie

/-- Reads a trie from a stream: what is left of the stream, and the result. How long the stream is
shows only in the reading, so a payload that is cut off is a failure of the stream. -/
def ofStream (τ : ValueType) (stream : Bytes) :
    Bytes × EStateM.Result Error (List Event) (Trie (Array UInt8) τ) :=
  match Header.readFrom stream with
  | (rest, .error error) => (rest, .error error [])
  | (rest, .ok header) =>
      match checkValueType τ header with
      | .error error => (rest, .error error [])
      | .ok _ =>
          let journal := [Event.headerRead header.valueType header.payloadLength]
          let payload := rest.take header.payloadLength
          (rest.drop header.payloadLength,
            if payload.length = header.payloadLength then .ok ⟨payload.toArray⟩ journal
            else
              .error (.io (.truncatedPayload payload.length header.payloadLength)) journal)

end Loading

/-- The root of a loaded trie as a node that lays out as the same bytes. -/
def Trie.root {α : Type} [Payload α] {τ : ValueType} (trie : Trie α τ) : Except Error (Node τ) :=
  Node.ofBytes (Payload.toBytes trie.payload)

end PackedTrie
