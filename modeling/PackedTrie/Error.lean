import PackedTrie.Lookup.Corruption
import PackedTrie.Node.Kind
import PackedTrie.Text.Ascii
import PackedTrie.Text.Utf8
import PackedTrie.ValueType

/-!
Why an operation failed. Each constructor is a cause; `Error.message` is the only place where
causes become text, a heading for the category and then the detail.
-/

namespace PackedTrie

inductive IoFault where
  /-- A fixed number of bytes was wanted, and the input ended first. -/
  | shortRead
  /-- The sink is full. -/
  | shortWrite
  /-- The input ended inside the payload that its header declares. -/
  | truncatedPayload (read declared : Nat)
  /-- A reader failed for a reason of its own. -/
  | reader (reason : String)
  | missingFile
  deriving DecidableEq, Repr

/-- How a key violates the order of the input. -/
inductive OrderFault where
  /-- The key, of the first length, begins the previous one, of the second. -/
  | shorter (length previous : Nat)
  /-- The keys first differ at `offset`, and the new byte is the smaller one. -/
  | smallerByte (byte : UInt8) (offset : Nat) (previous : UInt8)
  deriving DecidableEq, Repr

inductive FormatFault where
  | shortHeader
  | noSignature
  | unknownValueType (code : UInt8)
  /-- More payload is declared than there are bytes left. -/
  | missingPayload (declared available : Nat)
  | smallFile
  | malformedLine (number : Nat) (text : Bytes)
  deriving DecidableEq, Repr

inductive ArgumentFault where
  | zeroThreshold
  | smallScratch (size : Nat)
  | emptyNode
  | wrongValueType (held requested : ValueType)
  deriving DecidableEq, Repr

inductive InternalFault where
  /-- A node that is no leaf of the graph cannot take bytes into a suffix. -/
  | notFoldable (kind : NodeKind)
  /-- The root was closed into a parent, which it does not have. -/
  | lostRoot
  /-- The receiver of the entries of a source turned one down. -/
  | handler (reason : String)
  deriving DecidableEq, Repr

inductive Error where
  | io (fault : IoFault)
  | outOfOrder (position : Nat) (fault : OrderFault)
  | duplicateKey (position : Nat)
  | invalidFormat (fault : FormatFault)
  | corruption (fault : Corruption)
  | invalidArgument (fault : ArgumentFault)
  | internal (fault : InternalFault)
  deriving DecidableEq, Repr

def IoFault.text : IoFault → String
  | .shortRead => "failed to fill whole buffer"
  | .shortWrite => "failed to write whole buffer"
  | .truncatedPayload read declared =>
      s!"Unexpected end of stream: read {read} of {declared} payload bytes"
  | .reader reason => reason
  | .missingFile => "No such file or directory"

def OrderFault.text : OrderFault → String
  | .shorter length previous =>
      s!"key of {length} bytes is a prefix of the previous key ({previous} bytes)"
  | .smallerByte byte offset previous =>
      let found := Ascii.hexByte byte
      let before := Ascii.hexByte previous
      s!"byte 0x{found} at offset {offset} sorts before 0x{before} of the previous key"

def FormatFault.text : FormatFault → String
  | .shortHeader => "Input too short for trie header: need 16 bytes"
  | .noSignature => "Malformed input: no valid trie header found (signature mismatch)"
  | .unknownValueType code => s!"Unrecognized value type: {code}"
  | .missingPayload declared available =>
      s!"Declared payload of {declared} bytes exceeds the {available} bytes available"
  | .smallFile => "File too small to be a valid trie"
  | .malformedLine number text =>
      let shown := Utf8.decodeLossy text
      s!"Invalid line #{number}: '{shown}'"

def ArgumentFault.text : ArgumentFault → String
  | .zeroThreshold => "serialize_threshold must be > 0"
  | .smallScratch size => s!"scratch buffer too small: need 64 bytes, got {size}"
  | .emptyNode => "serialized node cannot be empty"
  | .wrongValueType held requested =>
      s!"Trie holds {held.name} values, but {requested.name} values were requested"

def InternalFault.text : InternalFault → String
  | .notFoldable kind => s!"cannot fold {kind.name} node into a suffix leaf"
  | .lostRoot => "open path lost its root"
  | .handler reason => reason

inductive ErrorKind where
  | io
  | outOfOrder
  | duplicateKey
  | invalidFormat
  | corruption
  | invalidArgument
  | internal
  deriving DecidableEq, Repr

/-- The text of an error of this category at an input position, with the given detail. Only errors
about the order of the input have a position, and a repeated key has no detail. -/
def ErrorKind.message (kind : ErrorKind) (position : Nat) (detail : String) : String :=
  match kind with
  | .io => s!"IO error: {detail}"
  | .outOfOrder => s!"Input out of order at position {position}: {detail}"
  | .duplicateKey => s!"Duplicate key at position {position}"
  | .invalidFormat => s!"Invalid format: {detail}"
  | .corruption => s!"Data corruption: {detail}"
  | .invalidArgument => s!"Invalid argument: {detail}"
  | .internal => s!"Internal error: {detail}"

namespace Error

def kind : Error → ErrorKind
  | .io _ => .io
  | .outOfOrder _ _ => .outOfOrder
  | .duplicateKey _ => .duplicateKey
  | .invalidFormat _ => .invalidFormat
  | .corruption _ => .corruption
  | .invalidArgument _ => .invalidArgument
  | .internal _ => .internal

def position : Error → Nat
  | .outOfOrder position _ | .duplicateKey position => position
  | _ => 0

def detail : Error → String
  | .io fault => fault.text
  | .outOfOrder _ fault => fault.text
  | .duplicateKey _ => ""
  | .invalidFormat fault => fault.text
  | .corruption fault => fault.text
  | .invalidArgument fault => fault.text
  | .internal fault => fault.text

def message (error : Error) : String :=
  error.kind.message error.position error.detail

end Error

end PackedTrie
