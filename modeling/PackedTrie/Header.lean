import PackedTrie.Error

/-!
The sixteen bytes in front of the payload of a trie file: a signature of six, the kind of the
values, one byte in reserve, and the length of the payload. The byte in reserve is written as zero
and never looked at.
-/

namespace PackedTrie

structure Header where
  valueType : ValueType
  payloadLength : Nat
  deriving DecidableEq, Repr

namespace Header

def size : Nat := 16

/-- Four letters, a line feed, and the version, whose top bit tells that the file is no text. -/
def signature : Bytes := [0x54, 0x52, 0x31, 0x33, 0x0A, 0x90]

def encode (header : Header) : Bytes :=
  signature ++ (header.valueType.code :: 0 :: Bytes.bigEndian 8 header.payloadLength)

/-- Lays the header over the start of `buffer`: its length and the buffer after the change, or
`none` if the buffer is too short. -/
def fill? (header : Header) (buffer : Bytes) : Option (Nat × Bytes) :=
  (buffer.overwrite? 0 header.encode).map fun written => (size, written)

def ofBytes (bytes : Bytes) : Except Error Header :=
  if bytes.length ≠ size then .error (.invalidFormat .shortHeader)
  else if bytes.take signature.length ≠ signature then .error (.invalidFormat .noSignature)
  else
    let code := bytes.getD signature.length 0
    match ValueType.ofCode? code with
    | none => .error (.invalidFormat (.unknownValueType code))
    | some valueType => .ok ⟨valueType, Bytes.toNat (bytes.drop 8)⟩

def decode (bytes : Bytes) (offset : Nat) : Except Error Header :=
  ofBytes ((bytes.drop offset).take size)

/-- Takes a header from the front of a stream: what is left of the stream, and the result. A stream
that is too short is used up. -/
def readFrom (stream : Bytes) : Bytes × Except Error Header :=
  if stream.length < size then ([], .error (.io .shortRead))
  else (stream.drop size, decode stream 0)

@[simp] theorem length_encode (header : Header) : header.encode.length = size := by
  simp [encode, signature, size]

end Header

end PackedTrie
