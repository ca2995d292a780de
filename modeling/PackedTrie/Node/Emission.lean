import PackedTrie.Node.Basic
import PackedTrie.Sink

/-!
Writing a node out piece by piece. Each integer is first staged in a small scratch buffer, where
the first byte of a node also gets its tag; nothing else is copied, so a node of any size passes
through a buffer of fixed size. What the scratch buffer held before does not matter.
-/

namespace PackedTrie

structure Emission where
  sink : Sink
  scratch : Bytes

namespace Emission

def put (bytes : Bytes) : EStateM Error Emission Unit
  | ⟨sink, scratch⟩ =>
      match Sink.put bytes sink with
      | .ok result sink => .ok result ⟨sink, scratch⟩
      | .error error sink => .error error ⟨sink, scratch⟩

/-- Stages an integer at the start of the scratch buffer; the result is its length. -/
def stage (bits value : Nat) : EStateM Error Emission Nat := fun emission =>
  match VarInt.write? bits value emission.scratch 0 with
  | some (length, scratch) => .ok length { emission with scratch }
  | none =>
      .error (.invalidArgument (.smallScratch emission.scratch.length)) emission

def mark (kind : NodeKind) : EStateM Error Emission Unit := fun emission =>
  .ok () { emission with scratch := emission.scratch.modify 0 kind.mark }

def putStaged (length : Nat) : EStateM Error Emission Unit := do
  put ((← get).scratch.take length)

def putLead (kind : NodeKind) (value : Nat) : EStateM Error Emission Unit := do
  let length ← stage Node.leadBits value
  mark kind
  putStaged length

def putInteger (value : Nat) : EStateM Error Emission Unit := do
  putStaged (← stage 8 value)

end Emission

namespace Node

variable {τ : ValueType}

/-- The least scratch buffer a caller may lend. -/
def minimumScratch : Nat := 64

mutual

def emit : Node τ → EStateM Error Emission Unit
  | .leaf value => do
      Emission.putLead .leaf value.headInteger
      Emission.put value.payload
  | .suffixLeaf value suffix => do
      Emission.putLead .suffixLeaf value.headInteger
      Emission.put value.payload
      Emission.putInteger suffix.length
      Emission.put suffix
  | .branch none children => do
      Emission.putLead .branch (contentLength children)
      emitContent children
  | .branch (some value) children => do
      Emission.putLead .valueBranch value.headInteger
      Emission.put value.payload
      Emission.putInteger (contentLength children)
      emitContent children
  | .flat lead body => Emission.put (lead :: body)

def emitContent : List (UInt8 × Node τ) → EStateM Error Emission Unit
  | [] => pure ()
  | (byte, child) :: rest => do
      Emission.put [byte]
      emit child
      emitContent rest

end

def writeTo (node : Node τ) (scratch : Bytes) : EStateM Error Sink Unit := fun sink =>
  if scratch.length < minimumScratch then
    .error (.invalidArgument (.smallScratch scratch.length)) sink
  else
    match node.emit ⟨sink, scratch⟩ with
    | .ok result emission => .ok result emission.sink
    | .error error emission => .error error emission.sink

def blankScratch : Bytes := List.replicate minimumScratch 0

def appendTo (node : Node τ) (buffer : Array UInt8) : Array UInt8 :=
  match node.writeTo blankScratch ⟨none, buffer⟩ with
  | .ok _ sink | .error _ sink => sink.written

/-- The bytes written into a buffer of fixed size, or `none` if the node does not fit. -/
def writeInto? (node : Node τ) (size : Nat) : Option (Array UInt8) :=
  match node.writeTo blankScratch { capacity := some size } with
  | .ok _ sink => some sink.written
  | .error _ _ => none

end Node

end PackedTrie
