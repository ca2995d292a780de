import PackedTrie.Node.Emission

/-!
Nodes that keep the length of their children block. A branch adds up the lengths of its children
once, when it is made; from then on its own length, and the integer it is written with, are at hand
without going into what lies below.

The number kept is not looked at again, so it has to be right from the start. It is if the node was
made by the functions of this file.
-/

namespace PackedTrie

inductive Measured (τ : ValueType) where
  | leaf (value : τ.Value)
  | suffixLeaf (value : τ.Value) (suffix : Bytes)
  /-- A branch, and the length of its children block. -/
  | branch (value : Option τ.Value) (children : List (UInt8 × Measured τ)) (contentLength : Nat)
  | flat (lead : UInt8) (body : Bytes)

namespace Measured

variable {τ : ValueType}

def kind : Measured τ → NodeKind
  | .leaf _ => .leaf
  | .suffixLeaf _ _ => .suffixLeaf
  | .branch none _ _ => .branch
  | .branch (some _) _ _ => .valueBranch
  | .flat lead _ => .ofLead lead

/-- The number of bytes the node is written in. Only the top of the node is looked at. -/
def length : Measured τ → Nat
  | .leaf value => value.length Node.leadBits
  | .suffixLeaf value suffix =>
      value.length Node.leadBits + VarInt.length 8 suffix.length + suffix.length
  | .branch none _ contentLength => VarInt.length Node.leadBits contentLength + contentLength
  | .branch (some value) _ contentLength =>
      value.length Node.leadBits + VarInt.length 8 contentLength + contentLength
  | .flat _ body => body.length + 1

mutual

def emit : Measured τ → EStateM Error Emission Unit
  | .leaf value => do
      Emission.putLead .leaf value.headInteger
      Emission.put value.payload
  | .suffixLeaf value suffix => do
      Emission.putLead .suffixLeaf value.headInteger
      Emission.put value.payload
      Emission.putInteger suffix.length
      Emission.put suffix
  | .branch none children contentLength => do
      Emission.putLead .branch contentLength
      emitContent children
  | .branch (some value) children contentLength => do
      Emission.putLead .valueBranch value.headInteger
      Emission.put value.payload
      Emission.putInteger contentLength
      emitContent children
  | .flat lead body => Emission.put (lead :: body)

def emitContent : List (UInt8 × Measured τ) → EStateM Error Emission Unit
  | [] => pure ()
  | (byte, child) :: rest => do
      Emission.put [byte]
      emit child
      emitContent rest

end

def writeTo (node : Measured τ) (scratch : Bytes) : EStateM Error Sink Unit := fun sink =>
  if scratch.length < Node.minimumScratch then
    .error (.invalidArgument (.smallScratch scratch.length)) sink
  else
    match node.emit ⟨sink, scratch⟩ with
    | .ok result emission => .ok result emission.sink
    | .error error emission => .error error emission.sink

def appendTo (node : Measured τ) (buffer : Array UInt8) : Array UInt8 :=
  match node.writeTo Node.blankScratch ⟨none, buffer⟩ with
  | .ok _ sink | .error _ sink => sink.written

def serialize (node : Measured τ) : Bytes :=
  (node.appendTo #[]).toList

def contentLength (children : List (UInt8 × Measured τ)) : Nat :=
  children.foldr (fun entry total => 1 + entry.2.length + total) 0

/-- A branch that is given its children, which are measured here. -/
def ofChildren (value : Option τ.Value) (children : List (UInt8 × Measured τ)) : Measured τ :=
  .branch value children (contentLength children)

def fold (byte : UInt8) : Measured τ → Except Error (Measured τ)
  | .leaf value => .ok (.suffixLeaf value [byte])
  | .suffixLeaf value suffix => .ok (.suffixLeaf value (byte :: suffix))
  | node => .error (.internal (.notFoldable node.kind))

def ofBytes : Bytes → Except Error (Measured τ)
  | [] => .error (.invalidArgument .emptyNode)
  | lead :: body => .ok (.flat lead body)

/-- The node with only its bytes left, which are written out for it. -/
def flatten : Measured τ → Measured τ
  | .flat lead body => .flat lead body
  | node =>
      match node.serialize with
      | [] => node
      | lead :: body => .flat lead body

mutual

def node : Measured τ → Node τ
  | .leaf value => .leaf value
  | .suffixLeaf value suffix => .suffixLeaf value suffix
  | .branch value children _ => .branch value (nodes children)
  | .flat lead body => .flat lead body

def nodes : List (UInt8 × Measured τ) → List (UInt8 × Node τ)
  | [] => []
  | (byte, child) :: rest => (byte, node child) :: nodes rest

end

end Measured

end PackedTrie
