import PackedTrie.Error

/-!
Finished subtrees, and the bytes each one is laid out as.

A node opens with a variable-length integer whose first byte, of six bits, bears the tag of the
node's kind: the head integer of its value, or the length of its children block if it has none. A
value's payload, then a suffix with its length or a children block with its length, follow. The
byte that leads to a child stands in front of it, so the root has none.

`length` is the number of bytes of `serialize`, without laying anything out. A flat node is some
node of which only the bytes are left; it lays out as these.
-/

namespace PackedTrie

inductive Node (τ : ValueType) where
  /-- The key ends at this node. -/
  | leaf (value : τ.Value)
  /-- The key ends after the bytes of the suffix. -/
  | suffixLeaf (value : τ.Value) (suffix : Bytes)
  /-- Children in the order of their layout, each with the byte that leads to it, and the value of
  the key that ends here, if one does. -/
  | branch (value : Option τ.Value) (children : List (UInt8 × Node τ))
  /-- The bytes of some node; there is always a first one. -/
  | flat (lead : UInt8) (body : Bytes)

namespace Node

variable {τ : ValueType}

def kind : Node τ → NodeKind
  | .leaf _ => .leaf
  | .suffixLeaf _ _ => .suffixLeaf
  | .branch none _ => .branch
  | .branch (some _) _ => .valueBranch
  | .flat lead _ => .ofLead lead

def isFlat : Node τ → Bool
  | .flat _ _ => true
  | _ => false

def ofBytes : Bytes → Except Error (Node τ)
  | [] => .error (.invalidArgument .emptyNode)
  | lead :: body => .ok (.flat lead body)

/-- Moves a leaf one level up: the byte that led to it becomes the first byte of its suffix. Only
leaves whose value and suffix are at hand can be moved. -/
def fold (byte : UInt8) : Node τ → Except Error (Node τ)
  | .leaf value => .ok (.suffixLeaf value [byte])
  | .suffixLeaf value suffix => .ok (.suffixLeaf value (byte :: suffix))
  | node => .error (.internal (.notFoldable node.kind))

/-- The bits that the first byte of a node leaves to its integer. -/
def leadBits : Nat := 6

mutual

def length : Node τ → Nat
  | .leaf value => value.length leadBits
  | .suffixLeaf value suffix =>
      value.length leadBits + VarInt.length 8 suffix.length + suffix.length
  | .branch none children =>
      VarInt.length leadBits (contentLength children) + contentLength children
  | .branch (some value) children =>
      value.length leadBits + VarInt.length 8 (contentLength children) + contentLength children
  | .flat _ body => body.length + 1

def contentLength : List (UInt8 × Node τ) → Nat
  | [] => 0
  | (_, child) :: rest => 1 + length child + contentLength rest

end

def lead (node : Node τ) : UInt8 :=
  match node with
  | .leaf value | .suffixLeaf value _ | .branch (some value) _ =>
      node.kind.mark (VarInt.lead leadBits value.headInteger)
  | .branch none children => node.kind.mark (VarInt.lead leadBits (contentLength children))
  | .flat lead _ => lead

mutual

def body : Node τ → Bytes
  | .leaf value => VarInt.trail leadBits value.headInteger ++ value.payload
  | .suffixLeaf value suffix =>
      VarInt.trail leadBits value.headInteger ++
        (value.payload ++ (VarInt.encode 8 suffix.length ++ suffix))
  | .branch none children =>
      VarInt.trail leadBits (contentLength children) ++ content children
  | .branch (some value) children =>
      VarInt.trail leadBits value.headInteger ++
        (value.payload ++ (VarInt.encode 8 (contentLength children) ++ content children))
  | .flat _ body => body

def content : List (UInt8 × Node τ) → Bytes
  | [] => []
  | (byte, child) :: rest => byte :: lead child :: (body child ++ content rest)

end

def serialize (node : Node τ) : Bytes :=
  node.lead :: node.body

/-- The node with only its bytes left. -/
def flatten (node : Node τ) : Node τ :=
  .flat node.lead node.body

def entryLength (child : Node τ) : Nat :=
  1 + child.length

@[simp] theorem serialize_flatten (node : Node τ) : node.flatten.serialize = node.serialize := rfl

@[simp] theorem flatten_flat (first : UInt8) (rest : Bytes) :
    (flat first rest : Node τ).flatten = flat first rest := rfl

/-- Longer children first; children of one length keep their order. -/
def sortByLength (children : List (UInt8 × Node τ)) : List (UInt8 × Node τ) :=
  children.mergeSort fun earlier later => later.2.length ≤ earlier.2.length

end Node

end PackedTrie
