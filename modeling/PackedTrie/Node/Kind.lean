/-!
The four kinds of node, and the tag that the two top bits of a node's first byte bear.
-/

namespace PackedTrie

inductive NodeKind where
  /-- A key ends here. -/
  | leaf
  /-- A key ends here after some more literal bytes. -/
  | suffixLeaf
  /-- Keys go on from here, and none ends. -/
  | branch
  /-- A key ends here, and others go on. -/
  | valueBranch
  deriving DecidableEq, Repr

namespace NodeKind

def tag : NodeKind → UInt8
  | .leaf => 0
  | .suffixLeaf => 1
  | .branch => 2
  | .valueBranch => 3

def ofLead (lead : UInt8) : NodeKind :=
  match lead.toNat / 64 with
  | 0 => .leaf
  | 1 => .suffixLeaf
  | 2 => .branch
  | _ => .valueBranch

def isLeaf : NodeKind → Bool
  | .leaf | .suffixLeaf => true
  | .branch | .valueBranch => false

def name : NodeKind → String
  | .leaf => "SimpleLeaf"
  | .suffixLeaf => "SuffixLeaf"
  | .branch => "SimpleBranch"
  | .valueBranch => "ValueBranch"

/-- Sets the bits of the tag in a byte; bits that are set already stay. -/
def mark (kind : NodeKind) (byte : UInt8) : UInt8 :=
  byte ||| kind.tag <<< 6

def markAt? (kind : NodeKind) (buffer : List UInt8) (offset : Nat) : Option (List UInt8) :=
  if offset < buffer.length then some (buffer.modify offset kind.mark) else none

end NodeKind

end PackedTrie
