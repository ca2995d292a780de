import PackedTrie.Build.Options
import PackedTrie.Build.Report
import PackedTrie.Node.Basic

/-!
Nodes that still take children, and what closing makes of them.

Closing is decided once, as a `Closing`; the finished node, the counters and the events are all
read off that decision.
-/

namespace PackedTrie

structure OpenNode (τ : ValueType) where
  value : Option τ.Value := none
  children : List (UInt8 × Node τ) := []

inductive Closing (τ : ValueType) where
  | leaf (value : τ.Value)
  /-- The only child is a leaf and takes the byte that leads to it into its suffix. -/
  | fold (byte : UInt8) (child : Node τ)
  /-- A branch, of which only the bytes are kept if `flattened` is set. -/
  | branch (value : Option τ.Value) (children : List (UInt8 × Node τ)) (flattened : Bool)

namespace Closing

variable {τ : ValueType}

/-- The finished node. A leaf of which only the bytes are left cannot be folded. -/
def node : Closing τ → Except Error (Node τ)
  | .leaf value => .ok (.leaf value)
  | .fold byte child => child.fold byte
  | .branch value children flattened =>
      .ok (if flattened then (Node.branch value children).flatten else .branch value children)

def count (stats : Stats) : Closing τ → Stats
  | .leaf _ => { stats with leaves := stats.leaves + 1 }
  | .fold _ _ => { stats with suffixFolds := stats.suffixFolds + 1 }
  | .branch value _ flattened =>
      let stats :=
        match value with
        | none => { stats with branches := stats.branches + 1 }
        | some _ => { stats with valueBranches := stats.valueBranches + 1 }
      if flattened then { stats with serializedNodes := stats.serializedNodes + 1 } else stats

def event? : Closing τ → Option Event
  | .branch value children true =>
      let node := Node.branch value children
      some (.flattening node.kind node.length)
  | _ => none

def record (closing : Closing τ) (report : Report) : Report where
  stats := closing.count report.stats
  journal := closing.event?.toList ++ report.journal

end Closing

namespace OpenNode

variable {τ : ValueType}

def push (node : OpenNode τ) (byte : UInt8) (child : Node τ) : OpenNode τ :=
  { node with children := node.children ++ [(byte, child)] }

def closingBranch (options : Options) (value : Option τ.Value)
    (children : List (UInt8 × Node τ)) : Closing τ :=
  let children := if options.reorderChildren then Node.sortByLength children else children
  .branch value children ((Node.branch value children).length < options.serializeThreshold)

/-- What the node becomes. Only the root of a trie without keys has neither value nor child; it is
a branch that is never flattened. -/
def closing (options : Options) (node : OpenNode τ) : Closing τ :=
  match node.value, node.children with
  | some value, [] => .leaf value
  | none, [] => .branch none [] false
  | none, [(byte, child)] =>
      if child.kind.isLeaf then .fold byte child
      else closingBranch options none [(byte, child)]
  | value, children => closingBranch options value children

/-- Closes the node. What is counted before a failure stays counted. -/
def close (options : Options) (node : OpenNode τ) : EStateM Error Report (Node τ) := fun report =>
  let closing := node.closing options
  match closing.node with
  | .ok closed => .ok closed (closing.record report)
  | .error error => .error error (closing.record report)

end OpenNode

end PackedTrie
