import PackedTrie.Lookup.Walk

/-!
The questions that `find` and `entries` answer about bytes, answered about a node whose parts are at
hand. Nothing is laid out: a branch goes to its first child under the wanted byte, and lists its
children one after the other. Only a flat node has to ask its own bytes, which may contradict
themselves.
-/

namespace PackedTrie.Node

variable {τ : ValueType}

def toTrie (node : Node τ) : Trie Bytes τ :=
  ⟨node.serialize⟩

mutual

def find : Node τ → Bytes → Except Corruption (Option τ.Value)
  | .leaf value, key => .ok (if key = [] then some value else none)
  | .suffixLeaf value suffix, key => .ok (if key = suffix then some value else none)
  | .branch value _, [] => .ok value
  | .branch _ children, wanted :: rest => findChild children wanted rest
  | .flat lead body, key => (flat lead body).toTrie.find key

/-- The value of `rest` below the first child under `wanted`. -/
def findChild : List (UInt8 × Node τ) → UInt8 → Bytes → Except Corruption (Option τ.Value)
  | [], _, _ => .ok none
  | (byte, child) :: others, wanted, rest =>
      if byte = wanted then find child rest else findChild others wanted rest

end

mutual

/-- All keys below the node with their values, in the order of the layout. -/
def entries : Node τ → Except Corruption (List (Bytes × τ.Value))
  | .leaf value => .ok [([], value)]
  | .suffixLeaf value suffix => .ok [(suffix, value)]
  | .branch value children => do
      let below ← childEntries children
      pure (value.toList.map (fun value => ([], value)) ++ below)
  | .flat lead body => (flat lead body).toTrie.entries

def childEntries : List (UInt8 × Node τ) → Except Corruption (List (Bytes × τ.Value))
  | [] => .ok []
  | (byte, child) :: others => do
      let below ← entries child
      let others ← childEntries others
      pure (below.map (fun (key, value) => (byte :: key, value)) ++ others)

end

end PackedTrie.Node
