import PackedTrie.Build.Report
import PackedTrie.Header
import PackedTrie.Node.Emission

/-!
Writing a finished trie: its root, with or without a header in front.
-/

namespace PackedTrie

structure Output where
  sink : Sink
  journal : List Event := []

namespace Node

variable {τ : ValueType}

def header (root : Node τ) : Header :=
  ⟨τ, root.length⟩

/-- Writes the root; the result is the number of bytes written. -/
def writeTrie (root : Node τ) (withHeader : Bool) : EStateM Error Output Nat := fun output =>
  let work : EStateM Error Sink Unit := do
    if withHeader then Sink.put root.header.encode
    root.writeTo blankScratch
  match work output.sink with
  | .ok _ sink =>
      .ok (if withHeader then Header.size + root.length else root.length)
        ⟨sink, .wrote root.length :: output.journal⟩
  | .error error sink => .error error { output with sink }

end Node

end PackedTrie
