import PackedTrie.Build.Builder
import PackedTrie.File.Write
import PackedTrie.Source.Basic

/-!
Building from a source. Nothing is written before the whole of the source has been taken in.
-/

namespace PackedTrie

namespace Builder

variable {τ : ValueType}

def note (builder : Builder τ) (event : Event) : Builder τ :=
  { builder with report := builder.report.note event }

def setInputPosition (builder : Builder τ) (position : Option Nat) : Builder τ :=
  let stats := { builder.stats with inputPosition := position }
  { builder with report := { builder.report with stats } }

def consume (builder : Builder τ) (source : Source τ.Value) :
    Source τ.Value × EStateM.Result Error (Builder τ) Unit :=
  match source.readAll addAt builder with
  | (source, .ok _ builder) => (source, .ok () (builder.setInputPosition source.position))
  | (source, .error error builder) =>
      let builder := builder.setInputPosition source.position
      (source, .error error (builder.note (.stopped source.position error)))

def build (builder : Builder τ) (source : Source τ.Value) :
    Source τ.Value × EStateM.Result Error (Builder τ) (Node τ) :=
  match (builder.note (.building τ)).consume source with
  | (source, .ok _ builder) => (source, finish builder)
  | (source, .error error builder) => (source, .error error builder)

/-- Takes in a source, closes the root, and writes the trie; the result are the final counters. -/
def buildAndWrite (builder : Builder τ) (source : Source τ.Value) (withHeader : Bool)
    (sink : Sink) : Source τ.Value × EStateM.Result Error (Builder τ × Sink) Stats :=
  match builder.consume source with
  | (source, .error error builder) => (source, .error error (builder, sink))
  | (source, .ok _ builder) =>
      (source,
        match finish builder with
        | .error error builder => .error error (builder, sink)
        | .ok root builder =>
            let journaled (journal : List Event) : Builder τ :=
              { builder with report := { builder.report with journal } }
            match root.writeTrie withHeader ⟨sink, builder.report.journal⟩ with
            | .ok _ output => .ok builder.stats (journaled output.journal, output.sink)
            | .error error output => .error error (journaled output.journal, output.sink))

end Builder

/-- The payload of a trie with the given pairs, whose keys have to ascend, built with the default
options. -/
def payloadOfPairs {τ : ValueType} (pairs : List (Bytes × τ.Value)) :
    EStateM Error Report Bytes := fun report =>
  let builder : Builder τ := { options := {}, report }
  match (builder.build (.ofPairs pairs)).2 with
  | .ok root builder => .ok root.serialize builder.report
  | .error error builder => .error error builder.report

end PackedTrie
