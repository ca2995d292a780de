import PackedTrie.Build.Builder
import PackedTrie.Lookup.Find

/-!
One-line descriptions for diagnostics: the name of a record, then its fields with their names.
-/

namespace PackedTrie.Describe

def record (name : String) (fields : List (String × String)) : String :=
  let shown := fields.map fun (field, text) => field ++ ": " ++ text
  name ++ " \x7b " ++ ", ".intercalate shown ++ " \x7d"

def optional : Option Nat → String
  | none => "None"
  | some value => s!"Some({value})"

def options (options : Options) : String :=
  record "BuildOptions" [
    ("reorder_children", toString options.reorderChildren),
    ("serialize_threshold", toString options.serializeThreshold),
    ("duplicate_policy", options.duplicatePolicy.name),
    ("progress_interval", toString options.progressInterval)]

def stats (stats : Stats) : String :=
  record "BuildStats" [
    ("keys_added", toString stats.keysAdded),
    ("duplicates_skipped", toString stats.duplicatesSkipped),
    ("leaves", toString stats.leaves),
    ("suffix_folds", toString stats.suffixFolds),
    ("branches", toString stats.branches),
    ("value_branches", toString stats.valueBranches),
    ("serialized_nodes", toString stats.serializedNodes),
    ("payload_length", toString stats.payloadLength),
    ("input_position", optional stats.inputPosition)]

/-- The settings, the length of the open path below the root, and the counters. -/
def builder {τ : ValueType} (builder : Builder τ) : String :=
  record "TrieBuilder" [
    ("options", options builder.options),
    ("depth", toString builder.path.length),
    ("stats", stats builder.stats)]

def trie {α : Type} [Payload α] {τ : ValueType} (trie : Trie α τ) : String :=
  record "TrieLookup" [
    ("payload_len", toString (Payload.size trie.payload)),
    ("value_type", τ.name)]

end PackedTrie.Describe
