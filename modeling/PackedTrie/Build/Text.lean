import PackedTrie.Build.Options
import PackedTrie.Build.Report
import PackedTrie.Text.Json

/-!
Options and counters kept as JSON text.
-/

namespace PackedTrie

namespace DuplicatePolicy

def ofName? : String → Option DuplicatePolicy
  | "Error" => some .reject
  | "Skip" => some .skip
  | _ => none

/-- A policy is its name, or an object with its name and nothing else to say. -/
def ofJson? : Json → Option DuplicatePolicy
  | .string (some name) | .object [(some name, .null)] => ofName? name
  | _ => none

end DuplicatePolicy

namespace Options

def fieldNames : List String :=
  ["reorder_children", "serialize_threshold", "duplicate_policy", "progress_interval"]

def ofJson? (text : String) : Option Options := do
  match ← (← Json.parse? text).fields? fieldNames with
  | [some reorder, some threshold, some policy, some interval] =>
      pure {
        reorderChildren := ← reorder.bool?
        serializeThreshold := ← threshold.natural?
        duplicatePolicy := ← DuplicatePolicy.ofJson? policy
        progressInterval := ← interval.natural? }
  | _ => none

def toJson (options : Options) : String :=
  Json.render (fieldNames.zip [
    toString options.reorderChildren,
    toString options.serializeThreshold,
    "\"" ++ options.duplicatePolicy.name ++ "\"",
    toString options.progressInterval])

end Options

namespace Stats

def fieldNames : List String :=
  ["keys_added", "duplicates_skipped", "leaves", "suffix_folds", "branches", "value_branches",
    "serialized_nodes", "payload_length", "input_position"]

/-- The position is the one field that may be missing. -/
def position? : Option Json → Option (Option Nat)
  | none | some .null => some none
  | some value => value.natural?.map some

def ofJson? (text : String) : Option Stats := do
  match ← (← Json.parse? text).fields? fieldNames with
  | [some keys, some duplicates, some leaves, some folds, some branches, some valueBranches,
      some flattened, some payload, position] =>
      pure {
        keysAdded := ← keys.natural?
        duplicatesSkipped := ← duplicates.natural?
        leaves := ← leaves.natural?
        suffixFolds := ← folds.natural?
        branches := ← branches.natural?
        valueBranches := ← valueBranches.natural?
        serializedNodes := ← flattened.natural?
        payloadLength := ← payload.natural?
        inputPosition := ← position? position }
  | _ => none

def toJson (stats : Stats) : String :=
  Json.render (fieldNames.zip [
    toString stats.keysAdded,
    toString stats.duplicatesSkipped,
    toString stats.leaves,
    toString stats.suffixFolds,
    toString stats.branches,
    toString stats.valueBranches,
    toString stats.serializedNodes,
    toString stats.payloadLength,
    (stats.inputPosition.map fun position => toString position).getD "null"])

end Stats

end PackedTrie
