import PackedTrie.Error

/-!
How a trie is to be built.
-/

namespace PackedTrie

/-- What becomes of a key that repeats the one before it. -/
inductive DuplicatePolicy where
  /-- It is an error. -/
  | reject
  /-- The first value stays, and the repeat is counted. -/
  | skip
  deriving DecidableEq, Repr

def DuplicatePolicy.name : DuplicatePolicy → String
  | .reject => "Error"
  | .skip => "Skip"

structure Options where
  /-- Put the longer children of a branch in front. -/
  reorderChildren : Bool := false
  /-- Branches of fewer bytes are kept as bytes only. -/
  serializeThreshold : Nat := 64000
  duplicatePolicy : DuplicatePolicy := .reject
  /-- The number of keys from one report of progress to the next; zero for no reports. -/
  progressInterval : Nat := 1024 * 1024
  deriving DecidableEq, Repr

def Options.validate (options : Options) : Except Error Unit :=
  if options.serializeThreshold = 0 then .error (.invalidArgument .zeroThreshold) else .ok ()

end PackedTrie
