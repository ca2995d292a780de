import PackedTrie.Lookup.Cursor

/-!
Finding the value of a key. The search goes down one node for each byte of the key that a branch
consumes; among the children of a branch it looks only at their first bytes and skips the rest.
-/

namespace PackedTrie

open Cursor

structure Trie (α : Type) (τ : ValueType) where
  payload : α

namespace Trie

variable {α : Type} [Payload α] {τ : ValueType}

/-- The offset of the first child under `wanted` in the children block from `offset` to `stop`. -/
def scan (τ : ValueType) (payload : α) (wanted : UInt8) (offset stop : Nat) :
    Except Corruption (Option Nat) :=
  if offset < stop then
    match byteAt payload offset with
    | .error fault => .error fault
    | .ok byte =>
        if byte = wanted then .ok (some (offset + 1))
        else
          match _skipped : skip τ payload (offset + 1) with
          | .error fault => .error fault
          | .ok next => scan τ payload wanted next stop
  else if offset = stop then .ok none
  else .error (.childOverrun offset stop)
termination_by stop - offset
decreasing_by
  have forward := lt_of_skip_eq_ok _skipped
  omega

def findSuffix (τ : ValueType) (payload : α) (key : Bytes) (offset : Nat) :
    Except Corruption (Option τ.Value) := do
  let (value, suffix, _) ← suffixLeafAt τ payload offset
  pure (if suffix = key then some value else none)

def findFrom (τ : ValueType) (payload : α) : (key : Bytes) → (offset : Nat) →
    Except Corruption (Option τ.Value)
  | [], offset => do
      match ← kindAt payload offset with
      | .leaf | .valueBranch => some <$> leadValue τ payload offset
      | .branch => pure none
      | .suffixLeaf => findSuffix τ payload [] offset
  | wanted :: rest, offset => do
      match ← kindAt payload offset with
      | .leaf => pure none
      | .suffixLeaf => findSuffix τ payload (wanted :: rest) offset
      | .branch | .valueBranch =>
          let (start, stop) ← tailAt τ payload offset
          match ← scan τ payload wanted start stop with
          | none => pure none
          | some child => findFrom τ payload rest child

/-- The value of `key`, or `none` if the trie does not hold the key. -/
def find (trie : Trie α τ) (key : Bytes) : Except Corruption (Option τ.Value) :=
  findFrom τ trie.payload key 0

def contains (trie : Trie α τ) (key : Bytes) : Except Corruption Bool := do
  pure (← trie.find key).isSome

def findD (trie : Trie α τ) (key : Bytes) (default : τ.Value) : Except Corruption τ.Value := do
  pure ((← trie.find key).getD default)

end Trie

end PackedTrie
