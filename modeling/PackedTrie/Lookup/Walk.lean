import PackedTrie.Lookup.Find

/-!
Walking through all entries of a trie in the order of their layout. A walk that meets a
contradiction ends there, and what it has visited by then counts.
-/

namespace PackedTrie

open Cursor

structure Walk (τ : ValueType) (β : Type) where
  visited : List (Bytes × τ.Value)
  outcome : Except Corruption β

namespace Walk

variable {τ : ValueType} {β γ : Type}

def fail (fault : Corruption) : Walk τ β :=
  ⟨[], .error fault⟩

def visit (suffix : Bytes) (value : τ.Value) (result : β) : Walk τ β :=
  ⟨[(suffix, value)], .ok result⟩

/-- The same walk seen from one node further up: every key visited starts with `byte`. -/
def under (byte : UInt8) (walk : Walk τ β) : Walk τ β :=
  { walk with visited := walk.visited.map fun (key, value) => (byte :: key, value) }

def andThen (first : Walk τ β) (second : β → Walk τ γ) : Walk τ γ :=
  match first.outcome with
  | .error fault => ⟨first.visited, .error fault⟩
  | .ok result =>
      let next := second result
      ⟨first.visited ++ next.visited, next.outcome⟩

def ofResult (result : Except Corruption β) : Walk τ β :=
  ⟨[], result⟩

end Walk

namespace Trie

variable {α : Type} [Payload α] {τ : ValueType}

/-- Visits the key that ends at the node at `offset`, if one does; the result is the children block
of the node, which for a leaf is empty. -/
def openNode (τ : ValueType) (payload : α) (offset : Nat) : Walk τ (Nat × Nat) :=
  match kindAt payload offset with
  | .error fault => .fail fault
  | .ok .suffixLeaf =>
      match suffixLeafAt τ payload offset with
      | .error fault => .fail fault
      | .ok (value, suffix, stop) => .visit suffix value (stop, stop)
  | .ok .branch => .ofResult (tailAt τ payload offset)
  | .ok .leaf | .ok .valueBranch =>
      match leadValue τ payload offset with
      | .error fault => .fail fault
      | .ok value => ⟨[([], value)], tailAt τ payload offset⟩

theorem lt_of_openNode_eq_ok {payload : α} {offset start stop : Nat}
    (opened : (openNode τ payload offset).outcome = .ok (start, stop)) :
    offset < start ∧ start ≤ stop ∧ stop ≤ Payload.size payload := by
  unfold openNode at opened
  split at opened
  · contradiction
  · split at opened
    · contradiction
    · cases opened
      have inside := lt_of_suffixLeafAt_eq_ok ‹_›
      omega
  · exact lt_of_tailAt_eq_ok opened
  · split at opened
    · contradiction
    · exact lt_of_tailAt_eq_ok opened
  · split at opened
    · contradiction
    · exact lt_of_tailAt_eq_ok opened

/-- Walks through the children block from `offset` to `stop`, which its last child has to meet
exactly. -/
def walkBlock (τ : ValueType) (payload : α) (offset stop : Nat) : Walk τ Unit :=
  if offset < stop then
    match byteAt payload offset with
    | .error fault => .fail fault
    | .ok byte =>
        let opened := openNode τ payload (offset + 1)
        match _found : opened.outcome with
        | .error fault => ⟨(opened.under byte).visited, .error fault⟩
        | .ok (childStart, childStop) =>
            let below := opened.andThen fun _ => walkBlock τ payload childStart childStop
            (below.under byte).andThen fun _ => walkBlock τ payload childStop stop
  else if offset = stop then ⟨[], .ok ()⟩
  else .fail (.childOverrun offset stop)
termination_by Payload.size payload - offset
decreasing_by
  all_goals
    have inside := lt_of_openNode_eq_ok _found
    omega

def walkNode (τ : ValueType) (payload : α) (offset : Nat) : Walk τ Nat :=
  (openNode τ payload offset).andThen fun (start, stop) =>
    (walkBlock τ payload start stop).andThen fun _ => .ofResult (.ok stop)

/-- Walks through the whole trie, whose root has to fill the payload. -/
def walk (trie : Trie α τ) : Walk τ Unit :=
  (walkNode τ trie.payload 0).andThen fun stop =>
    if stop = Payload.size trie.payload then .ofResult (.ok ())
    else .fail (.rootMismatch stop (Payload.size trie.payload))

def entries (trie : Trie α τ) : Except Corruption (List (Bytes × τ.Value)) :=
  trie.walk.outcome.map fun _ => trie.walk.visited

def entryCount (trie : Trie α τ) : Except Corruption Nat :=
  trie.entries.map List.length

end Trie

end PackedTrie
