import PackedTrie.Error

/-!
Where the keys of a build come from. A source is read step by step; each step hands out an entry,
or meets a fault, or passes over something that is neither. A reading that stops, for a fault of
the source or because an entry is turned down, leaves the steps after it for the next reading, so
no entry is handed out twice.
-/

namespace PackedTrie

inductive Item (V : Type) where
  /-- A key with its value, at a position of the input. -/
  | entry (key : Bytes) (value : V) (position : Nat)
  | fault (error : Error)
  | nothing

/-- A step of reading, and the position of the source after it, if it keeps one. -/
structure Step (V : Type) where
  item : Item V
  position : Option Nat

structure Source (V : Type) where
  /-- What is still to be read. -/
  steps : List (Step V)
  /-- The failure that every reading meets at the end of the steps, if there is one. -/
  failure : Option Error := none
  position : Option Nat

namespace Source

variable {V σ : Type}

/-- Hands the entries that are left to `handler`, up to the first fault or the first entry that is
turned down. -/
def readAll (source : Source V) (handler : Bytes → V → Nat → EStateM Error σ Unit) (state : σ) :
    Source V × EStateM.Result Error σ Unit :=
  go source.steps source.position state
where
  go : List (Step V) → Option Nat → σ → Source V × EStateM.Result Error σ Unit
    | [], position, state =>
        ({ source with steps := [], position },
          match source.failure with
          | none => .ok () state
          | some error => .error error state)
    | step :: rest, _, state =>
        match step.item with
        | .nothing => go rest step.position state
        | .fault error =>
            ({ source with steps := rest, position := step.position }, .error error state)
        | .entry key value position =>
            match handler key value position state with
            | .ok _ state => go rest step.position state
            | .error error state =>
                ({ source with steps := rest, position := step.position }, .error error state)

def ofPairs (pairs : List (Bytes × V)) : Source V where
  steps := (pairs.zipIdx 1).map fun ((key, value), number) =>
    ⟨.entry key value number, some number⟩
  position := some 0

/-- Entries with positions of their own, from a source that always gives the same position for
itself. -/
def ofEntries (entries : List (Bytes × V × Nat)) (position : Option Nat) : Source V where
  steps := entries.map fun (key, value, number) => ⟨.entry key value number, position⟩
  position := position

end Source

end PackedTrie
