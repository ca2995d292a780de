import PackedTrie.Build.OpenNode
import PackedTrie.Build.Placement

/-!
Building a trie from keys in ascending order. Only the nodes on the path of the latest key are
open: a node is closed, once, when the input moves past the keys that begin with its bytes. So at
any time the open nodes hold the whole trie of the keys accepted so far.

A key that comes out of order, or repeats the previous one, is found out before anything is
closed, and leaves the trie as it was.
-/

namespace PackedTrie

structure Builder (τ : ValueType) where
  options : Options
  root : OpenNode τ := {}
  /-- The open nodes below the root, the deepest first, each with the byte that leads to it. -/
  path : List (UInt8 × OpenNode τ) := []
  /-- Whether a key was accepted. -/
  hasPrevious : Bool := false
  /-- How many keys were offered, accepted or not. -/
  offered : Nat := 0
  report : Report := {}

namespace Builder

variable {τ : ValueType}

def ofOptions (options : Options) : Except Error (Builder τ) := do
  options.validate
  pure { options }

def stats (builder : Builder τ) : Stats :=
  builder.report.stats

/-- The bytes that lead to the deepest open node: the key accepted last. -/
def openKey (builder : Builder τ) : Bytes :=
  (builder.path.map Prod.fst).reverse

def placement (builder : Builder τ) (key : Bytes) : Placement :=
  if builder.hasPrevious then .ofKeys 0 key builder.openKey else .after 0

/-- Gives the deepest open node a finished child. -/
def attach (builder : Builder τ) (byte : UInt8) (child : Node τ) : Builder τ :=
  match builder.path with
  | [] => { builder with root := builder.root.push byte child }
  | (parentByte, parent) :: rest =>
      { builder with path := (parentByte, parent.push byte child) :: rest }

/-- Closes the deepest open node into its parent. The root has none, so it is a fault to close it
this way; a builder does so only at the end, by `closeRoot`. -/
def closeDeepest : EStateM Error (Builder τ) Unit := fun builder =>
  match builder.path with
  | [] =>
      match builder.root.close builder.options builder.report with
      | .ok _ report => .error (.internal .lostRoot) { builder with root := {}, report }
      | .error error report => .error error { builder with root := {}, report }
  | (byte, node) :: rest =>
      match node.close builder.options builder.report with
      | .ok closed report => .ok () ({ builder with path := rest, report }.attach byte closed)
      | .error error report => .error error { builder with path := rest, report }

def closeLast : (count : Nat) → EStateM Error (Builder τ) Unit
  | 0 => pure ()
  | count + 1 => do
      closeDeepest
      closeLast count

def openBelow (builder : Builder τ) (bytes : Bytes) : Builder τ :=
  { builder with path := bytes.foldl (fun path byte => (byte, {}) :: path) builder.path }

def setValue (builder : Builder τ) (value : τ.Value) : Builder τ :=
  match builder.path with
  | [] => { builder with root := { builder.root with value := some value } }
  | (byte, node) :: rest =>
      { builder with path := (byte, { node with value := some value }) :: rest }

def countKey (builder : Builder τ) : Builder τ :=
  let stats := { builder.stats with keysAdded := builder.stats.keysAdded + 1 }
  let interval := builder.options.progressInterval
  let report := { builder.report with stats }
  { builder with
    hasPrevious := true
    report :=
      if 0 < interval ∧ stats.keysAdded % interval = 0 then report.note (.progress stats)
      else report }

/-- Takes in a key that shares its first `common` bytes with the open path and goes on from
there. -/
def accept (common : Nat) (key : Bytes) (value : τ.Value) : EStateM Error (Builder τ) Unit := do
  closeLast ((← get).path.length - common)
  modify fun builder => ((builder.openBelow (key.drop common)).setValue value).countKey

def skipDuplicate (builder : Builder τ) (position : Nat) : Builder τ :=
  let stats :=
    { builder.stats with duplicatesSkipped := builder.stats.duplicatesSkipped + 1 }
  { builder with report := { builder.report with stats }.note (.duplicateSkipped position) }

def addAt (key : Bytes) (value : τ.Value) (position : Nat) : EStateM Error (Builder τ) Unit := do
  match (← get).placement key, (← get).options.duplicatePolicy with
  | .after common, _ => accept common key value
  | .before fault, _ => throw (.outOfOrder position fault)
  | .repeated, .reject => throw (.duplicateKey position)
  | .repeated, .skip => modify (·.skipDuplicate position)

/-- Offers a key; its position is its number among the keys offered. -/
def add (key : Bytes) (value : τ.Value) : EStateM Error (Builder τ) Unit := do
  modify fun builder => { builder with offered := builder.offered + 1 }
  addAt key value (← get).offered

def closeRoot : EStateM Error (Builder τ) (Node τ) := fun builder =>
  match builder.root.close builder.options builder.report with
  | .ok root report =>
      let stats := { report.stats with payloadLength := root.length }
      .ok root { builder with report := { report with stats }.note (.complete stats) }
  | .error error report => .error error { builder with report }

def finish : EStateM Error (Builder τ) (Node τ) := do
  closeLast (← get).path.length
  closeRoot

end Builder

end PackedTrie
