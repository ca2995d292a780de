import PackedTrie.Build.Builder
import PackedTrie.Proofs.Build.Closing
import PackedTrie.Proofs.Build.Placement
import PackedTrie.Proofs.Sequencing

/-!
What the open nodes of a builder hold. The node that some bytes of the latest key lead to holds the
entries whose keys begin with these bytes: the value of the empty key, and a finished child for each
group but the one that is still open below it. Closing the deepest node keeps this for the entries
so far; opening nodes for a key beyond them all makes it hold for one entry more.
-/

namespace PackedTrie.Builder

open Entries Node Sequencing

variable {τ : ValueType} {reorder : Bool} {entries : List (Bytes × τ.Value)}

section Descent

/-- The entries below the given bytes, of which the deepest is the first. -/
def descend {V : Type} : (path : Bytes) → List (Bytes × V) → List (Bytes × V)
  | [], entries => entries
  | byte :: path, entries => tails byte (descend path entries)

theorem ascending_descend {V : Type} {entries : List (Bytes × V)} (ascending : Ascending entries)
    (path : Bytes) : Ascending (descend path entries) := by
  induction path with
  | nil => exact ascending
  | cons byte path inductionHypothesis => exact ascending_tails inductionHypothesis byte

theorem descend_append {V : Type} (path rest : Bytes) (value : V) (entries : List (Bytes × V)) :
    descend path (entries ++ [(path.reverse ++ rest, value)]) =
      descend path entries ++ [(rest, value)] := by
  induction path generalizing rest with
  | nil => rfl
  | cons byte path inductionHypothesis =>
      have deeper : (byte :: path).reverse ++ rest = path.reverse ++ byte :: rest := by simp
      rw [deeper, descend, descend, inductionHypothesis, tails_append_self]

end Descent

section Level

/-- An open node holds the entries, except for those that begin with the byte of the open node below
it, if there is one. -/
structure Level (reorder : Bool) (next? : Option UInt8) (node : OpenNode τ)
    (entries : List (Bytes × τ.Value)) : Prop where
  value : node.value = emptyKeyValue? entries
  children : ∃ finished,
    groups entries = finished ++ next?.toList.map (fun byte => (byte, tails byte entries)) ∧
      FinishedChildren reorder node.children finished

variable {node : OpenNode τ} {byte : UInt8}

theorem Level.push {child : Node τ} (level : Level reorder (some byte) node entries)
    (closed : Finished reorder child (tails byte entries)) :
    Level reorder none (node.push byte child) entries := by
  obtain ⟨finished, split, children⟩ := level.children
  refine ⟨level.value, groups entries, (List.append_nil _).symm, ?_⟩
  rw [split]
  exact List.rel_append children (.cons ⟨rfl, closed⟩ .nil)

theorem Level.append (level : Level reorder (some byte) node entries) (rest : Bytes)
    (value : τ.Value) :
    Level reorder (some byte) node (entries ++ [(byte :: rest, value)]) := by
  obtain ⟨finished, split, children⟩ := level.children
  refine ⟨?_, finished, ?_, children⟩
  · rw [emptyKeyValue?_append_cons, level.value]
  · rw [groups_append_of_eq split, ← tails_append_self]
    rfl

theorem Level.open (level : Level reorder none node entries)
    (beyond : ∀ group ∈ groups entries, group.1 < byte) (rest : Bytes) (value : τ.Value) :
    Level reorder (some byte) node (entries ++ [(byte :: rest, value)]) := by
  obtain ⟨finished, split, children⟩ := level.children
  refine ⟨?_, finished, ?_, children⟩
  · rw [emptyKeyValue?_append_cons, level.value]
  · rw [groups_append_of_lt beyond, split]
    simp [tails_append_self, tails_eq_nil_of_lt beyond]

theorem level_fresh (reorder : Bool) (byte : UInt8) (rest : Bytes) (value : τ.Value) :
    Level reorder (some byte) {} [(byte :: rest, value)] :=
  ⟨rfl, [], by simp, .nil⟩

theorem Level.set (level : Level reorder none node []) (value : τ.Value) :
    Level reorder none { node with value := some value } [([], value)] := by
  obtain ⟨finished, split, children⟩ := level.children
  exact ⟨rfl, finished, by simpa using split, children⟩

theorem Level.exists_closing {options : Options}
    (level : Level options.reorderChildren none node entries) (ascending : Ascending entries) :
    ∃ closed, (node.closing options).node = .ok closed ∧
      Finished options.reorderChildren closed entries := by
  obtain ⟨finished, split, children⟩ := level.children
  rw [Option.toList_none, List.map_nil, List.append_nil] at split
  rw [← split] at children
  exact OpenNode.exists_node_closing options ascending level.value children

end Level

section Spine

/-- Each open node, from the deepest one up, holds the entries below the bytes that lead to it. -/
def Spine (reorder : Bool) (root : OpenNode τ) (entries : List (Bytes × τ.Value)) :
    Option UInt8 → List (UInt8 × OpenNode τ) → Prop
  | next?, [] => Level reorder next? root entries
  | next?, (byte, node) :: path =>
      Level reorder next? node (descend (byte :: path.map Prod.fst) entries) ∧
        Spine reorder root entries (some byte) path

variable {root : OpenNode τ} {path : List (UInt8 × OpenNode τ)} {byte : UInt8}

theorem Spine.append (spine : Spine reorder root entries (some byte) path) (rest : Bytes)
    (value : τ.Value) :
    Spine reorder root (entries ++ [((path.map Prod.fst).reverse ++ byte :: rest, value)])
      (some byte) path := by
  induction path generalizing byte rest with
  | nil => exact Level.append spine rest value
  | cons deepest path inductionHypothesis =>
      obtain ⟨last, node⟩ := deepest
      obtain ⟨level, above⟩ := spine
      constructor
      · rw [List.map_cons, descend_append]
        exact level.append rest value
      · -- for the nodes further up the byte of this one belongs to the rest of the key
        have extended := inductionHypothesis above (byte :: rest)
        simpa using extended

theorem Spine.open (spine : Spine reorder root entries none path)
    (beyond : ∀ group ∈ groups (descend (path.map Prod.fst) entries), group.1 < byte)
    (rest : Bytes) (value : τ.Value) :
    Spine reorder root (entries ++ [((path.map Prod.fst).reverse ++ byte :: rest, value)])
      (some byte) path := by
  cases path with
  | nil => exact Level.open spine beyond rest value
  | cons deepest path =>
      obtain ⟨last, node⟩ := deepest
      obtain ⟨level, above⟩ := spine
      constructor
      · rw [List.map_cons, descend_append]
        exact level.open beyond rest value
      · have extended := above.append (byte :: rest) value
        simpa using extended

end Spine

section Opening

variable {builder : Builder τ}

theorem fst_path_openBelow (builder : Builder τ) (bytes : Bytes) :
    (builder.openBelow bytes).path.map Prod.fst = bytes.reverse ++ builder.path.map Prod.fst := by
  induction bytes generalizing builder with
  | nil => rfl
  | cons byte bytes inductionHypothesis =>
      have deeper := inductionHypothesis { builder with path := (byte, {}) :: builder.path }
      rw [List.reverse_cons, List.append_assoc]
      exact deeper

@[simp] theorem openKey_openBelow (builder : Builder τ) (bytes : Bytes) :
    (builder.openBelow bytes).openKey = builder.openKey ++ bytes := by
  rw [openKey, fst_path_openBelow, List.reverse_append, List.reverse_reverse]
  rfl

@[simp] theorem openKey_setValue (builder : Builder τ) (value : τ.Value) :
    (builder.setValue value).openKey = builder.openKey := by
  unfold setValue openKey
  split
  · rfl
  · next path => simp [path]

@[simp] theorem options_setValue (builder : Builder τ) (value : τ.Value) :
    (builder.setValue value).options = builder.options := by
  unfold setValue
  split <;> rfl

theorem spine_openBelow {byte : UInt8} {rest : Bytes} {value : τ.Value}
    (spine : Spine reorder builder.root entries (some byte) builder.path)
    (below : descend (byte :: builder.path.map Prod.fst) entries = [(rest, value)]) :
    Spine reorder ((builder.openBelow (byte :: rest)).setValue value).root entries none
      ((builder.openBelow (byte :: rest)).setValue value).path := by
  induction rest generalizing byte builder with
  | nil =>
      have empty : Level reorder none ({} : OpenNode τ) [] := ⟨rfl, [], by simp, .nil⟩
      refine ⟨?_, spine⟩
      rw [below]
      exact empty.set value
  | cons next rest inductionHypothesis =>
      have opened : builder.openBelow (byte :: next :: rest) =
          ({ builder with path := (byte, {}) :: builder.path } : Builder τ).openBelow
            (next :: rest) := rfl
      rw [opened]
      apply inductionHypothesis
      · refine ⟨?_, spine⟩
        rw [below]
        exact level_fresh reorder next rest value
      · rw [List.map_cons, descend, below, tails_cons_self, tails_nil]

/-- Nodes are opened for an entry beyond all that the deepest node holds. -/
theorem spine_extend {byte : UInt8}
    (spine : Spine reorder builder.root entries none builder.path)
    (beyond : ∀ group ∈ groups (descend (builder.path.map Prod.fst) entries), group.1 < byte)
    (rest : Bytes) (value : τ.Value) :
    Spine reorder ((builder.openBelow (byte :: rest)).setValue value).root
      (entries ++ [(builder.openKey ++ byte :: rest, value)]) none
      ((builder.openBelow (byte :: rest)).setValue value).path := by
  apply spine_openBelow (spine.open beyond rest value)
  rw [descend, descend_append, tails_append_self, tails_eq_nil_of_lt beyond, List.nil_append]

end Opening

section Closing

variable {builder : Builder τ}

@[simp] theorem openKey_attach (builder : Builder τ) (byte : UInt8) (child : Node τ) :
    (builder.attach byte child).openKey = builder.openKey := by
  unfold attach openKey
  split
  · rfl
  · next path => simp [path]

@[simp] theorem options_attach (builder : Builder τ) (byte : UInt8) (child : Node τ) :
    (builder.attach byte child).options = builder.options := by
  unfold attach
  split <;> rfl

@[simp] theorem length_openKey (builder : Builder τ) :
    builder.openKey.length = builder.path.length := by
  simp [openKey]

theorem spine_attach {byte : UInt8} {child : Node τ}
    (spine : Spine reorder builder.root entries (some byte) builder.path)
    (closed : Finished reorder child (descend (byte :: builder.path.map Prod.fst) entries)) :
    Spine reorder (builder.attach byte child).root entries none
      (builder.attach byte child).path := by
  unfold attach
  split
  · next path =>
      rw [path] at spine closed
      rw [path]
      exact Level.push spine closed
  · next parentByte parent rest path =>
      rw [path] at spine closed
      obtain ⟨level, above⟩ := spine
      exact ⟨level.push closed, above⟩

/-- The open nodes hold the entries. -/
def Holds (builder : Builder τ) (entries : List (Bytes × τ.Value)) : Prop :=
  Spine builder.options.reorderChildren builder.root entries none builder.path

theorem closeDeepest_holds (ascending : Ascending entries) (held : builder.Holds entries)
    (deeper : builder.path ≠ []) :
    ∃ after, closeDeepest builder = .ok () after ∧ after.options = builder.options ∧
      after.openKey = builder.openKey.dropLast ∧ after.Holds entries := by
  unfold Holds at held
  rw [closeDeepest]
  split
  · next path => exact absurd path deeper
  · next byte node rest path =>
      rw [path] at held
      obtain ⟨level, above⟩ := held
      obtain ⟨closed, done, complete⟩ := level.exists_closing (ascending_descend ascending _)
      rw [OpenNode.close_of_node_eq_ok done]
      refine ⟨_, rfl, by simp, ?_, ?_⟩
      · rw [openKey_attach]
        simp [openKey, path]
      · rw [Holds, options_attach]
        exact spine_attach above complete

theorem closeLast_holds (ascending : Ascending entries) (held : builder.Holds entries)
    (count : Nat) (above : count ≤ builder.path.length) :
    ∃ after, closeLast count builder = .ok () after ∧ after.options = builder.options ∧
      after.openKey = builder.openKey.take (builder.openKey.length - count) ∧
        after.Holds entries := by
  induction count generalizing builder with
  | zero => exact ⟨builder, rfl, rfl, by simp, held⟩
  | succ count inductionHypothesis =>
      have deeper : builder.path ≠ [] := List.ne_nil_of_length_pos (by omega)
      obtain ⟨next, closed, nextOptions, nextKey, nextHeld⟩ :=
        closeDeepest_holds ascending held deeper
      have shorter : next.path.length = builder.path.length - 1 := by
        rw [← length_openKey, nextKey, List.length_dropLast, length_openKey]
      obtain ⟨after, done, options, key, afterHeld⟩ := inductionHypothesis nextHeld (by omega)
      refine ⟨after, ?_, options.trans nextOptions, ?_, afterHeld⟩
      · rw [closeLast, bind_of_ok closed, done]
      · rw [key, nextKey, List.length_dropLast, List.dropLast_eq_take, List.take_take]
        congr 1
        omega

end Closing

end PackedTrie.Builder
