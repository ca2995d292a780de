import Mathlib
import PackedTrie.Proofs.Lookup.Graph
import PackedTrie.Proofs.Node.OfEntries

/-!
Nodes as a builder closes them: a branch has children, and bytes alone are kept only of branches.
The entries of such a node are at hand, also where it is flattened, and the order of a branch's
children bears on nothing but the order of the entries.
-/

namespace PackedTrie

open Entries

namespace Node

variable {τ : ValueType}

/-- A node without bare branches in it, and without flat leaves. A flat node is short enough for the
lengths in it to be read back. -/
inductive Proper : Node τ → Prop where
  | leaf (value : τ.Value) : Proper (.leaf value)
  | suffixLeaf (value : τ.Value) (byte : UInt8) (rest : Bytes) :
      Proper (.suffixLeaf value (byte :: rest))
  | branch (value : Option τ.Value) (children : List (UInt8 × Node τ)) (occupied : children ≠ [])
      (proper : ∀ entry ∈ children, Proper entry.2) : Proper (.branch value children)
  | flatten {value : Option τ.Value} {children : List (UInt8 × Node τ)}
      (proper : Proper (.branch value children)) (fits : (Node.branch value children).Fits) :
      Proper (Node.branch value children).flatten

/-- The first node is the second one, or lies below it. What lies below a flat node is not at
hand. -/
inductive Inside : Node τ → Node τ → Prop where
  | self (node : Node τ) : Inside node node
  | child {inner : Node τ} {value : Option τ.Value} {children : List (UInt8 × Node τ)}
      {entry : UInt8 × Node τ} (member : entry ∈ children) (inside : Inside inner entry.2) :
      Inside inner (.branch value children)

section Shape

variable {node inner : Node τ}

theorem Proper.of_mem {value : Option τ.Value} {children : List (UInt8 × Node τ)}
    (proper : Proper (.branch value children)) {entry : UInt8 × Node τ}
    (member : entry ∈ children) : Proper entry.2 := by
  cases proper with
  | branch _ _ _ below => exact below entry member

theorem Proper.of_inside (proper : Proper node) (inside : Inside inner node) : Proper inner := by
  induction inside with
  | self => exact proper
  | child member _ inductionHypothesis => exact inductionHypothesis (proper.of_mem member)

theorem Proper.ne_bare (proper : Proper node) : node ≠ .branch none [] := by
  rintro rfl
  cases proper with
  | branch _ _ occupied _ => exact occupied rfl

theorem Proper.isLeaf_of_isFlat (proper : Proper node) (flat : node.isFlat = true) :
    node.kind.isLeaf = false := by
  cases proper with
  | leaf value => contradiction
  | suffixLeaf value byte rest => contradiction
  | branch value children _ _ => contradiction
  | @flatten value children _ _ =>
      rw [kind_eq_of_serialize_eq (serialize_flatten _)]
      cases value <;> rfl

/-- A proper leaf takes one more byte, and its entry is moved below that byte. -/
theorem Proper.exists_fold (proper : Proper node) (leaf : node.kind.isLeaf = true) (byte : UInt8) :
    ∃ value suffix, node.entries = .ok [(suffix, value)] ∧
      node.fold byte = .ok (.suffixLeaf value (byte :: suffix)) := by
  cases proper with
  | leaf value => exact ⟨value, [], by rw [entries], rfl⟩
  | suffixLeaf value first rest => exact ⟨value, first :: rest, by rw [entries], rfl⟩
  | branch value children _ _ => cases value <;> contradiction
  | @flatten value children improper fits =>
      have branching := (Proper.flatten improper fits).isLeaf_of_isFlat rfl
      rw [branching] at leaf
      contradiction

theorem Proper.built (proper : Proper node) : Built node := by
  induction proper with
  | leaf value => exact .leaf value
  | suffixLeaf value byte rest => exact built_suffixLeaf value byte rest
  | branch value children _ _ inductionHypothesis =>
      exact .branch value children inductionHypothesis
  | flatten _ _ inductionHypothesis => exact .flatten inductionHypothesis

end Shape

section Listing

theorem entries_flatten {node : Node τ} (built : Built node) (fits : node.Fits) :
    node.flatten.entries = node.entries := by
  obtain ⟨visited, listed, walked⟩ := (built.faithful fits).walk_toTrie
  rw [listed, flatten, entries]
  exact entries_of_walk_eq_ok walked

variable {children others : List (UInt8 × Node τ)} {visited : List (Bytes × τ.Value)}

theorem entries_branch_eq_ok_iff {value : Option τ.Value} :
    (branch value children).entries = .ok visited ↔
      ∃ below, childEntries children = .ok below ∧
        visited = value.toList.map (fun value => ([], value)) ++ below := by
  rw [entries]
  cases childEntries children with
  | error fault => simp [bind, Except.bind]
  | ok below => simp [bind, Except.bind, pure, Except.pure, eq_comm]

theorem childEntries_cons_eq_ok_iff {byte : UInt8} {child : Node τ} :
    childEntries ((byte, child) :: children) = .ok visited ↔
      ∃ first rest, child.entries = .ok first ∧ childEntries children = .ok rest ∧
        visited = under byte first ++ rest := by
  rw [childEntries]
  cases child.entries with
  | error fault => simp [bind, Except.bind]
  | ok first =>
      cases childEntries children with
      | error fault => simp [bind, Except.bind]
      | ok rest => simp [bind, Except.bind, pure, Except.pure, under, eq_comm]

theorem childEntries_append_eq_ok_iff :
    childEntries (children ++ others) = .ok visited ↔
      ∃ first rest, childEntries children = .ok first ∧ childEntries others = .ok rest ∧
        visited = first ++ rest := by
  induction children generalizing visited with
  | nil => simp [childEntries]
  | cons entry children inductionHypothesis =>
      obtain ⟨byte, child⟩ := entry
      rw [List.cons_append, childEntries_cons_eq_ok_iff]
      simp only [inductionHypothesis, childEntries_cons_eq_ok_iff]
      constructor
      · rintro ⟨first, _, listed, ⟨middle, rest, listedMiddle, listedRest, rfl⟩, rfl⟩
        exact ⟨_, rest, ⟨first, middle, listed, listedMiddle, rfl⟩, listedRest,
          (List.append_assoc _ _ _).symm⟩
      · rintro ⟨_, rest, ⟨first, middle, listed, listedMiddle, rfl⟩, listedRest, rfl⟩
        exact ⟨first, _, listed, ⟨middle, rest, listedMiddle, listedRest, rfl⟩,
          List.append_assoc _ _ _⟩

/-- Children put in another order list the same entries in another order. -/
theorem exists_childEntries_of_perm (moved : children.Perm others)
    (listed : childEntries children = .ok visited) :
    ∃ again, childEntries others = .ok again ∧ again.Perm visited := by
  induction moved generalizing visited with
  | nil => exact ⟨visited, listed, .refl _⟩
  | cons entry _ inductionHypothesis =>
      obtain ⟨byte, child⟩ := entry
      obtain ⟨first, rest, firstListed, restListed, rfl⟩ := childEntries_cons_eq_ok_iff.mp listed
      obtain ⟨again, againListed, same⟩ := inductionHypothesis restListed
      exact ⟨_, childEntries_cons_eq_ok_iff.mpr ⟨first, again, firstListed, againListed, rfl⟩,
        same.append_left _⟩
  | swap earlier later rest =>
      obtain ⟨first, _, firstListed, listedRest, rfl⟩ := childEntries_cons_eq_ok_iff.mp listed
      obtain ⟨second, rest, secondListed, restListed, rfl⟩ :=
        childEntries_cons_eq_ok_iff.mp listedRest
      refine ⟨_, childEntries_cons_eq_ok_iff.mpr ⟨second, _, secondListed,
        childEntries_cons_eq_ok_iff.mpr ⟨first, rest, firstListed, restListed, rfl⟩, rfl⟩, ?_⟩
      rw [← List.append_assoc, ← List.append_assoc]
      exact List.perm_append_comm.append_right rest
  | trans _ _ firstHypothesis secondHypothesis =>
      obtain ⟨between, betweenListed, firstSame⟩ := firstHypothesis listed
      obtain ⟨again, againListed, secondSame⟩ := secondHypothesis betweenListed
      exact ⟨again, againListed, secondSame.trans firstSame⟩

theorem Enumerates.trans {V : Type} {reorder : Bool} {first second third : List (Bytes × V)}
    (one : Enumerates reorder first second) (two : Enumerates reorder second third) :
    Enumerates reorder first third :=
  ⟨one.perm.trans two.perm, fun kept => (one.same kept).trans (two.same kept)⟩

theorem Enumerates.append {V : Type} {reorder : Bool} {first second more rest : List (Bytes × V)}
    (one : Enumerates reorder first second) (two : Enumerates reorder more rest) :
    Enumerates reorder (first ++ more) (second ++ rest) :=
  ⟨one.perm.append two.perm, fun kept => by rw [one.same kept, two.same kept]⟩

theorem exists_entries_arrange {reorder : Bool} {value : Option τ.Value}
    (listed : (branch value children).entries = .ok visited) :
    ∃ again, (branch value (arrange reorder children)).entries = .ok again ∧
      Enumerates reorder again visited := by
  obtain ⟨below, belowListed, rfl⟩ := entries_branch_eq_ok_iff.mp listed
  cases reorder with
  | false => exact ⟨_, listed, .refl _ _⟩
  | true =>
      obtain ⟨again, againListed, same⟩ :=
        exists_childEntries_of_perm (arrange_perm true children).symm belowListed
      exact ⟨_, entries_branch_eq_ok_iff.mpr ⟨again, againListed, rfl⟩, same.append_left _, nofun⟩

end Listing

end Node

end PackedTrie
