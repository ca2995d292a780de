import PackedTrie.Proofs.Entries
import PackedTrie.Proofs.Lookup.Traversal

/-!
A walk that ends well vouches for the other traversals: the node can be skipped, to the offset where
the walk ended, and a search below it succeeds for every key, with the first value that the walk
visited under the key if it finds one.
-/

namespace PackedTrie

open Cursor

theorem Walk.visited_under {τ : ValueType} {β : Type} (byte : UInt8) (walk : Walk τ β) :
    (walk.under byte).visited = Entries.under byte walk.visited := rfl

namespace Trie

variable {α : Type} [Payload α] {τ : ValueType} {payload : α} {offset stop : Nat}

theorem skip_of_outcome_walkNode_eq_ok
    (walked : (walkNode τ payload offset).outcome = .ok stop) :
    skip τ payload offset = .ok stop := by
  obtain ⟨start, opened, -⟩ := outcome_walkNode_eq_ok_iff.mp walked
  exact (opened_of_outcome_eq_ok opened).skip_eq

/-- The search succeeds, and a value it finds is the first one among the entries for its key. -/
def Answered (search : Except Corruption (Option τ.Value)) (key : Bytes)
    (entries : List (Bytes × τ.Value)) : Prop :=
  ∃ answer, search = .ok answer ∧ ∀ value, answer = some value → entries.lookup key = some value

theorem answered_node {start : Nat}
    (opened : (openNode τ payload offset).outcome = .ok (start, stop))
    (walked : (walkBlock τ payload start stop).outcome = .ok ())
    (below : ∀ wanted rest, Answered (findBelow τ payload wanted rest start stop)
      (wanted :: rest) (walkBlock τ payload start stop).visited) (key : Bytes) :
    Answered (findFrom τ payload key offset) key (walkNode τ payload offset).visited := by
  rw [(opened_of_outcome_eq_ok opened).findFrom_eq, walkNode_of_ok opened walked]
  simp only [Answered, List.lookup_append]
  cases here : (openNode τ payload offset).visited.lookup key with
  | some value => exact ⟨some value, rfl, fun _ same => by simpa using same⟩
  | none =>
      cases key with
      | nil => exact ⟨none, rfl, fun _ same => by contradiction⟩
      | cons wanted rest =>
          obtain ⟨answer, found, first⟩ := below wanted rest
          exact ⟨answer, found, fun value same => by simpa using first value same⟩

section Block

variable {byte : UInt8}

theorem visited_walkBlock_of_ok {next : Nat} (inside : offset < stop)
    (fetched : byteAt payload offset = .ok byte)
    (walked : (walkNode τ payload (offset + 1)).outcome = .ok next) :
    (walkBlock τ payload offset stop).visited =
      Entries.under byte (walkNode τ payload (offset + 1)).visited ++
        (walkBlock τ payload next stop).visited := by
  have underWalked : ((walkNode τ payload (offset + 1)).under byte).outcome = .ok next := walked
  rw [walkBlock_of_lt inside fetched, Walk.andThen_of_ok underWalked, Walk.visited_under]

theorem visited_walkBlock_of_error {fault : Corruption} (inside : offset < stop)
    (fetched : byteAt payload offset = .ok byte)
    (failed : (walkNode τ payload (offset + 1)).outcome = .error fault) :
    (walkBlock τ payload offset stop).visited =
      Entries.under byte (walkNode τ payload (offset + 1)).visited := by
  have underFailed : ((walkNode τ payload (offset + 1)).under byte).outcome = .error fault := failed
  rw [walkBlock_of_lt inside fetched, Walk.andThen_of_error underFailed, Walk.visited_under]

end Block

theorem answered_block {byte : UInt8} {next : Nat} (inside : offset < stop)
    (fetched : byteAt payload offset = .ok byte)
    (walked : (walkNode τ payload (offset + 1)).outcome = .ok next)
    (child : ∀ key, Answered (findFrom τ payload key (offset + 1)) key
      (walkNode τ payload (offset + 1)).visited)
    (others : ∀ wanted rest, Answered (findBelow τ payload wanted rest next stop)
      (wanted :: rest) (walkBlock τ payload next stop).visited) (wanted : UInt8) (rest : Bytes) :
    Answered (findBelow τ payload wanted rest offset stop) (wanted :: rest)
      (walkBlock τ payload offset stop).visited := by
  rw [visited_walkBlock_of_ok inside fetched walked]
  by_cases same : byte = wanted
  · subst same
    obtain ⟨answer, found, first⟩ := child rest
    rw [findBelow_of_eq inside fetched rfl]
    refine ⟨answer, found, fun value equal => ?_⟩
    rw [List.lookup_append, Entries.lookup_under_self, first value equal]
    rfl
  · obtain ⟨answer, found, first⟩ := others wanted rest
    rw [findBelow_of_ne inside fetched same (skip_of_outcome_walkNode_eq_ok walked)]
    refine ⟨answer, found, fun value equal => ?_⟩
    rw [List.lookup_append, Entries.lookup_under_of_ne same, first value equal]
    rfl

/-- Below a node that is walked through well, every search succeeds. -/
theorem answered_of_outcome_walkNode_eq_ok
    (walked : (walkNode τ payload offset).outcome = .ok stop) (key : Bytes) :
    Answered (findFrom τ payload key offset) key (walkNode τ payload offset).visited := by
  refine (walk_induction τ payload
    (fun offset => ∀ stop, (walkNode τ payload offset).outcome = .ok stop →
      ∀ key, Answered (findFrom τ payload key offset) key (walkNode τ payload offset).visited)
    (fun offset stop => (walkBlock τ payload offset stop).outcome = .ok () →
      ∀ wanted rest, Answered (findBelow τ payload wanted rest offset stop) (wanted :: rest)
        (walkBlock τ payload offset stop).visited) ?_ ?_ ?_ ?_ ?_).1 offset stop walked key
  · intro offset below stop walked
    obtain ⟨start, opened, blockWalked⟩ := outcome_walkNode_eq_ok_iff.mp walked
    exact answered_node opened blockWalked (below start stop opened blockWalked)
  · intro offset stop byte inside fetched child others walked
    rw [walkBlock_of_lt inside fetched] at walked
    obtain ⟨next, childWalked, restWalked⟩ := Walk.outcome_andThen_eq_ok_iff.mp walked
    exact answered_block inside fetched childWalked (child next childWalked)
      (others next childWalked restWalked)
  · intro offset stop fault inside fetched walked
    rw [walkBlock_of_fault inside fetched] at walked
    contradiction
  · intro stop _ wanted rest
    exact ⟨none, findBelow_self, fun _ same => by contradiction⟩
  · intro offset stop beyond walked
    rw [walkBlock_of_gt beyond] at walked
    contradiction

end Trie

end PackedTrie
