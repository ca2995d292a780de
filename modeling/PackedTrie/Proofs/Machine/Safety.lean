import PackedTrie.Proofs.Machine.Find
import PackedTrie.Proofs.Machine.Skipping
import PackedTrie.Proofs.Machine.Walk

/-!
Traversals are safe on any bytes. A machine that can hold the payload carries them out with bounds
on all numbers, and none of the bounds is ever met: every traversal ends, with its answer or with a
contradiction that the payload holds.
-/

namespace PackedTrie

open Payload

namespace Trie

variable {α : Type} [Payload α] {τ : ValueType} {payload : α} {offset stop : Nat}

/-- The walk has visited no more entries than there are bytes from `offset` on to where it ended,
nor than there are up to `limit` if it failed. -/
structure Sparse (limit offset : Nat) (walk : Walk τ Nat) : Prop where
  visited : walk.visited.length + offset ≤ limit
  finished : ∀ stop, walk.outcome = .ok stop → walk.visited.length + offset ≤ stop

theorem length_visited_openNode_le (payload : α) (offset : Nat) :
    (openNode τ payload offset).visited.length ≤ 1 := by
  unfold openNode
  split
  · exact Nat.zero_le 1
  · split <;> simp [Walk.fail, Walk.visit]
  · exact Nat.zero_le 1
  · split <;> simp [Walk.fail]
  · split <;> simp [Walk.fail]

theorem sparse_node (inside : offset ≤ size payload)
    (below : ∀ start stop, (openNode τ payload offset).outcome = .ok (start, stop) →
      Sparse (size payload) start (blockWalk τ payload start stop)) :
    Sparse (size payload) offset (walkNode τ payload offset) := by
  cases fetched : Cursor.byteAt payload offset with
  | error fault =>
      rw [walkNode_of_fault fetched]
      refine ⟨by simpa [Walk.fail] using inside, ?_⟩
      rintro stop ⟨⟩
  | ok byte =>
      have bounded := Cursor.lt_size_of_byteAt_eq_ok fetched
      have single : (openNode τ payload offset).visited.length ≤ 1 :=
        length_visited_openNode_le payload offset
      have opening : walkNode τ payload offset =
          (openNode τ payload offset).andThen fun block => blockWalk τ payload block.1 block.2 :=
        rfl
      rw [opening]
      cases opened : (openNode τ payload offset).outcome with
      | error fault =>
          rw [Walk.andThen_of_error opened]
          refine ⟨by dsimp only; omega, ?_⟩
          rintro stop ⟨⟩
      | ok block =>
          obtain ⟨visited, finished⟩ := below block.1 block.2 opened
          have forward := lt_of_openNode_eq_ok opened
          rw [Walk.andThen_of_ok opened]
          constructor
          · rw [List.length_append]
            omega
          · intro stop ended
            have reached := finished stop ended
            rw [List.length_append]
            omega

theorem sparse_block {byte : UInt8} (inside : offset < stop)
    (fetched : Cursor.byteAt payload offset = .ok byte)
    (child : Sparse (size payload) (offset + 1) (walkNode τ payload (offset + 1)))
    (others : ∀ next, (walkNode τ payload (offset + 1)).outcome = .ok next →
      Sparse (size payload) next (blockWalk τ payload next stop)) :
    Sparse (size payload) offset (blockWalk τ payload offset stop) := by
  rw [blockWalk_of_lt inside fetched]
  have length : ((walkNode τ payload (offset + 1)).under byte).visited.length =
      (walkNode τ payload (offset + 1)).visited.length := List.length_map _
  have bounded := child.visited
  cases walked : (walkNode τ payload (offset + 1)).outcome with
  | error fault =>
      have failed : ((walkNode τ payload (offset + 1)).under byte).outcome = .error fault := walked
      rw [Walk.andThen_of_error failed]
      exact ⟨by dsimp only; omega, nofun⟩
  | ok next =>
      have ended : ((walkNode τ payload (offset + 1)).under byte).outcome = .ok next := walked
      have passed := child.finished next walked
      obtain ⟨visited, finished⟩ := others next walked
      rw [Walk.andThen_of_ok ended]
      constructor
      · rw [List.length_append]
        omega
      · intro stop ended
        have reached := finished stop ended
        rw [List.length_append]
        omega

theorem sparse_walkNode (τ : ValueType) (payload : α) (inside : offset ≤ size payload) :
    Sparse (size payload) offset (walkNode τ payload offset) := by
  refine (walk_induction τ payload
    (fun offset => offset ≤ size payload →
      Sparse (size payload) offset (walkNode τ payload offset))
    (fun offset stop => offset ≤ size payload →
      Sparse (size payload) offset (blockWalk τ payload offset stop))
    ?_ ?_ ?_ ?_ ?_).1 offset inside
  · intro offset below inside
    apply sparse_node inside
    intro start stop opened
    have forward := lt_of_openNode_eq_ok opened
    exact below start stop opened (by omega)
  · intro offset stop byte inside fetched child others _
    apply sparse_block inside fetched (child (Cursor.lt_size_of_byteAt_eq_ok fetched))
    intro next walked
    exact others next walked (lt_of_outcome_walkNode_eq_ok walked).2
  · intro offset stop fault inside fetched bounded
    rw [blockWalk, walkBlock_of_fault inside fetched]
    refine ⟨by simpa [Walk.fail, Walk.andThen] using bounded, ?_⟩
    rintro stop ⟨⟩
  · intro stop bounded
    rw [blockWalk_self]
    refine ⟨by simpa [Walk.ofResult] using bounded, ?_⟩
    rintro other ⟨⟩
    simp [Walk.ofResult]
  · intro offset stop beyond bounded
    rw [blockWalk, walkBlock_of_gt beyond]
    refine ⟨by simpa [Walk.fail, Walk.andThen] using bounded, ?_⟩
    rintro stop ⟨⟩

/-- A trie has no more entries than bytes. -/
theorem length_visited_walk_le (trie : Trie α τ) :
    trie.walk.visited.length ≤ size trie.payload := by
  rw [visited_walk]
  exact (sparse_walkNode τ trie.payload (Nat.zero_le _)).visited

end Trie

namespace Machine

variable {α : Type} [Payload α] {width fuel : Nat} {τ : ValueType} {trie : Trie α τ}

theorem find_eq (fits : Addressable width trie.payload) (enough : size trie.payload < fuel)
    (key : Bytes) : find width trie fuel key = lift (trie.find key) := by
  obtain ⟨nodes, -⟩ := findNode_eq (τ := τ) fits key fuel
  exact nodes 0 0 key rfl (Nat.zero_le _) (Nat.zero_le _) (Nat.zero_le _) enough

theorem walk_eq (fits : Addressable width trie.payload) (enough : size trie.payload < fuel) :
    walk width trie fuel = (trie.walk.visited, lift trie.walk.outcome) := by
  obtain ⟨nodes, -⟩ := walk_follows τ fits fuel
  have added : ∀ visited : List (Bytes × τ.Value),
      (({} : Tour τ).add visited).visited = visited := by
    simp [Tour.add]
  rw [Trie.visited_walk]
  unfold walk Trie.walk
  cases nodes {} 0 (Nat.zero_le _) (by omega) enough with
  | stopped ended ran same =>
      rw [added] at same
      simp only [ran, Walk.andThen_of_error ended, same]
      rfl
  | done ended ran =>
      simp only [ran, Walk.andThen_of_ok ended, added]
      split <;> simp [Walk.ofResult, Walk.fail]

/-- On any bytes that a machine can hold, the search and the walk in machine words end within a
number of steps that the size bounds. They answer as they do without bounds on numbers, or report
the contradiction that those report: no sum is too large for a word and no position is outside the
key. There are no more entries to count than bytes, and what succeeds ends behind its offset and
inside the payload. -/
theorem traversals_safe (fits : Addressable width trie.payload)
    (enough : size trie.payload < fuel) :
    (∀ key, find width trie fuel key = (trie.find key).mapError .corruption) ∧
      walk width trie fuel = (trie.walk.visited, trie.walk.outcome.mapError .corruption) ∧
      trie.walk.visited.length ≤ size trie.payload ∧
      ∀ offset next,
        (∀ bits value, integerAt width trie.payload bits offset = .ok (value, next) →
          offset < next ∧ next ≤ size trie.payload) ∧
        (skip width τ trie.payload offset = .ok next →
          offset < next ∧ next ≤ size trie.payload) ∧
        ∀ tour after : Tour τ,
          walkNode width τ trie.payload fuel offset tour = .ok next after →
            offset < next ∧ next ≤ size trie.payload := by
  refine ⟨find_eq fits enough, walk_eq fits enough, Trie.length_visited_walk_le trie, ?_⟩
  intro offset next
  have passes : skip width τ trie.payload offset = .ok next →
      offset < next ∧ next ≤ size trie.payload := by
    intro skipped
    rw [skip_eq fits, lift_eq_ok_iff] at skipped
    exact Cursor.lt_of_skip_eq_ok skipped
  refine ⟨?_, passes, ?_⟩
  · intro bits value found
    rw [integerAt_eq fits, lift_eq_ok_iff] at found
    exact ⟨Cursor.lt_of_integerAt_eq_ok found, Cursor.le_size_of_integerAt_eq_ok found⟩
  · -- whatever key the walk carries, a skip ends where it ended
    intro tour after walked
    exact passes (skip_of_walkNode_eq_ok walked)

/-- A branch of two leaves, the second of which declares a suffix of `2 ^ 64 - 1` bytes. -/
def overlongSuffix : Trie Bytes .integer :=
  ⟨[0xAE, 0x61, 0x27, 0x62, 0x65, 0x01, 0x7F, 0x7F, 0x7F, 0x7F, 0x7F, 0x7F, 0x7F, 0x7F, 0xFF]⟩

theorem traversals_safe_overlongSuffix :
    Addressable 64 overlongSuffix.payload ∧ size overlongSuffix.payload < 16 ∧
      find 64 overlongSuffix 16 [0x62] =
        .error (.corruption (.regionOutside 18446744073709551615 15)) ∧
      walk 64 overlongSuffix 16 =
        ([([0x61], (7 : UInt64))],
          .error (.corruption (.regionOutside 18446744073709551615 15))) := by
  have fits : Addressable 64 overlongSuffix.payload := ⟨by decide, by decide⟩
  have enough : size overlongSuffix.payload < 16 := by decide
  obtain ⟨found, walked, -⟩ := traversals_safe fits enough
  refine ⟨fits, enough, ?_, ?_⟩
  · rw [found]
    cbv
  · rw [walked]
    cbv

end Machine

end PackedTrie
