import Mathlib
import PackedTrie.Lookup.Walk

/-!
The recursion of the two traversals, seen from one node. A walk through a children block is a walk
through its first child and then through the rest of the block; a search in the block passes over
children by skipping them. Both are tied to `openNode`, which tells what lies at the node itself and
where its children are.
-/

namespace PackedTrie

namespace Cursor

variable {α : Type} [Payload α] {τ : ValueType} {payload : α} {offset stop : Nat}

theorem bind_eq_ok_iff {ε β γ : Type} {first : Except ε β} {second : β → Except ε γ}
    {result : γ} :
    first >>= second = .ok result ↔ ∃ middle, first = .ok middle ∧ second middle = .ok result := by
  cases first <;> simp [bind, Except.bind]

theorem length_of_regionAt_eq_ok {length : Nat} {region : Bytes}
    (found : regionAt payload offset length = .ok region) : region.length = length := by
  unfold regionAt at found
  split at found
  · cases found
    exact (Payload.le_size_of_region?_eq_some ‹_›).2
  · contradiction

theorem suffixLeafAt_eq_ok_iff {value : τ.Value} {suffix : Bytes} :
    suffixLeafAt τ payload offset = .ok (value, suffix, stop) ↔
      ∃ past length next, leadValue τ payload offset = .ok value ∧
        afterValue τ payload offset = .ok past ∧
        integerAt payload 8 past = .ok (length, next) ∧
        regionAt payload next length.toNat = .ok suffix ∧ next + length.toNat = stop := by
  simp only [suffixLeafAt, bind_eq_ok_iff, Prod.exists, pure, Except.pure, Except.ok.injEq,
    Prod.mk.injEq]
  constructor
  · rintro ⟨_, found, past, afterward, length, next, integer, _, region, rfl, rfl, rfl⟩
    exact ⟨past, length, next, found, afterward, integer, region, rfl⟩
  · rintro ⟨past, length, next, found, afterward, integer, region, rfl⟩
    exact ⟨value, found, past, afterward, length, next, integer, suffix, region, rfl, rfl, rfl⟩

end Cursor

open Cursor

namespace Walk

variable {τ : ValueType} {β γ : Type}

theorem andThen_of_ok {first : Walk τ β} {second : β → Walk τ γ} {result : β}
    (ended : first.outcome = .ok result) :
    first.andThen second =
      ⟨first.visited ++ (second result).visited, (second result).outcome⟩ := by
  simp only [andThen, ended]

theorem andThen_of_error {first : Walk τ β} {second : β → Walk τ γ} {fault : Corruption}
    (ended : first.outcome = .error fault) :
    first.andThen second = ⟨first.visited, .error fault⟩ := by
  simp only [andThen, ended]

theorem outcome_andThen_eq_ok_iff {first : Walk τ β} {second : β → Walk τ γ} {result : γ} :
    (first.andThen second).outcome = .ok result ↔
      ∃ middle, first.outcome = .ok middle ∧ (second middle).outcome = .ok result := by
  cases ended : first.outcome with
  | error fault => simp [andThen_of_error ended]
  | ok middle => simp [andThen_of_ok ended]

theorem andThen_assoc {δ : Type} (first : Walk τ β) (second : β → Walk τ γ)
    (third : γ → Walk τ δ) :
    (first.andThen second).andThen third =
      first.andThen fun result => (second result).andThen third := by
  obtain ⟨visited, outcome⟩ := first
  cases outcome with
  | error fault => rfl
  | ok result =>
      simp only [andThen]
      cases (second result).outcome <;> simp

theorem ofResult_bind (first : Except Corruption β) (second : β → Except Corruption γ) :
    (ofResult (first >>= second) : Walk τ γ) =
      (ofResult first).andThen fun result => ofResult (second result) := by
  cases first <;> rfl

end Walk

namespace Trie

variable {α : Type} [Payload α] {τ : ValueType} {payload : α} {offset stop : Nat}

theorem walkBlock_self : walkBlock τ payload stop stop = ⟨[], .ok ()⟩ := by
  rw [walkBlock]
  simp

theorem walkBlock_of_gt (beyond : stop < offset) :
    walkBlock τ payload offset stop = .fail (.childOverrun offset stop) := by
  rw [walkBlock, if_neg (by omega), if_neg (by omega)]

theorem walkBlock_of_fault {fault : Corruption} (inside : offset < stop)
    (fetched : byteAt payload offset = .error fault) :
    walkBlock τ payload offset stop = .fail fault := by
  rw [walkBlock, if_pos inside]
  split
  next other same =>
    rw [fetched] at same
    cases same
    rfl
  next byte same =>
    rw [fetched] at same
    contradiction

theorem walkBlock_of_lt {byte : UInt8} (inside : offset < stop)
    (fetched : byteAt payload offset = .ok byte) :
    walkBlock τ payload offset stop =
      ((walkNode τ payload (offset + 1)).under byte).andThen
        fun next => walkBlock τ payload next stop := by
  rw [walkBlock, if_pos inside]
  split
  next fault same =>
    rw [fetched] at same
    contradiction
  next other same =>
    rw [fetched] at same
    cases same
    simp only [walkNode]
    split
    next fault opened => simp [Walk.andThen, Walk.under, opened]
    next childStart childStop opened =>
      cases below : (walkBlock τ payload childStart childStop).outcome with
      | error fault => simp [Walk.andThen, Walk.under, opened, below]
      | ok => simp [Walk.andThen, Walk.under, Walk.ofResult, opened, below]

theorem outcome_walkNode_eq_ok_iff :
    (walkNode τ payload offset).outcome = .ok stop ↔
      ∃ start, (openNode τ payload offset).outcome = .ok (start, stop) ∧
        (walkBlock τ payload start stop).outcome = .ok () := by
  simp only [walkNode, Walk.outcome_andThen_eq_ok_iff]
  constructor
  · rintro ⟨⟨start, stop⟩, opened, _, walked, same⟩
    cases same
    exact ⟨start, opened, walked⟩
  · rintro ⟨start, opened, walked⟩
    exact ⟨(start, stop), opened, (), walked, rfl⟩

theorem walkNode_of_ok {start : Nat}
    (opened : (openNode τ payload offset).outcome = .ok (start, stop))
    (walked : (walkBlock τ payload start stop).outcome = .ok ()) :
    walkNode τ payload offset = ⟨(openNode τ payload offset).visited ++
      (walkBlock τ payload start stop).visited, .ok stop⟩ := by
  rw [walkNode, Walk.andThen_of_ok opened]
  simp [Walk.andThen_of_ok walked, Walk.ofResult]

/-- A walk moves forward and stays inside the payload. -/
theorem lt_of_outcome_walkNode_eq_ok
    (walked : (walkNode τ payload offset).outcome = .ok stop) :
    offset < stop ∧ stop ≤ Payload.size payload := by
  obtain ⟨start, opened, -⟩ := outcome_walkNode_eq_ok_iff.mp walked
  have forward := lt_of_openNode_eq_ok opened
  omega

/-- The check at the end of the root visits nothing more. -/
theorem visited_walk (trie : Trie α τ) :
    trie.walk.visited = (walkNode τ trie.payload 0).visited := by
  unfold walk
  cases ended : (walkNode τ trie.payload 0).outcome with
  | error fault => rw [Walk.andThen_of_error ended]
  | ok stop =>
      rw [Walk.andThen_of_ok ended]
      dsimp only
      split <;> simp [Walk.ofResult, Walk.fail]

/-- What holds of a node when it holds of its children block, and of a block when it holds of its
first child and the rest, holds of all nodes and blocks. -/
theorem walk_induction (τ : ValueType) (payload : α) (node : Nat → Prop)
    (block : Nat → Nat → Prop)
    (opens : ∀ offset, (∀ start stop, (openNode τ payload offset).outcome = .ok (start, stop) →
      block start stop) → node offset)
    (steps : ∀ offset stop byte, offset < stop → byteAt payload offset = .ok byte →
      node (offset + 1) → (∀ next, (walkNode τ payload (offset + 1)).outcome = .ok next →
        block next stop) → block offset stop)
    (faults : ∀ offset stop fault, offset < stop → byteAt payload offset = .error fault →
      block offset stop)
    (ends : ∀ stop, block stop stop)
    (overruns : ∀ offset stop, stop < offset → block offset stop) :
    (∀ offset, node offset) ∧ ∀ offset stop, block offset stop := by
  have blocks : ∀ offset stop, block offset stop := by
    intro offset
    -- every step of a block moves its offset towards the end of the payload
    induction left : Payload.size payload - offset using Nat.strongRecOn generalizing offset with
    | ind left inductionHypothesis =>
        intro stop
        rcases Nat.lt_trichotomy offset stop with inside | same | beyond
        · cases fetched : byteAt payload offset with
          | error fault => exact faults offset stop fault inside fetched
          | ok byte =>
              refine steps offset stop byte inside fetched ?_ ?_
              · apply opens
                intro start stop opened
                have forward := lt_of_openNode_eq_ok opened
                exact inductionHypothesis _ (by omega) start rfl stop
              · intro next walked
                have forward := lt_of_outcome_walkNode_eq_ok walked
                exact inductionHypothesis _ (by omega) next rfl stop
        · exact same ▸ ends offset
        · exact overruns offset stop beyond
  exact ⟨fun offset => opens offset fun start stop _ => blocks start stop, blocks⟩

/-- The value of `wanted :: rest` in the children block from `offset` to `stop`. -/
def findBelow (τ : ValueType) (payload : α) (wanted : UInt8) (rest : Bytes) (offset stop : Nat) :
    Except Corruption (Option τ.Value) := do
  match ← scan τ payload wanted offset stop with
  | none => pure none
  | some child => findFrom τ payload rest child

section Find

variable {wanted byte : UInt8} {rest : Bytes}

theorem findBelow_self : findBelow τ payload wanted rest stop stop = .ok none := by
  rw [findBelow, scan]
  simp [bind, Except.bind, pure, Except.pure]

theorem findBelow_of_eq (inside : offset < stop) (fetched : byteAt payload offset = .ok byte)
    (same : byte = wanted) :
    findBelow τ payload wanted rest offset stop = findFrom τ payload rest (offset + 1) := by
  rw [findBelow, scan]
  simp [inside, fetched, same, bind, Except.bind]

theorem findBelow_of_ne {next : Nat} (inside : offset < stop)
    (fetched : byteAt payload offset = .ok byte) (different : byte ≠ wanted)
    (skipped : skip τ payload (offset + 1) = .ok next) :
    findBelow τ payload wanted rest offset stop =
      findBelow τ payload wanted rest next stop := by
  rw [findBelow, scan, if_pos inside, findBelow]
  simp only [fetched, if_neg different]
  split
  next fault failed =>
    rw [skipped] at failed
    contradiction
  next other found =>
    rw [skipped] at found
    cases found
    rfl

end Find

/-- What opening the node at `offset` tells: the keys that end there, and where its children block
starts and stops. -/
inductive Opened (τ : ValueType) (payload : α) (offset : Nat) :
    List (Bytes × τ.Value) → Nat → Nat → Prop where
  | leaf {value : τ.Value} {stop : Nat} (kind : kindAt payload offset = .ok .leaf)
      (found : leadValue τ payload offset = .ok value)
      (tail : tailAt τ payload offset = .ok (stop, stop)) :
      Opened τ payload offset [([], value)] stop stop
  | suffixLeaf {value : τ.Value} {suffix : Bytes} {stop : Nat}
      (kind : kindAt payload offset = .ok .suffixLeaf)
      (found : suffixLeafAt τ payload offset = .ok (value, suffix, stop)) :
      Opened τ payload offset [(suffix, value)] stop stop
  | branch {start stop : Nat} (kind : kindAt payload offset = .ok .branch)
      (tail : tailAt τ payload offset = .ok (start, stop)) :
      Opened τ payload offset [] start stop
  | valueBranch {value : τ.Value} {start stop : Nat}
      (kind : kindAt payload offset = .ok .valueBranch)
      (found : leadValue τ payload offset = .ok value)
      (tail : tailAt τ payload offset = .ok (start, stop)) :
      Opened τ payload offset [([], value)] start stop

section Opened

variable {start : Nat} {visited : List (Bytes × τ.Value)}

theorem Opened.openNode_eq (opened : Opened τ payload offset visited start stop) :
    openNode τ payload offset = ⟨visited, .ok (start, stop)⟩ := by
  cases opened with
  | leaf kind found tail => simp [openNode, kind, found, tail]
  | suffixLeaf kind found => simp [openNode, kind, found, Walk.visit]
  | branch kind tail => simp [openNode, kind, tail, Walk.ofResult]
  | valueBranch kind found tail => simp [openNode, kind, found, tail]

theorem opened_of_outcome_eq_ok
    (opened : (openNode τ payload offset).outcome = .ok (start, stop)) :
    Opened τ payload offset (openNode τ payload offset).visited start stop := by
  cases kindFound : kindAt payload offset with
  | error fault => simp [openNode, kindFound, Walk.fail] at opened
  | ok kind =>
      cases kind with
      | leaf =>
          cases valueFound : leadValue τ payload offset with
          | error fault => simp [openNode, kindFound, valueFound, Walk.fail] at opened
          | ok value =>
              have tail : tailAt τ payload offset = .ok (start, stop) := by
                simpa [openNode, kindFound, valueFound] using opened
              have empty : start = stop := by
                simp only [tailAt, kindFound, bind, Except.bind, pure, Except.pure] at tail
                split at tail
                · contradiction
                · cases tail
                  rfl
              subst empty
              simpa [openNode, kindFound, valueFound] using Opened.leaf kindFound valueFound tail
      | suffixLeaf =>
          cases suffixFound : suffixLeafAt τ payload offset with
          | error fault => simp [openNode, kindFound, suffixFound, Walk.fail] at opened
          | ok found =>
              obtain ⟨value, suffix, next⟩ := found
              simp only [openNode, kindFound, suffixFound, Walk.visit] at opened ⊢
              cases opened
              exact .suffixLeaf kindFound suffixFound
      | branch =>
          simp only [openNode, kindFound, Walk.ofResult] at opened ⊢
          exact .branch kindFound opened
      | valueBranch =>
          cases valueFound : leadValue τ payload offset with
          | error fault => simp [openNode, kindFound, valueFound, Walk.fail] at opened
          | ok value =>
              simp only [openNode, kindFound, valueFound] at opened ⊢
              exact .valueBranch kindFound valueFound opened

theorem Opened.skip_eq (opened : Opened τ payload offset visited start stop) :
    skip τ payload offset = .ok stop := by
  cases opened with
  | leaf kind found tail => simp [skip, tail, bind, Except.bind, pure, Except.pure]
  | suffixLeaf kind found =>
      obtain ⟨past, length, next, -, afterward, integer, region, rfl⟩ :=
        suffixLeafAt_eq_ok_iff.mp found
      have advanced : advance payload next length.toNat = .ok (next + length.toNat) :=
        advance_eq_ok_iff.mpr ⟨rfl, regionAt_eq_ok region⟩
      simp [skip, tailAt, blockAt, kind, afterward, integer, advanced, bind, Except.bind, pure,
        Except.pure]
  | branch kind tail => simp [skip, tail, bind, Except.bind, pure, Except.pure]
  | valueBranch kind found tail => simp [skip, tail, bind, Except.bind, pure, Except.pure]

/-- The answer to a search at an opened node: what lies at the node itself, or else what is found
below it. -/
theorem Opened.findFrom_eq (opened : Opened τ payload offset visited start stop) (key : Bytes) :
    findFrom τ payload key offset =
      match visited.lookup key, key with
      | some value, _ => .ok (some value)
      | none, [] => .ok none
      | none, wanted :: rest => findBelow τ payload wanted rest start stop := by
  cases opened with
  | leaf kind found tail =>
      cases key with
      | nil => simp [findFrom, kind, found, bind, Except.bind, Functor.map, Except.map]
      | cons wanted rest =>
          have different : (wanted :: rest == ([] : Bytes)) = false := rfl
          simp [findFrom, kind, List.lookup, different, findBelow_self, bind, Except.bind, pure,
            Except.pure]
  | @suffixLeaf value suffix stop kind found =>
      have direct : findFrom τ payload key offset =
          .ok (if suffix = key then some value else none) := by
        cases key <;>
          simp [findFrom, findSuffix, kind, found, bind, Except.bind, pure, Except.pure]
      rw [direct, List.lookup]
      by_cases same : suffix = key
      · simp [same]
      · have different : (key == suffix) = false := beq_false_of_ne fun equal => same equal.symm
        cases key <;> simp [same, different, findBelow_self]
  | branch kind tail =>
      cases key with
      | nil => simp [findFrom, kind, bind, Except.bind, pure, Except.pure]
      | cons wanted rest =>
          simp only [findFrom, kind, tail, List.lookup, bind, Except.bind]
          rfl
  | valueBranch kind found tail =>
      cases key with
      | nil => simp [findFrom, kind, found, bind, Except.bind, Functor.map, Except.map]
      | cons wanted rest =>
          have different : (wanted :: rest == ([] : Bytes)) = false := rfl
          simp only [findFrom, kind, tail, List.lookup, different, bind, Except.bind]
          rfl

end Opened

end Trie

end PackedTrie
