import PackedTrie.Proofs.Lookup.Graph

/-!
A search takes the first child under a byte, a walk takes all of them. The two agree on a trie in
which no branch that the walk reaches has two children under one byte, and then they agree on all
that was visited, also if the walk fails later on.
-/

namespace PackedTrie

open Cursor Relation

namespace Trie

variable {α : Type} [Payload α] {τ : ValueType} {payload : α} {offset stop : Nat}

/-- The children that a walk reads in the block from `offset` to `stop`, each with its byte. The
last one may be a child where the walk fails. -/
def childrenRead (τ : ValueType) (payload : α) (offset stop : Nat) : List (UInt8 × Nat) :=
  if offset < stop then
    match byteAt payload offset with
    | .error _ => []
    | .ok byte =>
        match _walked : (walkNode τ payload (offset + 1)).outcome with
        | .error _ => [(byte, offset + 1)]
        | .ok next => (byte, offset + 1) :: childrenRead τ payload next stop
  else []
termination_by Payload.size payload - offset
decreasing_by
  have forward := lt_of_outcome_walkNode_eq_ok _walked
  omega

/-- The children that the walk of the node at `offset` reads. -/
def children (τ : ValueType) (payload : α) (offset : Nat) : List (UInt8 × Nat) :=
  match (openNode τ payload offset).outcome with
  | .error _ => []
  | .ok (start, stop) => childrenRead τ payload start stop

def IsChild (τ : ValueType) (payload : α) (parent child : Nat) : Prop :=
  ∃ byte, (byte, child) ∈ children τ payload parent

/-- No two children which the walk of the node reads are under one byte. -/
def DistinctBytes (τ : ValueType) (payload : α) (offset : Nat) : Prop :=
  ((children τ payload offset).map Prod.fst).Nodup

/-- Every node that the walk reaches from `node` has children under distinct bytes. -/
def UnambiguousFrom (τ : ValueType) (payload : α) (node : Nat) : Prop :=
  ∀ reached, ReflTransGen (IsChild τ payload) node reached → DistinctBytes τ payload reached

def Unambiguous (trie : Trie α τ) : Prop :=
  UnambiguousFrom τ trie.payload 0

section ChildrenRead

variable {byte : UInt8}

theorem childrenRead_of_le (beyond : stop ≤ offset) : childrenRead τ payload offset stop = [] := by
  rw [childrenRead, if_neg (by omega)]

theorem childrenRead_of_lt (inside : offset < stop) (fetched : byteAt payload offset = .ok byte) :
    childrenRead τ payload offset stop = (byte, offset + 1) ::
      match (walkNode τ payload (offset + 1)).outcome with
      | .error _ => []
      | .ok next => childrenRead τ payload next stop := by
  rw [childrenRead, if_pos inside]
  split
  next fault same =>
    rw [fetched] at same
    contradiction
  next other same =>
    rw [fetched] at same
    cases same
    split
    next fault failed => simp only [failed]
    next next walked => simp only [walked]

theorem childrenRead_of_ok {next : Nat} (inside : offset < stop)
    (fetched : byteAt payload offset = .ok byte)
    (walked : (walkNode τ payload (offset + 1)).outcome = .ok next) :
    childrenRead τ payload offset stop =
      (byte, offset + 1) :: childrenRead τ payload next stop := by
  rw [childrenRead_of_lt inside fetched, walked]

end ChildrenRead

theorem children_of_ok {start : Nat}
    (opened : (openNode τ payload offset).outcome = .ok (start, stop)) :
    children τ payload offset = childrenRead τ payload start stop := by
  simp only [children, opened]

/-- A node is unambiguous as far as it goes if its own children are under distinct bytes and are
unambiguous themselves. -/
theorem unambiguousFrom_iff :
    UnambiguousFrom τ payload offset ↔ DistinctBytes τ payload offset ∧
      ∀ byte child, (byte, child) ∈ children τ payload offset →
        UnambiguousFrom τ payload child := by
  constructor
  · intro unambiguous
    refine ⟨unambiguous offset ReflTransGen.refl, ?_⟩
    intro byte child member reached path
    apply unambiguous
    exact ReflTransGen.head ⟨byte, member⟩ path
  · rintro ⟨distinct, below⟩ reached path
    rcases ReflTransGen.cases_head path with rfl | ⟨child, ⟨byte, member⟩, path⟩
    · exact distinct
    · exact below byte child member reached path

theorem unambiguousFrom_of_children_eq_nil (none : children τ payload offset = []) :
    UnambiguousFrom τ payload offset := by
  rw [unambiguousFrom_iff, DistinctBytes, none]
  exact ⟨List.nodup_nil, fun _ _ member => by contradiction⟩

theorem unambiguousFrom_of_children_eq_pair {first second : UInt8 × Nat}
    (read : children τ payload offset = [first, second]) (distinct : first.1 ≠ second.1)
    (firstEnds : children τ payload first.2 = [])
    (secondEnds : children τ payload second.2 = []) : UnambiguousFrom τ payload offset := by
  rw [unambiguousFrom_iff, DistinctBytes, read]
  refine ⟨by simpa using distinct, ?_⟩
  intro byte child member
  apply unambiguousFrom_of_children_eq_nil
  simp only [List.mem_cons, List.not_mem_nil, or_false] at member
  rcases member with rfl | rfl
  · exact firstEnds
  · exact secondEnds

/-- Every key that the walk of a node visits is found, with the value visited. -/
def FoundFrom (τ : ValueType) (payload : α) (offset : Nat) : Prop :=
  ∀ key value, (key, value) ∈ (walkNode τ payload offset).visited →
    findFrom τ payload key offset = .ok (some value)

/-- Every key that the walk of a block visits starts with the byte of one of the children read, and
is found below it. -/
def FoundBelow (τ : ValueType) (payload : α) (offset stop : Nat) : Prop :=
  ∀ key value, (key, value) ∈ (walkBlock τ payload offset stop).visited →
    ∃ wanted rest, key = wanted :: rest ∧
      wanted ∈ (childrenRead τ payload offset stop).map Prod.fst ∧
      findBelow τ payload wanted rest offset stop = .ok (some value)

theorem mem_visited_walkNode {entry : Bytes × τ.Value}
    (visited : entry ∈ (walkNode τ payload offset).visited) :
    entry ∈ (openNode τ payload offset).visited ∨
      ∃ start stop, (openNode τ payload offset).outcome = .ok (start, stop) ∧
        entry ∈ (walkBlock τ payload start stop).visited := by
  unfold walkNode at visited
  cases opened : (openNode τ payload offset).outcome with
  | error fault =>
      rw [Walk.andThen_of_error opened] at visited
      exact Or.inl visited
  | ok block =>
      obtain ⟨start, stop⟩ := block
      rw [Walk.andThen_of_ok opened] at visited
      rcases List.mem_append.mp visited with here | below
      · exact Or.inl here
      · refine Or.inr ⟨start, stop, rfl, ?_⟩
        cases walked : (walkBlock τ payload start stop).outcome with
        | error fault =>
            simpa only [Walk.andThen_of_error walked] using below
        | ok =>
            simpa only [Walk.andThen_of_ok walked, Walk.ofResult, List.append_nil] using below

theorem findFrom_nil_of_leadValue {kind : NodeKind} {value : τ.Value}
    (found : kindAt payload offset = .ok kind) (valued : kind = .leaf ∨ kind = .valueBranch)
    (read : leadValue τ payload offset = .ok value) :
    findFrom τ payload [] offset = .ok (some value) := by
  rcases valued with rfl | rfl <;>
    simp [findFrom, found, read, bind, Except.bind, Functor.map, Except.map]

theorem findFrom_of_mem_visited_openNode {key : Bytes} {value : τ.Value}
    (visited : (key, value) ∈ (openNode τ payload offset).visited) :
    findFrom τ payload key offset = .ok (some value) := by
  unfold openNode at visited
  split at visited
  next => contradiction
  next kind =>
    split at visited
    next => contradiction
    next other suffix stop found =>
      cases List.mem_singleton.mp visited
      cases key <;>
        simp [findFrom, findSuffix, kind, found, bind, Except.bind, pure, Except.pure]
  next => contradiction
  next kind =>
    split at visited
    next => contradiction
    next other found =>
      cases List.mem_singleton.mp visited
      exact findFrom_nil_of_leadValue kind (.inl rfl) found
  next kind =>
    split at visited
    next => contradiction
    next other found =>
      cases List.mem_singleton.mp visited
      exact findFrom_nil_of_leadValue kind (.inr rfl) found

theorem Opened.start_eq_stop_or_lookup_eq_none {start : Nat} {visited : List (Bytes × τ.Value)}
    (opened : Opened τ payload offset visited start stop) :
    start = stop ∨ ∀ wanted rest, visited.lookup (wanted :: rest) = none := by
  cases opened with
  | leaf => exact Or.inl rfl
  | suffixLeaf => exact Or.inl rfl
  | branch => exact Or.inr fun _ _ => rfl
  | valueBranch => exact Or.inr fun _ _ => rfl

theorem foundFrom_node
    (below : ∀ start stop, (openNode τ payload offset).outcome = .ok (start, stop) →
      FoundBelow τ payload start stop) : FoundFrom τ payload offset := by
  intro key value visited
  rcases mem_visited_walkNode visited with here | ⟨start, stop, opened, member⟩
  · exact findFrom_of_mem_visited_openNode here
  · obtain ⟨wanted, rest, rfl, -, found⟩ := below start stop opened key value member
    rcases (opened_of_outcome_eq_ok opened).start_eq_stop_or_lookup_eq_none with same | absent
    · subst same
      rw [walkBlock_self] at member
      contradiction
    · rw [(opened_of_outcome_eq_ok opened).findFrom_eq, absent]
      exact found

theorem foundBelow_block {byte : UInt8} (inside : offset < stop)
    (fetched : byteAt payload offset = .ok byte)
    (distinct : ((childrenRead τ payload offset stop).map Prod.fst).Nodup)
    (child : FoundFrom τ payload (offset + 1))
    (others : ∀ next, (walkNode τ payload (offset + 1)).outcome = .ok next →
      FoundBelow τ payload next stop) : FoundBelow τ payload offset stop := by
  have first : ∀ key value,
      (key, value) ∈ Entries.under byte (walkNode τ payload (offset + 1)).visited →
      ∃ wanted rest, key = wanted :: rest ∧
        wanted ∈ (childrenRead τ payload offset stop).map Prod.fst ∧
        findBelow τ payload wanted rest offset stop = .ok (some value) := by
    intro key value visited
    obtain ⟨⟨rest, stored⟩, member, same⟩ := List.mem_map.mp visited
    cases same
    refine ⟨byte, rest, rfl, ?_, ?_⟩
    · rw [childrenRead_of_lt inside fetched]
      exact List.mem_cons_self
    · rw [findBelow_of_eq inside fetched rfl]
      exact child rest stored member
  intro key value visited
  cases walked : (walkNode τ payload (offset + 1)).outcome with
  | error fault =>
      rw [visited_walkBlock_of_error inside fetched walked] at visited
      exact first key value visited
  | ok next =>
      rw [visited_walkBlock_of_ok inside fetched walked] at visited
      rcases List.mem_append.mp visited with here | later
      · exact first key value here
      · obtain ⟨wanted, rest, rfl, read, found⟩ := others next walked key value later
        rw [childrenRead_of_ok inside fetched walked] at distinct ⊢
        refine ⟨wanted, rest, rfl, List.mem_cons_of_mem _ read, ?_⟩
        -- the search passes over the first child, since no later one is under its byte
        have different : byte ≠ wanted := by
          intro same
          exact (List.nodup_cons.mp distinct).1 (same ▸ read)
        rw [findBelow_of_ne inside fetched different (skip_of_outcome_walkNode_eq_ok walked)]
        exact found

theorem UnambiguousFrom.foundFrom (unambiguous : UnambiguousFrom τ payload offset) :
    FoundFrom τ payload offset := by
  refine (walk_induction τ payload
    (fun offset => UnambiguousFrom τ payload offset → FoundFrom τ payload offset)
    (fun offset stop => ((childrenRead τ payload offset stop).map Prod.fst).Nodup →
      (∀ byte child, (byte, child) ∈ childrenRead τ payload offset stop →
        UnambiguousFrom τ payload child) → FoundBelow τ payload offset stop)
    ?_ ?_ ?_ ?_ ?_).1 offset unambiguous
  · -- a node hands its hypothesis on to the children it reads, which is what its block needs
    intro offset below unambiguous
    apply foundFrom_node
    intro start stop opened
    obtain ⟨distinct, children⟩ := unambiguousFrom_iff.mp unambiguous
    rw [DistinctBytes, children_of_ok opened] at distinct
    rw [children_of_ok opened] at children
    exact below start stop opened distinct children
  · intro offset stop byte inside fetched child others distinct children
    apply foundBelow_block inside fetched distinct
    · apply child
      apply children byte
      rw [childrenRead_of_lt inside fetched]
      exact List.mem_cons_self
    · intro next walked
      rw [childrenRead_of_ok inside fetched walked] at distinct children
      apply others next walked
      · exact (List.nodup_cons.mp distinct).2
      · intro byte child read
        exact children byte child (List.mem_cons_of_mem _ read)
  · intro offset stop fault inside fetched _ _ key value visited
    rw [walkBlock_of_fault inside fetched] at visited
    contradiction
  · intro stop _ _ key value visited
    rw [walkBlock_self] at visited
    contradiction
  · intro offset stop beyond _ _ key value visited
    rw [walkBlock_of_gt beyond] at visited
    contradiction

/-- The search succeeds with the first value visited if the walk succeeds; if no branch is
ambiguous, it finds exactly what the walk visits. -/
theorem find_agrees_walk (trie : Trie α τ) :
    (trie.walk.outcome = .ok () → ∀ key, ∃ answer, trie.find key = .ok answer ∧
      ∀ value, answer = some value → trie.walk.visited.lookup key = some value) ∧
    (trie.Unambiguous →
      (∀ key value, (key, value) ∈ trie.walk.visited → trie.find key = .ok (some value)) ∧
      (trie.walk.outcome = .ok () → ∀ key,
        trie.find key = .ok none ↔ ∀ value, (key, value) ∉ trie.walk.visited)) := by
  have succeeds : trie.walk.outcome = .ok () → ∀ key, ∃ answer, trie.find key = .ok answer ∧
      ∀ value, answer = some value → trie.walk.visited.lookup key = some value := by
    intro walked key
    have filled := Node.outcome_walk_eq_ok_iff.mp walked
    rw [visited_walk]
    exact answered_of_outcome_walkNode_eq_ok filled key
  refine ⟨succeeds, fun unambiguous => ?_⟩
  have found : ∀ key value, (key, value) ∈ trie.walk.visited →
      trie.find key = .ok (some value) := by
    intro key value visited
    rw [visited_walk] at visited
    exact unambiguous.foundFrom key value visited
  refine ⟨found, fun walked key => ⟨fun absent value visited => ?_, fun unvisited => ?_⟩⟩
  · have present := found key value visited
    rw [absent] at present
    cases present
  · obtain ⟨answer, answered, first⟩ := succeeds walked key
    cases answer with
    | none => exact answered
    | some value =>
        have looked := first value rfl
        rw [Entries.lookup_eq_none_of_not_mem unvisited] at looked
        contradiction

def descending : Trie Bytes .integer :=
  ⟨[0xA4, 0x62, 0x27, 0x61, 0x25]⟩

/-- The second child starts with no valid integer. -/
def brokenChild : Trie Bytes .integer :=
  ⟨[0xA4, 0x61, 0x27, 0x62, 0x00]⟩

theorem find_agrees_walk_twoLeaves :
    (descending.walk = ⟨[([0x62], (7 : UInt64)), ([0x61], (5 : UInt64))], .ok ()⟩ ∧
      descending.Unambiguous ∧ descending.find [0x61] = .ok (some (5 : UInt64)) ∧
      descending.find [0x63] = .ok none) ∧
    brokenChild.walk = ⟨[([0x61], (7 : UInt64))], .error (.brokenInteger 4)⟩ ∧
      brokenChild.Unambiguous ∧ brokenChild.find [0x61] = .ok (some (7 : UInt64)) := by
  constructor
  · have walked : descending.walk =
        ⟨[([0x62], (7 : UInt64)), ([0x61], (5 : UInt64))], .ok ()⟩ := by cbv
    have opened : (openNode .integer descending.payload 0).outcome = .ok (1, 5) := by cbv
    have first : (walkNode .integer descending.payload 2).outcome = .ok 3 := by cbv
    have second : (walkNode .integer descending.payload 4).outcome = .ok 5 := by cbv
    have read : children .integer descending.payload 0 = [(0x62, 2), (0x61, 4)] := by
      rw [children_of_ok opened, childrenRead_of_ok (by decide) rfl first,
        childrenRead_of_ok (by decide) rfl second, childrenRead_of_le le_rfl]
    have unambiguous : descending.Unambiguous :=
      unambiguousFrom_of_children_eq_pair read (by decide) (by cbv) (by cbv)
    obtain ⟨-, agrees⟩ := find_agrees_walk descending
    obtain ⟨found, absent⟩ := agrees unambiguous
    refine ⟨walked, unambiguous, ?_, ?_⟩
    · apply found
      rw [walked]
      exact List.mem_cons_of_mem _ List.mem_cons_self
    · rw [absent (by rw [walked]), walked]
      simp
  · have walked : brokenChild.walk =
        ⟨[([0x61], (7 : UInt64))], .error (.brokenInteger 4)⟩ := by cbv
    have opened : (openNode .integer brokenChild.payload 0).outcome = .ok (1, 5) := by cbv
    have first : (walkNode .integer brokenChild.payload 2).outcome = .ok 3 := by cbv
    have second : (walkNode .integer brokenChild.payload 4).outcome =
        .error (.brokenInteger 4) := by cbv
    have read : children .integer brokenChild.payload 0 = [(0x61, 2), (0x62, 4)] := by
      rw [children_of_ok opened, childrenRead_of_ok (by decide) rfl first,
        childrenRead_of_lt (by decide) rfl, second]
    have unambiguous : brokenChild.Unambiguous :=
      unambiguousFrom_of_children_eq_pair read (by decide) (by cbv) (by cbv)
    obtain ⟨-, agrees⟩ := find_agrees_walk brokenChild
    refine ⟨walked, unambiguous, ?_⟩
    apply (agrees unambiguous).1
    rw [walked]
    exact List.mem_cons_self

end Trie

end PackedTrie
