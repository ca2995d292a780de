import PackedTrie.Proofs.Machine.Reads

/-!
The walk in machine words. It visits what the walk without bounds visits, and ends as that one does:
the key it carries along is never longer than the part of the payload that lies behind it.
-/

namespace PackedTrie

open Payload

namespace Trie

variable {α : Type} [Payload α] {τ : ValueType} {payload : α} {offset stop : Nat}

/-- A walk through a children block, with the offset where it has to end as its result. -/
def blockWalk (τ : ValueType) (payload : α) (offset stop : Nat) : Walk τ Nat :=
  (walkBlock τ payload offset stop).andThen fun _ => .ofResult (.ok stop)

theorem blockWalk_self : blockWalk τ payload stop stop = .ofResult (.ok stop) := by
  rw [blockWalk, walkBlock_self]
  rfl

theorem blockWalk_of_lt {byte : UInt8} (inside : offset < stop)
    (fetched : Cursor.byteAt payload offset = .ok byte) :
    blockWalk τ payload offset stop =
      ((walkNode τ payload (offset + 1)).under byte).andThen
        fun next => blockWalk τ payload next stop := by
  rw [blockWalk, walkBlock_of_lt inside fetched, Walk.andThen_assoc]
  rfl

section Kinds

theorem walkNode_of_fault {fault : Corruption}
    (fetched : Cursor.byteAt payload offset = .error fault) :
    walkNode τ payload offset = .fail fault := by
  simp [walkNode, openNode, Cursor.kindAt_of_byteAt_eq_error fetched, Walk.fail, Walk.andThen]

theorem walkNode_leaf (kind : Cursor.kindAt payload offset = .ok .leaf) :
    walkNode τ payload offset =
      (Walk.ofResult (Cursor.integerAt payload Node.leadBits offset)).andThen fun integer =>
      (Walk.ofResult (Cursor.valueAt τ payload integer.1 integer.2)).andThen fun value =>
      (Walk.visit [] value ()).andThen fun _ =>
        .ofResult (Cursor.advance payload integer.2 (τ.payloadLength integer.1)) := by
  unfold walkNode openNode Cursor.leadValue Cursor.tailAt Cursor.afterValue
  simp only [kind, Machine.ok_bind]
  rcases Cursor.integerAt payload Node.leadBits offset with fault | ⟨head, next⟩
  · rfl
  · simp only [Machine.ok_bind, Walk.ofResult, Walk.andThen]
    cases Cursor.valueAt τ payload head next with
    | error fault => rfl
    | ok value =>
        cases Cursor.advance payload next (τ.payloadLength head) with
        | error fault => rfl
        | ok stop => simp [Machine.ok_bind, walkBlock_self, Walk.visit, pure, Except.pure]

theorem walkNode_suffixLeaf (kind : Cursor.kindAt payload offset = .ok .suffixLeaf) :
    walkNode τ payload offset =
      (Walk.ofResult (Cursor.integerAt payload Node.leadBits offset)).andThen fun integer =>
      (Walk.ofResult (Cursor.valueAt τ payload integer.1 integer.2)).andThen fun value =>
      (Walk.ofResult (Cursor.advance payload integer.2 (τ.payloadLength integer.1))).andThen
        fun past =>
      (Walk.ofResult (Cursor.integerAt payload 8 past)).andThen fun length =>
      (Walk.ofResult (Cursor.regionAt payload length.2 length.1.toNat)).andThen fun suffix =>
        .visit suffix value (length.2 + length.1.toNat) := by
  have opened : walkNode τ payload offset =
      (Walk.ofResult (Cursor.suffixLeafAt τ payload offset)).andThen fun found =>
        .visit found.2.1 found.1 found.2.2 := by
    unfold walkNode openNode
    simp only [kind]
    rcases Cursor.suffixLeafAt τ payload offset with fault | ⟨value, suffix, stop⟩
    · rfl
    · simp [Walk.andThen, Walk.ofResult, Walk.visit, walkBlock_self]
  rw [opened, Cursor.suffixLeafAt_eq]
  simp only [Walk.ofResult_bind, Walk.andThen_assoc]
  rfl

theorem walkNode_branch (kind : Cursor.kindAt payload offset = .ok .branch) :
    walkNode τ payload offset =
      (Walk.ofResult (Cursor.blockAt payload Node.leadBits offset)).andThen fun block =>
        blockWalk τ payload block.1 block.2 := by
  unfold walkNode openNode Cursor.tailAt
  simp only [kind, Machine.ok_bind]
  rfl

theorem walkNode_valueBranch (kind : Cursor.kindAt payload offset = .ok .valueBranch) :
    walkNode τ payload offset =
      (Walk.ofResult (Cursor.integerAt payload Node.leadBits offset)).andThen fun integer =>
      (Walk.ofResult (Cursor.valueAt τ payload integer.1 integer.2)).andThen fun value =>
      (Walk.visit [] value ()).andThen fun _ =>
      (Walk.ofResult (Cursor.advance payload integer.2 (τ.payloadLength integer.1))).andThen
        fun past =>
      (Walk.ofResult (Cursor.blockAt payload 8 past)).andThen fun block =>
        blockWalk τ payload block.1 block.2 := by
  unfold walkNode openNode Cursor.leadValue Cursor.tailAt Cursor.afterValue
  simp only [kind, Machine.ok_bind]
  rcases Cursor.integerAt payload Node.leadBits offset with fault | ⟨head, next⟩
  · rfl
  · simp only [Machine.ok_bind, Walk.ofResult, Walk.andThen]
    cases Cursor.valueAt τ payload head next with
    | error fault => rfl
    | ok value =>
        cases Cursor.advance payload next (τ.payloadLength head) with
        | error fault => rfl
        | ok past =>
            simp only [Machine.ok_bind, Walk.visit]
            cases Cursor.blockAt payload 8 past <;> rfl

end Kinds

end Trie

namespace Machine

open Trie (blockWalk)

variable {α : Type} [Payload α] {width : Nat} {τ : ValueType} {payload : α}
  {β γ : Type} {tour : Tour τ} {fuel offset stop : Nat}

/-- The tour after visits to keys below where it is. -/
def Tour.add (tour : Tour τ) (visited : List (Bytes × τ.Value)) : Tour τ :=
  { tour with visited := tour.visited ++ visited.map fun entry => (tour.key ++ entry.1, entry.2) }

@[simp] theorem Tour.add_nil : tour.add [] = tour := by
  simp [Tour.add]

theorem Tour.add_add (first second : List (Bytes × τ.Value)) :
    (tour.add first).add second = tour.add (first ++ second) := by
  simp [Tour.add]

section Following

/-- The machine visits what the walk visits, and ends as the walk does. -/
inductive Follows (tour : Tour τ) (walk : Walk τ β) (run : EStateM Halt (Tour τ) β) : Prop where
  | done {result : β} (ended : walk.outcome = .ok result)
      (ran : run tour = .ok result (tour.add walk.visited))
  | stopped {fault : Corruption} {after : Tour τ} (ended : walk.outcome = .error fault)
      (ran : run tour = .error (.corruption fault) after)
      (same : after.visited = (tour.add walk.visited).visited)

theorem follows_fail {fault : Corruption} {run : EStateM Halt (Tour τ) β}
    (ran : run tour = .error (.corruption fault) tour) : Follows tour (.fail fault) run :=
  .stopped rfl ran (by simp [Walk.fail])

theorem Follows.andThen {walk : Walk τ β} {next : β → Walk τ γ}
    {run : EStateM Halt (Tour τ) β} {resume : β → EStateM Halt (Tour τ) γ}
    (first : Follows tour walk run)
    (later : ∀ result, walk.outcome = .ok result →
      Follows (tour.add walk.visited) (next result) (resume result)) :
    Follows tour (walk.andThen next) (run >>= resume) := by
  cases first with
  | stopped ended ran same =>
      rw [Walk.andThen_of_error ended]
      exact .stopped rfl (by simp only [bind, EStateM.bind, ran]) same
  | done ended ran =>
      rw [Walk.andThen_of_ok ended]
      cases later _ ended with
      | done endedLater ranLater =>
          refine .done endedLater ?_
          simp only [bind, EStateM.bind, ran, ranLater, Tour.add_add]
      | stopped endedLater ranLater same =>
          rw [Tour.add_add] at same
          refine .stopped endedLater ?_ same
          simp only [bind, EStateM.bind, ran, ranLater]

theorem follows_lift (result : Except Corruption β) :
    Follows tour (.ofResult result) (liftExcept (lift result)) := by
  cases result with
  | error fault => exact follows_fail rfl
  | ok result =>
      refine .done rfl ?_
      simp [Walk.ofResult, liftExcept, pure, EStateM.pure]

theorem follows_read {first : Except Corruption β} {next : β → Walk τ γ}
    {resume : β → EStateM Halt (Tour τ) γ}
    (later : ∀ result, first = .ok result → Follows tour (next result) (resume result)) :
    Follows tour ((Walk.ofResult first).andThen next) (liftExcept (lift first) >>= resume) := by
  apply (follows_lift first).andThen
  intro result found
  have unchanged : tour.add (Walk.ofResult first : Walk τ β).visited = tour := Tour.add_nil
  rw [unchanged]
  exact later result found

theorem follows_visit (value : τ.Value) :
    Follows tour (.visit [] value ()) (modify fun tour => tour.visit value) := by
  refine .done rfl ?_
  simp [Tour.add, Tour.visit, Walk.visit, modify, modifyGet, MonadStateOf.modifyGet,
    EStateM.modifyGet]

/-- The key that is carried is part of the bytes that were passed, so a buffer takes it. -/
theorem extendKey_eq_ok (fits : Addressable width payload) (tour : Tour τ) (bytes : Bytes)
    (inside : tour.key.length + bytes.length ≤ size payload) :
    extendKey width τ bytes tour = .ok () { tour with key := tour.key ++ bytes } := by
  have short := fits.short
  rw [extendKey, if_pos (by omega)]

theorem follows_suffix (fits : Addressable width payload) {suffix : Bytes} (value : τ.Value)
    {next : Nat} (inside : next + suffix.length ≤ size payload)
    (earlier : tour.key.length ≤ next) :
    Follows tour (.visit suffix value (next + suffix.length)) (do
      let base := (← get).key.length
      extendKey width τ suffix
      modify fun tour => (tour.visit value).truncate base
      liftExcept (add width next suffix.length)) := by
  have extended := extendKey_eq_ok fits tour suffix (by omega)
  have added : add width next suffix.length = .ok (next + suffix.length) :=
    fits.add_eq_ok (by omega)
  refine .done rfl ?_
  rw [added]
  simp only [bind, EStateM.bind, get, getThe, MonadStateOf.get, EStateM.get, extended]
  simp [modify, modifyGet, MonadStateOf.modifyGet, EStateM.modifyGet, liftExcept, pure,
    EStateM.pure, Tour.visit, Tour.truncate, Tour.add, Walk.visit]

theorem Follows.under {walk : Walk τ β} {run : EStateM Halt (Tour τ) β} {byte : UInt8}
    (extended : extendKey width τ [byte] tour = .ok () { tour with key := tour.key ++ [byte] })
    (followed : Follows { tour with key := tour.key ++ [byte] } walk run) :
    Follows tour (walk.under byte) (do
      extendKey width τ [byte]
      let result ← run
      modify fun tour => tour.truncate (tour.key.length - 1)
      pure result) := by
  cases followed with
  | done ended ran =>
      refine .done ended ?_
      simp only [bind, EStateM.bind, extended, ran]
      simp [modify, modifyGet, MonadStateOf.modifyGet, EStateM.modifyGet, pure, EStateM.pure,
        Tour.truncate, Tour.add, Walk.under]
  | @stopped fault after ended ran same =>
      have seen : after.visited = (tour.add (walk.under byte).visited).visited := by
        rw [same]
        simp [Tour.add, Walk.under]
      refine .stopped ended ?_ seen
      simp only [bind, EStateM.bind, extended, ran]

end Following

section Steps

/-- A walk that is right about the children blocks it comes to is right about the node. -/
theorem walkNode_follows_of_block (fits : Addressable width payload)
    (below : ∀ tour : Tour τ, tour.key.length ≤ offset → ∀ start stop, offset < start →
      start ≤ stop → stop ≤ size payload →
        Follows tour (blockWalk τ payload start stop) (walkBlock width τ payload fuel start stop))
    (earlier : tour.key.length ≤ offset) :
    Follows tour (Trie.walkNode τ payload offset) (walkNode width τ payload (fuel + 1) offset) := by
  rw [walkNode]
  simp only [byteAt_eq, integerAt_eq fits, valueAt_eq fits, advance_eq fits, regionAt_eq fits,
    blockAt_eq fits]
  cases fetched : Cursor.byteAt payload offset with
  | error fault =>
      rw [Trie.walkNode_of_fault fetched]
      exact follows_fail rfl
  | ok byte =>
      have kind := Cursor.kindAt_of_byteAt_eq_ok fetched
      have lifted : (liftExcept (lift (.ok byte)) : EStateM Halt (Tour τ) UInt8) = pure byte := rfl
      rw [lifted, pure_bind]
      cases kindFound : NodeKind.ofLead byte with
      | leaf =>
          rw [Trie.walkNode_leaf (kindFound ▸ kind)]
          apply follows_read
          intro integer _
          apply follows_read
          intro value _
          apply (follows_visit value).andThen
          intro _ _
          apply follows_lift
      | suffixLeaf =>
          rw [Trie.walkNode_suffixLeaf (kindFound ▸ kind)]
          apply follows_read
          intro integer found
          have forward := Cursor.lt_of_integerAt_eq_ok found
          apply follows_read
          intro value _
          apply follows_read
          intro past advanced
          have later := Cursor.advance_eq_ok_iff.mp advanced
          apply follows_read
          intro length measured
          have beyond := Cursor.lt_of_integerAt_eq_ok measured
          apply follows_read
          intro suffix region
          have inside := Cursor.regionAt_eq_ok region
          rw [← Cursor.length_of_regionAt_eq_ok region] at inside ⊢
          exact follows_suffix fits value inside (by omega)
      | branch =>
          rw [Trie.walkNode_branch (kindFound ▸ kind)]
          apply follows_read
          intro block bounds
          have inside := Cursor.lt_of_blockAt_eq_ok bounds
          exact below tour earlier _ _ inside.1 inside.2.1 inside.2.2
      | valueBranch =>
          rw [Trie.walkNode_valueBranch (kindFound ▸ kind)]
          apply follows_read
          intro integer found
          have forward := Cursor.lt_of_integerAt_eq_ok found
          apply follows_read
          intro value _
          apply (follows_visit value).andThen
          intro _ _
          apply follows_read
          intro past advanced
          have later := Cursor.advance_eq_ok_iff.mp advanced
          apply follows_read
          intro block bounds
          have inside := Cursor.lt_of_blockAt_eq_ok bounds
          exact below (tour.add _) earlier _ _ (by omega) inside.2.1 inside.2.2

theorem walkBlock_follows_of_node (fits : Addressable width payload)
    (child : ∀ tour : Tour τ, tour.key.length ≤ offset + 1 → offset < size payload →
      Follows tour (Trie.walkNode τ payload (offset + 1))
        (walkNode width τ payload fuel (offset + 1)))
    (others : ∀ tour : Tour τ, ∀ next, tour.key.length ≤ next → offset < next →
      next ≤ size payload →
        Follows tour (blockWalk τ payload next stop) (walkBlock width τ payload fuel next stop))
    (earlier : tour.key.length ≤ offset) :
    Follows tour (blockWalk τ payload offset stop)
      (walkBlock width τ payload (fuel + 1) offset stop) := by
  rw [walkBlock]
  rcases Nat.lt_trichotomy offset stop with inside | rfl | beyond
  · rw [if_pos inside, byteAt_eq]
    cases fetched : Cursor.byteAt payload offset with
    | error fault =>
        rw [blockWalk, Trie.walkBlock_of_fault inside fetched]
        exact follows_fail rfl
    | ok byte =>
        have bounded := Cursor.lt_size_of_byteAt_eq_ok fetched
        have extended := extendKey_eq_ok fits tour [byte] (by
          rw [List.length_singleton]
          omega)
        -- the child's part of the step is brought together, with the byte on the key around it
        have parted : (do
            let byte ← liftExcept (lift (.ok byte))
            extendKey width τ [byte]
            let child ← liftExcept (add width offset 1)
            let next ← walkNode width τ payload fuel child
            modify fun tour => tour.truncate (tour.key.length - 1)
            walkBlock width τ payload fuel next stop) = ((do
              extendKey width τ [byte]
              let next ← walkNode width τ payload fuel (offset + 1)
              modify fun tour => tour.truncate (tour.key.length - 1)
              pure next) >>= fun next => walkBlock width τ payload fuel next stop) := by
          simp only [fits.succ_eq_ok bounded, lift_ok, liftExcept, pure_bind, bind_assoc]
        rw [Trie.blockWalk_of_lt inside fetched, parted]
        apply (Follows.under extended (child _ ?_ bounded)).andThen
        · intro next ended
          have forward := Trie.lt_of_outcome_walkNode_eq_ok ended
          exact others (tour.add _) next (Nat.le_trans earlier (by omega)) (by omega) forward.2
        · rw [List.length_append, List.length_singleton]
          omega
  · rw [if_neg (Nat.lt_irrefl _), if_pos rfl, Trie.blockWalk_self]
    exact follows_lift (.ok offset)
  · rw [if_neg (by omega), if_neg (by omega), blockWalk, Trie.walkBlock_of_gt beyond]
    exact follows_fail rfl

end Steps

/-- Each step of the walk moves on in the payload, so the step limit is not met. -/
theorem walk_follows (τ : ValueType) (fits : Addressable width payload) (fuel : Nat) :
    (∀ (tour : Tour τ) offset, tour.key.length ≤ offset → 0 < fuel →
      size payload < fuel + offset →
        Follows tour (Trie.walkNode τ payload offset) (walkNode width τ payload fuel offset)) ∧
      ∀ (tour : Tour τ) offset stop, tour.key.length ≤ offset → offset ≤ size payload →
        size payload < fuel + offset →
          Follows tour (blockWalk τ payload offset stop)
            (walkBlock width τ payload fuel offset stop) := by
  induction fuel with
  | zero =>
      constructor
      · intro tour offset _ started _
        omega
      · intro tour offset stop _ inside enough
        omega
  | succ fuel inductionHypothesis =>
      obtain ⟨nodes, blocks⟩ := inductionHypothesis
      constructor
      · intro tour offset earlier _ enough
        apply walkNode_follows_of_block fits _ earlier
        intro tour carried start stop forward ordered bounded
        exact blocks tour start stop (by omega) (by omega) (by omega)
      · intro tour offset stop earlier inside enough
        apply walkBlock_follows_of_node fits _ _ earlier
        · intro tour carried bounded
          exact nodes tour (offset + 1) carried (by omega) (by omega)
        · intro tour next carried forward bounded
          exact blocks tour next stop carried bounded (by omega)

end Machine

end PackedTrie
