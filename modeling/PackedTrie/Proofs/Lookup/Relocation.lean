import PackedTrie.Proofs.Lookup.Traversal
import PackedTrie.Proofs.Payload.Holding
import PackedTrie.Proofs.VarInt.Fetching

/-!
Traversals of a payload that stands inside another one. Whatever a read, a search or a walk finds in
the inner payload, it finds in the outer one at the offset moved accordingly; where it fails in the
inner payload, the outer one may let it go on, so a failing walk visits a part of what the walk
through the outer payload visits.
-/

namespace PackedTrie

open Payload

namespace Cursor

section Carries

variable {β γ δ ε : Type} {move : β → γ} {next : δ → ε}

/-- What the first read gives, the second one gives too, moved. -/
def Carries (move : β → γ) (first : Except Corruption β) (second : Except Corruption γ) : Prop :=
  ∀ result, first = .ok result → second = .ok (move result)

theorem carries_ok (result : β) : Carries move (.ok result) (.ok (move result)) := by
  intro other same
  cases same
  rfl

theorem Carries.bind {first : Except Corruption β} {second : Except Corruption γ}
    {afterFirst : β → Except Corruption δ} {afterSecond : γ → Except Corruption ε}
    (carried : Carries move first second)
    (later : ∀ result, Carries next (afterFirst result) (afterSecond (move result))) :
    Carries next (first >>= afterFirst) (second >>= afterSecond) := by
  intro result found
  obtain ⟨middle, ended, continued⟩ := bind_eq_ok_iff.mp found
  exact bind_eq_ok_iff.mpr ⟨move middle, carried middle ended, later middle result continued⟩

end Carries

section Reads

variable {α β : Type} [Payload α] [Payload β] {τ : ValueType} {inner : α} {outer : β}
  {shift : Nat}

/-- An offset of the inner payload as one of the outer payload. -/
abbrev moveEnd {γ : Type} (shift : Nat) : γ × Nat → γ × Nat :=
  Prod.map id (shift + ·)

/-- The ends of a block of the inner payload as ones of the outer payload. -/
abbrev moveBlock (shift : Nat) : Nat × Nat → Nat × Nat :=
  Prod.map (shift + ·) (shift + ·)

theorem byte?_of_holds (placed : Holds outer shift (toBytes inner)) (offset : Nat) (byte : UInt8)
    (found : byte? inner offset = some byte) : byte? outer (shift + offset) = some byte := by
  rw [byte?_eq] at found
  rw [placed.byte?_add offset (List.getElem?_eq_some_iff.mp found).1, found]

theorem region?_of_holds (placed : Holds outer shift (toBytes inner)) {offset length : Nat}
    {region : Bytes} (found : region? inner offset length = some region) :
    region? outer (shift + offset) length = some region := by
  obtain ⟨-, size⟩ := le_size_of_region?_eq_some found
  subst size
  exact (placed.trans (holds_of_region?_eq_some found)).region?

theorem byteAt_carries (placed : Holds outer shift (toBytes inner)) (offset : Nat) :
    Carries id (byteAt inner offset) (byteAt outer (shift + offset)) := by
  intro byte found
  cases fetched : byte? inner offset with
  | none => simp [byteAt, fetched] at found
  | some other =>
      simp only [byteAt, fetched, byte?_of_holds placed offset other fetched] at found ⊢
      exact found

theorem kindAt_carries (placed : Holds outer shift (toBytes inner)) (offset : Nat) :
    Carries id (kindAt inner offset) (kindAt outer (shift + offset)) := by
  intro kind found
  cases fetched : byteAt inner offset with
  | error fault => simp [kindAt, fetched] at found
  | ok byte =>
      simp only [kindAt, fetched, byteAt_carries placed offset byte fetched] at found ⊢
      exact found

theorem integerAt_carries (placed : Holds outer shift (toBytes inner)) (bits offset : Nat) :
    Carries (moveEnd shift) (integerAt inner bits offset)
      (integerAt outer bits (shift + offset)) := by
  rintro ⟨value, next⟩ found
  cases integer : VarInt.read? bits (byte? inner) offset with
  | none => simp [integerAt, integer] at found
  | some other =>
      simp only [integerAt, integer] at found
      cases found
      simp only [integerAt, VarInt.read?_of_shift (byte?_of_holds placed) integer]
      rfl

theorem advance_carries (placed : Holds outer shift (toBytes inner)) (offset length : Nat) :
    Carries (shift + ·) (advance inner offset length)
      (advance outer (shift + offset) length) := by
  intro stop found
  have inside := placed.le_size
  rw [← size_eq] at inside
  obtain ⟨rfl, bounded⟩ := advance_eq_ok_iff.mp found
  rw [advance_eq_ok_iff]
  refine ⟨?_, ?_⟩ <;> dsimp only <;> omega

theorem regionAt_carries (placed : Holds outer shift (toBytes inner)) (offset length : Nat) :
    Carries id (regionAt inner offset length) (regionAt outer (shift + offset) length) := by
  intro region found
  cases fetched : region? inner offset length with
  | none => simp [regionAt, fetched] at found
  | some other =>
      simp only [regionAt, fetched, region?_of_holds placed fetched] at found ⊢
      exact found

theorem valueAt_carries (placed : Holds outer shift (toBytes inner)) (head : UInt64)
    (offset : Nat) :
    Carries id (valueAt τ inner head offset) (valueAt τ outer head (shift + offset)) := by
  intro value found
  cases τ with
  | integer => exact found
  | bytes =>
      cases fetched : region? inner offset head.toNat with
      | none => simp [valueAt, ValueType.readValue?, fetched] at found
      | some other =>
          simp only [valueAt, ValueType.readValue?, fetched, region?_of_holds placed fetched]
            at found ⊢
          exact found

theorem afterValue_carries (placed : Holds outer shift (toBytes inner)) (offset : Nat) :
    Carries (shift + ·) (afterValue τ inner offset) (afterValue τ outer (shift + offset)) := by
  apply (integerAt_carries placed Node.leadBits offset).bind
  rintro ⟨head, next⟩
  exact advance_carries placed next (τ.payloadLength head)

theorem leadValue_carries (placed : Holds outer shift (toBytes inner)) (offset : Nat) :
    Carries id (leadValue τ inner offset) (leadValue τ outer (shift + offset)) := by
  apply (integerAt_carries placed Node.leadBits offset).bind
  rintro ⟨head, next⟩
  exact valueAt_carries placed head next

theorem suffixLeafAt_carries (placed : Holds outer shift (toBytes inner)) (offset : Nat) :
    Carries (Prod.map id (moveEnd shift)) (suffixLeafAt τ inner offset)
      (suffixLeafAt τ outer (shift + offset)) := by
  apply (leadValue_carries placed offset).bind
  intro value
  apply (afterValue_carries placed offset).bind
  intro past
  apply (integerAt_carries placed 8 past).bind
  rintro ⟨length, next⟩
  apply (regionAt_carries placed next length.toNat).bind
  rintro suffix result ⟨⟩
  simp [pure, Except.pure, Prod.map, Nat.add_assoc]

theorem blockAt_carries (placed : Holds outer shift (toBytes inner)) (bits offset : Nat) :
    Carries (moveBlock shift) (blockAt inner bits offset)
      (blockAt outer bits (shift + offset)) := by
  apply (integerAt_carries placed bits offset).bind
  rintro ⟨length, start⟩
  apply (advance_carries placed start length.toNat).bind
  intro stop
  exact carries_ok (start, stop)

theorem tailAt_carries (placed : Holds outer shift (toBytes inner)) (offset : Nat) :
    Carries (moveBlock shift) (tailAt τ inner offset) (tailAt τ outer (shift + offset)) := by
  apply (kindAt_carries placed offset).bind
  intro kind
  have valued : Carries (moveBlock shift)
      (afterValue τ inner offset >>= fun next => blockAt inner 8 next)
      (afterValue τ outer (shift + offset) >>= fun next => blockAt outer 8 next) :=
    (afterValue_carries placed offset).bind fun next => blockAt_carries placed 8 next
  cases kind with
  | leaf =>
      apply (afterValue_carries placed offset).bind
      intro stop
      exact carries_ok (stop, stop)
  | suffixLeaf => exact valued
  | branch => exact blockAt_carries placed Node.leadBits offset
  | valueBranch => exact valued

theorem skip_carries (placed : Holds outer shift (toBytes inner)) (offset : Nat) :
    Carries (shift + ·) (skip τ inner offset) (skip τ outer (shift + offset)) := by
  apply (tailAt_carries placed offset).bind
  rintro ⟨start, stop⟩
  exact carries_ok stop

end Reads

end Cursor

namespace Walk

variable {τ : ValueType} {β γ δ ε : Type} {move : β → γ} {next : δ → ε}

/-- The second walk visits at least what the first one does, and just that if the first one ends
well; then it ends at the place moved. -/
structure Extends (move : β → γ) (first : Walk τ β) (second : Walk τ γ) : Prop where
  visited : first.visited <+: second.visited
  finished : ∀ result, first.outcome = .ok result →
    second = ⟨first.visited, .ok (move result)⟩

theorem extends_fail (fault : Corruption) (second : Walk τ γ) :
    Extends move (fail fault) second where
  visited := List.nil_prefix
  finished := by
    intro result ended
    contradiction

theorem extends_of_carries (visited : List (Bytes × τ.Value)) {first : Except Corruption β}
    {second : Except Corruption γ} (carried : Cursor.Carries move first second) :
    Extends move (⟨visited, first⟩ : Walk τ β) ⟨visited, second⟩ where
  visited := List.prefix_rfl
  finished := by
    intro result ended
    rw [carried result ended]

theorem Extends.under {first : Walk τ β} {second : Walk τ γ}
    (extended : Extends move first second) (byte : UInt8) :
    Extends move (first.under byte) (second.under byte) where
  visited := extended.visited.map _
  finished := by
    intro result ended
    rw [extended.finished result ended]
    rfl

theorem Extends.andThen {first : Walk τ β} {second : Walk τ γ}
    {afterFirst : β → Walk τ δ} {afterSecond : γ → Walk τ ε}
    (extended : Extends move first second)
    (later : ∀ result, first.outcome = .ok result →
      Extends next (afterFirst result) (afterSecond (move result))) :
    Extends next (first.andThen afterFirst) (second.andThen afterSecond) := by
  cases ended : first.outcome with
  | error fault =>
      rw [andThen_of_error ended]
      refine ⟨extended.visited.trans ?_, fun result same => by contradiction⟩
      cases beyond : second.outcome with
      | error fault => simp [andThen_of_error beyond]
      | ok result => simp [andThen_of_ok beyond]
  | ok middle =>
      rw [extended.finished middle ended, andThen_of_ok ended, andThen_of_ok rfl]
      have continued := later middle ended
      refine ⟨(List.prefix_append_right_inj _).mpr continued.visited, ?_⟩
      intro result same
      rw [continued.finished result same]

end Walk

namespace Trie

open Cursor

variable {α β : Type} [Payload α] [Payload β] {τ : ValueType} {inner : α} {outer : β}
  {shift : Nat}

theorem scan_carries (placed : Holds outer shift (toBytes inner)) (wanted : UInt8)
    (offset stop : Nat) :
    Carries (Option.map (shift + ·)) (scan τ inner wanted offset stop)
      (scan τ outer wanted (shift + offset) (shift + stop)) := by
  intro result found
  fun_induction scan τ inner wanted offset stop with
  | case1 offset inside fault fetched => contradiction
  | case2 offset inside fetched =>
      cases found
      rw [scan, if_pos (by omega), byteAt_carries placed offset wanted fetched]
      simp [Nat.add_assoc]
  | case3 offset inside byte fetched different fault skipped => contradiction
  | case4 offset inside byte fetched different next skipped inductionHypothesis =>
      have moved : skip τ outer (shift + offset + 1) = .ok (shift + next) :=
        skip_carries placed (offset + 1) next skipped
      rw [scan, if_pos (by omega), byteAt_carries placed offset byte fetched]
      simp only [id, if_neg different]
      split
      next fault failed =>
        rw [moved] at failed
        contradiction
      next other skippedAgain =>
        rw [moved] at skippedAgain
        cases skippedAgain
        exact inductionHypothesis found
  | case5 inside =>
      cases found
      rw [scan]
      simp
  | case6 offset inside different => contradiction

theorem findSuffix_carries (placed : Holds outer shift (toBytes inner)) (key : Bytes)
    (offset : Nat) :
    Carries id (findSuffix τ inner key offset) (findSuffix τ outer key (shift + offset)) := by
  apply (suffixLeafAt_carries placed offset).bind
  rintro ⟨value, suffix, next⟩
  exact carries_ok (if suffix = key then some value else none)

theorem findFrom_carries (placed : Holds outer shift (toBytes inner)) (key : Bytes)
    (offset : Nat) :
    Carries id (findFrom τ inner key offset) (findFrom τ outer key (shift + offset)) := by
  induction key generalizing offset with
  | nil =>
      rw [findFrom, findFrom]
      apply (kindAt_carries placed offset).bind
      have valued : Carries id (some <$> leadValue τ inner offset)
          (some <$> leadValue τ outer (shift + offset)) := by
        intro answer found
        cases value : leadValue τ inner offset with
        | error fault =>
            rw [value] at found
            contradiction
        | ok result =>
            rw [leadValue_carries placed offset result value]
            rw [value] at found
            exact found
      intro kind
      cases kind with
      | leaf => exact valued
      | suffixLeaf => exact findSuffix_carries placed [] offset
      | branch => exact carries_ok none
      | valueBranch => exact valued
  | cons wanted rest inductionHypothesis =>
      rw [findFrom, findFrom]
      apply (kindAt_carries placed offset).bind
      have below : Carries id
          (do let block ← tailAt τ inner offset
              findBelow τ inner wanted rest block.1 block.2)
          (do let block ← tailAt τ outer (shift + offset)
              findBelow τ outer wanted rest block.1 block.2) := by
        apply (tailAt_carries placed offset).bind
        intro block
        apply (scan_carries placed wanted block.1 block.2).bind
        intro found
        cases found with
        | none => exact carries_ok none
        | some child => exact inductionHypothesis child
      intro kind
      cases kind with
      | leaf => exact carries_ok none
      | suffixLeaf => exact findSuffix_carries placed (wanted :: rest) offset
      | branch => exact below
      | valueBranch => exact below

/-- What is visited before the tail is looked for is visited in both payloads. -/
theorem valued_extends (placed : Holds outer shift (toBytes inner)) (offset : Nat) :
    Walk.Extends (moveBlock shift)
      (match leadValue τ inner offset with
        | .error fault => .fail fault
        | .ok value => ⟨[([], value)], tailAt τ inner offset⟩)
      (match leadValue τ outer (shift + offset) with
        | .error fault => .fail fault
        | .ok value => ⟨[([], value)], tailAt τ outer (shift + offset)⟩) := by
  cases found : leadValue τ inner offset with
  | error fault => exact Walk.extends_fail fault _
  | ok value =>
      rw [leadValue_carries placed offset value found]
      exact Walk.extends_of_carries [([], value)] (tailAt_carries placed offset)

theorem openNode_extends (placed : Holds outer shift (toBytes inner)) (offset : Nat) :
    Walk.Extends (moveBlock shift) (openNode τ inner offset)
      (openNode τ outer (shift + offset)) := by
  cases kindFound : kindAt inner offset with
  | error fault =>
      simp only [openNode, kindFound]
      exact Walk.extends_fail fault _
  | ok kind =>
      have kindMoved := kindAt_carries placed offset kind kindFound
      simp only [id] at kindMoved
      cases kind with
      | leaf =>
          simp only [openNode, kindFound, kindMoved]
          exact valued_extends placed offset
      | suffixLeaf =>
          simp only [openNode, kindFound, kindMoved]
          cases found : suffixLeafAt τ inner offset with
          | error fault => exact Walk.extends_fail fault _
          | ok result =>
              obtain ⟨value, suffix, stop⟩ := result
              rw [suffixLeafAt_carries placed offset _ found]
              exact Walk.extends_of_carries [(suffix, value)] (carries_ok (stop, stop))
      | branch =>
          simp only [openNode, kindFound, kindMoved]
          exact Walk.extends_of_carries [] (tailAt_carries placed offset)
      | valueBranch =>
          simp only [openNode, kindFound, kindMoved]
          exact valued_extends placed offset

theorem walkNode_extends (placed : Holds outer shift (toBytes inner)) (offset : Nat) :
    Walk.Extends (shift + ·) (walkNode τ inner offset) (walkNode τ outer (shift + offset)) := by
  refine (walk_induction τ inner
    (fun offset => Walk.Extends (shift + ·) (walkNode τ inner offset)
      (walkNode τ outer (shift + offset)))
    (fun offset stop => Walk.Extends id (walkBlock τ inner offset stop)
      (walkBlock τ outer (shift + offset) (shift + stop))) ?_ ?_ ?_ ?_ ?_).1 offset
  · intro offset below
    apply (openNode_extends placed offset).andThen
    rintro ⟨start, stop⟩ opened
    apply (below start stop opened).andThen
    intro _ _
    exact Walk.extends_of_carries [] (carries_ok stop)
  · intro offset stop byte inside fetched child others
    have moved : byteAt outer (shift + offset) = .ok byte :=
      byteAt_carries placed offset byte fetched
    rw [walkBlock_of_lt inside fetched, walkBlock_of_lt (by omega) moved]
    exact (child.under byte).andThen others
  · intro offset stop fault inside fetched
    rw [walkBlock_of_fault inside fetched]
    exact Walk.extends_fail fault _
  · intro stop
    rw [walkBlock_self, walkBlock_self]
    exact Walk.extends_of_carries [] (carries_ok ())
  · intro offset stop beyond
    rw [walkBlock_of_gt beyond]
    exact Walk.extends_fail _ _

end Trie

end PackedTrie
