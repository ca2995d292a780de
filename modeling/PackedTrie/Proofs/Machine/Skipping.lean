import PackedTrie.Proofs.Lookup.Graph
import PackedTrie.Proofs.Machine.Reads

/-!
Skipping a node ends where a walk through it ends. The skip reads the first fields of the node and
goes by the lengths that these declare; the walk goes through everything and finds out where the
last child ends, but it succeeds only if this is where the fields said. So whatever a walk gets
through, a skip passes over, and a node that was laid out is passed over with any children.
-/

namespace PackedTrie

open Payload

namespace Node

variable {α : Type} [Payload α] {τ : ValueType} {payload : α} {offset : Nat} {node : Node τ}

/-- A node whose fields were laid out for it: it is made from a value, by moving a leaf up, from
children, or by flattening such a node. The children may be any nodes, also bytes that are no
node. -/
inductive LaidOut : Node τ → Prop where
  | leaf (value : τ.Value) : LaidOut (.leaf value)
  | fold {byte : UInt8} {node folded : Node τ} (laidOut : LaidOut node)
      (moved : node.fold byte = .ok folded) : LaidOut folded
  | branch (value : Option τ.Value) (children : List (UInt8 × Node τ)) :
      LaidOut (.branch value children)
  | flatten {node : Node τ} (laidOut : LaidOut node) : LaidOut node.flatten

/-- The first fields of such a node say how long it is, whatever lies below it. -/
theorem LaidOut.skip_eq (laidOut : LaidOut node) (fits : node.Fits)
    (held : Holds payload offset node.serialize) :
    Cursor.skip τ payload offset = .ok (offset + node.length) := by
  induction laidOut with
  | leaf value => exact (opened_leaf fits held).skip_eq
  | fold _ moved _ =>
      obtain ⟨value, suffix, rfl⟩ := fold_eq_ok moved
      exact (opened_suffixLeaf fits held).skip_eq
  | branch value children =>
      obtain ⟨start, ends, -, opened⟩ := opened_branch fits held
      rw [← ends]
      exact opened.skip_eq
  | flatten _ inductionHypothesis =>
      rw [Fits, length_flatten] at fits
      rw [length_flatten]
      exact inductionHypothesis fits held

end Node

namespace Machine

variable {α : Type} [Payload α] {width : Nat} {τ : ValueType} {payload : α}
  {tour after : Tour τ} {fuel offset stop : Nat}

section Runs

variable {β γ : Type}

theorem run_bind_eq_ok_iff {first : EStateM Halt (Tour τ) β}
    {second : β → EStateM Halt (Tour τ) γ} {result : γ} :
    (first >>= second) tour = .ok result after ↔
      ∃ middle between, first tour = .ok middle between ∧
        second middle between = .ok result after := by
  simp only [bind, EStateM.bind]
  cases first tour <;> simp

theorem run_read_eq_ok_iff {read : Except Halt β} {result : β} :
    (liftExcept read : EStateM Halt (Tour τ) β) tour = .ok result after ↔
      read = .ok result ∧ tour = after := by
  cases read <;>
    simp [liftExcept, pure, EStateM.pure, throw, throwThe, MonadExceptOf.throw, EStateM.throw]

theorem run_read_bind_eq_ok_iff {read : Except Halt β} {resume : β → EStateM Halt (Tour τ) γ}
    {result : γ} :
    (liftExcept read >>= resume) tour = .ok result after ↔
      ∃ middle, read = .ok middle ∧ resume middle tour = .ok result after := by
  simp only [run_bind_eq_ok_iff, run_read_eq_ok_iff]
  constructor
  · rintro ⟨middle, between, ⟨found, rfl⟩, resumed⟩
    exact ⟨middle, found, resumed⟩
  · rintro ⟨middle, found, resumed⟩
    exact ⟨middle, tour, ⟨found, rfl⟩, resumed⟩

end Runs

section Ends

theorem blockAt_eq_ok_iff {bits start : Nat} :
    blockAt width payload bits offset = .ok (start, stop) ↔
      ∃ length, integerAt width payload bits offset = .ok (length, start) ∧
        advance width payload start length.toNat = .ok stop := by
  simp only [blockAt, Cursor.bind_eq_ok_iff, Prod.exists, pure, Except.pure, Except.ok.injEq,
    Prod.mk.injEq]
  constructor
  · rintro ⟨length, _, opened, _, advanced, rfl, rfl⟩
    exact ⟨length, opened, advanced⟩
  · rintro ⟨length, opened, advanced⟩
    exact ⟨length, start, opened, stop, advanced, rfl, rfl⟩

theorem lt_of_add_eq_ok {left right sum : Nat} (added : add width left right = .ok sum) :
    sum < 2 ^ width := by
  unfold add at added
  split at added
  · cases added
    assumption
  · contradiction

theorem regionAt_eq_ok {length : Nat} {region : Bytes}
    (fetched : regionAt width payload offset length = .ok region) :
    length < 2 ^ width ∧ offset + length ≤ size payload ∧ region.length = length := by
  unfold regionAt region? at fetched
  split at fetched
  · rename_i found
    cases fetched
    split at found
    · exact ⟨‹_›, le_size_of_region?_eq_some found⟩
    · contradiction
  · contradiction

/-- A walk fetches a suffix and adds its length up; both together check what a step past it
checks. -/
theorem advance_of_regionAt_eq_ok {length : Nat} {region : Bytes}
    (fetched : regionAt width payload offset length = .ok region)
    (added : add width offset region.length = .ok stop) :
    advance width payload offset length = .ok stop := by
  obtain ⟨short, inside, rfl⟩ := regionAt_eq_ok fetched
  have word := lt_of_add_eq_ok added
  obtain rfl := add_eq_ok added
  rw [advance, if_pos ⟨short, word, inside⟩]

theorem eq_of_walkBlock_eq_ok {next : Nat}
    (walked : walkBlock width τ payload fuel offset stop tour = .ok next after) : next = stop := by
  -- the children that come before do not matter: only the last step of the block has a result
  induction fuel generalizing offset tour with
  | zero => contradiction
  | succ fuel inductionHypothesis =>
      rw [walkBlock] at walked
      split at walked
      · obtain ⟨byte, -, walked⟩ := run_read_bind_eq_ok_iff.mp walked
        obtain ⟨_, extended, -, walked⟩ := run_bind_eq_ok_iff.mp walked
        obtain ⟨child, -, walked⟩ := run_read_bind_eq_ok_iff.mp walked
        obtain ⟨past, below, -, walked⟩ := run_bind_eq_ok_iff.mp walked
        obtain ⟨_, back, -, walked⟩ := run_bind_eq_ok_iff.mp walked
        exact inductionHypothesis walked
      · split at walked
        · cases walked
          assumption
        · contradiction

theorem exists_advance_of_walkBlock_eq_ok {bits start last : Nat}
    (bounds : blockAt width payload bits offset = .ok (start, last))
    (walked : walkBlock width τ payload fuel start last tour = .ok stop after) :
    ∃ length, integerAt width payload bits offset = .ok (length, start) ∧
      advance width payload start length.toNat = .ok stop := by
  rw [eq_of_walkBlock_eq_ok walked]
  exact blockAt_eq_ok_iff.mp bounds

/-- The fields that a walk reads first are those that a skip reads, in the same places. -/
theorem skip_of_walkNode_eq_ok
    (walked : walkNode width τ payload fuel offset tour = .ok stop after) :
    skip width τ payload offset = .ok stop := by
  cases fuel with
  | zero => contradiction
  | succ fuel =>
      rw [walkNode] at walked
      obtain ⟨lead, fetched, walked⟩ := run_read_bind_eq_ok_iff.mp walked
      rw [skip, fetched, ok_bind]
      cases kind : NodeKind.ofLead lead with
      | leaf =>
          rw [kind] at walked
          obtain ⟨⟨head, next⟩, opened, walked⟩ := run_read_bind_eq_ok_iff.mp walked
          obtain ⟨value, -, walked⟩ := run_read_bind_eq_ok_iff.mp walked
          obtain ⟨_, visited, -, walked⟩ := run_bind_eq_ok_iff.mp walked
          have advanced := (run_read_eq_ok_iff.mp walked).1
          simp only [opened, ok_bind]
          exact advanced
      | suffixLeaf =>
          rw [kind] at walked
          obtain ⟨⟨head, next⟩, opened, walked⟩ := run_read_bind_eq_ok_iff.mp walked
          obtain ⟨value, -, walked⟩ := run_read_bind_eq_ok_iff.mp walked
          obtain ⟨past, passed, walked⟩ := run_read_bind_eq_ok_iff.mp walked
          obtain ⟨⟨length, start⟩, measured, walked⟩ := run_read_bind_eq_ok_iff.mp walked
          obtain ⟨suffix, region, walked⟩ := run_read_bind_eq_ok_iff.mp walked
          obtain ⟨_, same, -, walked⟩ := run_bind_eq_ok_iff.mp walked
          obtain ⟨_, extended, -, walked⟩ := run_bind_eq_ok_iff.mp walked
          obtain ⟨_, visited, -, walked⟩ := run_bind_eq_ok_iff.mp walked
          have added := (run_read_eq_ok_iff.mp walked).1
          simp only [opened, passed, measured, ok_bind]
          exact advance_of_regionAt_eq_ok region added
      | branch =>
          rw [kind] at walked
          obtain ⟨⟨start, last⟩, bounds, walked⟩ := run_read_bind_eq_ok_iff.mp walked
          obtain ⟨length, measured, advanced⟩ := exists_advance_of_walkBlock_eq_ok bounds walked
          simp only [measured, ok_bind]
          exact advanced
      | valueBranch =>
          rw [kind] at walked
          obtain ⟨⟨head, next⟩, opened, walked⟩ := run_read_bind_eq_ok_iff.mp walked
          obtain ⟨value, -, walked⟩ := run_read_bind_eq_ok_iff.mp walked
          obtain ⟨_, visited, -, walked⟩ := run_bind_eq_ok_iff.mp walked
          obtain ⟨past, passed, walked⟩ := run_read_bind_eq_ok_iff.mp walked
          obtain ⟨⟨start, last⟩, bounds, walked⟩ := run_read_bind_eq_ok_iff.mp walked
          obtain ⟨length, measured, advanced⟩ := exists_advance_of_walkBlock_eq_ok bounds walked
          simp only [opened, passed, measured, ok_bind]
          exact advanced

end Ends

theorem Addressable.fits_of_holds {node : Node τ} (fits : Addressable width payload)
    (narrow : width ≤ 64) (held : Holds payload offset node.serialize) : node.Fits := by
  have inside := held.le_size
  rw [Node.length_serialize] at inside
  have short : size payload < 2 ^ 64 :=
    Nat.lt_of_lt_of_le fits.short (Nat.pow_le_pow_right (by decide) (by omega))
  exact Nat.lt_of_le_of_lt (by omega) short

/-- Whatever bytes a walk gets through, a skip from the same offset ends where the walk ended and
nowhere else, in machine words as without bounds on numbers. And wherever a node stands that was
laid out, the skip ends just behind it. -/
theorem skip_agrees_walk (width : Nat) (τ : ValueType) (payload : α) (offset : Nat) :
    (∀ fuel stop (tour after : Tour τ),
      walkNode width τ payload fuel offset tour = .ok stop after →
        ∀ next, skip width τ payload offset = .ok next ↔ next = stop) ∧
    (∀ stop, (Trie.walkNode τ payload offset).outcome = .ok stop →
      ∀ next, Cursor.skip τ payload offset = .ok next ↔ next = stop) ∧
    ∀ node : Node τ, node.LaidOut → Holds payload offset node.serialize →
      (Addressable width payload → width ≤ 64 →
        skip width τ payload offset = .ok (offset + node.length)) ∧
      (node.Fits → Cursor.skip τ payload offset = .ok (offset + node.length)) := by
  refine ⟨?_, ?_, ?_⟩
  · intro fuel stop tour after walked next
    rw [skip_of_walkNode_eq_ok walked, Except.ok.injEq]
    exact eq_comm
  · intro stop walked next
    rw [Trie.skip_of_outcome_walkNode_eq_ok walked, Except.ok.injEq]
    exact eq_comm
  · intro node laidOut held
    constructor
    · intro fits narrow
      rw [skip_eq fits, laidOut.skip_eq (fits.fits_of_holds narrow held) held, lift_ok]
    · intro fits
      exact laidOut.skip_eq fits held

/-- A branch with a value and two children: a flattened branch above a folded leaf, and bytes that
are no node. -/
def brokenBelow : Node .bytes :=
  .branch (some [1, 2])
    [(0x61, (Node.branch none [(0x62, .suffixLeaf [] [0x63])]).flatten), (0x00, .flat 0xFF [0x00])]

/-- That branch behind a stray byte, and in front of another branch, in which an integer is longer
than it has to be. A walk gets through the second branch only. -/
def strayBytes : Bytes :=
  [0x80, 0xE2, 1, 2, 0x89, 0x61, 0xA4, 0x62, 0x60, 0x81, 0x63, 0x00, 0xFF, 0x00,
    0xA4, 0x7A, 0x00, 0x81, 0x07]

theorem skip_agrees_walk_strayBytes :
    walkNode 64 .bytes strayBytes 8 14 {} = .ok 19 { visited := [([0x7A], [7])] } ∧
      (Trie.walkNode .bytes strayBytes 14).outcome = .ok 19 ∧
      brokenBelow.LaidOut ∧ Holds strayBytes 1 brokenBelow.serialize ∧
      Addressable 64 strayBytes ∧ brokenBelow.Fits ∧
      (∀ next, skip 64 .bytes strayBytes 14 = .ok next ↔ next = 19) ∧
      (∀ next, Cursor.skip .bytes strayBytes 14 = .ok next ↔ next = 19) ∧
      skip 64 .bytes strayBytes 1 = .ok (1 + brokenBelow.length) ∧
      Cursor.skip .bytes strayBytes 1 = .ok (1 + brokenBelow.length) ∧
      brokenBelow.length = 13 ∧
      (Trie.walkNode .bytes strayBytes 1).outcome = .error (.valueOutside 13) := by
  have ran : walkNode 64 .bytes strayBytes 8 14 {} =
      .ok 19 { visited := [([0x7A], [7])] } := by cbv
  have ended : (Trie.walkNode .bytes strayBytes 14).outcome = .ok 19 := by cbv
  have failed : (Trie.walkNode .bytes strayBytes 1).outcome = .error (.valueOutside 13) := by cbv
  have laidOut : brokenBelow.LaidOut := .branch _ _
  have held : Holds strayBytes 1 brokenBelow.serialize :=
    ⟨[0x80], [0xA4, 0x7A, 0x00, 0x81, 0x07], by cbv, rfl⟩
  have addressable : Addressable 64 strayBytes := ⟨by decide, by decide⟩
  have length : brokenBelow.length = 13 := by cbv
  have fits : brokenBelow.Fits := by
    rw [Node.Fits, length]
    decide
  obtain ⟨walked, walkedUnbounded, -⟩ := skip_agrees_walk 64 .bytes strayBytes 14
  obtain ⟨-, -, passed⟩ := skip_agrees_walk 64 .bytes strayBytes 1
  obtain ⟨skipped, skippedUnbounded⟩ := passed brokenBelow laidOut held
  exact ⟨ran, ended, laidOut, held, addressable, fits, walked 8 19 _ _ ran,
    walkedUnbounded 19 ended, skipped addressable le_rfl, skippedUnbounded fits, length,
    failed⟩

end Machine

end PackedTrie
