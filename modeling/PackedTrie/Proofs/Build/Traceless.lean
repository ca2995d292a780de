import PackedTrie.Proofs.Build.Order

/-!
Calls that are turned down leave nothing behind in the trie. A builder that is offered only the
accepted entries takes the same steps, so both have the same open nodes all along and close to the
same root, with the same counters but for the repeats that were skipped.
-/

namespace PackedTrie

/-- The counters agree, except perhaps for the number of repeats that were skipped. -/
def Stats.SameButSkipped (stats others : Stats) : Prop :=
  { stats with duplicatesSkipped := 0 } = { others with duplicatesSkipped := 0 }

/-- It makes no difference when the repeats are left out of account. -/
theorem Stats.SameButSkipped.map {stats others : Stats} (same : stats.SameButSkipped others)
    (change : Stats → Stats) (commutes : ∀ stats : Stats,
      { change stats with duplicatesSkipped := 0 } =
        change { stats with duplicatesSkipped := 0 }) :
    (change stats).SameButSkipped (change others) := by
  unfold SameButSkipped at same ⊢
  rw [commutes, commutes, same]

theorem Stats.SameButSkipped.count {τ : ValueType} {stats others : Stats}
    (same : stats.SameButSkipped others) (closing : Closing τ) :
    (closing.count stats).SameButSkipped (closing.count others) := by
  apply same.map fun stats => closing.count stats
  intro stats
  rcases closing with _ | _ | ⟨_ | _, _, _ | _⟩ <;> rfl

namespace Builder

open Entries Node Sequencing

variable {τ : ValueType} {first second after start : Builder τ}
  {entries : List (Bytes × τ.Value)} {options : Options}

/-- Two builders whose open nodes are the same and will be closed in the same way; they may treat
repeats in different ways, and have skipped a different number of them. -/
structure SameTrie (first second : Builder τ) : Prop where
  reorderChildren : first.options.reorderChildren = second.options.reorderChildren
  serializeThreshold : first.options.serializeThreshold = second.options.serializeThreshold
  root : first.root = second.root
  path : first.path = second.path
  hasPrevious : first.hasPrevious = second.hasPrevious
  stats : first.stats.SameButSkipped second.stats

namespace SameTrie

theorem refl (builder : Builder τ) : SameTrie builder builder :=
  ⟨rfl, rfl, rfl, rfl, rfl, rfl⟩

theorem symm (same : SameTrie first second) : SameTrie second first :=
  ⟨same.reorderChildren.symm, same.serializeThreshold.symm, same.root.symm, same.path.symm,
    same.hasPrevious.symm, same.stats.symm⟩

theorem trans {third : Builder τ} (one : SameTrie first second) (two : SameTrie second third) :
    SameTrie first third :=
  ⟨one.reorderChildren.trans two.reorderChildren,
    one.serializeThreshold.trans two.serializeThreshold, one.root.trans two.root,
    one.path.trans two.path, one.hasPrevious.trans two.hasPrevious, one.stats.trans two.stats⟩

section Steps

theorem closing_eq (same : SameTrie first second) (node : OpenNode τ) :
    node.closing first.options = node.closing second.options := by
  have branches : OpenNode.closingBranch (τ := τ) first.options =
      OpenNode.closingBranch second.options := by
    funext value children
    simp only [OpenNode.closingBranch, same.reorderChildren, same.serializeThreshold]
  simp only [OpenNode.closing, branches]

theorem attach (same : SameTrie first second) (byte : UInt8) (child : Node τ) :
    SameTrie (first.attach byte child) (second.attach byte child) := by
  unfold Builder.attach
  rw [same.path, same.root]
  split <;>
    exact ⟨same.reorderChildren, same.serializeThreshold, rfl, rfl, same.hasPrevious, same.stats⟩

theorem closeDeepest (same : SameTrie first second)
    (closed : Builder.closeDeepest first = .ok () after) :
    ∃ other, Builder.closeDeepest second = .ok () other ∧ SameTrie after other := by
  obtain ⟨byte, node, rest, finished, path, done, rfl⟩ := closeDeepest_eq_ok_iff.mp closed
  rw [same.closing_eq] at done
  refine ⟨_, closeDeepest_eq_ok_iff.mpr
    ⟨byte, node, rest, finished, same.path ▸ path, done, rfl⟩, ?_⟩
  apply SameTrie.attach
  refine ⟨same.reorderChildren, same.serializeThreshold, same.root, rfl, same.hasPrevious, ?_⟩
  rw [same.closing_eq]
  exact same.stats.count (node.closing second.options)

theorem closeLast {count : Nat} (same : SameTrie first second)
    (closed : Builder.closeLast count first = .ok () after) :
    ∃ other, Builder.closeLast count second = .ok () other ∧ SameTrie after other := by
  induction count generalizing first second with
  | zero =>
      cases closed
      exact ⟨second, rfl, same⟩
  | succ count inductionHypothesis =>
      obtain ⟨_, next, deepest, others⟩ := bind_eq_ok_iff.mp closed
      obtain ⟨otherNext, otherDeepest, nextSame⟩ := same.closeDeepest deepest
      obtain ⟨other, otherOthers, afterSame⟩ := inductionHypothesis nextSame others
      exact ⟨other, bind_eq_ok_iff.mpr ⟨(), otherNext, otherDeepest, otherOthers⟩, afterSame⟩

theorem openBelow (same : SameTrie first second) (bytes : Bytes) :
    SameTrie (first.openBelow bytes) (second.openBelow bytes) := by
  refine ⟨same.reorderChildren, same.serializeThreshold, same.root, ?_, same.hasPrevious,
    same.stats⟩
  unfold Builder.openBelow
  rw [same.path]

theorem setValue (same : SameTrie first second) (value : τ.Value) :
    SameTrie (first.setValue value) (second.setValue value) := by
  unfold Builder.setValue
  rw [same.path, same.root]
  split <;>
    exact ⟨same.reorderChildren, same.serializeThreshold, rfl, rfl, same.hasPrevious, same.stats⟩

theorem countKey (same : SameTrie first second) : SameTrie first.countKey second.countKey := by
  refine ⟨same.reorderChildren, same.serializeThreshold, same.root, same.path, rfl, ?_⟩
  rw [stats_countKey, stats_countKey]
  exact same.stats.map (fun stats => { stats with keysAdded := stats.keysAdded + 1 }) fun _ => rfl

theorem accept {common : Nat} {key : Bytes} {value : τ.Value} (same : SameTrie first second)
    (taken : Builder.accept common key value first = .ok () after) :
    ∃ other, Builder.accept common key value second = .ok () other ∧ SameTrie after other := by
  obtain ⟨closed, done, rfl⟩ := accept_eq_ok_iff.mp taken
  obtain ⟨otherClosed, otherDone, closedSame⟩ := same.closeLast done
  rw [same.path] at otherDone
  refine ⟨_, accept_eq_ok_iff.mpr ⟨otherClosed, otherDone, rfl⟩, ?_⟩
  exact ((closedSame.openBelow _).setValue value).countKey

end Steps

section Finishing

theorem closeRoot {root : Node τ} (same : SameTrie first second)
    (closed : Builder.closeRoot first = .ok root after) :
    ∃ other, Builder.closeRoot second = .ok root other ∧
      after.stats.SameButSkipped other.stats := by
  obtain ⟨decided, rfl⟩ := closeRoot_eq_ok_iff.mp closed
  rw [same.closing_eq, same.root] at decided
  refine ⟨_, closeRoot_eq_ok_iff.mpr ⟨decided, rfl⟩, ?_⟩
  rw [same.closing_eq, same.root]
  have counted := same.stats.count (second.root.closing second.options)
  exact counted.map (fun stats => { stats with payloadLength := root.length }) fun _ => rfl

theorem finishWithStats {root : Node τ} {stats : Stats} (same : SameTrie first second)
    (finished : first.finishWithStats = .ok (root, stats)) :
    ∃ others, second.finishWithStats = .ok (root, others) ∧ stats.SameButSkipped others := by
  unfold Builder.finishWithStats at finished ⊢
  split at finished
  next closedRoot after done =>
    cases finished
    obtain ⟨closed, emptied, rooted⟩ := finish_eq_ok_iff.mp done
    obtain ⟨otherClosed, otherEmptied, closedSame⟩ := same.closeLast emptied
    obtain ⟨other, otherRooted, counted⟩ := closedSame.closeRoot rooted
    rw [same.path] at otherEmptied
    have otherDone : finish second = .ok root other :=
      finish_eq_ok_iff.mpr ⟨otherClosed, otherEmptied, otherRooted⟩
    exact ⟨other.stats, by rw [otherDone], counted⟩
  next => contradiction

end Finishing

section Running

theorem holding (same : SameTrie first second) (holding : first.Holding entries) :
    second.Holding entries := by
  obtain ⟨ascending, held, latest⟩ := holding
  unfold Holds at held
  unfold openKey at latest
  rw [same.reorderChildren, same.root, same.path] at held
  rw [same.hasPrevious, same.path] at latest
  exact ⟨ascending, held, latest⟩

theorem placement_eq (same : SameTrie first second) (key : Bytes) :
    first.placement key = second.placement key := by
  unfold placement openKey
  rw [same.hasPrevious, same.path]

theorem called (same : SameTrie first second) : SameTrie first.called second.called :=
  ⟨same.reorderChildren, same.serializeThreshold, same.root, same.path, same.hasPrevious,
    same.stats⟩

end Running

end SameTrie

section Running

variable {key : Bytes} {value : τ.Value}

theorem TurnedDown.sameTrie (turnedDown : TurnedDown first entries key value after) :
    SameTrie first after := by
  rcases turnedDown.untouched with rfl | ⟨position, rfl⟩ <;> exact ⟨rfl, rfl, rfl, rfl, rfl, rfl⟩

theorem Taken.sameTrie (taken : Taken first entries key value (first.offer (key, value)))
    (same : SameTrie first second) (holding : second.Holding entries) :
    Taken second entries key value (second.offer (key, value)) ∧
      SameTrie (first.offer (key, value)) (second.offer (key, value)) := by
  rcases holding.offer_cases key value with otherTaken | turnedDown
  · refine ⟨otherTaken, ?_⟩
    obtain ⟨common, placed, accepted⟩ := taken.accepted
    obtain ⟨otherCommon, otherPlaced, otherAccepted⟩ := otherTaken.accepted
    -- both share the same bytes with the open path, so both close and open the same nodes
    rw [same.placement_eq, otherPlaced] at placed
    cases placed
    obtain ⟨other, simulated, afterSame⟩ := same.called.accept accepted
    cases otherAccepted.symm.trans simulated
    exact afterSame
  · obtain ⟨last, latest, notBeyond⟩ := turnedDown.latest
    exact absurd (taken.beyond last latest) notBeyond

theorem SameTrie.offerAll (same : SameTrie first second) (holding : first.Holding entries)
    (calls : List (Bytes × τ.Value)) :
    SameTrie (first.offerAll calls) (second.offerAll (first.accepted calls)) ∧
      second.accepted (first.accepted calls) = first.accepted calls := by
  induction calls generalizing first second entries with
  | nil => exact ⟨same, rfl⟩
  | cons entry calls inductionHypothesis =>
      obtain ⟨key, value⟩ := entry
      rw [accepted, Builder.offerAll, List.foldl_cons]
      rcases holding.offer_cases key value with taken | turnedDown
      · obtain ⟨otherTaken, afterSame⟩ := taken.sameTrie same (same.holding holding)
        obtain ⟨laterSame, kept⟩ := inductionHypothesis afterSame taken.holding
        rw [if_pos taken.accepts, accepted, if_pos otherTaken.accepts, kept]
        exact ⟨laterSame, rfl⟩
      · -- the second builder is not called at all
        have afterSame := turnedDown.sameTrie.symm.trans same
        rw [turnedDown.accepts]
        exact inductionHypothesis afterSame (turnedDown.holding holding)

end Running

end Builder

end PackedTrie
