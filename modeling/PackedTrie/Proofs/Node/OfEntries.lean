import PackedTrie.Proofs.Lookup.Graph
import PackedTrie.Proofs.Node.Grouping

/-!
The trie of a list of entries finds what a lookup in the list finds, and lists the entries. The
children of a branch are the tries of the groups, and the groups put back together are the entries.
-/

namespace PackedTrie.Node

open Entries

variable {τ : ValueType} {reorder : Bool} {entries : List (Bytes × τ.Value)}

section Order

theorem lengths_trans (first second third : UInt8 × Node τ) :
    decide (second.2.length ≤ first.2.length) → decide (third.2.length ≤ second.2.length) →
      decide (third.2.length ≤ first.2.length) := by
  simp only [decide_eq_true_eq]
  omega

theorem lengths_total (first second : UInt8 × Node τ) :
    decide (second.2.length ≤ first.2.length) || decide (first.2.length ≤ second.2.length) := by
  simp only [Bool.or_eq_true, decide_eq_true_eq]
  omega

theorem insertByLength_append {child : UInt8 × Node τ} {longer shorter : List (UInt8 × Node τ)}
    (above : ∀ entry ∈ longer, child.2.length < entry.2.length)
    (below : ∀ entry ∈ shorter, entry.2.length ≤ child.2.length) :
    insertByLength child (longer ++ shorter) = longer ++ child :: shorter := by
  induction longer with
  | nil =>
      cases shorter with
      | nil => rfl
      | cons first others =>
          exact if_pos (below first List.mem_cons_self)
  | cons first others inductionHypothesis =>
      have greater := above first List.mem_cons_self
      rw [List.cons_append, insertByLength, if_neg (Nat.not_le.mpr greater),
        inductionHypothesis fun entry member => above entry (List.mem_cons_of_mem _ member)]
      rfl

/-- Both sorts put a child behind the longer ones and in front of all others. -/
theorem longestFirst_eq_sortByLength (children : List (UInt8 × Node τ)) :
    longestFirst children = sortByLength children := by
  induction children with
  | nil => rw [longestFirst, sortByLength, List.mergeSort_nil]
  | cons child others inductionHypothesis =>
      obtain ⟨longer, shorter, sorted, parted, above⟩ :=
        List.mergeSort_cons lengths_trans lengths_total child others
      have ordered := List.pairwise_mergeSort lengths_trans lengths_total (child :: others)
      rw [sorted] at ordered
      have below := (List.pairwise_cons.mp (List.pairwise_append.mp ordered).2.1).1
      rw [longestFirst, inductionHypothesis, sortByLength, sortByLength, parted, sorted]
      apply insertByLength_append
      · intro entry member
        simpa using above entry member
      · intro entry member
        simpa using below entry member

end Order

section Equations

@[simp] theorem ofEntries_nil : (ofEntries reorder [] : Node τ) = .branch none [] := by
  rw [ofEntries]

@[simp] theorem ofEntries_leaf (value : τ.Value) :
    ofEntries reorder [([], value)] = .leaf value := by
  rw [ofEntries]

@[simp] theorem ofEntries_suffixLeaf (byte : UInt8) (rest : Bytes) (value : τ.Value) :
    ofEntries reorder [(byte :: rest, value)] = .suffixLeaf value (byte :: rest) := by
  rw [ofEntries]
  simp

/-- The children as a branch keeps them: the longer ones first if `reorder` is set. -/
def arrange (reorder : Bool) (children : List (UInt8 × Node τ)) : List (UInt8 × Node τ) :=
  if reorder then sortByLength children else children

def groupTries (reorder : Bool) (groups : List (UInt8 × List (Bytes × τ.Value))) :
    List (UInt8 × Node τ) :=
  groups.map fun group => (group.1, ofEntries reorder group.2)

@[simp] theorem groupTries_nil : groupTries reorder [] = ([] : List (UInt8 × Node τ)) := rfl

@[simp] theorem groupTries_cons (group : UInt8 × List (Bytes × τ.Value))
    (groups : List (UInt8 × List (Bytes × τ.Value))) :
    groupTries reorder (group :: groups) =
      (group.1, ofEntries reorder group.2) :: groupTries reorder groups := rfl

theorem ofEntries_of_two_le (several : 2 ≤ entries.length) :
    ofEntries reorder entries =
      .branch (emptyKeyValue? entries) (arrange reorder (groupTries reorder (groups entries))) := by
  have children : groupTries reorder (groups entries) =
      (List.range 256).filterMap fun code =>
        if tails code.toUInt8 entries = [] then none
        else some (code.toUInt8, ofEntries reorder (tails code.toUInt8 entries)) := by
    rw [groupTries, groups, List.map_filterMap]
    congr 1
    funext code
    split <;> rfl
  rw [children]
  rcases entries with _ | ⟨first, _ | ⟨second, others⟩⟩
  · contradiction
  · simp at several
  · rw [ofEntries]
    · simp [arrange, longestFirst_eq_sortByLength]
    · simp
    · simp
    · simp

/-- Entries are none, or one, or several whose groups are settled already. -/
theorem entries_induction {V : Type} {motive : List (Bytes × V) → Prop} (nil : motive [])
    (single : ∀ key value, motive [(key, value)])
    (several : ∀ entries, 2 ≤ entries.length →
      (∀ group ∈ groups entries, motive group.2) → motive entries)
    (entries : List (Bytes × V)) : motive entries := by
  induction bound : keyBytes entries using Nat.strongRecOn generalizing entries with
  | ind total inductionHypothesis =>
      rcases entries with _ | ⟨⟨key, value⟩, _ | ⟨second, others⟩⟩
      · exact nil
      · exact single key value
      · refine several _ (by simp) ?_
        intro group member
        obtain ⟨same, nonempty⟩ := mem_groups.mp member
        rw [same] at nonempty ⊢
        exact inductionHypothesis _ (bound ▸ keyBytes_tails_lt nonempty) _ rfl

theorem arrange_perm (reorder : Bool) (children : List (UInt8 × Node τ)) :
    (arrange reorder children).Perm children := by
  cases reorder with
  | false => exact .refl _
  | true => exact List.mergeSort_perm children _

/-- Tries of groups are arranged as the groups could have been. -/
theorem arrange_groupTries (reorder : Bool) (groups : List (UInt8 × List (Bytes × τ.Value))) :
    ∃ arranged, arrange reorder (groupTries reorder groups) = groupTries reorder arranged ∧
      arranged.Perm groups ∧ (reorder = false → arranged = groups) := by
  cases reorder with
  | false => exact ⟨groups, rfl, .refl _, fun _ => rfl⟩
  | true =>
      refine ⟨groups.mergeSort fun earlier later =>
        (ofEntries true later.2).length ≤ (ofEntries true earlier.2).length, ?_,
        List.mergeSort_perm groups _, nofun⟩
      apply Eq.symm
      apply List.map_mergeSort
      intro earlier _ later _
      rfl

end Equations

section Search

variable {children : List (UInt8 × Node τ)}

theorem findChild_of_mem (distinct : children.Pairwise fun first second => first.1 ≠ second.1)
    {byte : UInt8} {child : Node τ} (member : (byte, child) ∈ children) (rest : Bytes) :
    findChild children byte rest = child.find rest := by
  induction children with
  | nil => contradiction
  | cons entry others inductionHypothesis =>
      obtain ⟨different, later⟩ := List.pairwise_cons.mp distinct
      cases member with
      | head => rw [findChild, if_pos rfl]
      | tail _ member =>
          rw [findChild, if_neg (different _ member)]
          exact inductionHypothesis later member

theorem findChild_of_not_mem {wanted : UInt8} (absent : ∀ entry ∈ children, entry.1 ≠ wanted)
    (rest : Bytes) : findChild children wanted rest = .ok none := by
  induction children with
  | nil => rw [findChild]
  | cons entry others inductionHypothesis =>
      rw [findChild, if_neg (absent entry List.mem_cons_self)]
      exact inductionHypothesis fun other member => absent other (List.mem_cons_of_mem _ member)

theorem distinct_arrange_groupTries (entries : List (Bytes × τ.Value)) :
    (arrange reorder (groupTries reorder (groups entries))).Pairwise
      fun first second => first.1 ≠ second.1 := by
  rw [(arrange_perm _ _).pairwise_iff fun different => different.symm]
  refine List.pairwise_map.mpr ((ordered_groups entries).imp ?_)
  intro earlier later below same
  exact UInt8.lt_irrefl _ (same ▸ below)

theorem find_ofEntries (reorder : Bool) (entries : List (Bytes × τ.Value)) (key : Bytes) :
    (ofEntries reorder entries).find key = .ok (entries.lookup key) := by
  induction entries using entries_induction generalizing key with
  | nil => cases key <;> simp [Node.find, findChild]
  | single stored value =>
      cases stored with
      | nil => cases key <;> simp [Node.find, List.lookup]
      | cons byte rest =>
          by_cases same : key = byte :: rest
          · simp [Node.find, List.lookup, same]
          · have different : (key == byte :: rest) = false := beq_false_of_ne same
            simp [Node.find, List.lookup, same, different]
  | several entries several inductionHypothesis =>
      rw [ofEntries_of_two_le several]
      cases key with
      | nil => rw [Node.find, emptyKeyValue?_eq_lookup]
      | cons wanted rest =>
          rw [Node.find, ← lookup_tails]
          by_cases empty : tails wanted entries = []
          · rw [empty]
            apply findChild_of_not_mem
            intro entry member same
            obtain ⟨group, inside, rfl⟩ := List.mem_map.mp ((arrange_perm _ _).mem_iff.mp member)
            obtain ⟨tail, nonempty⟩ := mem_groups.mp inside
            exact nonempty (by rw [tail, ← empty]; exact congrArg (tails · entries) same)
          · have inside : (wanted, tails wanted entries) ∈ groups entries :=
              mem_groups.mpr ⟨rfl, empty⟩
            have member : (wanted, ofEntries reorder (tails wanted entries)) ∈
                arrange reorder (groupTries reorder (groups entries)) :=
              (arrange_perm _ _).mem_iff.mpr (List.mem_map.mpr ⟨_, inside, rfl⟩)
            rw [findChild_of_mem (distinct_arrange_groupTries entries) member]
            exact inductionHypothesis _ inside rest

end Search

section Listing

/-- The entries of the groups, with their first bytes again. -/
def regroup {V : Type} (groups : List (UInt8 × List (Bytes × V))) : List (Bytes × V) :=
  groups.flatMap fun group => under group.1 group.2

theorem regroup_groups {V : Type} {entries : List (Bytes × V)} (ascending : Ascending entries) :
    (emptyKeyValue? entries).toList.map (fun value => ([], value)) ++ regroup (groups entries) =
      entries := by
  induction entries using List.reverseRecOn with
  | nil => rw [groups_nil]; rfl
  | append_singleton entries entry inductionHypothesis =>
      obtain ⟨key, value⟩ := entry
      obtain ⟨earlier, -, below⟩ := List.pairwise_append.mp ascending
      have before := inductionHypothesis earlier
      cases key with
      | nil =>
          -- nothing is smaller than the empty key
          have first : entries = [] := by
            apply List.eq_nil_iff_forall_not_mem.mpr
            intro other member
            exact List.not_lt_nil _ (below other member _ (List.mem_singleton_self _))
          rw [first, List.nil_append, groups_singleton_nil]
          rfl
      | cons byte rest =>
          -- the entry opens a group at the end, or goes into the last one
          have bounded := le_of_ascending_append ascending
          rw [emptyKeyValue?_append_cons]
          by_cases opened : tails byte entries = []
          · have beyond : ∀ group ∈ groups entries, group.1 < byte := by
              intro group member
              refine UInt8.lt_of_le_of_ne (bounded group member) ?_
              rintro rfl
              obtain ⟨same, nonempty⟩ := mem_groups.mp member
              exact nonempty (same.trans opened)
            rw [groups_append_of_lt beyond, regroup, List.flatMap_append, ← regroup,
              ← List.append_assoc, before]
            simp
          · obtain ⟨others, split⟩ := exists_groups_eq_append bounded opened
            rw [groups_append_of_eq split, regroup, List.flatMap_append, ← regroup]
            rw [split, regroup, List.flatMap_append, ← regroup] at before
            simp only [List.flatMap_singleton, under_append, under_cons, under_nil] at before ⊢
            rw [← List.append_assoc, ← List.append_assoc]
            rw [← List.append_assoc] at before
            rw [before]

/-- Entries as they are visited: those of the list, and in its order unless children were put in
another one. -/
structure Enumerates {V : Type} (reorder : Bool) (visited entries : List (Bytes × V)) : Prop where
  perm : visited.Perm entries
  same : reorder = false → visited = entries

theorem Enumerates.refl {V : Type} (reorder : Bool) (entries : List (Bytes × V)) :
    Enumerates reorder entries entries :=
  ⟨.refl _, fun _ => rfl⟩

theorem childEntries_groupTries {groups : List (UInt8 × List (Bytes × τ.Value))}
    (listed : ∀ group ∈ groups, ∃ visited, (ofEntries reorder group.2).entries = .ok visited ∧
      Enumerates reorder visited group.2) :
    ∃ visited, childEntries (groupTries reorder groups) = .ok visited ∧
      Enumerates reorder visited (regroup groups) := by
  induction groups with
  | nil => exact ⟨[], by rw [groupTries_nil, childEntries], .refl reorder []⟩
  | cons group groups inductionHypothesis =>
      obtain ⟨first, firstListed, firstEnumerated⟩ := listed group List.mem_cons_self
      obtain ⟨others, othersListed, othersEnumerated⟩ :=
        inductionHypothesis fun other member => listed other (List.mem_cons_of_mem _ member)
      refine ⟨under group.1 first ++ others, ?_, ?_, ?_⟩
      · simp [childEntries, firstListed, othersListed, under, bind, Except.bind, pure, Except.pure]
      · exact (firstEnumerated.perm.map _).append othersEnumerated.perm
      · intro kept
        rw [firstEnumerated.same kept, othersEnumerated.same kept]
        rfl

theorem entries_ofEntries (reorder : Bool) (ascending : Ascending entries) :
    ∃ visited, (ofEntries reorder entries).entries = .ok visited ∧
      Enumerates reorder visited entries := by
  induction entries using entries_induction with
  | nil =>
      refine ⟨[], ?_, .refl reorder []⟩
      simp [Node.entries, childEntries, bind, Except.bind, pure, Except.pure]
  | single key value =>
      refine ⟨[(key, value)], ?_, .refl reorder _⟩
      cases key <;> simp [Node.entries]
  | several entries several inductionHypothesis =>
      obtain ⟨arranged, rearranged, moved, kept⟩ := arrange_groupTries reorder (groups entries)
      have listed : ∀ group ∈ arranged, ∃ visited,
          (ofEntries reorder group.2).entries = .ok visited ∧
            Enumerates reorder visited group.2 := by
        intro group member
        have inside := moved.mem_iff.mp member
        apply inductionHypothesis group inside
        rw [(mem_groups.mp inside).1]
        exact ascending_tails ascending group.1
      obtain ⟨below, belowListed, enumerated⟩ := childEntries_groupTries listed
      refine ⟨(emptyKeyValue? entries).toList.map (fun value => ([], value)) ++ below, ?_, ?_, ?_⟩
      · rw [ofEntries_of_two_le several, Node.entries, rearranged, belowListed]
        rfl
      · have regrouped : (regroup arranged).Perm (regroup (groups entries)) := moved.flatMap_right _
        have whole := (enumerated.perm.trans regrouped).append_left
          ((emptyKeyValue? entries).toList.map fun value => (([] : Bytes), value))
        rwa [regroup_groups ascending] at whole
      · intro order
        rw [enumerated.same order, kept order]
        exact regroup_groups ascending

end Listing

theorem built_suffixLeaf (value : τ.Value) (byte : UInt8) (rest : Bytes) :
    Built (suffixLeaf value (byte :: rest)) := by
  induction rest generalizing byte with
  | nil => exact .fold (.leaf value) rfl
  | cons next rest inductionHypothesis => exact .fold (inductionHypothesis next) rfl

theorem built_ofEntries (reorder : Bool) (entries : List (Bytes × τ.Value)) :
    (ofEntries reorder entries).Built := by
  induction entries using entries_induction with
  | nil =>
      rw [ofEntries_nil]
      exact .branch none [] nofun
  | single key value =>
      cases key with
      | nil =>
          rw [ofEntries_leaf]
          exact .leaf value
      | cons byte rest =>
          rw [ofEntries_suffixLeaf]
          exact built_suffixLeaf value byte rest
  | several entries several inductionHypothesis =>
      rw [ofEntries_of_two_le several]
      refine .branch _ _ ?_
      intro entry member
      obtain ⟨group, inside, rfl⟩ := List.mem_map.mp ((arrange_perm _ _).mem_iff.mp member)
      exact inductionHypothesis group inside

end PackedTrie.Node
