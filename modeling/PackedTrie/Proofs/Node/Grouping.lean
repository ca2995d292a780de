import PackedTrie.Node.OfEntries
import PackedTrie.Proofs.Entries

/-!
Entries told apart by the first bytes of their keys. The groups of an ascending list, put back below
their bytes in order, are the list; an entry added at the end goes into the last group or opens a
new one after it.
-/

namespace PackedTrie.Node

open Entries

variable {V : Type} {byte : UInt8} {rest : Bytes} {value : V} {entries : List (Bytes × V)}

section Tails

@[simp] theorem tails_nil (byte : UInt8) : tails byte ([] : List (Bytes × V)) = [] := rfl

@[simp] theorem tails_cons_nil (byte : UInt8) (value : V) (entries : List (Bytes × V)) :
    tails byte (([], value) :: entries) = tails byte entries := rfl

@[simp] theorem tails_cons_self (byte : UInt8) (rest : Bytes) (value : V)
    (entries : List (Bytes × V)) :
    tails byte ((byte :: rest, value) :: entries) = (rest, value) :: tails byte entries := by
  simp [tails]

theorem tails_cons_of_ne {first : UInt8} (different : first ≠ byte) (rest : Bytes) (value : V)
    (entries : List (Bytes × V)) :
    tails byte ((first :: rest, value) :: entries) = tails byte entries := by
  simp [tails, different]

theorem tails_append (byte : UInt8) (first second : List (Bytes × V)) :
    tails byte (first ++ second) = tails byte first ++ tails byte second :=
  List.filterMap_append

theorem mem_tails : (rest, value) ∈ tails byte entries ↔ (byte :: rest, value) ∈ entries := by
  induction entries with
  | nil => simp
  | cons entry entries inductionHypothesis =>
      obtain ⟨key, found⟩ := entry
      cases key with
      | nil => simp [inductionHypothesis]
      | cons first tail =>
          by_cases same : first = byte
          · subst same
            simp [inductionHypothesis]
          · have other : ¬ byte = first := fun equal => same equal.symm
            simp [tails_cons_of_ne same, inductionHypothesis, other]

theorem lookup_tails (byte : UInt8) (rest : Bytes) (entries : List (Bytes × V)) :
    (tails byte entries).lookup rest = entries.lookup (byte :: rest) := by
  induction entries with
  | nil => rfl
  | cons entry entries inductionHypothesis =>
      obtain ⟨key, found⟩ := entry
      cases key with
      | nil => simpa [List.lookup] using inductionHypothesis
      | cons first tail =>
          by_cases same : first = byte
          · subst same
            simp [List.lookup, inductionHypothesis]
          · have other : (byte == first) = false := beq_false_of_ne fun equal => same equal.symm
            simp [tails_cons_of_ne same, List.lookup, other, inductionHypothesis]

theorem emptyKeyValue?_eq_lookup (entries : List (Bytes × V)) :
    emptyKeyValue? entries = entries.lookup [] := by
  induction entries with
  | nil => rfl
  | cons entry entries inductionHypothesis =>
      obtain ⟨key, found⟩ := entry
      cases key with
      | nil => simp [emptyKeyValue?, List.lookup]
      | cons first tail =>
          rw [emptyKeyValue?] at inductionHypothesis ⊢
          simpa [List.lookup] using inductionHypothesis

theorem emptyKeyValue?_append_cons (entries : List (Bytes × V)) (byte : UInt8) (rest : Bytes)
    (value : V) :
    emptyKeyValue? (entries ++ [(byte :: rest, value)]) = emptyKeyValue? entries := by
  rw [emptyKeyValue?_eq_lookup, emptyKeyValue?_eq_lookup, List.lookup_append]
  simp [List.lookup]

theorem ascending_tails (ascending : Ascending entries) (byte : UInt8) :
    Ascending (tails byte entries) := by
  induction entries with
  | nil => exact List.Pairwise.nil
  | cons entry entries inductionHypothesis =>
      obtain ⟨key, found⟩ := entry
      obtain ⟨smaller, later⟩ := List.pairwise_cons.mp ascending
      cases key with
      | nil => exact inductionHypothesis later
      | cons first tail =>
          by_cases same : first = byte
          · subst same
            rw [tails_cons_self]
            refine List.pairwise_cons.mpr ⟨?_, inductionHypothesis later⟩
            rintro ⟨other, otherValue⟩ member
            have below := smaller (first :: other, otherValue) (mem_tails.mp member)
            rcases List.cons_lt_cons_iff.mp below with less | ⟨-, less⟩
            · exact absurd less (UInt8.lt_irrefl first)
            · exact less
          · rw [tails_cons_of_ne same]
            exact inductionHypothesis later

end Tails

section Groups

/-- For each byte that begins a key, in ascending order, the tails of the keys it begins. -/
def groups (entries : List (Bytes × V)) : List (UInt8 × List (Bytes × V)) :=
  (List.range 256).filterMap fun code =>
    if tails code.toUInt8 entries = [] then none
    else some (code.toUInt8, tails code.toUInt8 entries)

def Ordered (groups : List (UInt8 × List (Bytes × V))) : Prop :=
  groups.Pairwise fun earlier later => earlier.1 < later.1

theorem mem_groups {group : UInt8 × List (Bytes × V)} :
    group ∈ groups entries ↔ group.2 = tails group.1 entries ∧ group.2 ≠ [] := by
  simp only [groups, List.mem_filterMap, List.mem_range]
  constructor
  · rintro ⟨code, -, found⟩
    split at found
    · contradiction
    · cases found
      exact ⟨rfl, by assumption⟩
  · rintro ⟨same, nonempty⟩
    have code : group.1.toNat.toUInt8 = group.1 := UInt8.ofNat_toNat
    refine ⟨group.1.toNat, group.1.toNat_lt, ?_⟩
    rw [code, ← same, if_neg nonempty]

theorem ordered_groups (entries : List (Bytes × V)) : Ordered (groups entries) := by
  refine List.pairwise_filterMap.mpr ?_
  refine List.Pairwise.imp_of_mem ?_ (List.pairwise_lt_range (n := 256))
  intro earlier later earlierMember laterMember below first firstFound second secondFound
  rw [List.mem_range] at earlierMember laterMember
  split at firstFound
  · contradiction
  · split at secondFound
    · contradiction
    · cases firstFound
      cases secondFound
      rw [UInt8.lt_iff_toNat_lt]
      simp only [Nat.toUInt8_eq, UInt8.toNat_ofNat']
      omega

theorem Ordered.nodup {groups : List (UInt8 × List (Bytes × V))} (ordered : Ordered groups) :
    groups.Nodup := by
  refine List.Pairwise.imp ?_ ordered
  rintro earlier later below rfl
  exact UInt8.lt_irrefl _ below

/-- Ordered groups are told apart by what they contain. -/
theorem Ordered.eq_of_mem_iff {first second : List (UInt8 × List (Bytes × V))}
    (firstOrdered : Ordered first) (secondOrdered : Ordered second)
    (same : ∀ group, group ∈ first ↔ group ∈ second) : first = second := by
  refine List.Perm.eq_of_pairwise ?_ firstOrdered secondOrdered
    ((List.perm_ext_iff_of_nodup firstOrdered.nodup secondOrdered.nodup).mpr same)
  intro left right _ _ below above
  exact absurd (UInt8.lt_trans below above) (UInt8.lt_irrefl _)

@[simp] theorem groups_nil : groups ([] : List (Bytes × V)) = [] := by
  apply List.eq_nil_iff_forall_not_mem.mpr
  intro group member
  obtain ⟨same, nonempty⟩ := mem_groups.mp member
  exact nonempty same

@[simp] theorem groups_singleton_nil (value : V) : groups [(([] : Bytes), value)] = [] := by
  apply List.eq_nil_iff_forall_not_mem.mpr
  intro group member
  obtain ⟨same, nonempty⟩ := mem_groups.mp member
  exact nonempty same

theorem tails_append_self (byte : UInt8) (rest : Bytes) (value : V)
    (entries : List (Bytes × V)) :
    tails byte (entries ++ [(byte :: rest, value)]) = tails byte entries ++ [(rest, value)] := by
  rw [tails_append, tails_cons_self, tails_nil]

theorem tails_append_of_ne {first : UInt8} (different : first ≠ byte) (rest : Bytes) (value : V)
    (entries : List (Bytes × V)) :
    tails byte (entries ++ [(first :: rest, value)]) = tails byte entries := by
  rw [tails_append, tails_cons_of_ne different, tails_nil, List.append_nil]

theorem tails_eq_nil_of_lt (beyond : ∀ group ∈ groups entries, group.1 < byte) :
    tails byte entries = [] := by
  apply Classical.byContradiction
  intro nonempty
  exact UInt8.lt_irrefl byte (beyond (byte, tails byte entries) (mem_groups.mpr ⟨rfl, nonempty⟩))

theorem groups_append_of_lt (beyond : ∀ group ∈ groups entries, group.1 < byte) (rest : Bytes)
    (value : V) :
    groups (entries ++ [(byte :: rest, value)]) = groups entries ++ [(byte, [(rest, value)])] := by
  have absent := tails_eq_nil_of_lt beyond
  apply (ordered_groups _).eq_of_mem_iff
  · refine List.pairwise_append.mpr ⟨ordered_groups entries, List.pairwise_singleton _ _, ?_⟩
    intro earlier earlierMember later laterMember
    rw [List.mem_singleton.mp laterMember]
    exact beyond earlier earlierMember
  · rintro ⟨first, tail⟩
    rw [List.mem_append, mem_groups, mem_groups, List.mem_singleton]
    by_cases same : first = byte
    · subst same
      simp only [tails_append_self, absent, List.nil_append, Prod.mk.injEq, true_and]
      constructor
      · exact fun ⟨equal, _⟩ => .inr equal
      · rintro (⟨equal, nonempty⟩ | equal)
        · exact absurd equal nonempty
        · exact ⟨equal, by simp [equal]⟩
    · have other : byte ≠ first := fun equal => same equal.symm
      simp [tails_append_of_ne other, same]

@[simp] theorem groups_singleton_cons (byte : UInt8) (rest : Bytes) (value : V) :
    groups [(byte :: rest, value)] = [(byte, [(rest, value)])] := by
  have beyond : ∀ group ∈ groups ([] : List (Bytes × V)), group.1 < byte := by simp
  simpa using groups_append_of_lt beyond rest value

theorem groups_append_of_eq {before : List (UInt8 × List (Bytes × V))}
    (split : groups entries = before ++ [(byte, tails byte entries)]) (rest : Bytes) (value : V) :
    groups (entries ++ [(byte :: rest, value)]) =
      before ++ [(byte, tails byte entries ++ [(rest, value)])] := by
  have ordered := ordered_groups entries
  rw [split, Ordered, List.pairwise_append] at ordered
  obtain ⟨beforeOrdered, -, below⟩ := ordered
  apply (ordered_groups _).eq_of_mem_iff
  · refine List.pairwise_append.mpr ⟨beforeOrdered, List.pairwise_singleton _ _, ?_⟩
    intro earlier earlierMember later laterMember
    rw [List.mem_singleton.mp laterMember]
    exact below earlier earlierMember (byte, tails byte entries) (List.mem_singleton_self _)
  · rintro ⟨first, tail⟩
    rw [List.mem_append, mem_groups, List.mem_singleton]
    by_cases same : first = byte
    · subst same
      have outside : (first, tail) ∉ before := fun member =>
        UInt8.lt_irrefl first (below (first, tail) member _ (List.mem_singleton_self _))
      simp only [tails_append_self, outside, false_or, Prod.mk.injEq, true_and]
      constructor
      · exact fun ⟨equal, _⟩ => equal
      · exact fun equal => ⟨equal, by simp [equal]⟩
    · have other : byte ≠ first := fun equal => same equal.symm
      have member : (first, tail) ∈ groups entries ↔ (first, tail) ∈ before := by
        rw [split]
        simp [same]
      simp only [tails_append_of_ne other, Prod.mk.injEq, same, false_and, or_false]
      rw [← member, mem_groups]

/-- The group of a byte that no other exceeds is the last one. -/
theorem exists_groups_eq_append (bounded : ∀ group ∈ groups entries, group.1 ≤ byte)
    (nonempty : tails byte entries ≠ []) :
    ∃ before, groups entries = before ++ [(byte, tails byte entries)] := by
  have member : (byte, tails byte entries) ∈ groups entries := mem_groups.mpr ⟨rfl, nonempty⟩
  obtain ⟨before, after, split⟩ := List.append_of_mem member
  have ordered := ordered_groups entries
  rw [split, Ordered, List.pairwise_append, List.pairwise_cons] at ordered
  obtain ⟨-, ⟨above, -⟩, -⟩ := ordered
  have empty : after = [] := by
    apply List.eq_nil_iff_forall_not_mem.mpr
    intro group later
    have inside : group ∈ groups entries := by
      rw [split]
      simp [later]
    exact UInt8.not_lt.mpr (bounded group inside) (above group later)
  exact ⟨before, by rw [split, empty]⟩

/-- No key of an ascending list begins with a byte beyond those that its last key can begin with. -/
theorem lt_of_ascending_append {last : Bytes} (ascending : Ascending (entries ++ [(last, value)]))
    (beyond : ∀ next ∈ last.head?, next < byte) :
    ∀ group ∈ groups (entries ++ [(last, value)]), group.1 < byte := by
  rintro ⟨first, tail⟩ member
  obtain ⟨same, nonempty⟩ := mem_groups.mp member
  obtain ⟨⟨other, otherValue⟩, inside⟩ := List.exists_mem_of_ne_nil _ nonempty
  rw [same] at inside
  rcases List.mem_append.mp (mem_tails.mp inside) with earlier | final
  · have below := (List.pairwise_append.mp ascending).2.2 (first :: other, otherValue) earlier _
      (List.mem_singleton_self _)
    cases last with
    | nil => exact absurd below (List.not_lt_nil _)
    | cons next more =>
        have smaller := beyond next rfl
        rcases List.cons_lt_cons_iff.mp below with less | ⟨rfl, -⟩
        · exact UInt8.lt_trans less smaller
        · exact smaller
  · cases List.mem_singleton.mp final
    exact beyond first rfl

/-- Below an ascending list's last entry no key begins with a greater byte. -/
theorem le_of_ascending_append (ascending : Ascending (entries ++ [(byte :: rest, value)])) :
    ∀ group ∈ groups entries, group.1 ≤ byte := by
  rintro ⟨first, tail⟩ member
  obtain ⟨same, nonempty⟩ := mem_groups.mp member
  obtain ⟨⟨other, otherValue⟩, inside⟩ := List.exists_mem_of_ne_nil _ nonempty
  rw [same] at inside
  have below := (List.pairwise_append.mp ascending).2.2 (first :: other, otherValue)
    (mem_tails.mp inside) _ (List.mem_singleton_self _)
  rcases List.cons_lt_cons_iff.mp below with less | ⟨equal, -⟩
  · exact UInt8.le_of_lt less
  · exact equal ▸ UInt8.le_refl _

end Groups

end PackedTrie.Node
