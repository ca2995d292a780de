import PackedTrie.Proofs.Build.Spine

/-!
A builder that takes in ascending entries one after the other ends up with the trie that is made of
them all at once. After each entry its open nodes hold the entries so far, so the root, once all is
closed, lays out as the trie of all entries.
-/

namespace PackedTrie.Builder

open Entries Node Sequencing

variable {τ : ValueType} {builder : Builder τ} {entries : List (Bytes × τ.Value)}

def addAll : List (Bytes × τ.Value) → EStateM Error (Builder τ) Unit
  | [] => pure ()
  | (key, value) :: entries => do
      add key value
      addAll entries

/-- The root of the trie that is built from the entries, offered one after the other. -/
def rootOf (options : Options) (entries : List (Bytes × τ.Value)) : Except Error (Node τ) := do
  let builder ← ofOptions options
  match (addAll entries >>= fun _ => finish).run builder with
  | .ok root _ => pure root
  | .error error _ => throw error

/-- The builder has taken in the entries: its open nodes hold them, and lead to the last key. -/
structure Holding (builder : Builder τ) (entries : List (Bytes × τ.Value)) : Prop where
  ascending : Ascending entries
  held : builder.Holds entries
  latest : (builder.hasPrevious = false ∧ entries = [] ∧ builder.path = []) ∨
    (builder.hasPrevious = true ∧ ∃ earlier value, entries = earlier ++ [(builder.openKey, value)])

theorem holding_start (options : Options) (report : Report) :
    Holding ({ options, report } : Builder τ) [] :=
  ⟨.nil, ⟨rfl, [], by simp, .nil⟩, .inl ⟨rfl, rfl, rfl⟩⟩

section Adding

theorem fst_path (builder : Builder τ) : builder.path.map Prod.fst = builder.openKey.reverse :=
  (List.reverse_reverse _).symm

/-- Nodes opened for the rest of a key hold one entry more. Only the first entry of all may end
where the open nodes end. -/
theorem holds_openBelow (held : builder.Holds entries) {rest : Bytes} (value : τ.Value)
    (fresh : rest = [] → entries = [] ∧ builder.path = [])
    (beyond : ∀ byte ∈ rest.head?, ∀ group ∈ groups (descend builder.openKey.reverse entries),
      group.1 < byte) :
    ((builder.openBelow rest).setValue value).Holds
      (entries ++ [(builder.openKey ++ rest, value)]) := by
  rw [Holds, options_setValue]
  cases rest with
  | nil =>
      obtain ⟨rfl, bare⟩ := fresh rfl
      obtain ⟨options, root, path⟩ := builder
      simp only at bare
      subst bare
      exact Level.set held value
  | cons byte rest =>
      have smaller := beyond byte rfl
      rw [← fst_path] at smaller
      exact spine_extend held smaller rest value

theorem accept_holding (holding : builder.Holding entries) {shared rest : Bytes} {value : τ.Value}
    (ascending : Ascending (entries ++ [(shared ++ rest, value)]))
    (common : builder.openKey.take shared.length = shared)
    (fresh : rest = [] → entries = [] ∧ shared = [])
    (beyond : ∀ byte ∈ rest.head?, ∀ group ∈ groups (descend shared.reverse entries),
      group.1 < byte) :
    ∃ after, accept shared.length (shared ++ rest) value builder = .ok () after ∧
      after.options = builder.options ∧ after.Holding (entries ++ [(shared ++ rest, value)]) := by
  obtain ⟨closed, done, options, key, held⟩ :=
    closeLast_holds holding.ascending holding.held (builder.path.length - shared.length)
      (Nat.sub_le _ _)
  have kept : closed.openKey = shared := by
    rw [key, ← common, List.take_eq_take_iff, length_openKey, List.length_take, length_openKey]
    omega
  have opened : ((closed.openBelow rest).setValue value).Holds
      (entries ++ [(shared ++ rest, value)]) := by
    rw [← kept]
    apply holds_openBelow held
    · intro empty
      obtain ⟨none, rfl⟩ := fresh empty
      refine ⟨none, ?_⟩
      rw [← List.length_eq_zero_iff, ← length_openKey, kept, List.length_nil]
    · rw [kept]
      exact beyond
  refine ⟨((closed.openBelow rest).setValue value).countKey, ?_, ?_, ascending, opened, ?_⟩
  · have closing : accept shared.length (shared ++ rest) value builder =
        .ok () ((closed.openBelow ((shared ++ rest).drop shared.length)).setValue value).countKey :=
      bind_of_ok done
    rw [closing, List.drop_left]
  · exact (options_setValue _ _).trans options
  · refine .inr ⟨rfl, entries, value, ?_⟩
    have last : ((closed.openBelow rest).setValue value).countKey.openKey = shared ++ rest := by
      rw [← kept, ← openKey_openBelow]
      exact openKey_setValue _ value
    rw [last]

theorem addAt_of_after {key : Bytes} {common : Nat}
    (placed : builder.placement key = .after common) (value : τ.Value) (position : Nat) :
    addAt key value position builder = accept common key value builder := by
  simp only [addAt, bind, EStateM.bind, get, getThe, MonadStateOf.get, EStateM.get, placed]

theorem addAt_holding (holding : builder.Holding entries) {key : Bytes} {value : τ.Value}
    (ascending : Ascending (entries ++ [(key, value)])) (position : Nat) :
    ∃ after, addAt key value position builder = .ok () after ∧ after.options = builder.options ∧
      after.Holding (entries ++ [(key, value)]) := by
  rcases holding.latest with ⟨first, rfl, empty⟩ | ⟨previous, earlier, last, rfl⟩
  · have placed : builder.placement key = .after 0 := by simp [placement, first]
    rw [addAt_of_after placed]
    have opened : Ascending ([] ++ [(([] : Bytes) ++ key, value)]) := ascending
    exact accept_holding holding opened rfl (fun _ => ⟨rfl, rfl⟩) (by simp [descend])
  · have above : builder.openKey < key :=
      (List.pairwise_append.mp ascending).2.2 (builder.openKey, last) (by simp) _
        (List.mem_singleton_self _)
    obtain ⟨shared, dropped, byte, rest, split, rfl, smaller, placed⟩ :=
      Placement.ofKeys_of_lt above 0
    have after : builder.placement (shared ++ byte :: rest) = .after shared.length := by
      rw [placement, if_pos previous, placed, Nat.zero_add]
    rw [addAt_of_after after]
    apply accept_holding holding ascending
    · rw [split, List.take_left]
    · intro empty
      contradiction
    · -- below the shared bytes the last entry is what the previous key goes on with
      intro next first
      cases first
      have bounded := ascending_descend holding.ascending shared.reverse
      have parted := descend_append shared.reverse dropped last earlier
      rw [List.reverse_reverse, ← split] at parted
      rw [parted] at bounded ⊢
      exact lt_of_ascending_append bounded smaller

theorem Holding.offer (holding : builder.Holding entries) (offered : Nat) :
    Holding { builder with offered } entries :=
  ⟨holding.ascending, holding.held, holding.latest⟩

theorem addAll_holding (holding : builder.Holding entries) {more : List (Bytes × τ.Value)}
    (ascending : Ascending (entries ++ more)) :
    ∃ after, addAll more builder = .ok () after ∧ after.options = builder.options ∧
      after.Holding (entries ++ more) := by
  induction more generalizing builder entries with
  | nil => exact ⟨builder, rfl, rfl, by rwa [List.append_nil]⟩
  | cons entry more inductionHypothesis =>
      obtain ⟨key, value⟩ := entry
      rw [List.append_cons] at ascending ⊢
      obtain ⟨next, added, nextOptions, nextHolding⟩ :=
        addAt_holding (holding.offer (builder.offered + 1)) (List.pairwise_append.mp ascending).1
          (builder.offered + 1)
      obtain ⟨after, done, options, afterHolding⟩ := inductionHypothesis nextHolding ascending
      refine ⟨after, ?_, options.trans nextOptions, afterHolding⟩
      have offered : add key value builder = .ok () next := added
      rw [addAll, bind_of_ok offered, done]

end Adding

theorem finish_holding (holding : builder.Holding entries) :
    ∃ root after, finish builder = .ok root after ∧
      root.serialize = (ofEntries builder.options.reorderChildren entries).serialize := by
  obtain ⟨closed, done, options, key, held⟩ :=
    closeLast_holds holding.ascending holding.held builder.path.length le_rfl
  have bare : closed.path = [] := by
    rw [← List.length_eq_zero_iff, ← length_openKey, key, length_openKey, Nat.sub_self,
      List.take_zero, List.length_nil]
  rw [Holds, bare] at held
  obtain ⟨root, decided, complete⟩ := Level.exists_closing held holding.ascending
  rw [options] at complete
  refine ⟨root, ?_⟩
  have closing : finish builder = closeRoot closed := bind_of_ok done
  rw [closing, closeRoot, OpenNode.close_of_node_eq_ok decided]
  exact ⟨_, rfl, complete.bytes⟩

theorem ofOptions_eq_ok {options : Options} (valid : 1 ≤ options.serializeThreshold) :
    (ofOptions options : Except Error (Builder τ)) = .ok { options } := by
  have positive : options.serializeThreshold ≠ 0 := by omega
  simp [ofOptions, Options.validate, positive, bind, Except.bind, pure, Except.pure]

theorem valid_of_ofOptions_eq_ok {options : Options} {start : Builder τ}
    (made : ofOptions options = .ok start) : 1 ≤ options.serializeThreshold := by
  by_contra invalid
  have zero : options.serializeThreshold = 0 := by omega
  simp [ofOptions, Options.validate, zero, bind, Except.bind] at made

theorem exists_rootOf_eq_ok {options : Options} (valid : 1 ≤ options.serializeThreshold)
    (ascending : Ascending entries) :
    ∃ root, rootOf options entries = .ok root ∧
      root.serialize = (ofEntries options.reorderChildren entries).serialize := by
  have offered : Ascending ([] ++ entries) := ascending
  obtain ⟨added, accepted, kept, holding⟩ := addAll_holding (holding_start options {}) offered
  obtain ⟨root, after, finished, bytes⟩ := finish_holding holding
  rw [kept] at bytes
  refine ⟨root, ?_, bytes⟩
  have closing : (addAll entries >>= fun _ => finish).run { options } = .ok root after :=
    (bind_of_ok accepted).trans finished
  simp only [rootOf, ofOptions_eq_ok valid, bind, Except.bind] at closing ⊢
  rw [closing]
  rfl

/-- Offering ascending entries one by one builds the trie that is made of them all at once: no key
is turned down, closing succeeds, and the root has the same bytes and is of the same kind. -/
theorem rootOf_refines_ofEntries {options : Options} (valid : 1 ≤ options.serializeThreshold)
    (ascending : Ascending entries) :
    ∃ root, rootOf options entries = .ok root ∧
      root.serialize = (ofEntries options.reorderChildren entries).serialize ∧
        root.kind = (ofEntries options.reorderChildren entries).kind := by
  obtain ⟨root, built, bytes⟩ := exists_rootOf_eq_ok valid ascending
  exact ⟨root, built, bytes, kind_eq_of_serialize_eq bytes⟩

/-- Keys that begin one another, the empty one among them, and keys that part late. -/
def nestedEntries : List (Bytes × ValueType.integer.Value) :=
  [([], (1 : UInt64)), ([0x00], (300 : UInt64)), ([0x61], (2 : UInt64)),
    ([0x61, 0x62, 0x63], (70000 : UInt64)), ([0x61, 0x62, 0x64], (5 : UInt64)),
    ([0xFF, 0xFF], (9 : UInt64))]

def nestedOptions : Options where
  reorderChildren := true
  serializeThreshold := 4
  duplicatePolicy := .skip
  progressInterval := 2

theorem ascending_nested : Ascending nestedEntries := by decide

theorem rootOf_refines_ofEntries_nested :
    1 ≤ nestedOptions.serializeThreshold ∧ Ascending nestedEntries ∧
      ∃ root, rootOf nestedOptions nestedEntries = .ok root ∧
        root.serialize = (ofEntries true nestedEntries).serialize ∧
          root.kind = (ofEntries true nestedEntries).kind := by
  have valid : 1 ≤ nestedOptions.serializeThreshold := by decide
  exact ⟨valid, ascending_nested, rootOf_refines_ofEntries valid ascending_nested⟩

end PackedTrie.Builder
