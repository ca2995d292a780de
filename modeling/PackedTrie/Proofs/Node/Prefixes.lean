import PackedTrie.Proofs.Node.OfEntries

/-!
The nodes of a trie, each known by the bytes that lead to it. These are the bytes with which keys
begin. What lies at such a node is the trie of the entries below the bytes, so its kind depends only
on how many keys begin with them, and on whether they are a key themselves.
-/

namespace PackedTrie.Entries

open Node

variable {V : Type} {entries : List (Bytes × V)} {bytes : Bytes}

def keys (entries : List (Bytes × V)) : List Bytes :=
  entries.map Prod.fst

/-- How many keys begin with the bytes. -/
def sharing (entries : List (Bytes × V)) (bytes : Bytes) : Nat :=
  (keys entries).countP fun key => bytes <+: key

/-- The bytes with which keys begin, the keys among them. -/
def prefixes (entries : List (Bytes × V)) : Finset Bytes :=
  ((keys entries).flatMap List.inits).toFinset

/-- The entries whose keys begin with the bytes, with the rest of their keys. -/
def below : Bytes → List (Bytes × V) → List (Bytes × V)
  | [], entries => entries
  | byte :: bytes, entries => below bytes (tails byte entries)

section Keys

theorem mem_keys {key : Bytes} : key ∈ keys entries ↔ ∃ value, (key, value) ∈ entries := by
  simp [keys]

theorem mem_prefixes : bytes ∈ prefixes entries ↔ ∃ key ∈ keys entries, bytes <+: key := by
  simp [prefixes]

theorem mem_prefixes_of_isPrefix {longer : Bytes} (leads : longer ∈ prefixes entries)
    (begins : bytes <+: longer) : bytes ∈ prefixes entries := by
  obtain ⟨key, member, longerBegins⟩ := mem_prefixes.mp leads
  exact mem_prefixes.mpr ⟨key, member, begins.trans longerBegins⟩

@[simp] theorem keys_cons (entry : Bytes × V) (entries : List (Bytes × V)) :
    keys (entry :: entries) = entry.1 :: keys entries := rfl

theorem keys_append (first second : List (Bytes × V)) :
    keys (first ++ second) = keys first ++ keys second :=
  List.map_append

theorem Ascending.nodup_keys (ascending : Ascending entries) : (keys entries).Nodup := by
  refine List.pairwise_map.mpr (ascending.imp ?_)
  intro earlier later smaller same
  exact List.lt_irrefl later.1 (same ▸ smaller)

theorem sharing_pos_iff : 0 < sharing entries bytes ↔ bytes ∈ prefixes entries := by
  rw [sharing, List.countP_pos_iff, mem_prefixes]
  simp

theorem sharing_le_length (entries : List (Bytes × V)) (bytes : Bytes) :
    sharing entries bytes ≤ entries.length :=
  List.countP_le_length.trans_eq (List.length_map _)

theorem Ascending.not_lt_of_lastKey? {last key : Bytes} (ascending : Ascending entries)
    (latest : lastKey? entries = some last) (member : key ∈ keys entries) : ¬ last < key := by
  rcases List.eq_nil_or_concat' entries with rfl | ⟨earlier, entry, rfl⟩
  · contradiction
  · rw [lastKey?_append_singleton, Option.some.injEq] at latest
    subst latest
    rw [keys_append, List.mem_append] at member
    rcases member with before | same
    · obtain ⟨value, stored⟩ := mem_keys.mp before
      have smaller := (List.pairwise_append.mp ascending).2.2 _ stored entry
        (List.mem_singleton_self entry)
      exact List.lt_asymm smaller
    · rw [List.mem_singleton.mp same]
      exact List.lt_irrefl _

/-- What a key beyond all others has in common with any of them it has in common with the last of
them. -/
theorem isPrefix_of_beyond {shared dropped rest : Bytes} {byte : UInt8}
    (ascending : Ascending entries) (latest : lastKey? entries = some (shared ++ dropped))
    (smaller : ∀ next ∈ dropped.head?, next < byte) (leads : bytes ∈ prefixes entries)
    (begins : bytes <+: shared ++ byte :: rest) : bytes <+: shared := by
  have fresh : shared ++ [byte] ∉ prefixes entries := by
    intro found
    obtain ⟨key, member, more, rfl⟩ := mem_prefixes.mp found
    apply ascending.not_lt_of_lastKey? latest member
    rw [List.append_assoc]
    apply List.append_left_lt
    cases dropped with
    | nil => exact List.nil_lt_cons byte more
    | cons next dropped => exact List.cons_lt_cons_iff.mpr (.inl (smaller next rfl))
  have parts : shared ++ [byte] <+: shared ++ byte :: rest := ⟨rest, by simp⟩
  rcases List.prefix_or_prefix_of_prefix begins parts with short | long
  · rcases List.prefix_concat_iff.mp short with rfl | inside
    · contradiction
    · exact inside
  · exact absurd (mem_prefixes_of_isPrefix leads long) fresh

end Keys

section Below

theorem mem_below {rest : Bytes} {value : V} :
    (rest, value) ∈ below bytes entries ↔ (bytes ++ rest, value) ∈ entries := by
  induction bytes generalizing entries with
  | nil => rfl
  | cons byte bytes inductionHypothesis => rw [below, inductionHypothesis, mem_tails]; rfl

theorem below_append (bytes : Bytes) (first second : List (Bytes × V)) :
    below bytes (first ++ second) = below bytes first ++ below bytes second := by
  induction bytes generalizing first second with
  | nil => rfl
  | cons byte bytes inductionHypothesis => rw [below, tails_append, inductionHypothesis]; rfl

theorem below_below (first second : Bytes) (entries : List (Bytes × V)) :
    below second (below first entries) = below (first ++ second) entries := by
  induction first generalizing entries with
  | nil => rfl
  | cons byte first inductionHypothesis => exact inductionHypothesis (tails byte entries)

theorem below_singleton (bytes rest : Bytes) (value : V) :
    below bytes [(bytes ++ rest, value)] = [(rest, value)] := by
  induction bytes with
  | nil => rfl
  | cons byte bytes inductionHypothesis =>
      rw [List.cons_append, below, tails_cons_self, tails_nil, inductionHypothesis]

theorem below_singleton_of_not_isPrefix {key : Bytes} (other : ¬ bytes <+: key) (value : V) :
    below bytes [(key, value)] = [] := by
  apply List.eq_nil_iff_forall_not_mem.mpr
  rintro ⟨rest, found⟩ member
  cases List.mem_singleton.mp (mem_below.mp member)
  exact other (List.prefix_append bytes rest)

theorem length_below (bytes : Bytes) (entries : List (Bytes × V)) :
    (below bytes entries).length = sharing entries bytes := by
  induction entries with
  | nil =>
      have none : below bytes ([] : List (Bytes × V)) = [] := by
        apply List.eq_nil_iff_forall_not_mem.mpr
        rintro ⟨rest, value⟩ member
        exact List.not_mem_nil (mem_below.mp member)
      rw [none]
      rfl
  | cons entry entries inductionHypothesis =>
      obtain ⟨key, value⟩ := entry
      have parted : below bytes ((key, value) :: entries) =
          below bytes [(key, value)] ++ below bytes entries := below_append bytes [_] entries
      rw [parted, List.length_append, inductionHypothesis, sharing, sharing, keys_cons,
        List.countP_cons]
      by_cases begins : bytes <+: key
      · obtain ⟨rest, rfl⟩ := begins
        simp [below_singleton, Nat.add_comm]
      · simp [below_singleton_of_not_isPrefix begins, begins]

theorem ascending_below (ascending : Ascending entries) (bytes : Bytes) :
    Ascending (below bytes entries) := by
  induction bytes generalizing entries with
  | nil => exact ascending
  | cons byte bytes inductionHypothesis =>
      exact inductionHypothesis (ascending_tails ascending byte)

theorem nil_mem_keys_below : [] ∈ keys (below bytes entries) ↔ bytes ∈ keys entries := by
  simp only [mem_keys, mem_below, List.append_nil]

end Below

section Kind

variable {τ : ValueType} {entries : List (Bytes × τ.Value)}

theorem emptyKeyValue?_eq_none_iff : emptyKeyValue? entries = none ↔ [] ∉ keys entries := by
  rw [emptyKeyValue?_eq_lookup, List.lookup_eq_none_iff]
  constructor
  · intro absent member
    obtain ⟨value, found⟩ := mem_keys.mp member
    exact absurd (absent _ found) (by simp)
  · intro absent entry member
    apply bne_iff_ne.mpr
    intro same
    exact absent (mem_keys.mpr ⟨entry.2, same ▸ member⟩)

theorem kind_ofEntries (reorder : Bool) (nonempty : entries ≠ []) :
    (ofEntries reorder entries).kind =
      if [] ∈ keys entries then if entries.length = 1 then .leaf else .valueBranch
      else if entries.length = 1 then .suffixLeaf else .branch := by
  rcases entries with _ | ⟨⟨key, value⟩, _ | ⟨second, others⟩⟩
  · contradiction
  · cases key <;> simp [keys, kind]
  · rw [ofEntries_of_two_le (by simp)]
    cases stored : emptyKeyValue? ((key, value) :: second :: others) with
    | none =>
        rw [if_neg (emptyKeyValue?_eq_none_iff.mp stored)]
        simp [kind]
    | some found =>
        have member : [] ∈ keys ((key, value) :: second :: others) := by
          apply Classical.byContradiction
          intro absent
          rw [emptyKeyValue?_eq_none_iff.mpr absent] at stored
          contradiction
        rw [if_pos member]
        simp [kind]

theorem kind_ofEntries_below (reorder : Bool) (leads : bytes ∈ prefixes entries) :
    (ofEntries reorder (below bytes entries)).kind =
      if bytes ∈ keys entries then if sharing entries bytes = 1 then .leaf else .valueBranch
      else if sharing entries bytes = 1 then .suffixLeaf else .branch := by
  have nonempty : below bytes entries ≠ [] := by
    rw [← List.length_pos_iff, length_below, sharing_pos_iff]
    exact leads
  rw [kind_ofEntries reorder nonempty, length_below]
  simp only [nil_mem_keys_below]

theorem kind_ofEntries_below_eq_iff (reorder : Bool) (leads : bytes ∈ prefixes entries)
    (kind : NodeKind) :
    (ofEntries reorder (below bytes entries)).kind = kind ↔
      match kind with
      | .leaf => bytes ∈ keys entries ∧ sharing entries bytes = 1
      | .valueBranch => bytes ∈ keys entries ∧ 2 ≤ sharing entries bytes
      | .branch => bytes ∉ keys entries ∧ 2 ≤ sharing entries bytes
      | .suffixLeaf => bytes ∉ keys entries ∧ sharing entries bytes = 1 := by
  have some := sharing_pos_iff.mpr leads
  rw [kind_ofEntries_below reorder leads]
  by_cases member : bytes ∈ keys entries <;> by_cases alone : sharing entries bytes = 1 <;>
    cases kind <;> simp only [member, alone] <;> grind

end Kind

end PackedTrie.Entries

namespace PackedTrie.Node

open Entries

variable {τ : ValueType} {entries : List (Bytes × τ.Value)} {bytes : Bytes}

/-- The node that the bytes lead to, from branch to branch. -/
def descendant? (node : Node τ) : Bytes → Option (Node τ)
  | [] => some node
  | byte :: bytes =>
      match node with
      | .branch _ children => (children.lookup byte).bind fun child => descendant? child bytes
      | _ => none

theorem lookup_arrange_groupTries (reorder : Bool) {byte : UInt8}
    (shared : tails byte entries ≠ []) :
    (arrange reorder (groupTries reorder (groups entries))).lookup byte =
      some (ofEntries reorder (tails byte entries)) := by
  have inside : (byte, tails byte entries) ∈ groups entries := mem_groups.mpr ⟨rfl, shared⟩
  have member : (byte, ofEntries reorder (tails byte entries)) ∈
      arrange reorder (groupTries reorder (groups entries)) :=
    (arrange_perm _ _).mem_iff.mpr (List.mem_map.mpr ⟨_, inside, rfl⟩)
  obtain ⟨earlier, later, split⟩ := List.append_of_mem member
  refine List.lookup_eq_some_iff.mpr ⟨earlier, later, split, ?_⟩
  have distinct : (earlier ++ (byte, ofEntries reorder (tails byte entries)) :: later).Pairwise
      fun first second => first.1 ≠ second.1 := split ▸ distinct_arrange_groupTries entries
  intro entry before
  have different := (List.pairwise_append.mp distinct).2.2 entry before _ List.mem_cons_self
  exact bne_iff_ne.mpr different.symm

/-- Bytes with which several keys begin lead to the trie of the entries below them. -/
theorem descendant?_ofEntries (reorder : Bool) (several : 2 ≤ sharing entries bytes) :
    (ofEntries reorder entries).descendant? bytes =
      some (ofEntries reorder (below bytes entries)) := by
  induction bytes generalizing entries with
  | nil => rfl
  | cons byte bytes inductionHypothesis =>
      have further : sharing (tails byte entries) bytes = sharing entries (byte :: bytes) := by
        rw [← length_below, ← length_below, below]
      have shared : tails byte entries ≠ [] := by
        rintro none
        rw [← further, none] at several
        contradiction
      rw [ofEntries_of_two_le (several.trans (sharing_le_length _ _)), descendant?,
        lookup_arrange_groupTries reorder shared, Option.bind_some, below]
      exact inductionHypothesis (further ▸ several)

end PackedTrie.Node
