import Mathlib
import PackedTrie.Bytes

/-!
Lists of keys with their values. A list is ascending if every key is smaller than all later ones,
compared byte by byte; a key that begins another one is the smaller of the two.
-/

namespace PackedTrie.Entries

variable {V : Type}

/-- Every key is smaller than the keys after it. -/
def Ascending (entries : List (Bytes × V)) : Prop :=
  entries.Pairwise fun earlier later => earlier.1 < later.1

instance (entries : List (Bytes × V)) : Decidable (Ascending entries) :=
  inferInstanceAs (Decidable (entries.Pairwise _))

/-- The entries with `byte` in front of every key. -/
def under (byte : UInt8) (entries : List (Bytes × V)) : List (Bytes × V) :=
  entries.map fun entry => (byte :: entry.1, entry.2)

@[simp] theorem under_nil (byte : UInt8) : under byte ([] : List (Bytes × V)) = [] := rfl

@[simp] theorem under_cons (byte : UInt8) (entry : Bytes × V) (entries : List (Bytes × V)) :
    under byte (entry :: entries) = (byte :: entry.1, entry.2) :: under byte entries := rfl

@[simp] theorem under_append (byte : UInt8) (first second : List (Bytes × V)) :
    under byte (first ++ second) = under byte first ++ under byte second :=
  List.map_append

@[simp] theorem length_under (byte : UInt8) (entries : List (Bytes × V)) :
    (under byte entries).length = entries.length :=
  List.length_map _

theorem lookup_under_self (byte : UInt8) (rest : Bytes) (entries : List (Bytes × V)) :
    (under byte entries).lookup (byte :: rest) = entries.lookup rest := by
  induction entries with
  | nil => rfl
  | cons entry entries inductionHypothesis =>
      simp only [under_cons, List.lookup, inductionHypothesis, List.cons_beq_cons, beq_self_eq_true,
        Bool.true_and]

theorem lookup_under_of_ne {byte wanted : UInt8} (different : byte ≠ wanted) (rest : Bytes)
    (entries : List (Bytes × V)) : (under byte entries).lookup (wanted :: rest) = none := by
  rw [List.lookup_eq_none_iff]
  intro entry member
  obtain ⟨original, -, rfl⟩ := List.mem_map.mp member
  simp [different.symm]

theorem Ascending.lookup_eq_some {entries : List (Bytes × V)} (ascending : Ascending entries)
    {key : Bytes} {value : V} (member : (key, value) ∈ entries) :
    entries.lookup key = some value := by
  induction entries with
  | nil => contradiction
  | cons entry entries inductionHypothesis =>
      obtain ⟨smaller, later⟩ := List.pairwise_cons.mp ascending
      cases member with
      | head => simp [List.lookup]
      | tail _ member =>
          have below : entry.1 < key := smaller (key, value) member
          have different : (key == entry.1) = false :=
            beq_false_of_ne fun same => List.lt_irrefl entry.1 (same ▸ below)
          rw [List.lookup, different]
          exact inductionHypothesis later member

theorem lookup_eq_none_of_not_mem {entries : List (Bytes × V)} {key : Bytes}
    (absent : ∀ value, (key, value) ∉ entries) : entries.lookup key = none := by
  rw [List.lookup_eq_none_iff]
  intro entry member
  apply bne_iff_ne.mpr
  intro same
  exact absent entry.2 (same ▸ member)

def lastKey? (entries : List (Bytes × V)) : Option Bytes :=
  entries.getLast?.map Prod.fst

@[simp] theorem lastKey?_append_singleton (entries : List (Bytes × V)) (entry : Bytes × V) :
    lastKey? (entries ++ [entry]) = some entry.1 := by
  simp [lastKey?]

theorem Ascending.append_singleton {entries : List (Bytes × V)} (ascending : Ascending entries)
    {key : Bytes} (above : ∀ last ∈ lastKey? entries, last < key) (value : V) :
    Ascending (entries ++ [(key, value)]) := by
  refine List.pairwise_append.mpr ⟨ascending, List.pairwise_singleton _ _, ?_⟩
  intro entry member last same
  cases List.mem_singleton.mp same
  rcases List.eq_nil_or_concat entries with rfl | ⟨earlier, latest, rfl⟩
  · contradiction
  · rw [List.concat_eq_append] at ascending member above
    have below : latest.1 < key := above latest.1 (lastKey?_append_singleton earlier latest)
    rcases List.mem_append.mp member with before | same
    · have smaller : entry.1 < latest.1 :=
        (List.pairwise_append.mp ascending).2.2 entry before latest (List.mem_singleton_self _)
      exact List.lt_trans smaller below
    · rwa [List.mem_singleton.mp same]

section Neighbours

def Climbs (earlier later : Bytes × V) : Prop :=
  earlier.1 < later.1

def Differs (earlier later : Bytes × V) : Prop :=
  earlier.1 ≠ later.1

instance : DecidableRel (Climbs (V := V)) :=
  fun earlier later => inferInstanceAs (Decidable (earlier.1 < later.1))

instance : DecidableRel (Differs (V := V)) :=
  fun earlier later => inferInstanceAs (Decidable (earlier.1 ≠ later.1))

theorem exists_destutter'_eq_cons {A : Type} (R : A → A → Prop) [DecidableRel R]
    (first : A) (others : List A) : ∃ rest, others.destutter' R first = first :: rest := by
  induction others with
  | nil => exact ⟨[], rfl⟩
  | cons next others inductionHypothesis =>
      by_cases kept : R first next
      · exact ⟨_, List.destutter'_cons_pos others kept⟩
      · rw [List.destutter'_cons_neg others kept]
        exact inductionHypothesis

section Append

variable {A : Type} {R : A → A → Prop} [DecidableRel R] {first last next : A} {others : List A}

theorem destutter'_append_singleton (latest : (others.destutter' R first).getLast? = some last)
    (next : A) :
    (others ++ [next]).destutter' R first =
      others.destutter' R first ++ if R last next then [next] else [] := by
  induction others generalizing first with
  | nil =>
      obtain rfl : first = last := Option.some.inj latest
      rw [List.nil_append, List.destutter'_singleton]
      by_cases kept : R first next
      · rw [if_pos kept, if_pos kept]
        rfl
      · rw [if_neg kept, if_neg kept]
        rfl
  | cons second others inductionHypothesis =>
      by_cases fresh : R first second
      · rw [List.destutter'_cons_pos _ fresh] at latest
        rw [List.cons_append, List.destutter'_cons_pos _ fresh, List.destutter'_cons_pos _ fresh,
          List.cons_append, inductionHypothesis]
        obtain ⟨rest, begun⟩ := exists_destutter'_eq_cons R second others
        rw [begun] at latest ⊢
        exact latest
      · rw [List.destutter'_cons_neg _ fresh] at latest
        rw [List.cons_append, List.destutter'_cons_neg _ fresh, List.destutter'_cons_neg _ fresh,
          inductionHypothesis latest]

/-- A further element is kept if it is related to the last one kept, if there is one. -/
theorem destutter_append_of_rel (kept : ∀ last ∈ (others.destutter R).getLast?, R last next) :
    (others ++ [next]).destutter R = others.destutter R ++ [next] := by
  cases others with
  | nil => rfl
  | cons first others =>
      obtain ⟨rest, begun⟩ := exists_destutter'_eq_cons R first others
      obtain ⟨last, latest⟩ : ∃ last, (others.destutter' R first).getLast? = some last := by
        rw [begun]
        exact ⟨_, List.getLast?_eq_some_getLast (List.cons_ne_nil first rest)⟩
      have appended := destutter'_append_singleton latest next
      rw [if_pos (kept last latest)] at appended
      exact appended

theorem destutter_append_of_not_rel (latest : (others.destutter R).getLast? = some last)
    (dropped : ¬ R last next) : (others ++ [next]).destutter R = others.destutter R := by
  cases others with
  | nil => contradiction
  | cons first others =>
      have appended := destutter'_append_singleton latest next
      rw [if_neg dropped, List.append_nil] at appended
      exact appended

end Append

theorem Ascending.destutter_climbs {entries : List (Bytes × V)} (ascending : Ascending entries) :
    entries.destutter Climbs = entries :=
  List.destutter_of_isChain _ _ ascending.isChain

end Neighbours

end PackedTrie.Entries
