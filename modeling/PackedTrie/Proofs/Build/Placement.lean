import Mathlib
import PackedTrie.Build.Placement

/-!
A key beyond another one keeps some of its first bytes and goes on from there with a byte that is
beyond the other key's. A key before another one begins it, or goes on with a smaller byte.
-/

namespace PackedTrie.Placement

/-- How many bytes two keys have in common is found where the greater one goes its own way. -/
theorem ofKeys_of_lt {previous key : Bytes} (beyond : previous < key) (offset : Nat) :
    ∃ shared dropped byte rest, previous = shared ++ dropped ∧ key = shared ++ byte :: rest ∧
      (∀ next ∈ dropped.head?, next < byte) ∧
        ofKeys offset key previous = .after (offset + shared.length) := by
  induction previous generalizing key offset with
  | nil =>
      cases key with
      | nil => exact absurd beyond (List.lt_irrefl _)
      | cons byte rest => exact ⟨[], [], byte, rest, rfl, rfl, nofun, rfl⟩
  | cons last previous inductionHypothesis =>
      cases key with
      | nil => exact absurd beyond (List.not_lt_nil _)
      | cons byte rest =>
          rcases List.cons_lt_cons_iff.mp beyond with greater | ⟨rfl, later⟩
          · have different : byte ≠ last := fun same => UInt8.lt_irrefl last (same ▸ greater)
            have above : ¬ byte < last := UInt8.lt_asymm greater
            refine ⟨[], last :: previous, byte, rest, rfl, rfl, ?_, ?_⟩
            · intro next first
              cases first
              exact greater
            · rw [ofKeys, if_neg different, if_neg above]
              rfl
          · obtain ⟨shared, dropped, next, tail, rfl, rfl, smaller, placed⟩ :=
              inductionHypothesis later (offset + 1)
            refine ⟨last :: shared, dropped, next, tail, rfl, rfl, smaller, ?_⟩
            rw [ofKeys, if_pos rfl, placed, List.length_cons, Nat.add_assoc, Nat.add_comm 1]

theorem ofKeys_self (offset : Nat) (key : Bytes) : ofKeys offset key key = .repeated := by
  induction key generalizing offset with
  | nil => rfl
  | cons byte key inductionHypothesis => rw [ofKeys, if_pos rfl, inductionHypothesis]

/-- The fault says how the key, with `offset` bytes before it, comes before the previous one. -/
inductive Explains (offset : Nat) : (key previous : Bytes) → OrderFault → Prop where
  | shorter (key : Bytes) (byte : UInt8) (rest : Bytes) :
      Explains offset key (key ++ byte :: rest)
        (.shorter (offset + key.length) (offset + (key ++ byte :: rest).length))
  | smallerByte (shared : Bytes) {byte last : UInt8} (smaller : byte < last)
      (rest dropped : Bytes) :
      Explains offset (shared ++ byte :: rest) (shared ++ last :: dropped)
        (.smallerByte byte (offset + shared.length) last)

theorem Explains.cons {offset : Nat} {key previous : Bytes} {fault : OrderFault} (byte : UInt8)
    (explains : Explains (offset + 1) key previous fault) :
    Explains offset (byte :: key) (byte :: previous) fault := by
  have shift : ∀ length, offset + 1 + length = offset + (length + 1) := by omega
  cases explains with
  | shorter _ next rest =>
      rw [shift, shift]
      exact .shorter (byte :: key) next rest
  | smallerByte shared smaller rest dropped =>
      rw [shift]
      exact .smallerByte (byte :: shared) smaller rest dropped

theorem ofKeys_of_gt {key previous : Bytes} (behind : key < previous) (offset : Nat) :
    ∃ fault, ofKeys offset key previous = .before fault ∧ Explains offset key previous fault := by
  induction key generalizing previous offset with
  | nil =>
      cases previous with
      | nil => exact absurd behind (List.lt_irrefl _)
      | cons last previous => exact ⟨_, rfl, .shorter [] last previous⟩
  | cons byte key inductionHypothesis =>
      cases previous with
      | nil => exact absurd behind (List.not_lt_nil _)
      | cons last previous =>
          rcases List.cons_lt_cons_iff.mp behind with smaller | ⟨rfl, later⟩
          · have different : byte ≠ last := fun same => UInt8.lt_irrefl last (same ▸ smaller)
            refine ⟨_, ?_, .smallerByte [] smaller key previous⟩
            rw [ofKeys, if_neg different, if_pos smaller]
            rfl
          · obtain ⟨fault, placed, explains⟩ := inductionHypothesis later (offset + 1)
            exact ⟨fault, by rw [ofKeys, if_pos rfl, placed], explains.cons byte⟩

/-- There is one way only in which a key comes before another. -/
theorem Explains.ofKeys_eq {offset : Nat} {key previous : Bytes} {fault : OrderFault}
    (explains : Explains offset key previous fault) :
    ofKeys offset key previous = .before fault := by
  have shift : ∀ length, offset + 1 + length = offset + (length + 1) := by omega
  cases explains with
  | shorter key byte rest =>
      induction key generalizing offset with
      | nil => rfl
      | cons first key inductionHypothesis =>
          rw [List.cons_append, ofKeys, if_pos rfl, inductionHypothesis (by omega), shift, shift]
          rfl
  | smallerByte shared smaller rest dropped =>
      induction shared generalizing offset with
      | nil =>
          have different := UInt8.ne_of_lt smaller
          rw [List.nil_append, List.nil_append, ofKeys, if_neg different, if_pos smaller]
          rfl
      | cons first shared inductionHypothesis =>
          rw [List.cons_append, List.cons_append, ofKeys, if_pos rfl,
            inductionHypothesis (by omega), shift]
          rfl

theorem lt_of_ofKeys_eq_after {key previous : Bytes} {offset common : Nat}
    (placed : ofKeys offset key previous = .after common) : previous < key := by
  rcases Std.lt_trichotomy previous key with beyond | rfl | behind
  · exact beyond
  · rw [ofKeys_self] at placed
    contradiction
  · obtain ⟨fault, before, -⟩ := ofKeys_of_gt behind offset
    rw [before] at placed
    contradiction

end PackedTrie.Placement
