import PackedTrie.Proofs.Build.Order
import PackedTrie.Proofs.Build.RoundTrip

/-!
Payloads that break off, or go on too long. A search in the first bytes of a payload gives the
answer that the whole payload gives, or meets a contradiction; a walk through them visits a first
part of what the walk through the whole payload visits. A payload that is accepted by the walk fixes
its own end, so it neither begins another accepted payload nor begins with one.
-/

namespace PackedTrie.Trie

open Cursor Payload

variable {α β : Type} [Payload α] [Payload β] {τ : ValueType} {short : Trie α τ}
  {long : Trie β τ}

/-- The walk goes through the whole payload without meeting a contradiction. -/
def Accepted (trie : Trie α τ) : Prop :=
  trie.walk.outcome = .ok ()

/-- The bytes of a trie that a builder made of some calls, of which it may have turned down any. -/
def IsBuilt (τ : ValueType) (bytes : Bytes) : Prop :=
  ∃ (options : Options) (start : Builder τ) (calls : List (Bytes × τ.Value)) (root : Node τ)
    (stats : Stats), Builder.ofOptions options = .ok start ∧
      (start.offerAll calls).finishWithStats = .ok (root, stats) ∧ root.Fits ∧
        root.serialize = bytes

section Beginning

theorem find_carries (begins : toBytes short.payload <+: toBytes long.payload) (key : Bytes) :
    Carries id (short.find key) (long.find key) :=
  findFrom_carries (holds_of_isPrefix begins) key 0

theorem visited_walk_of_isPrefix (begins : toBytes short.payload <+: toBytes long.payload) :
    short.walk.visited <+: long.walk.visited := by
  rw [visited_walk, visited_walk]
  exact (walkNode_extends (holds_of_isPrefix begins) 0).visited

/-- An accepted payload is walked through to its end in any payload that it begins, and there the
root ends. -/
theorem walk_of_isPrefix (begins : toBytes short.payload <+: toBytes long.payload)
    (accepted : short.Accepted) :
    long.walk = ⟨short.walk.visited,
      if size short.payload = size long.payload then .ok ()
      else .error (.rootMismatch (size short.payload) (size long.payload))⟩ := by
  have filled := Node.outcome_walk_eq_ok_iff.mp accepted
  have extended := (walkNode_extends (holds_of_isPrefix begins) 0).finished _ filled
  have walked : walkNode τ long.payload 0 =
      ⟨short.walk.visited, .ok (size short.payload)⟩ := by
    rw [visited_walk]
    simpa using extended
  rw [Trie.walk, walked, Walk.andThen_of_ok rfl]
  by_cases same : size short.payload = size long.payload
  · simp [same, Walk.ofResult]
  · simp [same, Walk.fail]

end Beginning

/-- A search in the first bytes of a payload gives the answer that the whole payload gives, unless
it meets a contradiction. -/
theorem find_truncated (begins : toBytes short.payload <+: toBytes long.payload) (key : Bytes) :
    (∀ answer, short.find key = .ok answer → long.find key = .ok answer) ∧
      ((∃ fault, short.find key = .error fault) ∨ short.find key = long.find key) := by
  have carried := find_carries begins key
  refine ⟨carried, ?_⟩
  cases found : short.find key with
  | error fault => exact .inl ⟨fault, rfl⟩
  | ok answer => exact .inr (carried answer found).symm

def valueAndLeaf : Trie Bytes .integer :=
  ⟨[0xE5, 0x82, 0x61, 0x27]⟩

def valueOnly : Trie Bytes .integer :=
  ⟨[0xE5, 0x82, 0x61]⟩

theorem find_truncated_valueOnly :
    toBytes valueOnly.payload <+: toBytes valueAndLeaf.payload ∧
      valueOnly.find [] = .ok (some (5 : UInt64)) ∧
      valueAndLeaf.find [] = .ok (some (5 : UInt64)) ∧
      ((∃ fault, valueOnly.find [0x61] = .error fault) ∨
        valueOnly.find [0x61] = valueAndLeaf.find [0x61]) := by
  have begins : toBytes valueOnly.payload <+: toBytes valueAndLeaf.payload := ⟨[0x27], rfl⟩
  have found : valueOnly.find [] = .ok (some (5 : UInt64)) := by cbv
  obtain ⟨kept, -⟩ := find_truncated begins []
  obtain ⟨-, leaf⟩ := find_truncated begins [0x61]
  exact ⟨begins, found, kept _ found, leaf⟩

section Ending

theorem accepted_of_toBytes_eq (same : toBytes short.payload = toBytes long.payload)
    (accepted : short.Accepted) : long.Accepted := by
  have begins : toBytes short.payload <+: toBytes long.payload := same ▸ List.prefix_rfl
  have sizes : size short.payload = size long.payload := by rw [size_eq, size_eq, same]
  rw [Accepted, walk_of_isPrefix begins accepted, if_pos sizes]

theorem IsBuilt.accepted {trie : Trie α τ} (built : IsBuilt τ (toBytes trie.payload)) :
    trie.Accepted := by
  obtain ⟨options, start, calls, root, stats, made, finished, fits, bytes⟩ := built
  obtain ⟨holding, -, -⟩ := Builder.holding_of_ofOptions made calls
  obtain ⟨other, others, otherFinished, laidOut⟩ := Builder.finishWithStats_holding holding
  cases finished.symm.trans otherFinished
  obtain ⟨visited, walked, -⟩ := Builder.exists_walk_of_bytes holding.ascending fits laidOut
  have accepted : root.toTrie.Accepted := congrArg Walk.outcome walked
  exact accepted_of_toBytes_eq bytes accepted

/-- No accepted payload is a proper beginning of another one: what a walk goes through well is left
over as soon as there are more bytes, and is missed as soon as there are fewer. A walk that fails
has visited a first part of the entries that are there. -/
theorem walk_truncated {extra : Bytes}
    (whole : toBytes long.payload = toBytes short.payload ++ extra) (proper : extra ≠ []) :
    short.walk.visited <+: long.walk.visited ∧
      (short.Accepted → long.walk = ⟨short.walk.visited,
        .error (.rootMismatch (size short.payload) (size long.payload))⟩) ∧
      (long.Accepted → ∃ fault, short.walk.outcome = .error fault) ∧
      (IsBuilt τ (toBytes short.payload) → ∃ fault, long.walk.outcome = .error fault) ∧
      (IsBuilt τ (toBytes long.payload) → ∃ fault, short.walk.outcome = .error fault) := by
  have begins : toBytes short.payload <+: toBytes long.payload := ⟨extra, whole.symm⟩
  have shorter : size short.payload ≠ size long.payload := by
    have some := List.length_pos_iff.mpr proper
    rw [size_eq, size_eq, whole, List.length_append]
    omega
  have extended : short.Accepted → long.walk = ⟨short.walk.visited,
      .error (.rootMismatch (size short.payload) (size long.payload))⟩ := by
    intro accepted
    rw [walk_of_isPrefix begins accepted, if_neg shorter]
  have truncated : long.Accepted → ∃ fault, short.walk.outcome = .error fault := by
    intro accepted
    cases ended : short.walk.outcome with
    | error fault => exact ⟨fault, rfl⟩
    | ok =>
        rw [Accepted, extended ended] at accepted
        contradiction
  refine ⟨visited_walk_of_isPrefix begins, extended, truncated, ?_, ?_⟩
  · intro built
    rw [extended built.accepted]
    exact ⟨_, rfl⟩
  · intro built
    exact truncated built.accepted

theorem isBuilt_valueAndLeaf : IsBuilt .integer (toBytes valueAndLeaf.payload) := by
  let start : Builder .integer := { options := {} }
  let calls : List (Bytes × ValueType.integer.Value) := [([], (5 : UInt64)), ([0x61], (7 : UInt64))]
  have made : Builder.ofOptions {} = .ok start := rfl
  obtain ⟨holding, -, -⟩ := Builder.holding_of_ofOptions made calls
  obtain ⟨root, stats, finished, -⟩ := Builder.finishWithStats_holding holding
  have laidOut : (start.offerAll calls).finishWithStats.toOption.map (·.1.serialize) =
      some valueAndLeaf.payload := by cbv
  rw [finished] at laidOut
  have bytes : root.serialize = valueAndLeaf.payload := Option.some.inj laidOut
  have fits : root.Fits := by
    rw [Node.Fits, ← Node.length_serialize, bytes]
    decide
  exact ⟨{}, start, calls, root, stats, made, finished, fits, bytes⟩

theorem walk_truncated_valueOnly :
    toBytes valueAndLeaf.payload = toBytes valueOnly.payload ++ [0x27] ∧
      IsBuilt .integer (toBytes valueAndLeaf.payload) ∧
      valueOnly.walk.visited <+: valueAndLeaf.walk.visited ∧
      (∃ fault, valueOnly.walk.outcome = .error fault) ∧
      (⟨valueAndLeaf.payload ++ [0x00]⟩ : Trie Bytes .integer).walk =
        ⟨[([], (5 : UInt64)), ([0x61], (7 : UInt64))], .error (.rootMismatch 4 5)⟩ := by
  have built := isBuilt_valueAndLeaf
  have walked : valueAndLeaf.walk =
      ⟨[([], (5 : UInt64)), ([0x61], (7 : UInt64))], .ok ()⟩ := by cbv
  have accepted : valueAndLeaf.Accepted := congrArg Walk.outcome walked
  have longer : toBytes valueAndLeaf.payload = toBytes valueOnly.payload ++ [0x27] := rfl
  have appended : toBytes (⟨valueAndLeaf.payload ++ [0x00]⟩ : Trie Bytes .integer).payload =
      toBytes valueAndLeaf.payload ++ [0x00] := rfl
  obtain ⟨visited, -, -, -, truncated⟩ := walk_truncated longer (by decide)
  obtain ⟨-, extended, -⟩ := walk_truncated appended (by decide)
  refine ⟨longer, built, visited, truncated built, ?_⟩
  rw [extended accepted, walked]
  rfl

end Ending

end PackedTrie.Trie
