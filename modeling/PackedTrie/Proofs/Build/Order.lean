import PackedTrie.Proofs.Build.Calls

/-!
A builder decides by comparing bytes along its open nodes, and the decision is the same as comparing
the key with the last one that was accepted, whatever was turned down in between. Nothing else can
go wrong: not in a call, and not when all is closed.
-/

namespace PackedTrie.Builder

open Entries Node

variable {τ : ValueType} {builder start : Builder τ} {entries : List (Bytes × τ.Value)}
  {options : Options}

theorem eq_of_ofOptions_eq_ok (made : ofOptions options = .ok start) : start = { options } := by
  unfold ofOptions at made
  cases valid : options.validate with
  | error error => simp [valid, bind, Except.bind] at made
  | ok =>
      simp only [valid, bind, Except.bind, pure, Except.pure, Except.ok.injEq] at made
      exact made.symm

theorem holding_of_ofOptions (made : ofOptions options = .ok start)
    (calls : List (Bytes × τ.Value)) :
    (start.offerAll calls).Holding (start.accepted calls) ∧
      (start.offerAll calls).offered = calls.length ∧
        (start.offerAll calls).options = options := by
  obtain rfl := eq_of_ofOptions_eq_ok made
  obtain ⟨holding, offered, kept⟩ := offerAll_holding (holding_start options {}) calls
  exact ⟨holding, by rw [offered, Nat.zero_add], kept⟩

theorem finishWithStats_holding (holding : builder.Holding entries) :
    ∃ root stats, builder.finishWithStats = .ok (root, stats) ∧
      root.serialize = (ofEntries builder.options.reorderChildren entries).serialize := by
  obtain ⟨root, after, finished, bytes⟩ := finish_holding holding
  exact ⟨root, after.stats, by rw [finishWithStats, finished], bytes⟩

theorem accepted_eq_destutter' {last : Bytes × τ.Value}
    (holding : builder.Holding (entries ++ [last])) (calls : List (Bytes × τ.Value)) :
    last :: builder.accepted calls = calls.destutter' Climbs last := by
  induction calls generalizing builder entries last with
  | nil => rfl
  | cons entry calls inductionHypothesis =>
      obtain ⟨key, value⟩ := entry
      have known := lastKey?_append_singleton entries last
      rw [accepted]
      rcases holding.offer_cases key value with taken | turnedDown
      · have climbs : Climbs last (key, value) := taken.beyond last.1 known
        rw [if_pos taken.accepts, List.destutter'_cons_pos _ climbs]
        exact congrArg (last :: ·) (inductionHypothesis taken.holding)
      · obtain ⟨latest, same, notBeyond⟩ := turnedDown.latest
        cases known.symm.trans same
        have stays : ¬ Climbs last (key, value) := notBeyond
        rw [turnedDown.accepts, List.destutter'_cons_neg _ stays]
        exact inductionHypothesis (turnedDown.holding holding)

/-- The calls accepted are those that climb above all accepted ones before. -/
theorem accepted_eq_destutter (made : ofOptions options = .ok start)
    (calls : List (Bytes × τ.Value)) : start.accepted calls = calls.destutter Climbs := by
  obtain rfl := eq_of_ofOptions_eq_ok made
  cases calls with
  | nil => rfl
  | cons entry calls =>
      obtain ⟨key, value⟩ := entry
      rw [accepted, List.destutter_cons']
      rcases (holding_start options {}).offer_cases key value with taken | turnedDown
      · rw [if_pos taken.accepts]
        exact accepted_eq_destutter' taken.holding calls
      · obtain ⟨latest, same, -⟩ := turnedDown.latest
        contradiction

/-- After any calls, a further one is accepted just if its key is beyond the last key accepted; a
repeat of that key and a key before it are answered as such, at the position of the call. No other
error occurs, and closing always succeeds. -/
theorem add_decided_by_last_accepted (made : ofOptions options = .ok start)
    (calls : List (Bytes × τ.Value)) (key : Bytes) (value : τ.Value) :
    let before := start.offerAll calls
    let last? := lastKey? (start.accepted calls)
    let position := calls.length + 1
    (before.accepts (key, value) = true ↔ ∀ last ∈ last?, last < key) ∧
      (last? = some key → match options.duplicatePolicy with
        | .reject => ∃ after, add key value before = .error (.duplicateKey position) after
        | .skip => ∃ after, add key value before = .ok () after ∧
            after.stats.duplicatesSkipped = before.stats.duplicatesSkipped + 1) ∧
      (∀ last ∈ last?, key < last → ∃ fault after,
        add key value before = .error (.outOfOrder position fault) after ∧
          Placement.Explains 0 key last fault) ∧
      (∀ error after, add key value before = .error error after →
        error = .duplicateKey position ∨ ∃ fault, error = .outOfOrder position fault) ∧
      ∃ root stats, before.finishWithStats = .ok (root, stats) := by
  intro before last? position
  obtain ⟨holding, offered, kept⟩ := holding_of_ofOptions made calls
  have counted : before.offered + 1 = position := congrArg (· + 1) offered
  have policy : before.options.duplicatePolicy = options.duplicatePolicy := by rw [kept]
  obtain ⟨root, stats, finished, -⟩ := finishWithStats_holding holding
  have answer := holding.answer key value
  refine ⟨holding.accepts_iff, ?_, ?_, ?_, root, stats, finished⟩
  · intro latest
    generalize add key value before = result at answer
    cases answer with
    | accepted beyond => exact absurd (beyond key latest) (List.lt_irrefl key)
    | rejected _ chosen =>
        rw [← policy, chosen, counted]
        exact ⟨_, rfl⟩
    | skipped _ chosen =>
        rw [← policy, chosen]
        exact ⟨_, rfl, rfl⟩
    | outOfOrder other behind _ =>
        cases latest.symm.trans other
        exact absurd behind (List.lt_irrefl key)
  · intro last latest behind
    generalize add key value before = result at answer
    cases answer with
    | accepted beyond => exact absurd behind (List.lt_asymm (beyond last latest))
    | rejected same _ | skipped same _ =>
        cases same.symm.trans latest
        exact absurd behind (List.lt_irrefl key)
    | outOfOrder other _ explains =>
        cases other.symm.trans latest
        rw [counted]
        exact ⟨_, _, rfl, explains⟩
  · intro error after failed
    rw [failed] at answer
    cases answer with
    | rejected => exact .inl (by rw [counted])
    | outOfOrder => exact .inr ⟨_, by rw [counted]⟩

def skippingOptions : Options where
  duplicatePolicy := .skip

/-- Only the first of these calls is accepted: a key that begins it, a repeat, and the empty key. -/
def idleCalls : List (Bytes × ValueType.integer.Value) :=
  [([0x61, 0x62], (1 : UInt64)), ([0x61], (2 : UInt64)), ([0x61, 0x62], (3 : UInt64)),
    ([], (4 : UInt64))]

theorem add_decided_by_last_accepted_idleCalls :
    let start : Builder .integer := { options := skippingOptions }
    let before := start.offerAll idleCalls
    ofOptions skippingOptions = .ok start ∧
      lastKey? (start.accepted idleCalls) = some [0x61, 0x62] ∧
      before.accepts ([0x61, 0x62, 0x00], (5 : UInt64)) = true ∧
      (∃ after, add [0x61, 0x62] (5 : UInt64) before = .ok () after ∧
        after.stats.duplicatesSkipped = 2) ∧
      (∃ fault after, add [0x61, 0x61, 0x7A] (5 : UInt64) before =
        .error (.outOfOrder 5 fault) after) ∧
      ∃ root stats, before.finishWithStats = .ok (root, stats) := by
  intro start before
  have made : ofOptions skippingOptions = .ok start := rfl
  have latest : lastKey? (start.accepted idleCalls) = some [0x61, 0x62] := by cbv
  have once : before.stats.duplicatesSkipped = 1 := by cbv
  obtain ⟨accepts, -⟩ :=
    add_decided_by_last_accepted made idleCalls [0x61, 0x62, 0x00] (5 : UInt64)
  obtain ⟨-, repeated, -⟩ := add_decided_by_last_accepted made idleCalls [0x61, 0x62] (5 : UInt64)
  obtain ⟨-, -, behind, -, finishes⟩ :=
    add_decided_by_last_accepted made idleCalls [0x61, 0x61, 0x7A] (5 : UInt64)
  refine ⟨made, latest, ?_, ?_, ?_, finishes⟩
  · apply accepts.mpr
    intro last same
    cases latest.symm.trans same
    decide
  · obtain ⟨after, added, skipped⟩ := repeated latest
    exact ⟨after, added, by rw [skipped, once]⟩
  · obtain ⟨fault, after, failed, -⟩ := behind _ latest (by decide)
    exact ⟨fault, after, failed⟩

end PackedTrie.Builder
