import PackedTrie.Proofs.Lookup.Traversal

/-!
Payloads that denote one byte string, kept in whatever way. Every read gives the same of both, with
the same fault where there is one, so searches and walks cannot tell them apart. Nothing is assumed
of the bytes.
-/

namespace PackedTrie

open Payload

variable {α β : Type} [Payload α] [Payload β] {τ : ValueType} {first : α} {second : β}

namespace Payload

theorem size_congr (same : toBytes first = toBytes second) : size first = size second := by
  rw [size_eq, size_eq, same]

theorem byte?_congr (same : toBytes first = toBytes second) : byte? first = byte? second := by
  funext offset
  rw [byte?_eq, byte?_eq, same]

theorem region?_congr (same : toBytes first = toBytes second) :
    region? first = region? second := by
  funext offset length
  rw [region?_eq, region?_eq, same]

end Payload

namespace Cursor

theorem byteAt_congr (same : toBytes first = toBytes second) (offset : Nat) :
    byteAt first offset = byteAt second offset := by
  simp only [byteAt, byte?_congr same]

theorem kindAt_congr (same : toBytes first = toBytes second) (offset : Nat) :
    kindAt first offset = kindAt second offset := by
  simp only [kindAt, byteAt_congr same]

theorem integerAt_congr (same : toBytes first = toBytes second) (bits offset : Nat) :
    integerAt first bits offset = integerAt second bits offset := by
  simp only [integerAt, byte?_congr same]

theorem valueAt_congr (same : toBytes first = toBytes second) (head : UInt64) (offset : Nat) :
    valueAt τ first head offset = valueAt τ second head offset := by
  simp only [valueAt, region?_congr same]

theorem regionAt_congr (same : toBytes first = toBytes second) (offset length : Nat) :
    regionAt first offset length = regionAt second offset length := by
  simp only [regionAt, region?_congr same]

theorem advance_congr (same : toBytes first = toBytes second) (offset length : Nat) :
    advance first offset length = advance second offset length := by
  simp only [advance, size_congr same]

theorem afterValue_congr (same : toBytes first = toBytes second) (offset : Nat) :
    afterValue τ first offset = afterValue τ second offset := by
  simp only [afterValue, integerAt_congr same, advance_congr same]

theorem leadValue_congr (same : toBytes first = toBytes second) (offset : Nat) :
    leadValue τ first offset = leadValue τ second offset := by
  simp only [leadValue, integerAt_congr same, valueAt_congr same]

theorem suffixLeafAt_congr (same : toBytes first = toBytes second) (offset : Nat) :
    suffixLeafAt τ first offset = suffixLeafAt τ second offset := by
  simp only [suffixLeafAt, leadValue_congr same, afterValue_congr same, integerAt_congr same,
    regionAt_congr same]

theorem blockAt_congr (same : toBytes first = toBytes second) (bits offset : Nat) :
    blockAt first bits offset = blockAt second bits offset := by
  simp only [blockAt, integerAt_congr same, advance_congr same]

theorem tailAt_congr (same : toBytes first = toBytes second) (offset : Nat) :
    tailAt τ first offset = tailAt τ second offset := by
  simp only [tailAt, kindAt_congr same, afterValue_congr same, blockAt_congr same]

theorem skip_congr (same : toBytes first = toBytes second) (offset : Nat) :
    skip τ first offset = skip τ second offset := by
  simp only [skip, tailAt_congr same]

end Cursor

namespace Trie

open Cursor

section Find

theorem scan_congr (same : toBytes first = toBytes second) (wanted : UInt8) (offset stop : Nat) :
    scan τ first wanted offset stop = scan τ second wanted offset stop := by
  fun_induction scan τ first wanted offset stop with
  | case1 offset inside fault fetched =>
      rw [byteAt_congr same] at fetched
      rw [scan, if_pos inside, fetched]
  | case2 offset inside fetched =>
      rw [byteAt_congr same] at fetched
      rw [scan, if_pos inside, fetched]
      exact (if_pos rfl).symm
  | case3 offset inside byte fetched different fault skipped =>
      rw [byteAt_congr same] at fetched
      rw [skip_congr same] at skipped
      rw [scan, if_pos inside, fetched]
      simp only [if_neg different]
      split
      next other failed =>
        cases skipped.symm.trans failed
        rfl
      next next moved => cases skipped.symm.trans moved
  | case4 offset inside byte fetched different next skipped inductionHypothesis =>
      rw [byteAt_congr same] at fetched
      rw [skip_congr same] at skipped
      rw [inductionHypothesis, scan.eq_def τ second wanted offset, if_pos inside, fetched]
      simp only [if_neg different]
      split
      next fault failed => cases skipped.symm.trans failed
      next other moved =>
        cases skipped.symm.trans moved
        rfl
  | case5 inside =>
      rw [scan]
      simp
  | case6 offset inside different =>
      rw [scan, if_neg inside, if_neg different]

theorem findSuffix_congr (same : toBytes first = toBytes second) (key : Bytes) (offset : Nat) :
    findSuffix τ first key offset = findSuffix τ second key offset := by
  simp only [findSuffix, suffixLeafAt_congr same]

/-- The search takes the same way through both, down to the last byte of the key. -/
theorem findFrom_congr (same : toBytes first = toBytes second) (key : Bytes) (offset : Nat) :
    findFrom τ first key offset = findFrom τ second key offset := by
  induction key generalizing offset with
  | nil =>
      simp only [findFrom, kindAt_congr same, leadValue_congr same, findSuffix_congr same]
  | cons wanted rest inductionHypothesis =>
      simp only [findFrom, kindAt_congr same, findSuffix_congr same, tailAt_congr same,
        scan_congr same, inductionHypothesis]

theorem find_congr (same : toBytes first = toBytes second) (key : Bytes) :
    (⟨first⟩ : Trie α τ).find key = (⟨second⟩ : Trie β τ).find key :=
  findFrom_congr same key 0

end Find

section Walk

theorem openNode_congr (same : toBytes first = toBytes second) (offset : Nat) :
    openNode τ first offset = openNode τ second offset := by
  simp only [openNode, kindAt_congr same, suffixLeafAt_congr same, leadValue_congr same,
    tailAt_congr same]

theorem walkNode_congr (same : toBytes first = toBytes second) (offset : Nat) :
    walkNode τ first offset = walkNode τ second offset := by
  refine (walk_induction τ first
    (fun offset => walkNode τ first offset = walkNode τ second offset)
    (fun offset stop => walkBlock τ first offset stop = walkBlock τ second offset stop)
    ?opens ?steps ?faults ?ends ?overruns).1 offset
  case opens =>
    intro offset below
    rw [walkNode, walkNode, ← openNode_congr same]
    cases opened : (openNode τ first offset).outcome with
    | error fault => rw [Walk.andThen_of_error opened, Walk.andThen_of_error opened]
    | ok block =>
        obtain ⟨start, stop⟩ := block
        simp only [Walk.andThen_of_ok opened, below start stop opened]
  case steps =>
    intro offset stop byte inside fetched node later
    rw [walkBlock_of_lt inside fetched, walkBlock_of_lt inside (byteAt_congr same offset ▸ fetched),
      ← node]
    cases walked : (walkNode τ first (offset + 1)).outcome with
    | error fault =>
        have failed : ((walkNode τ first (offset + 1)).under byte).outcome = .error fault := walked
        rw [Walk.andThen_of_error failed, Walk.andThen_of_error failed]
    | ok next =>
        have ended : ((walkNode τ first (offset + 1)).under byte).outcome = .ok next := walked
        rw [Walk.andThen_of_ok ended, Walk.andThen_of_ok ended, later next walked]
  case faults =>
    intro offset stop fault inside fetched
    rw [walkBlock_of_fault inside fetched,
      walkBlock_of_fault inside (byteAt_congr same offset ▸ fetched)]
  case ends =>
    intro stop
    rw [walkBlock_self, walkBlock_self]
  case overruns =>
    intro offset stop beyond
    rw [walkBlock_of_gt beyond, walkBlock_of_gt beyond]

/-- Both walks visit the same, and both end in the same way. -/
theorem walk_congr (same : toBytes first = toBytes second) :
    (⟨first⟩ : Trie α τ).walk = (⟨second⟩ : Trie β τ).walk := by
  simp only [walk, walkNode_congr same, size_congr same]

end Walk

end Trie

end PackedTrie
