import PackedTrie.Build.Calls
import PackedTrie.Proofs.Build.Refinement

/-!
What a call can do, and what follows for a run of calls. At any point of a run the builder holds
just the entries accepted so far.
-/

namespace PackedTrie.Builder

open Entries Node Sequencing

variable {τ : ValueType} {builder after : Builder τ} {entries : List (Bytes × τ.Value)}

theorem closeDeepest_eq_ok_iff :
    closeDeepest builder = .ok () after ↔
      ∃ byte node rest finished, builder.path = (byte, node) :: rest ∧
        (node.closing builder.options).node = .ok finished ∧
        after = ({ builder with
          path := rest
          report := (node.closing builder.options).record builder.report }).attach
            byte finished := by
  unfold closeDeepest
  split
  next path =>
    simp only [path, reduceCtorEq, false_and, exists_false, iff_false]
    split <;> nofun
  next byte node rest path =>
    simp only [path, List.cons.injEq, Prod.mk.injEq]
    split
    next closed report done =>
      obtain ⟨decided, rfl⟩ := OpenNode.close_eq_ok_iff.mp done
      simp only [EStateM.Result.ok.injEq, true_and]
      constructor
      · rintro rfl
        exact ⟨byte, node, rest, closed, ⟨⟨rfl, rfl⟩, rfl⟩, decided, rfl⟩
      · rintro ⟨_, _, _, other, ⟨⟨rfl, rfl⟩, rfl⟩, otherwise, rfl⟩
        cases decided.symm.trans otherwise
        rfl
    next error report failed =>
      simp only [reduceCtorEq, false_iff]
      rintro ⟨_, _, _, finished, ⟨⟨rfl, rfl⟩, rfl⟩, decided, -⟩
      rw [OpenNode.close_eq_ok_iff.mpr ⟨decided, rfl⟩] at failed
      contradiction

theorem accept_eq_ok_iff {common : Nat} {key : Bytes} {value : τ.Value} :
    accept common key value builder = .ok () after ↔
      ∃ closed, closeLast (builder.path.length - common) builder = .ok () closed ∧
        after = ((closed.openBelow (key.drop common)).setValue value).countKey := by
  have steps : accept common key value builder =
      (closeLast (builder.path.length - common) >>= fun _ => modify fun closed =>
        ((closed.openBelow (key.drop common)).setValue value).countKey) builder := rfl
  rw [steps, bind_eq_ok_iff]
  constructor
  · rintro ⟨_, closed, done, same⟩
    cases same
    exact ⟨closed, done, rfl⟩
  · rintro ⟨closed, done, rfl⟩
    exact ⟨(), closed, done, rfl⟩

theorem closeRoot_eq_ok_iff {root : Node τ} :
    closeRoot builder = .ok root after ↔
      (builder.root.closing builder.options).node = .ok root ∧
      after =
        let report := (builder.root.closing builder.options).record builder.report
        let stats := { report.stats with payloadLength := root.length }
        { builder with report := { report with stats }.note (.complete stats) } := by
  unfold closeRoot
  split
  next closed report done =>
    obtain ⟨decided, rfl⟩ := OpenNode.close_eq_ok_iff.mp done
    rw [decided]
    simp only [EStateM.Result.ok.injEq, Except.ok.injEq]
    constructor
    · rintro ⟨rfl, rfl⟩
      exact ⟨rfl, rfl⟩
    · rintro ⟨rfl, rfl⟩
      exact ⟨rfl, rfl⟩
  next error report failed =>
    simp only [reduceCtorEq, false_iff]
    rintro ⟨decided, -⟩
    rw [OpenNode.close_eq_ok_iff.mpr ⟨decided, rfl⟩] at failed
    contradiction

theorem finish_eq_ok_iff {root : Node τ} :
    finish builder = .ok root after ↔
      ∃ closed, closeLast builder.path.length builder = .ok () closed ∧
        closeRoot closed = .ok root after := by
  have steps : finish builder =
      (closeLast builder.path.length >>= fun _ => closeRoot) builder := rfl
  rw [steps, bind_eq_ok_iff]
  constructor
  · rintro ⟨_, closed, done⟩
    exact ⟨closed, done⟩
  · rintro ⟨closed, done⟩
    exact ⟨(), closed, done⟩

section Counting

/-- The same options, calls and keys: what opening and closing nodes leaves alone. -/
structure SameCounts (before after : Builder τ) : Prop where
  options : after.options = before.options
  offered : after.offered = before.offered
  keysAdded : after.stats.keysAdded = before.stats.keysAdded

theorem SameCounts.trans {first second third : Builder τ} (one : SameCounts first second)
    (two : SameCounts second third) : SameCounts first third :=
  ⟨two.options.trans one.options, two.offered.trans one.offered,
    two.keysAdded.trans one.keysAdded⟩

theorem keysAdded_count (stats : Stats) (closing : Closing τ) :
    (closing.count stats).keysAdded = stats.keysAdded := by
  rcases closing with _ | _ | ⟨_ | _, _, _ | _⟩ <;> rfl

theorem sameCounts_attach (builder : Builder τ) (byte : UInt8) (child : Node τ) :
    SameCounts builder (builder.attach byte child) := by
  unfold attach
  split <;> exact ⟨rfl, rfl, rfl⟩

theorem sameCounts_closeDeepest (closed : closeDeepest builder = .ok () after) :
    SameCounts builder after := by
  obtain ⟨byte, node, rest, finished, -, -, rfl⟩ := closeDeepest_eq_ok_iff.mp closed
  refine SameCounts.trans ?_ (sameCounts_attach _ byte finished)
  exact ⟨rfl, rfl, keysAdded_count _ _⟩

theorem sameCounts_closeLast {count : Nat} (closed : closeLast count builder = .ok () after) :
    SameCounts builder after := by
  induction count generalizing builder with
  | zero =>
      cases closed
      exact ⟨rfl, rfl, rfl⟩
  | succ count inductionHypothesis =>
      obtain ⟨_, next, deepest, others⟩ := bind_eq_ok_iff.mp closed
      exact (sameCounts_closeDeepest deepest).trans (inductionHypothesis others)

theorem sameCounts_setValue (builder : Builder τ) (value : τ.Value) :
    SameCounts builder (builder.setValue value) := by
  unfold setValue
  split <;> exact ⟨rfl, rfl, rfl⟩

theorem stats_countKey (builder : Builder τ) :
    builder.countKey.stats = { builder.stats with keysAdded := builder.stats.keysAdded + 1 } := by
  unfold countKey stats
  dsimp only
  split <;> rfl

/-- The same options and calls, and one key more. -/
structure CountsKey (before after : Builder τ) : Prop where
  options : after.options = before.options
  offered : after.offered = before.offered
  keysAdded : after.stats.keysAdded = before.stats.keysAdded + 1

theorem countsKey_accept {common : Nat} {key : Bytes} {value : τ.Value}
    (taken : accept common key value builder = .ok () after) : CountsKey builder after := by
  obtain ⟨closed, done, rfl⟩ := accept_eq_ok_iff.mp taken
  have opened : SameCounts closed (closed.openBelow (key.drop common)) := ⟨rfl, rfl, rfl⟩
  have kept := ((sameCounts_closeLast done).trans opened).trans (sameCounts_setValue _ value)
  exact ⟨kept.options, kept.offered, by rw [stats_countKey, kept.keysAdded]⟩

end Counting

section Calling

variable {key : Bytes} {value : τ.Value}

def called (builder : Builder τ) : Builder τ :=
  { builder with offered := builder.offered + 1 }

theorem addAt_of_before {fault : OrderFault} (placed : builder.placement key = .before fault)
    (value : τ.Value) (position : Nat) :
    addAt key value position builder = .error (.outOfOrder position fault) builder := by
  simp only [addAt, bind, EStateM.bind, get, getThe, MonadStateOf.get, EStateM.get, placed]
  rfl

theorem addAt_of_repeated (placed : builder.placement key = .repeated) (value : τ.Value)
    (position : Nat) :
    addAt key value position builder =
      match builder.options.duplicatePolicy with
      | .reject => .error (.duplicateKey position) builder
      | .skip => .ok () (builder.skipDuplicate position) := by
  simp only [addAt, bind, EStateM.bind, get, getThe, MonadStateOf.get, EStateM.get, placed]
  cases builder.options.duplicatePolicy <;> rfl

theorem add_of_after {common : Nat} (placed : builder.placement key = .after common) :
    add key value builder = accept common key value builder.called := by
  have same : builder.called.placement key = .after common := placed
  exact addAt_of_after same value _

theorem add_of_before {fault : OrderFault} (placed : builder.placement key = .before fault) :
    add key value builder =
      .error (.outOfOrder (builder.offered + 1) fault) builder.called := by
  have same : builder.called.placement key = .before fault := placed
  exact addAt_of_before same value _

theorem add_of_repeated (placed : builder.placement key = .repeated) :
    add key value builder =
      match builder.options.duplicatePolicy with
      | .reject => .error (.duplicateKey (builder.offered + 1)) builder.called
      | .skip => .ok () (builder.called.skipDuplicate (builder.offered + 1)) := by
  have same : builder.called.placement key = .repeated := placed
  exact addAt_of_repeated same value _

theorem Holding.placement_eq (holding : builder.Holding entries) (key : Bytes) :
    builder.placement key =
      match lastKey? entries with
      | none => .after 0
      | some last => .ofKeys 0 key last := by
  rcases holding.latest with ⟨first, rfl, -⟩ | ⟨previous, earlier, last, same⟩
  · rw [placement, if_neg (by simp [first])]
    rfl
  · rw [placement, if_pos previous, same, lastKey?_append_singleton]

/-- What offering a key at a position can come to, for a builder that has taken in the entries. -/
inductive AnswerAt (builder : Builder τ) (entries : List (Bytes × τ.Value)) (key : Bytes)
    (value : τ.Value) (position : Nat) : EStateM.Result Error (Builder τ) Unit → Prop where
  | accepted {common : Nat} {after : Builder τ} (beyond : ∀ last ∈ lastKey? entries, last < key)
      (placed : builder.placement key = .after common)
      (taken : accept common key value builder = .ok () after)
      (holding : after.Holding (entries ++ [(key, value)])) :
      AnswerAt builder entries key value position (.ok () after)
  | rejected (latest : lastKey? entries = some key)
      (policy : builder.options.duplicatePolicy = .reject) :
      AnswerAt builder entries key value position (.error (.duplicateKey position) builder)
  | skipped (latest : lastKey? entries = some key)
      (policy : builder.options.duplicatePolicy = .skip) :
      AnswerAt builder entries key value position (.ok () (builder.skipDuplicate position))
  | outOfOrder {last : Bytes} {fault : OrderFault} (latest : lastKey? entries = some last)
      (behind : key < last) (explains : Placement.Explains 0 key last fault) :
      AnswerAt builder entries key value position (.error (.outOfOrder position fault) builder)

theorem answerAt_of_beyond (holding : builder.Holding entries)
    (beyond : ∀ last ∈ lastKey? entries, last < key) (position : Nat) :
    AnswerAt builder entries key value position (addAt key value position builder) := by
  have placed : ∃ common, builder.placement key = .after common := by
    rw [holding.placement_eq]
    cases latest : lastKey? entries with
    | none => exact ⟨0, rfl⟩
    | some last =>
        obtain ⟨shared, -, -, -, -, -, -, placed⟩ :=
          Placement.ofKeys_of_lt (beyond last latest) 0
        exact ⟨_, placed⟩
  obtain ⟨common, placed⟩ := placed
  obtain ⟨after, taken, -, afterHolding⟩ :=
    addAt_holding holding (holding.ascending.append_singleton beyond value) position
  rw [taken]
  rw [addAt_of_after placed] at taken
  exact .accepted beyond placed taken afterHolding

/-- The answer depends on how the key compares with the last one accepted. -/
theorem Holding.answerAt (holding : builder.Holding entries) (key : Bytes) (value : τ.Value)
    (position : Nat) :
    AnswerAt builder entries key value position (addAt key value position builder) := by
  have placement := holding.placement_eq key
  cases latest : lastKey? entries with
  | none =>
      apply answerAt_of_beyond holding
      simp [latest]
  | some last =>
      rw [latest] at placement
      rcases Std.lt_trichotomy last key with beyond | rfl | behind
      · apply answerAt_of_beyond holding
        intro other same
        cases latest.symm.trans same
        exact beyond
      · rw [addAt_of_repeated (placement.trans (Placement.ofKeys_self 0 last))]
        cases policy : builder.options.duplicatePolicy with
        | reject => exact .rejected latest policy
        | skip => exact .skipped latest policy
      · obtain ⟨fault, placed, explains⟩ := Placement.ofKeys_of_gt behind 0
        rw [addAt_of_before (placement.trans placed)]
        exact .outOfOrder latest behind explains

/-- What a call can come to, for a builder that has taken in the entries. -/
inductive Answer (builder : Builder τ) (entries : List (Bytes × τ.Value)) (key : Bytes)
    (value : τ.Value) : EStateM.Result Error (Builder τ) Unit → Prop where
  | accepted {common : Nat} {after : Builder τ} (beyond : ∀ last ∈ lastKey? entries, last < key)
      (placed : builder.placement key = .after common)
      (taken : accept common key value builder.called = .ok () after)
      (holding : after.Holding (entries ++ [(key, value)])) :
      Answer builder entries key value (.ok () after)
  | rejected (latest : lastKey? entries = some key)
      (policy : builder.options.duplicatePolicy = .reject) :
      Answer builder entries key value
        (.error (.duplicateKey (builder.offered + 1)) builder.called)
  | skipped (latest : lastKey? entries = some key)
      (policy : builder.options.duplicatePolicy = .skip) :
      Answer builder entries key value
        (.ok () (builder.called.skipDuplicate (builder.offered + 1)))
  | outOfOrder {last : Bytes} {fault : OrderFault} (latest : lastKey? entries = some last)
      (behind : key < last) (explains : Placement.Explains 0 key last fault) :
      Answer builder entries key value
        (.error (.outOfOrder (builder.offered + 1) fault) builder.called)

theorem Holding.answer (holding : builder.Holding entries) (key : Bytes) (value : τ.Value) :
    Answer builder entries key value (add key value builder) := by
  have called : builder.called.Holding entries := holding.offer _
  have answer := called.answerAt key value (builder.offered + 1)
  have step : add key value builder = addAt key value (builder.offered + 1) builder.called := rfl
  rw [step]
  generalize addAt key value (builder.offered + 1) builder.called = result at answer
  cases answer with
  | accepted beyond placed taken afterHolding => exact .accepted beyond placed taken afterHolding
  | rejected latest policy => exact .rejected latest policy
  | skipped latest policy => exact .skipped latest policy
  | outOfOrder latest behind explains => exact .outOfOrder latest behind explains

/-- The call is accepted: the key is beyond all others, and the builder holds one entry more. -/
structure Taken (builder : Builder τ) (entries : List (Bytes × τ.Value)) (key : Bytes)
    (value : τ.Value) (after : Builder τ) : Prop where
  accepts : builder.accepts (key, value) = true
  beyond : ∀ last ∈ lastKey? entries, last < key
  accepted : ∃ common, builder.placement key = .after common ∧
    accept common key value builder.called = .ok () after
  holding : after.Holding (entries ++ [(key, value)])

/-- The call is not accepted: it is counted, perhaps as a repeat that was skipped. -/
structure TurnedDown (builder : Builder τ) (entries : List (Bytes × τ.Value)) (key : Bytes)
    (value : τ.Value) (after : Builder τ) : Prop where
  accepts : builder.accepts (key, value) = false
  latest : ∃ last, lastKey? entries = some last ∧ ¬ last < key
  untouched : after = builder.called ∨
    ∃ position, after = builder.called.skipDuplicate position

theorem accepts_eq_false_of_skipped {position : Nat}
    (added : add key value builder = .ok () (builder.called.skipDuplicate position)) :
    builder.accepts (key, value) = false := by
  have none : (builder.called.skipDuplicate position).stats.keysAdded =
      builder.stats.keysAdded := rfl
  simp [accepts, added, none]

/-- The answers, as far as they bear on the state after the call. -/
theorem Holding.offer_cases (holding : builder.Holding entries) (key : Bytes)
    (value : τ.Value) :
    Taken builder entries key value (builder.offer (key, value)) ∨
      TurnedDown builder entries key value (builder.offer (key, value)) := by
  have answer := holding.answer key value
  unfold Builder.offer
  generalize added : add key value builder = result at answer
  cases answer with
  | @accepted common after beyond placed taken afterHolding =>
      have one : after.stats.keysAdded = builder.stats.keysAdded + 1 :=
        (countsKey_accept taken).keysAdded
      exact .inl ⟨by simp [accepts, added, one], beyond, ⟨common, placed, taken⟩, afterHolding⟩
  | rejected latest _ =>
      exact .inr ⟨by simp [accepts, added], ⟨key, latest, List.lt_irrefl key⟩, .inl rfl⟩
  | skipped latest _ =>
      exact .inr ⟨accepts_eq_false_of_skipped added, ⟨key, latest, List.lt_irrefl key⟩,
        .inr ⟨_, rfl⟩⟩
  | @outOfOrder last _ latest behind _ =>
      exact .inr ⟨by simp [accepts, added], ⟨last, latest, List.lt_asymm behind⟩, .inl rfl⟩

/-- A call is accepted just if the key is beyond the last one accepted before. -/
theorem Holding.accepts_iff (holding : builder.Holding entries) :
    builder.accepts (key, value) = true ↔ ∀ last ∈ lastKey? entries, last < key := by
  rcases holding.offer_cases key value with taken | turnedDown
  · exact iff_of_true taken.accepts taken.beyond
  · obtain ⟨last, latest, notBeyond⟩ := turnedDown.latest
    refine iff_of_false (by simp [turnedDown.accepts]) ?_
    intro beyond
    exact notBeyond (beyond last latest)

theorem TurnedDown.holding (turnedDown : TurnedDown builder entries key value after)
    (holding : builder.Holding entries) : after.Holding entries := by
  rcases turnedDown.untouched with rfl | ⟨position, rfl⟩ <;>
    exact ⟨holding.ascending, holding.held, holding.latest⟩

theorem Holding.offer_counts (holding : builder.Holding entries) (entry : Bytes × τ.Value) :
    (builder.offer entry).offered = builder.offered + 1 ∧
      (builder.offer entry).options = builder.options := by
  obtain ⟨key, value⟩ := entry
  rcases holding.offer_cases key value with taken | turnedDown
  · obtain ⟨common, -, accepted⟩ := taken.accepted
    have counts := countsKey_accept accepted
    exact ⟨counts.offered, counts.options⟩
  · rcases turnedDown.untouched with same | ⟨position, same⟩ <;> rw [same] <;>
      exact ⟨rfl, rfl⟩

end Calling

section Running

theorem offerAll_holding (holding : builder.Holding entries) (calls : List (Bytes × τ.Value)) :
    (builder.offerAll calls).Holding (entries ++ builder.accepted calls) ∧
      (builder.offerAll calls).offered = builder.offered + calls.length ∧
        (builder.offerAll calls).options = builder.options := by
  induction calls generalizing builder entries with
  | nil => exact ⟨by rwa [accepted, List.append_nil], rfl, rfl⟩
  | cons entry calls inductionHypothesis =>
      obtain ⟨key, value⟩ := entry
      obtain ⟨offered, options⟩ := holding.offer_counts (key, value)
      have counted : builder.offered + ((key, value) :: calls).length =
          (builder.offer (key, value)).offered + calls.length := by
        rw [offered, List.length_cons]
        omega
      rw [offerAll, List.foldl_cons, counted, ← options, accepted]
      rcases holding.offer_cases key value with taken | turnedDown
      · have later := inductionHypothesis taken.holding
        rw [if_pos taken.accepts, List.append_cons]
        exact later
      · have later := inductionHypothesis (turnedDown.holding holding)
        rw [turnedDown.accepts]
        exact later

end Running

end PackedTrie.Builder
