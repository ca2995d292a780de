import PackedTrie.Proofs.Build.Intake
import PackedTrie.Proofs.Build.Traceless
import PackedTrie.Source.Delimited

/-!
Building from a source and writing the trie at once. If the source fails or an entry is out of
order, nothing at all is written. Otherwise what is written, and what is counted, is what comes of
offering the entries of the source one by one, closing all that is open, and writing the root.
-/

namespace PackedTrie

open Entries Sequencing

namespace Source

/-- The ways in which a reading fails: at the first item that offends, or where the reader itself
fails behind the last item. -/
inductive Fails {V : Type} (policy : DuplicatePolicy) (source : Source V) : Error → Prop where
  | offence {index : Nat} {error : Error}
      (offends : Item.OffendsAt policy (items source.steps) index error)
      (smooth : Item.Smooth policy (items source.steps) index) : Fails policy source error
  | reader {error : Error}
      (smooth : Item.Smooth policy (items source.steps) source.steps.length)
      (failed : source.failure = some error) : Fails policy source error

theorem smooth_of_not_fails {V : Type} {policy : DuplicatePolicy} {source : Source V}
    (sound : ∀ error, ¬ source.Fails policy error) :
    source.failure = none ∧ Item.Smooth policy (items source.steps) source.steps.length := by
  have smooth : Item.Smooth policy (items source.steps) source.steps.length := by
    intro index _ error offends
    obtain ⟨first, fault, firstOffends, before⟩ :=
      Item.exists_first_offence ⟨index, error, offends⟩
    exact sound fault (.offence firstOffends before)
  refine ⟨?_, smooth⟩
  cases failure : source.failure with
  | none => rfl
  | some error => exact absurd (.reader smooth failure) (sound error)

end Source

theorem Sink.size_of_put {sink after : Sink} {bytes : Bytes}
    (done : Sink.put bytes sink = .ok () after) :
    after.written.size = sink.written.size + bytes.length := by
  obtain ⟨capacity, held⟩ := sink
  cases capacity with
  | none =>
      cases done
      exact Sink.size_appendList held bytes
  | some capacity =>
      by_cases fitting : held.size + bytes.length ≤ capacity
      · rw [Sink.put_of_le fitting] at done
        cases done
        exact Sink.size_appendList held bytes
      · rw [Sink.put_of_lt (Nat.not_le.mp fitting)] at done
        contradiction

namespace Node

variable {τ : ValueType} {root : Node τ} {withHeader : Bool} {sink : Sink}

/-- The events on record have no part in what is written. -/
theorem exists_writeTrie_eq (root : Node τ) (withHeader : Bool) (sink : Sink)
    (journal : List Event) :
    ∃ later, root.writeTrie withHeader ⟨sink, journal⟩ =
      match root.writeTrie withHeader ⟨sink, []⟩ with
      | .ok written output => .ok written ⟨output.sink, later⟩
      | .error error output => .error error ⟨output.sink, later⟩ := by
  simp only [writeTrie]
  split <;> exact ⟨_, rfl⟩

theorem eq_of_writeTrie {written : Nat} {output : Output}
    (done : root.writeTrie withHeader ⟨sink, []⟩ = .ok written output) :
    written = (if withHeader then Header.size else 0) + root.length := by
  simp only [writeTrie] at done
  split at done
  · cases done
    split <;> omega
  · contradiction

theorem size_of_writeTrie {written : Nat} {output : Output} (fits : root.Fits) (sound : sink.Sound)
    (done : root.writeTrie withHeader ⟨sink, []⟩ = .ok written output) :
    output.sink.written.size = sink.written.size + written := by
  rw [writeTrie_eq fits withHeader sound] at done
  split at done
  · rename_i putting
    cases done
    exact Sink.size_of_put putting
  · contradiction

end Node

theorem Stats.SameButSkipped.eq {stats others : Stats} (same : stats.SameButSkipped others)
    (skipped : stats.duplicatesSkipped = others.duplicatesSkipped) : stats = others := by
  cases stats
  cases others
  rw [SameButSkipped, Stats.mk.injEq] at same
  rw [Stats.mk.injEq]
  grind

namespace Builder

open Source

variable {τ : ValueType} {builder first second after start : Builder τ} {options : Options}
  {source read : Source τ.Value} {entries : List (Bytes × τ.Value)} {error : Error}
  {key : Bytes} {value : τ.Value} {position : Option Nat}

section Failing

theorem consume_of_fails (holding : builder.Holding [])
    (fails : source.Fails builder.options.duplicatePolicy error) :
    ∃ read after, builder.consume source = (read, .error error after) := by
  cases fails with
  | offence offends smooth =>
      obtain ⟨read, after, failed, -⟩ := consume_of_offence holding offends smooth
      exact ⟨read, after, failed⟩
  | reader smooth failed =>
      obtain ⟨after, done, -⟩ := readAll_whole holding smooth
      simp only [failed] at done
      simp only [consume, done]
      exact ⟨_, _, rfl⟩

theorem build_of_fails (holding : builder.Holding [])
    (fails : source.Fails builder.options.duplicatePolicy error) :
    ∃ after, (builder.build source).2 = .error error after := by
  obtain ⟨read, after, failed⟩ := consume_of_fails (holding.note (.building τ)) fails
  exact ⟨after, by simp only [build, failed]⟩

theorem buildAndWrite_of_fails (holding : builder.Holding [])
    (fails : source.Fails builder.options.duplicatePolicy error) (withHeader : Bool) (sink : Sink) :
    ∃ after, (builder.buildAndWrite source withHeader sink).2 = .error error (after, sink) := by
  obtain ⟨read, after, failed⟩ := consume_of_fails holding fails
  exact ⟨after, by simp only [buildAndWrite, failed]⟩

end Failing

section Parallel

/-- Two builders that took in the same entries in the same way, one from a source, the other call by
call. Only the number of calls and the events may differ. -/
structure Parallel (first second : Builder τ) : Prop where
  sameTrie : SameTrie first second
  duplicatePolicy : first.options.duplicatePolicy = second.options.duplicatePolicy
  stats : first.stats = second.stats

theorem duplicatesSkipped_accept {common : Nat}
    (taken : accept common key value builder = .ok () after) :
    after.stats.duplicatesSkipped = builder.stats.duplicatesSkipped := by
  have skipped : after.stats.apart.duplicatesSkipped = builder.stats.apart.duplicatesSkipped := by
    rw [apart_accept taken]
  exact skipped

namespace Parallel

theorem refl (builder : Builder τ) : Parallel builder builder :=
  ⟨.refl builder, rfl, rfl⟩

theorem called (parallel : Parallel first second) : Parallel first second.called :=
  ⟨parallel.sameTrie.trans ⟨rfl, rfl, rfl, rfl, rfl, rfl⟩, parallel.duplicatePolicy,
    parallel.stats⟩

theorem skipDuplicate (parallel : Parallel first second) (place otherPlace : Nat) :
    Parallel (first.skipDuplicate place) (second.skipDuplicate otherPlace) := by
  have skipped : (first.skipDuplicate place).stats = (second.skipDuplicate otherPlace).stats :=
    congrArg (fun stats : Stats => { stats with duplicatesSkipped := stats.duplicatesSkipped + 1 })
      parallel.stats
  obtain ⟨reorderChildren, serializeThreshold, root, path, hasPrevious, -⟩ := parallel.sameTrie
  exact ⟨⟨reorderChildren, serializeThreshold, root, path, hasPrevious, by rw [skipped]; rfl⟩,
    parallel.duplicatePolicy, skipped⟩

theorem accept {common : Nat} (parallel : Parallel first second)
    (taken : Builder.accept common key value first = .ok () after) :
    ∃ other, Builder.accept common key value second = .ok () other ∧ Parallel after other := by
  obtain ⟨other, otherTaken, same⟩ := parallel.sameTrie.accept taken
  refine ⟨other, otherTaken, same, ?_, ?_⟩
  · rw [(countsKey_accept taken).options, (countsKey_accept otherTaken).options,
      parallel.duplicatePolicy]
  · apply same.stats.eq
    rw [duplicatesSkipped_accept taken, duplicatesSkipped_accept otherTaken, parallel.stats]

/-- An entry that one of the two accepts or skips the other accepts or skips as well, and it counts
as one. -/
theorem addAt {place : Nat} (parallel : Parallel first second)
    (added : Builder.addAt key value place first = .ok () after) :
    ∃ other, add key value second = .ok () other ∧ Parallel after other ∧
      after.stats.keysAdded + after.stats.duplicatesSkipped =
        first.stats.keysAdded + first.stats.duplicatesSkipped + 1 := by
  have same := parallel.sameTrie.placement_eq key
  cases placed : first.placement key with
  | after common =>
      rw [addAt_of_after placed] at added
      obtain ⟨other, otherTaken, later⟩ := parallel.called.accept added
      refine ⟨other, (add_of_after (same.symm.trans placed)).trans otherTaken, later, ?_⟩
      have keys := (countsKey_accept added).keysAdded
      have skipped := duplicatesSkipped_accept added
      omega
  | before fault =>
      rw [addAt_of_before placed] at added
      contradiction
  | repeated =>
      rw [addAt_of_repeated placed] at added
      have otherAdded : add key value second = _ := add_of_repeated (same.symm.trans placed)
      rw [← parallel.duplicatePolicy] at otherAdded
      cases policy : first.options.duplicatePolicy with
      | reject =>
          rw [policy] at added
          contradiction
      | skip =>
          rw [policy] at added otherAdded
          cases added
          exact ⟨_, otherAdded, parallel.called.skipDuplicate _ _, rfl⟩

theorem readAll {steps : List (Step τ.Value)} (parallel : Parallel first second)
    (done : readAll.go source Builder.addAt steps position first = (read, .ok () after)) :
    ∃ added, addAll (Item.entries (items steps)) second = .ok () added ∧ Parallel after added ∧
      after.stats.keysAdded + after.stats.duplicatesSkipped =
        first.stats.keysAdded + first.stats.duplicatesSkipped +
          (Item.entries (items steps)).length := by
  induction steps generalizing first second position with
  | nil =>
      rw [readAll.go, Prod.mk.injEq] at done
      obtain ⟨-, ended⟩ := done
      split at ended
      · cases ended
        exact ⟨second, rfl, parallel, rfl⟩
      · contradiction
  | cons step rest inductionHypothesis =>
      obtain ⟨item, reading⟩ := step
      cases item with
      | nothing => exact inductionHypothesis parallel done
      | fault error => cases done
      | entry key value place =>
          simp only [readAll.go] at done
          split at done
          · rename_i stepped
            obtain ⟨other, called, later, counted⟩ := parallel.addAt stepped
            obtain ⟨added, others, last, total⟩ := inductionHypothesis later done
            refine ⟨added, bind_eq_ok_iff.mpr ⟨(), other, called, others⟩, last, ?_⟩
            have one : (Item.entries (items (⟨.entry key value place, reading⟩ :: rest))).length =
                (Item.entries (items rest)).length + 1 := rfl
            omega
          · cases done

end Parallel

end Parallel

section Position

theorem setInputPosition_attach (builder : Builder τ) (byte : UInt8) (child : Node τ)
    (position : Option Nat) :
    (builder.setInputPosition position).attach byte child =
      (builder.attach byte child).setInputPosition position := by
  obtain ⟨options, root, path, hasPrevious, offered, report⟩ := builder
  cases path <;> rfl

theorem record_setInputPosition (closing : Closing τ) (builder : Builder τ)
    (position : Option Nat) :
    closing.record (builder.setInputPosition position).report =
      ({ builder with
        report := closing.record builder.report }.setInputPosition position).report := by
  rcases closing with _ | _ | ⟨_ | _, _, _ | _⟩ <;> rfl

theorem closeDeepest_setInputPosition (closed : closeDeepest builder = .ok () after)
    (position : Option Nat) :
    closeDeepest (builder.setInputPosition position) =
      .ok () (after.setInputPosition position) := by
  obtain ⟨byte, node, rest, finished, path, done, rfl⟩ := closeDeepest_eq_ok_iff.mp closed
  refine closeDeepest_eq_ok_iff.mpr ⟨byte, node, rest, finished, path, done, ?_⟩
  rw [← setInputPosition_attach, record_setInputPosition]
  rfl

theorem closeLast_setInputPosition {count : Nat} (closed : closeLast count builder = .ok () after)
    (position : Option Nat) :
    closeLast count (builder.setInputPosition position) =
      .ok () (after.setInputPosition position) := by
  induction count generalizing builder with
  | zero =>
      cases closed
      rfl
  | succ count inductionHypothesis =>
      obtain ⟨_, next, deepest, others⟩ := bind_eq_ok_iff.mp closed
      exact bind_eq_ok_iff.mpr ⟨(), _, closeDeepest_setInputPosition deepest position,
        inductionHypothesis others⟩

/-- Closing does not look at the position of the source, which stays among the counters. -/
theorem finish_setInputPosition {root : Node τ} {stats : Stats}
    (finished : builder.finishWithStats = .ok (root, stats)) (position : Option Nat) :
    ∃ last, finish (builder.setInputPosition position) = .ok root last ∧
      last.stats = { stats with inputPosition := position } := by
  unfold finishWithStats at finished
  split at finished
  next closedRoot after done =>
    cases finished
    obtain ⟨closed, emptied, rooted⟩ := finish_eq_ok_iff.mp done
    obtain ⟨decided, rfl⟩ := closeRoot_eq_ok_iff.mp rooted
    refine ⟨_, finish_eq_ok_iff.mpr ⟨_, closeLast_setInputPosition emptied position,
      closeRoot_eq_ok_iff.mpr ⟨decided, rfl⟩⟩, ?_⟩
    have recorded := congrArg Report.stats
      (record_setInputPosition (closed.root.closing closed.options) closed position)
    exact congrArg (fun stats : Stats => { stats with payloadLength := root.length }) recorded
  next => contradiction

end Position

section Succeeding

variable {root : Node τ} {stats : Stats}

/-- Taking in a source that does not fail does what offering its entries one by one does. -/
theorem consume_of_not_fails (holding : builder.Holding [])
    (sound : ∀ error, ¬ source.Fails builder.options.duplicatePolicy error) :
    ∃ read consumed added,
      builder.consume source = (read, .ok () (consumed.setInputPosition read.position)) ∧
      addAll (Item.entries (items source.steps)) builder = .ok () added ∧
      Parallel consumed added ∧ added.Holding (Item.climbing (items source.steps)) ∧
      consumed.stats.keysAdded + consumed.stats.duplicatesSkipped =
        builder.stats.keysAdded + builder.stats.duplicatesSkipped +
          (Item.entries (items source.steps)).length := by
  obtain ⟨complete, smooth⟩ := smooth_of_not_fails sound
  obtain ⟨read, consumed, done, -, -, held⟩ := readAll_of_smooth holding complete smooth
  obtain ⟨added, called, parallel, counted⟩ := (Parallel.refl builder).readAll done
  refine ⟨read, consumed, added, ?_, called, parallel, parallel.sameTrie.holding held, counted⟩
  simp only [consume, done]

theorem counts_finishWithStats (holding : builder.Holding entries)
    (finished : builder.finishWithStats = .ok (root, stats)) :
    stats.keysAdded = builder.stats.keysAdded ∧
      stats.duplicatesSkipped = builder.stats.duplicatesSkipped ∧
        stats.payloadLength = root.length := by
  have counts : stats.apart.keysAdded = builder.stats.apart.keysAdded ∧
      stats.apart.duplicatesSkipped = builder.stats.apart.duplicatesSkipped ∧
        stats.apart.payloadLength = root.length := by
    rw [apart_finishWithStats holding finished]
    exact ⟨rfl, rfl, rfl⟩
  exact counts

/-- Closing what was taken in from a source comes to the same root and counters as closing what was
offered call by call. -/
theorem Parallel.finish (parallel : Parallel first second) (holding : second.Holding entries)
    (finished : second.finishWithStats = .ok (root, stats)) (position : Option Nat) :
    ∃ last, Builder.finish (first.setInputPosition position) = .ok root last ∧
      last.stats = { stats with inputPosition := position } := by
  obtain ⟨others, otherFinished, same⟩ := parallel.sameTrie.symm.finishWithStats finished
  have otherHolding := parallel.sameTrie.symm.holding holding
  have skipped : stats.duplicatesSkipped = others.duplicatesSkipped := by
    rw [(counts_finishWithStats holding finished).2.1,
      (counts_finishWithStats otherHolding otherFinished).2.1, parallel.stats]
  rw [same.eq skipped]
  exact finish_setInputPosition otherFinished position

end Succeeding

/-- If the source fails or an entry is out of order, a build that writes fails as a plain build
does, and writes nothing. Otherwise the sink receives what it receives when the entries are offered
one by one, all is closed, and the root is written; and then the counters are those of the closing,
with the position of the source. They account for every entry and for every byte behind the
header. -/
theorem buildAndWrite_all_or_nothing (made : ofOptions options = .ok start)
    (source : Source τ.Value) (withHeader : Bool) (sink : Sink) :
    (∀ error, source.Fails options.duplicatePolicy error →
      (∃ after, (start.build source).2 = .error error after) ∧
      ∃ after, (start.buildAndWrite source withHeader sink).2 = .error error (after, sink)) ∧
    ((∀ error, ¬ source.Fails options.duplicatePolicy error) →
      ∃ added root stats after,
        addAll (Item.entries (items source.steps)) start = .ok () added ∧
        added.finishWithStats = .ok (root, stats) ∧
        (start.buildAndWrite source withHeader sink).2 =
          (match root.writeTrie withHeader ⟨sink, []⟩ with
          | .ok _ output =>
              .ok { stats with
                inputPosition := (start.buildAndWrite source withHeader sink).1.position }
                (after, output.sink)
          | .error error output => .error error (after, output.sink)) ∧
        stats.keysAdded + stats.duplicatesSkipped = (Item.entries (items source.steps)).length ∧
        ∀ written output, root.writeTrie withHeader ⟨sink, []⟩ = .ok written output →
          written = (if withHeader then Header.size else 0) + stats.payloadLength ∧
            (root.Fits → sink.Sound →
              output.sink.written.size = sink.written.size + written)) := by
  have holding : start.Holding [] := (holding_of_ofOptions made []).1
  obtain rfl := eq_of_ofOptions_eq_ok made
  refine ⟨fun error fails => ⟨build_of_fails holding fails,
    buildAndWrite_of_fails holding fails withHeader sink⟩, ?_⟩
  intro sound
  obtain ⟨read, consumed, added, taken, called, parallel, held, counted⟩ :=
    consume_of_not_fails holding sound
  obtain ⟨root, stats, finished, -⟩ := finishWithStats_holding held
  obtain ⟨last, closed, final⟩ := parallel.finish held finished read.position
  obtain ⟨later, writing⟩ := root.exists_writeTrie_eq withHeader sink last.report.journal
  obtain ⟨keys, skipped, payload⟩ := counts_finishWithStats held finished
  refine ⟨added, root, stats, { last with report := { last.report with journal := later } },
    called, finished, ?_, ?_, ?_⟩
  · cases done : root.writeTrie withHeader ⟨sink, []⟩ <;> rw [done] at writing <;>
      simp only [buildAndWrite, taken, closed, writing, final]
  · rw [keys, skipped, ← parallel.stats, counted]
    exact Nat.zero_add _
  · intro written output done
    refine ⟨?_, fun fits sinkSound => Node.size_of_writeTrie fits sinkSound done⟩
    rw [payload]
    exact Node.eq_of_writeTrie done

/-- A key, a repeat of it, and a further key, each on a line of its own. -/
def repeatingText : Bytes :=
  [0x61, 0x7C, 0x31, 0x0A, 0x61, 0x7C, 0x32, 0x0A, 0x62, 0x7C, 0x33, 0x0A]

def repeatingSource (failure : Option Error) : Source ValueType.integer.Value :=
  .ofText 0x7C ValueType.integer.ofText? repeatingText failure

theorem smooth_repeatingSource (failure : Option Error) (count : Nat) :
    Item.Smooth .skip (items (repeatingSource failure).steps) count := by
  have lines : items (repeatingSource failure).steps =
      [.entry [0x61] (1 : UInt64) 1, .entry [0x61] (2 : UInt64) 2,
        .entry [0x62] (3 : UInt64) 3] := by
    cbv
  rintro index - error ⟨item, found, offends⟩
  rw [lines] at found offends
  have inside : index < 3 := (List.getElem?_eq_some_iff.mp found).1
  interval_cases index <;> cases found <;> cases offends with
  | outOfOrder latest behind explains =>
      cases latest <;> exact absurd behind (by decide)
  | duplicate latest rejecting => contradiction

theorem buildAndWrite_all_or_nothing_repeatingSource :
    let start : Builder .integer := { options := skippingOptions }
    let gone : Error := .io (.reader "gone")
    let sink : Sink := { capacity := some 30 }
    ofOptions skippingOptions = .ok start ∧
      (repeatingSource (some gone)).Fails .skip gone ∧
      (∃ after, (start.buildAndWrite (repeatingSource (some gone)) true sink).2 =
        .error gone (after, sink)) ∧
      (∀ error, ¬ (repeatingSource none).Fails .skip error) ∧
      ∃ stats after output,
        (start.buildAndWrite (repeatingSource none) true sink).2 = .ok stats (after, output) ∧
          stats.keysAdded + stats.duplicatesSkipped = 3 ∧ stats.inputPosition = some 3 ∧
            output.written.size = Header.size + stats.payloadLength := by
  intro start gone sink
  have made : ofOptions skippingOptions = .ok start := rfl
  have fails : (repeatingSource (some gone)).Fails .skip gone :=
    .reader (smooth_repeatingSource _ _) rfl
  have sound : ∀ error, ¬ (repeatingSource none).Fails .skip error := by
    rintro error (⟨offends, -⟩ | ⟨-, failed⟩)
    · exact smooth_repeatingSource none _ _ (Nat.lt_succ_self _) error offends
    · contradiction
  obtain ⟨stops, -⟩ := buildAndWrite_all_or_nothing made (repeatingSource (some gone)) true sink
  obtain ⟨-, writes⟩ := buildAndWrite_all_or_nothing made (repeatingSource none) true sink
  refine ⟨made, fails, (stops gone fails).2, sound, ?_⟩
  obtain ⟨added, root, stats, after, called, finished, done, counted, sizes⟩ := writes sound
  have measured : (match addAll (Item.entries (items (repeatingSource none).steps)) start with
      | .ok _ added => added.finishWithStats.toOption.map fun result => result.1.length
      | .error _ _ => none) = some 5 := by cbv
  rw [called] at measured
  simp only [finished, Except.toOption, Option.map_some, Option.some.injEq] at measured
  have fits : root.Fits := by
    rw [Node.Fits, measured]
    decide
  have sinkSound : sink.Sound := Sink.sound_bounded_iff.mpr (Nat.zero_le 30)
  have room : Sink.put (root.document true) sink =
      .ok () ⟨some 30, sink.written ++ root.document true⟩ := by
    apply Sink.put_of_le
    rw [Node.length_document, if_pos rfl, measured]
    decide
  have written := Node.writeTrie_eq fits true sinkSound []
  rw [room] at written
  rw [written] at done
  obtain ⟨same, size⟩ := sizes _ _ written
  refine ⟨_, after, _, done, counted, ?_, ?_⟩
  · cbv
  · rw [size fits sinkSound, same]
    exact Nat.zero_add _

end Builder

end PackedTrie
