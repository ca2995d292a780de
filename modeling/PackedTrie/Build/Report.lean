import PackedTrie.Error

/-!
What a build reports: counters, and events in the order in which they happen.
-/

namespace PackedTrie

structure Stats where
  keysAdded : Nat := 0
  duplicatesSkipped : Nat := 0
  /-- Leaves closed without a suffix. -/
  leaves : Nat := 0
  /-- Leaves moved one level up into a suffix, once for each level. -/
  suffixFolds : Nat := 0
  /-- Branches closed that have no value. -/
  branches : Nat := 0
  valueBranches : Nat := 0
  /-- Branches of which only the bytes were kept. -/
  serializedNodes : Nat := 0
  /-- The size of the payload, once it is complete. -/
  payloadLength : Nat := 0
  /-- How far the source of the keys was read, if it knows. -/
  inputPosition : Option Nat := none
  deriving DecidableEq, Repr

inductive Event where
  | building (valueType : ValueType)
  | duplicateSkipped (position : Nat)
  | progress (stats : Stats)
  | flattening (kind : NodeKind) (length : Nat)
  | complete (stats : Stats)
  /-- The source, or a key from it, was no good. -/
  | stopped (position : Option Nat) (error : Error)
  | wrote (payloadLength : Nat)
  | headerRead (valueType : ValueType) (payloadLength : Nat)
  | loading (file : String)
  | mapped (file : String) (payloadLength : Nat)
  deriving DecidableEq, Repr

inductive Level where
  | error
  | warn
  | info
  | debug
  | trace
  deriving DecidableEq, Repr

namespace Event

def level : Event → Level
  | .stopped _ _ => .error
  | .duplicateSkipped _ => .warn
  | .building _ | .progress _ | .complete _ | .loading _ | .mapped _ _ => .info
  | .wrote _ | .headerRead _ _ => .debug
  | .flattening _ _ => .trace

def text : Event → String
  | .building valueType => s!"Building {valueType.name} trie"
  | .duplicateSkipped position => s!"Skipping duplicate key at position {position}"
  | .progress stats => s!"Added {stats.keysAdded} keys, {stats.serializedNodes} nodes flattened"
  | .flattening kind length => s!"Flattening {kind.name} of {length} bytes"
  | .complete stats =>
      s!"Trie complete: {stats.keysAdded} keys, {stats.payloadLength} payload bytes"
  | .stopped (some position) error =>
      s!"Build stopped at input position {position}: {error.message}"
  | .stopped none error => s!"Build stopped: {error.message}"
  | .wrote payloadLength => s!"Wrote trie: {payloadLength} payload bytes"
  | .headerRead valueType payloadLength =>
      s!"Trie header: {valueType.name} values, payload {payloadLength} bytes"
  | .loading file => s!"Loading trie from \"{file}\""
  | .mapped file payloadLength => s!"Mapped trie \"{file}\": {payloadLength} payload bytes"

/-- The counters that an observer of the build is shown with the event. -/
def observed? : Event → Option Stats
  | .progress stats | .complete stats => some stats
  | _ => none

end Event

/-- The counters so far and the events so far, the latest first. -/
structure Report where
  stats : Stats := {}
  journal : List Event := []

namespace Report

def note (report : Report) (event : Event) : Report :=
  { report with journal := event :: report.journal }

def observations (report : Report) : List Stats :=
  (report.journal.filterMap Event.observed?).reverse

end Report

end PackedTrie
