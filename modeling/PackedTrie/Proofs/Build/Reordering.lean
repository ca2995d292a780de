import PackedTrie.Proofs.Build.Threshold
import PackedTrie.Proofs.Build.RoundTrip
import PackedTrie.Proofs.Lookup.Siblings

/-!
Putting the longer children of a branch in front. It is decided when a branch is closed, by the
lengths that its children have then, and these may be in bytes already. Still it changes nothing but
the order: both payloads are of one length, all counters agree, and the same nodes lie below the
same bytes.
-/

namespace PackedTrie

open Entries Node Sequencing Payload

theorem Stats.eq_of_read_eq {stats others : Stats} (apart : stats.apart = others.apart)
    (read : ∀ counter, stats.read counter = others.read counter) : stats = others := by
  have serialized : stats.serializedNodes = others.serializedNodes := read .flattened
  have rest := Stats.eq_of_apart_eq apart fun kind => read (.closed kind)
  cases stats
  cases others
  rw [Stats.mk.injEq] at rest ⊢
  grind

namespace Builder

open Trie

variable {τ : ValueType} {builder : Builder τ} {entries more : List (Bytes × τ.Value)}
  {options : Options} {key : Bytes} {value : τ.Value}

/-- The root of the trie that is built from the entries, offered one after the other, and the final
counters. -/
def rootWithStats (options : Options) (entries : List (Bytes × τ.Value)) :
    Except Error (Node τ × Stats) := do
  let start ← ofOptions options
  match addAll entries start with
  | .ok _ after => after.finishWithStats
  | .error error _ => throw error

section Running

theorem Holding.taken_of_ascending (holding : builder.Holding entries)
    (ascending : Ascending (entries ++ [(key, value)])) :
    Taken builder entries key value (builder.offer (key, value)) := by
  rcases holding.offer_cases key value with taken | turnedDown
  · exact taken
  · obtain ⟨last, latest, notBeyond⟩ := turnedDown.latest
    obtain ⟨entry, final, rfl⟩ := Option.map_eq_some_iff.mp latest
    have before := List.mem_of_getLast? final
    exact absurd ((List.pairwise_append.mp ascending).2.2 entry before _
      (List.mem_singleton_self _)) notBeyond

/-- Ascending entries are all taken in, and nothing else is counted on the way than they and the
nodes that are closed. -/
theorem addAll_counted (holding : builder.Holding entries) (counted : builder.Counted entries)
    (ascending : Ascending (entries ++ more)) :
    ∃ after, addAll more builder = .ok () after ∧ after.options = builder.options ∧
      after.Holding (entries ++ more) ∧ after.Counted (entries ++ more) ∧
      after.stats.apart = { builder.stats.apart with
        keysAdded := builder.stats.apart.keysAdded + more.length } := by
  induction more generalizing builder entries with
  | nil => exact ⟨builder, rfl, rfl, by rwa [List.append_nil], by rwa [List.append_nil], rfl⟩
  | cons entry more inductionHypothesis =>
      obtain ⟨key, value⟩ := entry
      rw [List.append_cons] at ascending ⊢
      have taken := holding.taken_of_ascending (List.pairwise_append.mp ascending).1
      obtain ⟨common, placed, accepted⟩ := taken.accepted
      obtain ⟨after, done, kept, afterHolding, afterCounted, apart⟩ :=
        inductionHypothesis taken.holding (taken.counted holding counted) ascending
      refine ⟨after, ?_, kept.trans (countsKey_accept accepted).options, afterHolding,
        afterCounted, ?_⟩
      · have added : add key value builder = .ok () (builder.offer (key, value)) :=
          (add_of_after placed).trans accepted
        rw [addAll, bind_of_ok added, done]
      · rw [apart, apart_accept accepted, List.length_cons, Nat.add_comm more.length,
          ← Nat.add_assoc]
        rfl

theorem rootWithStats_eq_ok (options : Options) (valid : 1 ≤ options.serializeThreshold)
    (ascending : Ascending entries) :
    ∃ root stats, rootWithStats options entries = .ok (root, stats) ∧
      root.serialize = (ofEntries options.reorderChildren entries).serialize ∧
      Tallied options entries (nodes entries) stats ∧
      stats.apart = { keysAdded := entries.length, payloadLength := root.length } := by
  have made : ofOptions options = .ok ({ options } : Builder τ) := ofOptions_eq_ok valid
  obtain ⟨start, -, -⟩ := holding_of_ofOptions made []
  obtain ⟨after, added, kept, holding, counted, apart⟩ :=
    addAll_counted start (counted_of_ofOptions made []) (ascending : Ascending ([] ++ entries))
  obtain ⟨root, stats, finished, bytes⟩ := finishWithStats_holding holding
  obtain ⟨-, tallied⟩ := finishWithStats_counted holding counted finished
  rw [kept] at bytes tallied
  refine ⟨root, stats, ?_, bytes, tallied, ?_⟩
  · have run : addAll entries ({ options } : Builder τ) = .ok () after := added
    simp only [rootWithStats, made, bind, Except.bind, run, finished]
  · rw [apart_finishWithStats holding finished, apart]
    simp [Stats.apart, Builder.offerAll, Builder.stats]

end Running

section Reordering

theorem countsFor_reorder (ascending : Ascending entries) (order other : Bool)
    (counter : Counter) :
    counter.CountsFor { options with reorderChildren := order } entries ↔
      counter.CountsFor { options with reorderChildren := other } entries := by
  cases counter with
  | closed kind => rw [Counter.CountsFor, Counter.CountsFor, kind_ofEntries_reorder order other]
  | flattened =>
      rw [Counter.CountsFor, Counter.CountsFor, length_ofEntries_of_perm order other ascending
        (.refl _)]

theorem Tallied.eq_of_reorder {stats others : Stats} {order other : Bool}
    (tallied : Tallied { options with reorderChildren := order } entries (nodes entries) stats)
    (otherTallied :
      Tallied { options with reorderChildren := other } entries (nodes entries) others)
    (ascending : Ascending entries) (apart : stats.apart = others.apart) : stats = others := by
  apply Stats.eq_of_read_eq apart
  intro counter
  rw [tallied, otherTallied]
  refine congrArg Finset.card (Finset.filter_congr ?_)
  intro bytes _
  exact countsFor_reorder (ascending_below ascending bytes) order other counter

/-- Putting the longer children in front permutes the nodes below each branch, and changes nothing
else. Both ways ascending entries are all taken in, the payloads are of one length, and all counters
agree. Bytes with which several keys begin lead to a branch in both tries; below it the same nodes
are laid out, of the same lengths. In the one trie the longer ones stand in front, those of one
length in the order of their bytes, and in the other one all stand in this order. So much is read
back from the payloads, too: below each branch a node for each byte that goes on, and wherever bytes
lead, the same nodes in these orders. -/
theorem reordering_permutes_siblings (valid : 1 ≤ options.serializeThreshold)
    (ascending : Ascending entries) :
    ∃ root otherRoot stats,
      rootWithStats { options with reorderChildren := true } entries = .ok (root, stats) ∧
      rootWithStats { options with reorderChildren := false } entries = .ok (otherRoot, stats) ∧
      root.serialize.length = otherRoot.serialize.length ∧
      stats.payloadLength = root.serialize.length ∧
      root.serialize = (ofEntries true entries).serialize ∧
      otherRoot.serialize = (ofEntries false entries).serialize ∧
      (∀ bytes, 2 ≤ sharing entries bytes → ∃ node otherNode,
        (ofEntries true entries).descendant? bytes = some node ∧
        (ofEntries false entries).descendant? bytes = some otherNode ∧
        node.siblings.Perm otherNode.siblings ∧ node.siblings.Pairwise LongerFirst ∧
        otherNode.siblings.Pairwise fun earlier later => earlier.1 < later.1) ∧
      (root.Fits →
        let payload := root.toTrie.payload
        let otherPayload := otherRoot.toTrie.payload
        (∀ bytes, 2 ≤ sharing entries bytes → ∃ offset otherOffset,
          LeadsTo τ payload bytes offset ∧ LeadsTo τ otherPayload bytes otherOffset ∧
          ∀ byte, byte ∈ (siblings τ payload offset).map Prod.fst ↔
            bytes ++ [byte] ∈ prefixes entries) ∧
        (∀ bytes offset otherOffset, LeadsTo τ payload bytes offset →
          LeadsTo τ otherPayload bytes otherOffset →
          (siblings τ payload offset).Perm (siblings τ otherPayload otherOffset)) ∧
        (∀ bytes offset, LeadsTo τ payload bytes offset →
          (siblings τ payload offset).Pairwise LongerFirst) ∧
        ∀ bytes otherOffset, LeadsTo τ otherPayload bytes otherOffset →
          (siblings τ otherPayload otherOffset).Pairwise fun earlier later =>
            earlier.1 < later.1) := by
  obtain ⟨root, stats, built, bytes, tallied, apart⟩ :=
    rootWithStats_eq_ok { options with reorderChildren := true } valid ascending
  obtain ⟨otherRoot, otherStats, otherBuilt, otherBytes, otherTallied, otherApart⟩ :=
    rootWithStats_eq_ok { options with reorderChildren := false } valid ascending
  have lengths : root.length = otherRoot.length := by
    rw [length_eq_of_serialize_eq bytes, length_eq_of_serialize_eq otherBytes]
    exact length_ofEntries_of_perm true false ascending (.refl _)
  -- either run is determined by the entries, so the two need not be followed side by side
  obtain rfl := tallied.eq_of_reorder otherTallied ascending (by rw [apart, otherApart, lengths])
  refine ⟨root, otherRoot, stats, built, otherBuilt, ?_, ?_, bytes, otherBytes, ?_, ?_⟩
  · rw [length_serialize, length_serialize, lengths]
  · rw [length_serialize]
    exact congrArg Stats.payloadLength apart
  · intro bytes several
    exact ⟨_, _, descendant?_ofEntries true several, descendant?_ofEntries false several,
      siblings_ofEntries_perm (ascending_below ascending bytes) true false,
      pairwise_siblings_ofEntries_true _, pairwise_siblings_ofEntries_false _⟩
  · intro fits payload otherPayload
    have whole : (ofEntries true entries).Fits := by
      rwa [Fits, ← length_eq_of_serialize_eq bytes]
    have otherWhole : (ofEntries false entries).Fits := by
      rwa [Fits, ← length_eq_of_serialize_eq otherBytes, ← lengths]
    have held : Payload.Holds payload 0 (ofEntries true entries).serialize :=
      bytes ▸ holds_toBytes root.toTrie.payload
    have otherHeld : Payload.Holds otherPayload 0 (ofEntries false entries).serialize :=
      otherBytes ▸ holds_toBytes otherRoot.toTrie.payload
    refine ⟨?_, ?_, ?_, ?_⟩
    · intro bytes several
      obtain ⟨offset, leads⟩ := exists_leadsTo whole held several
      obtain ⟨otherOffset, otherLeads⟩ := exists_leadsTo otherWhole otherHeld several
      refine ⟨offset, otherOffset, leads, otherLeads, fun byte => ?_⟩
      rw [siblings_of_leadsTo leads whole held]
      exact mem_siblings_below true several byte
    · intro bytes offset otherOffset leads otherLeads
      rw [siblings_of_leadsTo leads whole held,
        siblings_of_leadsTo otherLeads otherWhole otherHeld]
      exact siblings_ofEntries_perm (ascending_below ascending bytes) true false
    · intro bytes offset leads
      rw [siblings_of_leadsTo leads whole held]
      exact pairwise_siblings_ofEntries_true _
    · intro bytes otherOffset leads
      rw [siblings_of_leadsTo leads otherWhole otherHeld]
      exact pairwise_siblings_ofEntries_false _

theorem reordering_permutes_siblings_nested :
    let payload : Bytes := [225, 146, 97, 226, 136, 98, 166, 99, 4, 34, 240, 100, 37, 255, 105, 129,
      255, 0, 2, 172]
    let otherPayload : Bytes := [225, 146, 0, 2, 172, 97, 226, 136, 98, 166, 99, 4, 34, 240, 100,
      37, 255, 105, 129, 255]
    1 ≤ nestedOptions.serializeThreshold ∧ Ascending nestedEntries ∧
      ∃ root otherRoot stats,
        rootWithStats { nestedOptions with reorderChildren := true } nestedEntries =
          .ok (root, stats) ∧
        rootWithStats { nestedOptions with reorderChildren := false } nestedEntries =
          .ok (otherRoot, stats) ∧
        root.serialize = payload ∧ otherRoot.serialize = otherPayload ∧ root.Fits ∧
        siblings .integer payload 0 = [(0x61, 10), (0xFF, 3), (0x00, 2)] ∧
        (siblings .integer payload 0).Perm (siblings .integer otherPayload 0) ∧
        2 ≤ sharing nestedEntries [0x61] ∧
        ∃ offset otherOffset, LeadsTo .integer payload [0x61] offset ∧
          LeadsTo .integer otherPayload [0x61] otherOffset ∧
          (siblings .integer payload offset).Pairwise LongerFirst := by
  intro payload otherPayload
  have valid : 1 ≤ nestedOptions.serializeThreshold := by decide
  have several : 2 ≤ sharing nestedEntries [0x61] := by decide
  obtain ⟨root, otherRoot, stats, built, otherBuilt, -, -, -, -, -, reading⟩ :=
    reordering_permutes_siblings valid ascending_nested
  have laidOut : (rootWithStats { nestedOptions with reorderChildren := true }
      nestedEntries).toOption.map (fun done => done.1.serialize) = some payload := by cbv
  have otherLaidOut : (rootWithStats { nestedOptions with reorderChildren := false }
      nestedEntries).toOption.map (fun done => done.1.serialize) = some otherPayload := by cbv
  rw [built] at laidOut
  rw [otherBuilt] at otherLaidOut
  have bytes : root.serialize = payload := Option.some.inj laidOut
  have otherBytes : otherRoot.serialize = otherPayload := Option.some.inj otherLaidOut
  have fits : root.Fits := by
    rw [Fits, ← length_serialize, bytes]
    decide
  have opened : (openNode .integer payload 0).outcome = .ok (2, 20) := by cbv
  have first : (walkNode .integer payload 3).outcome = .ok 13 := by cbv
  have second : (walkNode .integer payload 14).outcome = .ok 17 := by cbv
  have third : (walkNode .integer payload 18).outcome = .ok 20 := by cbv
  have read : Trie.children .integer payload 0 = [(0x61, 3), (0xFF, 14), (0x00, 18)] := by
    rw [children_of_ok opened, childrenRead_of_ok (by decide) rfl first,
      childrenRead_of_ok (by decide) rfl second, childrenRead_of_ok (by decide) rfl third,
      childrenRead_of_le le_rfl]
  have below : siblings .integer payload 0 = [(0x61, 10), (0xFF, 3), (0x00, 2)] := by
    rw [Trie.siblings, read]
    cbv
  have shown : root.toTrie.payload = payload := bytes
  have otherShown : otherRoot.toTrie.payload = otherPayload := otherBytes
  obtain ⟨found, same, longer, -⟩ := reading fits
  rw [shown, otherShown] at found same
  rw [shown] at longer
  obtain ⟨offset, otherOffset, leads, otherLeads, -⟩ := found [0x61] several
  exact ⟨valid, ascending_nested, root, otherRoot, stats, built, otherBuilt, bytes, otherBytes,
    fits, below, same [] 0 0 .root .root, several, offset, otherOffset, leads, otherLeads,
    longer _ _ leads⟩

end Reordering

end Builder

end PackedTrie
