import Mathlib
import PackedTrie.Lookup.Backend
import PackedTrie.Proofs.Lookup.Interchange

/-!
All kinds of storage answer alike. A mapping moves every offset and compares with a length of its
own, a slice leaves both to the slice; either way the answers are those of the payload alone, for
all offsets and lengths, and no sum halts the machine. So no traversal can tell how a payload is
stored, whatever its bytes are.
-/

namespace PackedTrie

namespace Machine

open Payload

section Words

variable {width : Nat}

theorem add_eq_ok_of_lt {left right : Nat} (bounded : left + right < 2 ^ width) :
    add width left right = .ok (left + right) :=
  if_pos bounded

theorem sliceRegion?_eq {bytes : Array UInt8} (short : bytes.size < 2 ^ width)
    (offset length : Nat) :
    sliceRegion? width bytes offset length = Payload.region? bytes offset length := by
  have spec : Payload.region? bytes offset length =
      if offset + length ≤ bytes.size then some (bytes.extract offset (offset + length)).toList
      else none := rfl
  rw [spec]
  by_cases inside : offset + length ≤ bytes.size
  · have word : offset + length < 2 ^ width := by omega
    simp [sliceRegion?, checkedAdd, range?, word, inside]
  · by_cases word : offset + length < 2 ^ width
    · simp [sliceRegion?, checkedAdd, range?, word, inside]
    · simp [sliceRegion?, checkedAdd, word, inside]

end Words

namespace Storage

variable {β : Type} [SharedBuffer β] {width : Nat} {storage : Storage β} {payload : Bytes}

section Mapped

variable {window : Window}

/-- A mapping is a window that starts behind the header. -/
theorem byteAt_mapped (start : window.start = Header.size) (short : window.whole.size < 2 ^ width)
    (offset : Nat) :
    (mapped window.whole window.size : Storage β).byteAt width offset =
      .ok (byte? window offset) := by
  have spec : byte? window offset =
      if offset < window.size then window.whole[window.start + offset]? else none := rfl
  have fits := window.inside
  rw [spec, start]
  by_cases inside : offset < window.size
  · have moved : add width Header.size offset = .ok (Header.size + offset) :=
      add_eq_ok_of_lt (by omega)
    simp only [byteAt, if_pos inside, moved]
    rfl
  · simp only [byteAt, if_neg inside]
    rfl

theorem regionAt_mapped (start : window.start = Header.size)
    (short : window.whole.size < 2 ^ width) (offset length : Nat) :
    (mapped window.whole window.size : Storage β).regionAt width offset length =
      .ok (Payload.region? window offset length) := by
  have spec : Payload.region? window offset length =
      if offset + length ≤ window.size then
        some (window.whole.extract (window.start + offset)
          (window.start + (offset + length))).toList
      else none := rfl
  have fits := window.inside
  rw [spec, start]
  by_cases inside : offset + length ≤ window.size
  · have word : checkedAdd width offset length = some (offset + length) := if_pos (by omega)
    have first : add width Header.size offset = .ok (Header.size + offset) :=
      add_eq_ok_of_lt (by omega)
    have last : add width Header.size (offset + length) =
        .ok (Header.size + (offset + length)) :=
      add_eq_ok_of_lt (by omega)
    have found : range? window.whole (Header.size + offset) (Header.size + (offset + length)) =
        some (window.whole.extract (Header.size + offset)
          (Header.size + (offset + length))).toList :=
      if_pos ⟨by omega, by omega⟩
    simp only [regionAt, word, first, last, if_neg (Nat.not_lt.mpr inside), if_pos inside]
    exact congrArg Except.ok found
  · -- refused for its end, which is beyond the length or no word at all
    by_cases word : offset + length < 2 ^ width
    · simp only [regionAt, checkedAdd, if_pos word, if_pos (Nat.not_le.mp inside), if_neg inside]
      rfl
    · simp only [regionAt, checkedAdd, if_neg word, if_neg inside]
      rfl

theorem exists_window {file : Array UInt8} {header trailing : Bytes}
    (start : header.length = Header.size)
    (contents : file.toList = header ++ (payload ++ trailing)) :
    ∃ window : Window, window.whole = file ∧ window.start = Header.size ∧
      window.size = payload.length ∧ toBytes window = payload := by
  have size : file.size = Header.size + (payload.length + trailing.length) := by
    rw [← Array.length_toList, contents, List.length_append, List.length_append, start]
  refine ⟨⟨file, Header.size, payload.length, by omega⟩, rfl, rfl, rfl, ?_⟩
  have seen : toBytes (⟨file, Header.size, payload.length, by omega⟩ : Window) =
      (file.toList.drop Header.size).take payload.length := rfl
  rw [seen, contents, ← start, List.drop_left, List.take_left]

end Mapped

namespace Keeps

theorem size_eq (keeps : storage.Keeps width payload) : storage.size = payload.length := by
  induction keeps with
  | slice contents short =>
      rw [← contents]
      rfl
  | shared contents short =>
      rw [← contents]
      exact SharedBuffer.size_eq _
  | mapped header trailing start contents short => rfl
  | reference kept inductionHypothesis => exact inductionHypothesis

theorem byteAt_eq (keeps : storage.Keeps width payload) (offset : Nat) :
    storage.byteAt width offset = .ok (byte? payload offset) := by
  induction keeps with
  | @slice bytes contents short =>
      have same : toBytes bytes = toBytes payload := contents
      rw [← byte?_congr same]
      rfl
  | @shared buffer contents short =>
      have same : toBytes (SharedBuffer.slice buffer) = toBytes payload := contents
      rw [← byte?_congr same]
      rfl
  | mapped header trailing start contents short =>
      obtain ⟨window, rfl, behind, length, same⟩ := exists_window start contents
      have seen : toBytes window = toBytes payload := same
      rw [← length, byteAt_mapped behind short, byte?_congr seen]
  | reference kept inductionHypothesis => exact inductionHypothesis

theorem regionAt_eq (keeps : storage.Keeps width payload) (offset length : Nat) :
    storage.regionAt width offset length = .ok (Payload.region? payload offset length) := by
  induction keeps with
  | @slice bytes contents short =>
      have same : toBytes bytes = toBytes payload := contents
      rw [← region?_congr same, ← sliceRegion?_eq short]
      rfl
  | @shared buffer contents short =>
      have same : toBytes (SharedBuffer.slice buffer) = toBytes payload := contents
      rw [SharedBuffer.size_eq] at short
      rw [← region?_congr same, ← sliceRegion?_eq short]
      rfl
  | mapped header trailing start contents short =>
      obtain ⟨window, rfl, behind, length, same⟩ := exists_window start contents
      have seen : toBytes window = toBytes payload := same
      rw [← length, regionAt_mapped behind short, region?_congr seen]
  | reference kept inductionHypothesis => exact inductionHypothesis

theorem length_lt (keeps : storage.Keeps width payload) : payload.length < 2 ^ width := by
  induction keeps with
  | slice contents short => rwa [← contents, Array.length_toList]
  | shared contents short => rwa [← contents, Array.length_toList, ← SharedBuffer.size_eq]
  | mapped header trailing start contents short =>
      rw [← Array.length_toList, contents, List.length_append, List.length_append] at short
      omega
  | reference kept inductionHypothesis => exact inductionHypothesis

end Keeps

end Storage

/-- A storage, with the payload that it keeps. -/
structure Backend (width : Nat) (β : Type) [SharedBuffer β] where
  storage : Storage β
  payload : Bytes
  keeps : storage.Keeps width payload

instance {width : Nat} {β : Type} [SharedBuffer β] : Payload (Backend width β) where
  toBytes backend := backend.payload
  size backend := backend.storage.size
  byte? backend offset := (backend.storage.byteAt width offset).toOption.join
  region? backend offset length := (backend.storage.regionAt width offset length).toOption.join
  size_eq backend := backend.keeps.size_eq
  byte?_eq backend offset := by
    rw [backend.keeps.byteAt_eq]
    rfl
  region?_eq backend offset length := by
    rw [backend.keeps.regionAt_eq]
    rfl

namespace Storage

variable {β : Type} [SharedBuffer β] {width : Nat} {storage : Storage β} {payload : Bytes}

/-- Every kind of storage answers as the payload that it keeps, for all offsets and lengths, and
nothing else is to be seen through it. So it answers as any other payload of these bytes, and
searches and walks are the same over both. -/
theorem answers_as_payload (keeps : storage.Keeps width payload) :
    storage.size = payload.length ∧
      (∀ offset, storage.byteAt width offset = .ok payload[offset]?) ∧
      (∀ offset length, storage.regionAt width offset length =
        .ok (if offset + length ≤ payload.length then some ((payload.drop offset).take length)
          else none)) ∧
      (∀ offset length, 2 ^ width ≤ offset + length →
        storage.regionAt width offset length = .ok none) ∧
      (∀ offset, storage.regionAt width offset 0 = .ok (some []) ↔ offset ≤ payload.length) ∧
      ∀ {τ : ValueType} {α : Type} [Payload α] (other : α), toBytes other = payload →
        storage.size = Payload.size other ∧
        (∀ offset, storage.byteAt width offset = .ok (byte? other offset)) ∧
        (∀ offset length, storage.regionAt width offset length =
          .ok (Payload.region? other offset length)) ∧
        (∀ key, (⟨⟨storage, payload, keeps⟩⟩ : Trie (Backend width β) τ).find key =
          (⟨other⟩ : Trie α τ).find key) ∧
        (⟨⟨storage, payload, keeps⟩⟩ : Trie (Backend width β) τ).walk =
          (⟨other⟩ : Trie α τ).walk := by
  have region := keeps.regionAt_eq
  have spec : ∀ offset length, Payload.region? payload offset length =
      if offset + length ≤ payload.length then some ((payload.drop offset).take length)
      else none := fun _ _ => rfl
  refine ⟨keeps.size_eq, keeps.byteAt_eq, region, ?_, ?_, ?_⟩
  · intro offset length beyond
    have short := keeps.length_lt
    rw [region, spec, if_neg (by omega)]
  · intro offset
    rw [region, spec]
    by_cases inside : offset ≤ payload.length <;> simp [inside]
  · intro τ α _ other same
    have denoted : toBytes (⟨storage, payload, keeps⟩ : Backend width β) = toBytes other :=
      same.symm
    have bytes : toBytes payload = toBytes other := same.symm
    refine ⟨keeps.size_eq.trans (size_congr bytes), ?_, ?_, Trie.find_congr denoted,
      Trie.walk_congr denoted⟩
    · intro offset
      rw [keeps.byteAt_eq, byte?_congr bytes]
    · intro offset length
      rw [keeps.regionAt_eq, region?_congr bytes]

/-- The byte behind the payload would be the leaf that is missing in it. -/
theorem answers_as_payload_leafBehind :
    let payload : Bytes := [0xE5, 0x82, 0x61]
    let file : Array UInt8 := (List.replicate Header.size 0 ++ (payload ++ [0x27])).toArray
    let storage : Storage Window := .reference (.mapped file payload.length)
    ∃ keeps : storage.Keeps 64 payload,
      storage.byteAt 64 3 = .ok none ∧ storage.regionAt 64 3 0 = .ok (some []) ∧
      storage.regionAt 64 (2 ^ 64 - 1) 1 = .ok none ∧
      (⟨⟨storage, payload, keeps⟩⟩ : Trie (Backend 64 Window) .integer).find [0x61] =
        .error (.lengthOutside 2 2) ∧
      (⟨⟨storage, payload, keeps⟩⟩ : Trie (Backend 64 Window) .integer).walk =
        ⟨[([], (5 : UInt64))], .error (.lengthOutside 2 2)⟩ := by
  intro payload file storage
  have keeps : storage.Keeps 64 payload :=
    .reference (.mapped (List.replicate Header.size 0) [0x27] rfl rfl (by decide))
  obtain ⟨-, byte, -, beyond, empty, same⟩ := answers_as_payload keeps
  obtain ⟨-, -, -, found, walked⟩ := @same .integer Bytes _ payload rfl
  have missed : (⟨payload⟩ : Trie Bytes .integer).find [0x61] =
      .error (.lengthOutside 2 2) := by cbv
  have ended : (⟨payload⟩ : Trie Bytes .integer).walk =
      ⟨[([], (5 : UInt64))], .error (.lengthOutside 2 2)⟩ := by cbv
  exact ⟨keeps, byte 3, (empty 3).mpr le_rfl, beyond _ _ (by decide), (found _).trans missed,
    walked.trans ended⟩

end Storage

end Machine

end PackedTrie
