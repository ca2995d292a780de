import Mathlib
import PackedTrie.Proofs.File.Loading
import PackedTrie.Proofs.Node.Emission

/-!
Trie files from their bytes to a root and back. A written file is loaded as the layout of its root,
whatever follows it. The other way round, a loaded payload need not be the layout of any node; it is
taken for the bytes of one as it stands, and writing these gives the file back up to the byte in
reserve.
-/

namespace PackedTrie

namespace Bytes

theorem foldl_bigEndian (width value read : Nat) :
    (bigEndian width value).foldl (fun number byte => number * 256 + byte.toNat) read =
      read * 256 ^ width + value % 256 ^ width := by
  induction width generalizing read with
  | zero => simp [bigEndian, Nat.mod_one]
  | succ width inductionHypothesis =>
      have byte : (value >>> (8 * width)).toUInt8.toNat = value / 256 ^ width % 256 := by
        rw [Nat.shiftRight_eq_div_pow, Nat.pow_mul]
        rfl
      rw [bigEndian, List.foldl_cons, inductionHypothesis, byte, Nat.pow_succ, Nat.mod_mul]
      ring

theorem toNat_bigEndian {width value : Nat} (bounded : value < 256 ^ width) :
    toNat (bigEndian width value) = value := by
  rw [toNat, foldl_bigEndian, Nat.zero_mul, Nat.zero_add, Nat.mod_eq_of_lt bounded]

theorem toNat_append_singleton (bytes : Bytes) (byte : UInt8) :
    toNat (bytes ++ [byte]) = toNat bytes * 256 + byte.toNat := by
  rw [toNat, List.foldl_append]
  rfl

theorem toNat_lt (bytes : Bytes) : toNat bytes < 256 ^ bytes.length := by
  induction bytes using List.reverseRecOn with
  | nil => decide
  | append_singleton front byte inductionHypothesis =>
      have small := byte.toNat_lt
      rw [toNat_append_singleton, List.length_append, List.length_singleton, Nat.pow_succ]
      omega

theorem bigEndian_append_singleton (width value : Nat) (byte : UInt8) :
    bigEndian (width + 1) (value * 256 + byte.toNat) = bigEndian width value ++ [byte] := by
  have small := byte.toNat_lt
  induction width with
  | zero =>
      have same : (value * 256 + byte.toNat).toUInt8 = byte := by
        apply UInt8.toNat_inj.mp
        show (value * 256 + byte.toNat) % 256 = byte.toNat
        omega
      simp only [bigEndian, Nat.mul_zero, Nat.shiftRight_zero, same, List.nil_append]
  | succ width inductionHypothesis =>
      have high : (value * 256 + byte.toNat) >>> (8 * (width + 1)) = value >>> (8 * width) := by
        have lower : (value * 256 + byte.toNat) >>> 8 = value := by
          rw [Nat.shiftRight_eq_div_pow]
          omega
        rw [Nat.mul_succ 8 width, Nat.add_comm (8 * width), Nat.shiftRight_add, lower]
      rw [bigEndian, inductionHypothesis, high]
      rfl

theorem bigEndian_toNat (bytes : Bytes) : bigEndian bytes.length (toNat bytes) = bytes := by
  induction bytes using List.reverseRecOn with
  | nil => rfl
  | append_singleton front byte inductionHypothesis =>
      rw [toNat_append_singleton, List.length_append, List.length_singleton,
        bigEndian_append_singleton, inductionHypothesis]

end Bytes

namespace Header

variable {τ : ValueType} {data : Bytes}

theorem Heads.take_size (heads : Heads τ data) :
    ∃ reserve, data.take size =
      signature ++ (τ.code :: reserve :: Bytes.bigEndian 8 (declared data)) := by
  have complete := heads.complete
  have counted : Bytes.bigEndian 8 (declared data) = (data.drop 8).take 8 := by
    have eight : ((data.drop 8).take 8).length = 8 := by
      rw [List.length_take, List.length_drop]
      simp only [size] at complete
      omega
    have back := Bytes.bigEndian_toNat ((data.drop 8).take 8)
    rwa [eight] at back
  have inside : 7 < data.length := Nat.lt_of_lt_of_le (by decide) complete
  refine ⟨data[7], ?_⟩
  have coded : data.drop 6 = τ.code :: data.drop 7 := by
    rw [List.drop_eq_getElem?_toList_append, show data[6]? = some τ.code from heads.coded]
    rfl
  have reserved : data.drop 7 = data[7] :: data.drop 8 := List.drop_eq_getElem_cons inside
  calc
    data.take size = data.take 6 ++ (data.drop 6).take 10 :=
        List.take_add (i := 6) (j := 10)
    _ = signature ++ (τ.code :: data[7] :: (data.drop 8).take 8) := by
        rw [coded, reserved, show data.take 6 = signature from heads.signed]
        rfl
    _ = signature ++ (τ.code :: data[7] :: Bytes.bigEndian 8 (declared data)) := by
        rw [counted]

theorem encode_of_heads (heads : Heads τ data) :
    (Header.mk τ (declared data)).encode = (data.take size).set 7 0 := by
  obtain ⟨reserve, front⟩ := heads.take_size
  rw [front]
  rfl

variable {length : Nat}

theorem declared_encode_append (bounded : length < 2 ^ 64) (rest : Bytes) :
    declared ((Header.mk τ length).encode ++ rest) = length := by
  have counted : (((Header.mk τ length).encode ++ rest).drop 8).take 8 =
      Bytes.bigEndian 8 length := by
    show (Bytes.bigEndian 8 length ++ rest).take 8 = _
    exact List.take_left' (Bytes.length_bigEndian 8 length)
  rw [declared, counted]
  exact Bytes.toNat_bigEndian bounded

theorem heads_encode_append (τ : ValueType) (length : Nat) (rest : Bytes) :
    Heads τ ((Header.mk τ length).encode ++ rest) where
  complete := by
    rw [List.length_append, length_encode]
    exact Nat.le_add_right _ _
  signed := rfl
  coded := rfl

theorem declared_lt (data : Bytes) : declared data < 2 ^ 64 :=
  calc
    declared data < 256 ^ ((data.drop 8).take 8).length := Bytes.toNat_lt _
    _ ≤ 256 ^ 8 := Nat.pow_le_pow_right (by decide) (List.length_take_le _ _)
    _ = 2 ^ 64 := by decide

end Header

namespace Loading

open Header

variable {τ : ValueType} {data : Bytes}

/-- The file that writing the root, with a header, leaves in an empty sink that grows. -/
def save (root : Node τ) : Except Error Bytes :=
  match root.writeTrie true ⟨⟨none, #[]⟩, []⟩ with
  | .ok _ output => .ok output.sink.written.toList
  | .error error _ => .error error

/-- Loads a trie, takes its payload for the bytes of a node, and saves that. -/
def rewrite (τ : ValueType) (data : Bytes) : Except Error Bytes := do
  let loaded ← Loader.array.load τ data []
  let root : Node τ ← Node.ofBytes loaded
  save root

theorem save_eq {root : Node τ} (fits : root.Fits) : save root = .ok (root.document true) := by
  rw [save, Node.writeTrie_unbounded fits]
  simp only [Array.toList_appendList, List.nil_append]

section Written

variable {root : Node τ} (trailing : Bytes)

theorem document_append (root : Node τ) (trailing : Bytes) :
    root.document true ++ trailing =
      (Header.mk τ root.length).encode ++ (root.serialize ++ trailing) :=
  List.append_assoc _ _ _

include trailing in
theorem payload_document_append (fits : root.Fits) :
    payload (root.document true ++ trailing) = root.serialize := by
  rw [payload, document_append, declared_encode_append fits]
  have behind : ((Header.mk τ root.length).encode ++ (root.serialize ++ trailing)).drop
      Header.size = root.serialize ++ trailing :=
    List.drop_left' (length_encode _)
  rw [behind, List.take_left' (Node.length_serialize root)]

theorem loadable_document_append (fits : root.Fits) :
    Loadable τ (root.document true ++ trailing) := by
  rw [document_append]
  refine ⟨heads_encode_append τ _ _, ?_⟩
  rw [declared_encode_append fits]
  simp only [List.length_append, length_encode, Node.length_serialize]
  omega

theorem load_document_append (fits : root.Fits) :
    Loader.array.load τ (root.document true ++ trailing) [] = .ok root.serialize := by
  rw [Loader.load_of_loadable _ (loadable_document_append trailing fits),
    payload_document_append trailing fits]

end Written

section Rewriting

variable {root : Node τ}

theorem rewrite_of_load (fits : root.Fits)
    (loaded : Loader.array.load τ data [] = .ok root.serialize) :
    rewrite τ data = .ok (root.document true) := by
  have flatFits : root.flatten.Fits := by
    rw [Node.Fits, Node.length_flatten]
    exact fits
  calc
    rewrite τ data = save root.flatten := by
      rw [rewrite, loaded]
      rfl
    _ = .ok (root.flatten.document true) := save_eq flatFits
    _ = .ok (root.document true) := by
      rw [Node.document, Node.document, Node.header, Node.header, Node.length_flatten,
        Node.serialize_flatten]

theorem rewrite_document (fits : root.Fits) :
    rewrite τ (root.document true) = .ok (root.document true) := by
  have loaded := load_document_append [] fits
  rw [List.append_nil] at loaded
  exact rewrite_of_load fits loaded

theorem rewrite_of_empty (loadable : Loadable τ data) (empty : declared data = 0) :
    rewrite τ data = .error (.invalidArgument .emptyNode) := by
  have nothing : payload data = [] := by rw [payload, empty, List.take_zero]
  rw [rewrite, Loader.load_of_loadable _ loadable, nothing]
  rfl

theorem exists_root_of_loadable (loadable : Loadable τ data) (positive : 1 ≤ declared data) :
    ∃ root : Node τ, root.serialize = payload data ∧ root.length = declared data ∧ root.Fits := by
  have counted : (payload data).length = declared data := by
    rw [length_payload]
    exact Nat.min_eq_left loadable.present
  cases shown : payload data with
  | nil =>
      rw [shown, List.length_nil] at counted
      omega
  | cons lead body =>
      have length : (Node.flat lead body : Node τ).length = declared data := by
        rw [← counted, shown, ← Node.length_serialize]
        rfl
      refine ⟨.flat lead body, rfl, length, ?_⟩
      rw [Node.Fits, length]
      exact declared_lt data

/-- The part of an accepted file that belongs to the trie, with a zero in the byte in reserve. -/
theorem document_of_loadable (loadable : Loadable τ data)
    (bytes : root.serialize = payload data) (length : root.length = declared data) :
    root.document true = (data.take (Header.size + declared data)).set 7 0 := by
  have split : data.take (Header.size + declared data) =
      data.take Header.size ++ payload data := List.take_add
  have inside : 7 < (data.take Header.size).length := by
    rw [List.length_take_of_le loadable.heads.complete]
    decide
  rw [Node.document, if_pos rfl, bytes, Node.header, length, encode_of_heads loadable.heads, split,
    List.set_append_left _ _ inside]

theorem loadable_of_load {loader : Loader} {loaded : Bytes}
    (accepted : loader.load τ data [] = .ok loaded) : Loadable τ data := by
  by_contra refused
  obtain ⟨error, failed, -⟩ := loader.refuses_of_not_loadable refused []
  rw [failed] at accepted
  contradiction

end Rewriting

/-- Writing a root with a header leaves a file of the number of bytes returned, which loads as the
layout of the root, whatever follows. And of any file that loads, writing what was loaded gives
back the bytes, as many as the header declares, with a zero in the byte in reserve; doing it again
changes nothing more. Only an empty payload is no node. -/
theorem file_roundTrip (τ : ValueType) :
    (∀ root : Node τ, root.Fits → ∀ held journal, ∃ (file : Bytes) (events : List Event),
      root.writeTrie true ⟨⟨none, held⟩, journal⟩ =
          .ok (Header.size + root.length) ⟨⟨none, held ++ file⟩, events⟩ ∧
        file.length = Header.size + root.length ∧
        (∀ trailing, Loader.array.load τ (file ++ trailing) [] = .ok root.serialize) ∧
        rewrite τ file = .ok file) ∧
      ∀ data loaded, Loader.array.load τ data [] = .ok loaded →
        (1 ≤ declared data → ∃ file, file = (data.take (Header.size + declared data)).set 7 0 ∧
          rewrite τ data = .ok file ∧ rewrite τ file = .ok file) ∧
        (declared data = 0 → rewrite τ data = .error (.invalidArgument .emptyNode)) := by
  constructor
  · intro root fits held journal
    have length : (root.document true).length = Header.size + root.length :=
      Node.length_document root true
    have written := Node.writeTrie_unbounded fits true held journal
    rw [length] at written
    exact ⟨root.document true, _, written, length, (load_document_append · fits),
      rewrite_document fits⟩
  · intro data loaded accepted
    have loadable := loadable_of_load accepted
    refine ⟨?_, rewrite_of_empty loadable⟩
    intro positive
    obtain ⟨root, bytes, length, fits⟩ := exists_root_of_loadable loadable positive
    refine ⟨root.document true, document_of_loadable loadable bytes length, ?_,
      rewrite_document fits⟩
    apply rewrite_of_load fits
    rw [Loader.load_of_loadable _ loadable, bytes]

/-- A file of two payload bytes with one more behind them, and something in the byte in reserve. -/
def reservedFile : Bytes :=
  (Header.mk .bytes 2).encode.set 7 255 ++ [5, 0, 7]

/-- A branch with a value, a leaf and a leaf with a suffix. -/
def forkedRoot : Node .integer :=
  .branch (some (7 : UInt64))
    [(0x61, .leaf (300 : UInt64)), (0x62, .suffixLeaf (2 : UInt64) [0x63, 0x64])]

theorem file_roundTrip_reservedFile :
    (∃ (file : Bytes) (events : List Event),
      forkedRoot.writeTrie true ⟨⟨none, #[]⟩, []⟩ =
          .ok (Header.size + forkedRoot.length) ⟨⟨none, (#[] : Array UInt8) ++ file⟩, events⟩ ∧
        file.length = Header.size + forkedRoot.length ∧
        (∀ trailing,
          Loader.array.load .integer (file ++ trailing) [] = .ok forkedRoot.serialize) ∧
        rewrite .integer file = .ok file) ∧
      rewrite .bytes reservedFile = .ok ((reservedFile.take 18).set 7 0) ∧
      rewrite .bytes (Header.mk .bytes 0).encode = .error (.invalidArgument .emptyNode) := by
  have fits : forkedRoot.Fits := by
    show forkedRoot.length < 2 ^ 64
    decide +kernel
  have accepted : Loader.array.load .bytes reservedFile [] = .ok [5, 0] := by decide
  have empty : Loader.array.load .bytes (Header.mk .bytes 0).encode [] = .ok [] := by decide
  have reread := ((file_roundTrip .bytes).2 reservedFile [5, 0] accepted).1 (by decide)
  obtain ⟨file, rfl, again, -⟩ := reread
  exact ⟨(file_roundTrip .integer).1 forkedRoot fits #[] [], again,
    ((file_roundTrip .bytes).2 _ [] empty).2 (by decide)⟩

end Loading

end PackedTrie
