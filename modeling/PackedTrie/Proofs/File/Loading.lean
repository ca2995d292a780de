import Mathlib
import PackedTrie.File.Load
import PackedTrie.Proofs.Sequencing

/-!
What data the loaders accept. Each of them has checks of its own, in an order of its own, but they
accept the same data, and what they make of it is the same run of bytes. Where the data is not that
of a trie they agree on what is wrong with it; only a stream that breaks off counts as a failure of
the stream.
-/

namespace PackedTrie

open Sequencing

/-- The kind of value that a trie with values of kind `τ` does not hold. -/
def ValueType.other : ValueType → ValueType
  | .integer => .bytes
  | .bytes => .integer

namespace ValueType

variable {τ held : ValueType}

theorem eq_code_of_ofCode? {code : UInt8} (known : ofCode? code = some τ) : code = τ.code := by
  unfold ofCode? at known
  split at known <;> cases known <;> rfl

theorem eq_of_code_eq (same : τ.code = held.code) : τ = held := by
  cases τ <;> cases held <;> first | rfl | contradiction

theorem eq_other_of_ne (different : held ≠ τ) : held = τ.other := by
  cases τ <;> cases held <;> first | rfl | contradiction

theorem other_ne (τ : ValueType) : τ.other ≠ τ := by
  cases τ <;> decide

end ValueType

namespace Header

variable {τ held : ValueType} {data : Bytes}

/-- The length of the payload as the header in front of the data declares it. -/
def declared (data : Bytes) : Nat :=
  Bytes.toNat ((data.drop 8).take 8)

/-- The data begins with a header of a trie with values of kind `τ`. The byte in reserve may be
any. -/
structure Heads (τ : ValueType) (data : Bytes) : Prop where
  complete : size ≤ data.length
  signed : data.take signature.length = signature
  coded : data[signature.length]? = some τ.code

instance (τ : ValueType) (data : Bytes) : Decidable (Heads τ data) :=
  decidable_of_iff
    (size ≤ data.length ∧ data.take signature.length = signature ∧
      data[signature.length]? = some τ.code)
    ⟨fun ⟨complete, signed, coded⟩ => ⟨complete, signed, coded⟩,
      fun heads => ⟨heads.complete, heads.signed, heads.coded⟩⟩

theorem Heads.unique (heads : Heads τ data) (others : Heads held data) : held = τ :=
  ValueType.eq_of_code_eq (Option.some.inj (others.coded.symm.trans heads.coded))

theorem decode_of_heads (heads : Heads τ data) : decode data 0 = .ok ⟨τ, declared data⟩ := by
  have complete : ((data.drop 0).take size).length = size := by
    rw [List.drop_zero, List.length_take, Nat.min_eq_left heads.complete]
  have signed : ((data.drop 0).take size).take signature.length = signature := by
    rw [List.drop_zero, List.take_take]
    exact heads.signed
  have coded : ((data.drop 0).take size).getD signature.length 0 = τ.code := by
    rw [List.drop_zero, List.getD_eq_getElem?_getD, List.getElem?_take_of_lt (by decide),
      heads.coded]
    rfl
  have counted : ((data.drop 0).take size).drop 8 = (data.drop 8).take 8 := by
    rw [List.drop_zero, List.drop_take]
    rfl
  simp only [decode, ofBytes, complete, signed, coded, counted, ne_eq, not_true_eq_false, if_false,
    ValueType.ofCode?_code, declared]

theorem decode_of_not_heads (none : ∀ τ, ¬ Heads τ data) :
    ∃ fault, decode data 0 = .error (.invalidFormat fault) := by
  unfold decode ofBytes
  rw [List.drop_zero]
  split
  · exact ⟨_, rfl⟩
  · split
    · exact ⟨_, rfl⟩
    · next complete signed =>
      rw [not_not, List.length_take] at complete
      rw [not_not, List.take_take] at signed
      dsimp only
      split
      next => exact ⟨_, rfl⟩
      next _ valueType known =>
        have long : size ≤ data.length := by omega
        have inside : signature.length < data.length := Nat.lt_of_lt_of_le (by decide) long
        rw [List.getD_eq_getElem?_getD, List.getElem?_take_of_lt (by decide),
          List.getElem?_eq_getElem inside, Option.getD_some] at known
        refine absurd ⟨long, signed, ?_⟩ (none valueType)
        rw [List.getElem?_eq_getElem inside, ValueType.eq_code_of_ofCode? known]

theorem decode_take (data : Bytes) : decode (data.take size) 0 = decode data 0 := by
  rw [decode, decode, List.drop_zero, List.drop_zero, List.take_take, Nat.min_self]

end Header

namespace Loading

open Header

variable {τ : ValueType} {data : Bytes}

/-- A header of the right kind stands in front of the data, and the payload it declares is there. -/
structure Loadable (τ : ValueType) (data : Bytes) : Prop where
  heads : Heads τ data
  present : declared data ≤ data.length - Header.size

instance (τ : ValueType) (data : Bytes) : Decidable (Loadable τ data) :=
  decidable_of_iff (Heads τ data ∧ declared data ≤ data.length - Header.size)
    ⟨fun ⟨heads, present⟩ => ⟨heads, present⟩, fun loadable => ⟨loadable.heads, loadable.present⟩⟩

/-- The bytes after the header, as many as it declares. -/
def payload (data : Bytes) : Bytes :=
  (data.drop Header.size).take (declared data)

/-- What a loaded trie shows of the data. -/
def exposed {α : Type} [Payload α] :
    EStateM.Result Error (List Event) (Trie α τ) → Except Error Bytes
  | .ok trie _ => .ok (Payload.toBytes trie.payload)
  | .error error _ => .error error

inductive Loader where
  | array
  | shared
  | file (name : String)
  | mapped (name : String)
  | stream
  deriving DecidableEq, Repr

def Loader.load (loader : Loader) (τ : ValueType) (data : Bytes) (journal : List Event) :
    Except Error Bytes :=
  match loader with
  | .array => exposed (ofArray τ data.toArray journal)
  | .shared => exposed (ofShared τ data.toArray journal)
  | .file name => exposed (ofFile τ name (some data.toArray) journal)
  | .mapped name => exposed (ofMapped τ name (some data.toArray) journal)
  | .stream => exposed (ofStream τ data).2

/-- The category of the error for data that cannot be loaded. A header of the other kind comes
first, whatever it declares. -/
def refusal (loader : Loader) (τ : ValueType) (data : Bytes) : ErrorKind :=
  if Heads τ.other data then .invalidArgument
  else if loader = .stream ∧ (data.length < Header.size ∨ Heads τ data) then .io
  else .invalidFormat

/-- Data that cannot be loaded breaks off, or is headed by another kind, or by no header at all. -/
theorem heads_cases (τ : ValueType) (data : Bytes) :
    Loadable τ data ∨ (Heads τ data ∧ data.length < Header.size + declared data) ∨
      Heads τ.other data ∨ ∀ held, ¬ Heads held data := by
  by_cases right : Heads τ data
  · by_cases present : declared data ≤ data.length - Header.size
    · exact .inl ⟨right, present⟩
    · have complete := right.complete
      exact .inr (.inl ⟨right, by omega⟩)
  · by_cases wrong : Heads τ.other data
    · exact .inr (.inr (.inl wrong))
    · refine .inr (.inr (.inr ?_))
      intro held heads
      by_cases same : held = τ
      · exact right (same ▸ heads)
      · exact wrong (ValueType.eq_other_of_ne same ▸ heads)

theorem not_heads_of_other (other : Heads τ.other data) : ¬ Heads τ data :=
  fun heads => ValueType.other_ne τ (heads.unique other)

section Window

theorem checkValueType_self (τ : ValueType) (length : Nat) :
    checkValueType τ ⟨τ, length⟩ = .ok () :=
  if_pos rfl

theorem checkValueType_other (τ : ValueType) (length : Nat) :
    checkValueType τ ⟨τ.other, length⟩ = .error (.invalidArgument (.wrongValueType τ.other τ)) :=
  if_neg (ValueType.other_ne τ)

theorem toList_extract_add (file : Array UInt8) (start length : Nat) :
    (file.extract start (start + length)).toList = (file.toList.drop start).take length := by
  rw [Array.toList_extract, List.extract_eq_take_drop, Nat.add_sub_cancel_left]

theorem decode_extract (file : Array UInt8) :
    decode (file.extract 0 Header.size).toList 0 = decode file.toList 0 := by
  rw [Array.toList_extract, List.extract_eq_take_drop, List.drop_zero, Nat.sub_zero, decode_take]

variable (file : Array UInt8) (journal : List Event)

theorem payloadWindow_of_loadable (loadable : Loadable τ file.toList) :
    ∃ window, payloadWindow τ file journal =
        .ok window (.headerRead τ (declared file.toList) :: journal) ∧
      window.toBytes = payload file.toList := by
  have complete := loadable.heads.complete
  have present := loadable.present
  rw [Array.length_toList] at complete present
  have inside : Header.size + declared file.toList ≤ file.size := by omega
  refine ⟨⟨file, Header.size, declared file.toList, inside⟩, ?_, rfl⟩
  unfold payloadWindow
  rw [decode_extract, decode_of_heads loadable.heads]
  simp only [ofExcept, pure_bind, checkValueType_self, dif_pos inside]
  rfl

theorem payloadWindow_of_missing (heads : Heads τ file.toList)
    (missing : file.size < Header.size + declared file.toList) :
    payloadWindow τ file journal = .error
      (.invalidFormat (.missingPayload (declared file.toList) (file.size - Header.size)))
      journal := by
  have outside : ¬ Header.size + declared file.toList ≤ file.size := Nat.not_le.mpr missing
  unfold payloadWindow
  rw [decode_extract, decode_of_heads heads]
  simp only [ofExcept, pure_bind, checkValueType_self, dif_neg outside]
  rfl

theorem payloadWindow_of_other (other : Heads τ.other file.toList) :
    payloadWindow τ file journal =
      .error (.invalidArgument (.wrongValueType τ.other τ)) journal := by
  unfold payloadWindow
  rw [decode_extract, decode_of_heads other]
  simp only [ofExcept, pure_bind, checkValueType_other]
  rfl

theorem payloadWindow_of_not_heads (none : ∀ held, ¬ Heads held file.toList) :
    ∃ fault, payloadWindow τ file journal = .error (.invalidFormat fault) journal := by
  obtain ⟨fault, failed⟩ := decode_of_not_heads none
  refine ⟨fault, ?_⟩
  unfold payloadWindow
  rw [decode_extract, failed]
  rfl

end Window

section Loaders

def windowed : EStateM.Result Error (List Event) Window → Except Error Bytes
  | .ok window _ => .ok window.toBytes
  | .error error _ => .error error

theorem windowed_of_loadable (loadable : Loadable τ data) (journal : List Event) :
    windowed (payloadWindow τ data.toArray journal) = .ok (payload data) := by
  obtain ⟨window, found, shown⟩ := payloadWindow_of_loadable data.toArray journal loadable
  rw [found, windowed, shown]

theorem windowed_of_not_loadable (refused : ¬ Loadable τ data) (journal : List Event) :
    ∃ error, windowed (payloadWindow τ data.toArray journal) = .error error ∧
      error.kind = if Heads τ.other data then .invalidArgument else .invalidFormat := by
  rcases heads_cases τ data with loadable | ⟨heads, missing⟩ | other | none
  · exact absurd loadable refused
  · have missed := payloadWindow_of_missing data.toArray journal heads
      (by simpa using missing)
    rw [if_neg fun other => not_heads_of_other other heads, missed]
    exact ⟨_, rfl, rfl⟩
  · have mistaken := payloadWindow_of_other data.toArray journal other
    rw [if_pos other, mistaken]
    exact ⟨_, rfl, rfl⟩
  · obtain ⟨fault, failed⟩ :=
      payloadWindow_of_not_heads data.toArray journal none
    rw [if_neg (none τ.other), failed]
    exact ⟨_, rfl, rfl⟩

theorem load_array (τ : ValueType) (data : Bytes) (journal : List Event) :
    Loader.array.load τ data journal = windowed (payloadWindow τ data.toArray journal) := by
  unfold Loader.load ofArray
  simp only [bind, EStateM.bind]
  cases payloadWindow τ data.toArray journal with
  | error error after => rfl
  | ok window after =>
      refine congrArg Except.ok ?_
      exact toList_extract_add window.whole window.start window.size

theorem load_shared (τ : ValueType) (data : Bytes) (journal : List Event) :
    Loader.shared.load τ data journal = windowed (payloadWindow τ data.toArray journal) := by
  unfold Loader.load ofShared
  simp only [bind, EStateM.bind]
  cases payloadWindow τ data.toArray journal <;> rfl

theorem load_mapped (name : String) (τ : ValueType) (data : Bytes) (journal : List Event) :
    (Loader.mapped name).load τ data journal = Loader.shared.load τ data journal := by
  unfold Loader.load ofMapped
  simp only [bind, EStateM.bind]
  cases ofShared τ data.toArray journal <;> rfl

theorem load_file_of_short {name : String} (short : data.length < Header.size)
    (τ : ValueType) (journal : List Event) :
    (Loader.file name).load τ data journal = .error (.invalidFormat .smallFile) := by
  have small : data.toArray.size < Header.size := by simpa using short
  unfold Loader.load ofFile
  simp only [if_pos small]
  rfl

/-- A file that is long enough for a header is read as its bytes would be loaded: the size that was
asked for rules out that the stream ends too soon. -/
theorem ofFile_of_le {name : String} {file : Array UInt8} (long : Header.size ≤ file.size) :
    ofFile τ name (some file) = (do
      let trie ← ofArray τ file
      note (.loading name)
      pure trie) := by
  have large : ¬ file.size < Header.size := Nat.not_lt.mpr long
  have complete : ¬ file.toList.length < Header.size := large
  unfold ofFile ofArray payloadWindow Header.readFrom
  rw [decode_extract]
  simp only [if_neg large, if_neg complete]
  cases decode file.toList 0 with
  | error error => rfl
  | ok header =>
      simp only [ofExcept, pure_bind]
      cases checkValueType τ header with
      | error error => rfl
      | ok _ =>
          by_cases inside : Header.size + header.payloadLength ≤ file.size
          · have present : ¬ file.size - Header.size < header.payloadLength := by omega
            have whole : ((file.toList.drop Header.size).take header.payloadLength).length =
                header.payloadLength := by
              rw [List.length_take, List.length_drop, Array.length_toList]
              omega
            have same : ((file.toList.drop Header.size).take header.payloadLength).toArray =
                file.extract Header.size (Header.size + header.payloadLength) := by
              rw [← Array.toList_inj, toList_extract_add]
            simp only [if_neg present, dif_pos inside, whole, same, lt_irrefl, if_false, pure_bind,
              bind_assoc]
          · have missing : file.size - Header.size < header.payloadLength := by omega
            simp only [if_pos missing, dif_neg inside, pure_bind]
            rfl

theorem load_file_of_le {name : String} (long : Header.size ≤ data.length)
    (τ : ValueType) (journal : List Event) :
    (Loader.file name).load τ data journal = Loader.array.load τ data journal := by
  have large : Header.size ≤ data.toArray.size := by simpa using long
  unfold Loader.load
  dsimp only
  rw [ofFile_of_le large]
  simp only [bind, EStateM.bind]
  cases ofArray τ data.toArray journal <;> rfl

end Loaders

section Stream

theorem load_stream_of_short (short : data.length < Header.size) (τ : ValueType)
    (journal : List Event) : Loader.stream.load τ data journal = .error (.io .shortRead) := by
  unfold Loader.load ofStream Header.readFrom
  simp only [if_pos short]
  rfl

theorem load_stream_of_not_heads (long : Header.size ≤ data.length)
    (none : ∀ held, ¬ Heads held data) (journal : List Event) :
    ∃ fault, Loader.stream.load τ data journal = .error (.invalidFormat fault) := by
  obtain ⟨fault, failed⟩ := decode_of_not_heads none
  refine ⟨fault, ?_⟩
  unfold Loader.load ofStream Header.readFrom
  simp only [if_neg (Nat.not_lt.mpr long), failed]
  rfl

theorem load_stream_of_other (other : Heads τ.other data) (journal : List Event) :
    Loader.stream.load τ data journal =
      .error (.invalidArgument (.wrongValueType τ.other τ)) := by
  unfold Loader.load ofStream Header.readFrom
  simp only [if_neg (Nat.not_lt.mpr other.complete), decode_of_heads other, checkValueType_other]
  rfl

theorem load_stream_of_heads (heads : Heads τ data) (journal : List Event) :
    Loader.stream.load τ data journal =
      if (payload data).length = declared data then .ok (payload data)
      else .error (.io (.truncatedPayload (payload data).length (declared data))) := by
  unfold Loader.load ofStream Header.readFrom
  simp only [if_neg (Nat.not_lt.mpr heads.complete), decode_of_heads heads, checkValueType_self]
  unfold payload
  split <;> rfl

theorem length_payload (data : Bytes) :
    (payload data).length = min (declared data) (data.length - Header.size) := by
  rw [payload, List.length_take, List.length_drop]

end Stream

section Agreement

/-- The failure of a stream that breaks off, in the header or in the payload. -/
def breakage (data : Bytes) : IoFault :=
  if data.length < Header.size then .shortRead
  else .truncatedPayload (data.length - Header.size) (declared data)

/-- The loader turns the data down, for the reason that its kind of source gives. -/
def Loader.Refuses (loader : Loader) (τ : ValueType) (data : Bytes) (journal : List Event) : Prop :=
  ∃ error, loader.load τ data journal = .error error ∧ error.kind = refusal loader τ data ∧
    ∀ fault, error = .io fault → fault = breakage data

variable {loader : Loader} {journal : List Event}

theorem refuses_of_windowed (still : loader ≠ .stream) (refused : ¬ Loadable τ data)
    (same : loader.load τ data journal = windowed (payloadWindow τ data.toArray journal)) :
    loader.Refuses τ data journal := by
  obtain ⟨error, failed, category⟩ := windowed_of_not_loadable refused journal
  refine ⟨error, same.trans failed, ?_, ?_⟩
  · rw [category, refusal]
    simp only [still, false_and, if_false]
  · intro fault broken
    rw [broken] at category
    by_cases other : Heads τ.other data
    · rw [if_pos other] at category
      contradiction
    · rw [if_neg other] at category
      contradiction

theorem refuses_stream (refused : ¬ Loadable τ data) :
    Loader.stream.Refuses τ data journal := by
  by_cases short : data.length < Header.size
  · have different : ¬ Heads τ.other data := fun other => Nat.not_lt.mpr other.complete short
    refine ⟨_, load_stream_of_short short τ journal, ?_, ?_⟩
    · simp only [refusal, different, short, true_or, and_self, if_true, if_false]
      rfl
    · rintro fault ⟨⟩
      exact (if_pos short).symm
  · have long : Header.size ≤ data.length := Nat.not_lt.mp short
    rcases heads_cases τ data with loadable | ⟨heads, missing⟩ | other | none
    · exact absurd loadable refused
    · have cut : (payload data).length = data.length - Header.size := by
        rw [length_payload]
        omega
      have incomplete : ¬ (payload data).length = declared data := by omega
      have failed := load_stream_of_heads heads journal
      rw [if_neg incomplete, cut] at failed
      refine ⟨_, failed, ?_, ?_⟩
      · have different : ¬ Heads τ.other data := fun other => not_heads_of_other other heads
        simp only [refusal, different, heads, or_true, and_self, if_true, if_false]
        rfl
      · rintro fault ⟨⟩
        exact (if_neg short).symm
    · refine ⟨_, load_stream_of_other other journal, (if_pos other).symm, ?_⟩
      intro fault broken
      contradiction
    · obtain ⟨fault, failed⟩ := load_stream_of_not_heads long none journal
      refine ⟨_, failed, ?_, ?_⟩
      · simp only [refusal, none, short, or_self, and_false, if_false]
        rfl
      · intro fault broken
        contradiction

theorem load_stream_of_loadable (loadable : Loadable τ data) :
    Loader.stream.load τ data journal = .ok (payload data) := by
  have whole : (payload data).length = declared data := by
    rw [length_payload]
    exact Nat.min_eq_left loadable.present
  rw [load_stream_of_heads loadable.heads, if_pos whole]

/-- A file that is no stream is loaded from the window in it, if it is long enough for a header. -/
theorem load_of_still (still : loader ≠ .stream) (long : Header.size ≤ data.length) :
    loader.load τ data journal = windowed (payloadWindow τ data.toArray journal) := by
  cases loader with
  | array => exact load_array τ data journal
  | shared => exact load_shared τ data journal
  | file name => exact (load_file_of_le long τ journal).trans (load_array τ data journal)
  | mapped name => exact (load_mapped name τ data journal).trans (load_shared τ data journal)
  | stream => contradiction

theorem refuses_file_of_short {name : String} (short : data.length < Header.size) :
    (Loader.file name).Refuses τ data journal := by
  have different : ¬ Heads τ.other data := fun other => Nat.not_lt.mpr other.complete short
  refine ⟨_, load_file_of_short short τ journal, ?_, ?_⟩
  · simp only [refusal, different, reduceCtorEq, false_and, if_false]
    rfl
  · intro fault broken
    contradiction

theorem Loader.load_of_loadable (loader : Loader) (loadable : Loadable τ data)
    (journal : List Event) : loader.load τ data journal = .ok (payload data) := by
  by_cases flowing : loader = .stream
  · rw [flowing]
    exact load_stream_of_loadable loadable
  · rw [load_of_still flowing loadable.heads.complete]
    exact windowed_of_loadable loadable journal

theorem Loader.refuses_of_not_loadable (loader : Loader) (refused : ¬ Loadable τ data)
    (journal : List Event) : loader.Refuses τ data journal := by
  cases loader with
  | stream => exact refuses_stream refused
  | file name =>
      by_cases short : data.length < Header.size
      · exact refuses_file_of_short short
      · exact refuses_of_windowed nofun refused (load_of_still nofun (Nat.not_lt.mp short))
  | array => exact refuses_of_windowed nofun refused (load_array τ data journal)
  | shared => exact refuses_of_windowed nofun refused (load_shared τ data journal)
  | mapped name =>
      exact refuses_of_windowed nofun refused
        ((load_mapped name τ data journal).trans (load_shared τ data journal))

/-- All loaders accept the same data, and the tries show the same payload: the bytes after the
header, as many as it declares. Other data they refuse for the same reasons, except that data which
breaks off is to a stream a failure of the stream. -/
theorem loaders_agree (loader : Loader) (τ : ValueType) (data : Bytes) (journal : List Event) :
    (Loadable τ data → loader.load τ data journal = .ok (payload data)) ∧
      (¬ Loadable τ data → loader.Refuses τ data journal) :=
  ⟨fun loadable => loader.load_of_loadable loadable journal,
    fun refused => loader.refuses_of_not_loadable refused journal⟩

/-- A file of two payload bytes with one more behind them. -/
def trailedFile : Bytes :=
  (Header.mk .bytes 2).encode ++ [5, 0, 7]

theorem loaders_agree_trailedFile :
    Loadable .bytes trailedFile ∧
      Loader.stream.load .bytes trailedFile [] = .ok [5, 0] ∧
      ¬ Loadable .integer trailedFile ∧
      (Loader.mapped "trie").Refuses .integer trailedFile [] ∧
      ¬ Loadable .bytes (trailedFile.take 17) ∧
      Loader.stream.Refuses .bytes (trailedFile.take 17) [] := by
  have loadable : Loadable .bytes trailedFile := by decide
  have other : ¬ Loadable .integer trailedFile := by decide
  have cut : ¬ Loadable .bytes (trailedFile.take 17) := by decide
  have shown : payload trailedFile = [5, 0] := by decide
  refine ⟨loadable, ?_, other, (loaders_agree _ _ _ []).2 other, cut,
    (loaders_agree _ _ _ []).2 cut⟩
  rw [← shown]
  exact (loaders_agree .stream .bytes trailedFile []).1 loadable

/-- Data that ends right after the code of the other kind is too short to be told apart: the array
loader reports its form. -/
theorem refusal_of_bare_code :
    let data := Header.signature ++ [ValueType.bytes.code]
    data.take Header.signature.length = Header.signature ∧
      data[Header.signature.length]? = some ValueType.integer.other.code ∧
      Loader.array.load .integer data [] = .error (.invalidFormat .shortHeader) ∧
      (Error.invalidFormat .shortHeader).kind ≠ .invalidArgument := by
  decide

end Agreement

end Loading

end PackedTrie
