import PackedTrie.Node.Basic
import PackedTrie.Proofs.VarInt.RoundTrip

/-!
The shape of a node's bytes. `length` counts them, the first byte tells the kind of the node
whatever integer it opens, and two branches lay out alike as soon as their children do.
-/

namespace PackedTrie

namespace NodeKind

/-- A tag does not disturb the six bits below it. -/
theorem toNat_mark (kind : NodeKind) {byte : UInt8} (free : byte.toNat < 64) :
    (kind.mark byte).toNat = 64 * kind.tag.toNat + byte.toNat := by
  have split : ∀ high, 2 ^ 6 * high + byte.toNat = 2 ^ 6 * high ||| byte.toNat :=
    fun high => Nat.two_pow_add_eq_or_of_lt free high
  rw [mark, UInt8.toNat_or, Nat.or_comm]
  cases kind with
  | leaf => exact (split 0).symm
  | suffixLeaf => exact (split 1).symm
  | branch => exact (split 2).symm
  | valueBranch => exact (split 3).symm

theorem ofLead_mark (kind : NodeKind) {byte : UInt8} (free : byte.toNat < 64) :
    ofLead (kind.mark byte) = kind := by
  have high : (kind.mark byte).toNat / 64 = kind.tag.toNat := by
    rw [toNat_mark kind free]
    omega
  unfold ofLead
  rw [high]
  cases kind <;> rfl

end NodeKind

namespace Node

variable {τ : ValueType}

/-- The integer that opens a node of the given kind. -/
def opening (kind : NodeKind) (number : Nat) : Bytes :=
  kind.mark (VarInt.lead leadBits number) :: VarInt.trail leadBits number

theorem toNat_lead_lt (number : Nat) : (VarInt.lead leadBits number).toNat < 64 :=
  VarInt.toNat_lead_lt number (by decide) (by decide)

theorem written_opening (kind : NodeKind) (number : Nat) :
    VarInt.Written leadBits number (opening kind number) := by
  refine ⟨kind.mark (VarInt.lead leadBits number), rfl, ?_⟩
  have free := toNat_lead_lt number
  rw [NodeKind.toNat_mark kind free]
  simp only [leadBits] at free ⊢
  omega

@[simp] theorem length_opening (kind : NodeKind) (number : Nat) :
    (opening kind number).length = VarInt.length leadBits number :=
  (written_opening kind number).length_eq

theorem ofLead_lead (node : Node τ) : NodeKind.ofLead node.lead = node.kind := by
  cases node with
  | leaf value => exact NodeKind.ofLead_mark .leaf (toNat_lead_lt _)
  | suffixLeaf value suffix => exact NodeKind.ofLead_mark .suffixLeaf (toNat_lead_lt _)
  | branch value children =>
      cases value with
      | none => exact NodeKind.ofLead_mark .branch (toNat_lead_lt _)
      | some value => exact NodeKind.ofLead_mark .valueBranch (toNat_lead_lt _)
  | flat lead body => rfl

theorem serialize_leaf (value : τ.Value) :
    (leaf value).serialize = opening .leaf value.headInteger ++ value.payload := rfl

theorem serialize_suffixLeaf (value : τ.Value) (suffix : Bytes) :
    (suffixLeaf value suffix).serialize = opening .suffixLeaf value.headInteger ++
      (value.payload ++ (VarInt.encode 8 suffix.length ++ suffix)) := rfl

theorem serialize_branch_none (children : List (UInt8 × Node τ)) :
    (branch none children).serialize =
      opening .branch (contentLength children) ++ content children := by
  simp [serialize, lead, body, opening, kind]

theorem serialize_branch_some (value : τ.Value) (children : List (UInt8 × Node τ)) :
    (branch (some value) children).serialize = opening .valueBranch value.headInteger ++
      (value.payload ++
        (VarInt.encode 8 (contentLength children) ++ content children)) := by
  simp [serialize, lead, body, opening, kind]

@[simp] theorem content_nil : content ([] : List (UInt8 × Node τ)) = [] := by
  simp [content]

@[simp] theorem content_cons (byte : UInt8) (child : Node τ)
    (rest : List (UInt8 × Node τ)) :
    content ((byte, child) :: rest) = byte :: (child.serialize ++ content rest) := by
  simp [content, serialize]

@[simp] theorem contentLength_nil : contentLength ([] : List (UInt8 × Node τ)) = 0 := by
  simp [contentLength]

@[simp] theorem contentLength_cons (byte : UInt8) (child : Node τ)
    (rest : List (UInt8 × Node τ)) :
    contentLength ((byte, child) :: rest) = 1 + child.length + contentLength rest := by
  simp [contentLength]

theorem length_leaf (value : τ.Value) : (leaf value).length = value.length leadBits := by
  simp [length]

theorem length_suffixLeaf (value : τ.Value) (suffix : Bytes) :
    (suffixLeaf value suffix).length =
      value.length leadBits + VarInt.length 8 suffix.length + suffix.length := by
  simp [length]

theorem length_branch_none (children : List (UInt8 × Node τ)) :
    (branch none children).length =
      VarInt.length leadBits (contentLength children) + contentLength children := by
  simp [length]

theorem length_branch_some (value : τ.Value) (children : List (UInt8 × Node τ)) :
    (branch (some value) children).length =
      value.length leadBits + VarInt.length 8 (contentLength children) +
        contentLength children := by
  simp [length]

mutual

theorem length_serialize : (node : Node τ) → node.serialize.length = node.length
  | .leaf value => by
      rw [serialize_leaf, length_leaf, List.length_append, length_opening]
      rfl
  | .suffixLeaf value suffix => by
      rw [serialize_suffixLeaf, length_suffixLeaf]
      simp only [List.length_append, length_opening, VarInt.length_encode,
        ValueType.Value.length]
      omega
  | .branch none children => by
      rw [serialize_branch_none, length_branch_none, List.length_append, length_opening,
        length_content children]
  | .branch (some value) children => by
      rw [serialize_branch_some, length_branch_some]
      simp only [List.length_append, length_opening, VarInt.length_encode,
        length_content children, ValueType.Value.length]
      omega
  | .flat lead body => by simp [serialize, Node.body, length]

theorem length_content : (children : List (UInt8 × Node τ)) →
    (content children).length = contentLength children
  | [] => by simp
  | (byte, child) :: rest => by
      simp only [content_cons, contentLength_cons, List.length_cons, List.length_append,
        length_serialize child, length_content rest]
      omega

end

theorem flatten_eq_iff {first second : Node τ} :
    first.flatten = second.flatten ↔ first.serialize = second.serialize := by
  simp [flatten, serialize]

theorem kind_eq_of_serialize_eq {first second : Node τ}
    (same : first.serialize = second.serialize) : first.kind = second.kind := by
  rw [← ofLead_lead, ← ofLead_lead]
  simp only [serialize, List.cons.injEq] at same
  rw [same.1]

theorem length_eq_of_serialize_eq {first second : Node τ}
    (same : first.serialize = second.serialize) : first.length = second.length := by
  rw [← length_serialize, ← length_serialize, same]

@[simp] theorem length_flatten (node : Node τ) : node.flatten.length = node.length :=
  length_eq_of_serialize_eq (serialize_flatten node)

/-- The children with only the bytes of each left. -/
def flattenChildren (children : List (UInt8 × Node τ)) : List (UInt8 × Node τ) :=
  children.map fun (byte, child) => (byte, child.flatten)

@[simp] theorem flattenChildren_cons (byte : UInt8) (child : Node τ)
    (rest : List (UInt8 × Node τ)) :
    flattenChildren ((byte, child) :: rest) = (byte, child.flatten) :: flattenChildren rest := rfl

theorem content_flattenChildren (children : List (UInt8 × Node τ)) :
    content (flattenChildren children) = content children := by
  induction children with
  | nil => rfl
  | cons entry rest inductionHypothesis =>
      obtain ⟨byte, child⟩ := entry
      rw [flattenChildren_cons, content_cons, content_cons, serialize_flatten, inductionHypothesis]

theorem sortByLength_flattenChildren (children : List (UInt8 × Node τ)) :
    flattenChildren (sortByLength children) = sortByLength (flattenChildren children) := by
  apply List.map_mergeSort
  intro earlier _ later _
  simp

/-- The bytes of a branch depend only on the bytes of its children. -/
theorem serialize_branch_congr (value : Option τ.Value) {first second : List (UInt8 × Node τ)}
    (same : flattenChildren first = flattenChildren second) :
    (branch value first).serialize = (branch value second).serialize := by
  have contents : content first = content second := by
    rw [← content_flattenChildren first, ← content_flattenChildren second, same]
  have lengths : contentLength first = contentLength second := by
    rw [← length_content, ← length_content, contents]
  cases value with
  | none => rw [serialize_branch_none, serialize_branch_none, contents, lengths]
  | some value => rw [serialize_branch_some, serialize_branch_some, contents, lengths]

/-- The layout is short enough for lengths and offsets of 64 bits, as all bytes are that fit into
memory. -/
def Fits (node : Node τ) : Prop :=
  node.length < 2 ^ 64

theorem headInteger_lt_of_length_lt {value : τ.Value} (bits : Nat)
    (bounded : value.length bits < 2 ^ 64) : value.headInteger < 2 ^ 64 := by
  cases τ with
  | integer => exact UInt64.toNat_lt value
  | bytes => exact Nat.lt_of_le_of_lt (Nat.le_add_left _ _) bounded

theorem Fits.leaf_headInteger {value : τ.Value} (fits : (leaf value).Fits) :
    value.headInteger < 2 ^ 64 := by
  rw [Fits, length_leaf] at fits
  exact headInteger_lt_of_length_lt leadBits fits

theorem Fits.suffixLeaf_headInteger {value : τ.Value} {suffix : Bytes}
    (fits : (suffixLeaf value suffix).Fits) : value.headInteger < 2 ^ 64 := by
  rw [Fits, length_suffixLeaf] at fits
  exact headInteger_lt_of_length_lt leadBits (by omega)

theorem Fits.suffix_length {value : τ.Value} {suffix : Bytes}
    (fits : (suffixLeaf value suffix).Fits) : suffix.length < 2 ^ 64 := by
  rw [Fits, length_suffixLeaf] at fits
  omega

theorem contentLength_lt_length_branch (value : Option τ.Value)
    (children : List (UInt8 × Node τ)) :
    contentLength children < (branch value children).length := by
  cases value with
  | none =>
      rw [length_branch_none, VarInt.length]
      omega
  | some value =>
      rw [length_branch_some, VarInt.length]
      omega

theorem Fits.branch_headInteger {value : τ.Value} {children : List (UInt8 × Node τ)}
    (fits : (branch (some value) children).Fits) : value.headInteger < 2 ^ 64 := by
  rw [Fits, length_branch_some] at fits
  exact headInteger_lt_of_length_lt leadBits (by omega)

theorem Fits.contentLength_lt {value : Option τ.Value} {children : List (UInt8 × Node τ)}
    (fits : (branch value children).Fits) : contentLength children < 2 ^ 64 :=
  Nat.lt_trans (contentLength_lt_length_branch value children) fits

theorem length_lt_contentLength_of_mem {children : List (UInt8 × Node τ)}
    {entry : UInt8 × Node τ} (member : entry ∈ children) :
    entry.2.length < contentLength children := by
  induction children with
  | nil => contradiction
  | cons first rest inductionHypothesis =>
      rw [contentLength_cons]
      cases member with
      | head => omega
      | tail _ later =>
          have below := inductionHypothesis later
          omega

theorem Fits.of_mem {value : Option τ.Value} {children : List (UInt8 × Node τ)}
    (fits : (branch value children).Fits) {entry : UInt8 × Node τ} (member : entry ∈ children) :
    entry.2.Fits :=
  Nat.lt_trans (length_lt_contentLength_of_mem member) fits.contentLength_lt

end Node

end PackedTrie
