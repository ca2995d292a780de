import PackedTrie.Node.Basic

/-!
The trie of a list of entries, made all at once. The entries are told apart by the first bytes of
their keys; those that share one go on, without it, below a common child. Where a single entry is
left, the rest of its key becomes the suffix of a leaf.

No key may occur twice. A trie built key by key, whatever it flattens on the way, lays out as this
one does.
-/

namespace PackedTrie.Node

/-- The entries whose keys begin with `byte`, with the rest of their keys. -/
def tails {V : Type} (byte : UInt8) (entries : List (Bytes × V)) : List (Bytes × V) :=
  entries.filterMap fun (key, value) =>
    match key with
    | [] => none
    | first :: rest => if first = byte then some (rest, value) else none

def emptyKeyValue? {V : Type} (entries : List (Bytes × V)) : Option V :=
  (entries.find? fun entry => entry.1.isEmpty).map Prod.snd

def keyBytes {V : Type} : List (Bytes × V) → Nat
  | [] => 0
  | (key, _) :: entries => key.length + keyBytes entries

theorem keyBytes_tails_add_length_le {V : Type} (byte : UInt8) (entries : List (Bytes × V)) :
    keyBytes (tails byte entries) + (tails byte entries).length ≤ keyBytes entries := by
  induction entries with
  | nil => simp [keyBytes, tails]
  | cons entry entries inductionHypothesis =>
      obtain ⟨key, value⟩ := entry
      cases key with
      | nil => simpa [keyBytes, tails] using inductionHypothesis
      | cons first rest =>
          by_cases wanted : first = byte
          · simp only [keyBytes, tails, wanted, if_true, List.filterMap_cons,
              List.length_cons] at inductionHypothesis ⊢
            omega
          · simp only [keyBytes, tails, wanted, if_false, List.filterMap_cons,
              List.length_cons] at inductionHypothesis ⊢
            omega

theorem keyBytes_tails_lt {V : Type} {byte : UInt8} {entries : List (Bytes × V)}
    (shared : tails byte entries ≠ []) : keyBytes (tails byte entries) < keyBytes entries := by
  have fewer := keyBytes_tails_add_length_le byte entries
  have some := List.length_pos_iff.mpr shared
  omega

variable {τ : ValueType}

def insertByLength (child : UInt8 × Node τ) : List (UInt8 × Node τ) → List (UInt8 × Node τ)
  | [] => [child]
  | first :: others =>
      if first.2.length ≤ child.2.length then child :: first :: others
      else first :: insertByLength child others

/-- The children in descending order of their lengths, those of one length in the order in which
they stand. -/
def longestFirst : List (UInt8 × Node τ) → List (UInt8 × Node τ)
  | [] => []
  | child :: others => insertByLength child (longestFirst others)

/-- The trie of the entries; the children of each branch stand in ascending order of their bytes,
or, if `reorder` is set, the longer ones first. -/
def ofEntries (reorder : Bool) (entries : List (Bytes × τ.Value)) : Node τ :=
  match entries with
  | [] => .branch none []
  | [([], value)] => .leaf value
  | [(suffix, value)] => .suffixLeaf value suffix
  | entries =>
      let children := (List.range 256).filterMap fun code =>
        let byte := code.toUInt8
        if _shared : tails byte entries = [] then none
        else some (byte, ofEntries reorder (tails byte entries))
      .branch (emptyKeyValue? entries) (if reorder then longestFirst children else children)
termination_by keyBytes entries
decreasing_by exact keyBytes_tails_lt _shared

end PackedTrie.Node
