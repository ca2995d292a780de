import PackedTrie.Error

/-!
Where a key stands in the order of the input, relative to the key before it. Keys are compared
byte by byte, and a key that begins another one is the smaller of the two.
-/

namespace PackedTrie

inductive Placement where
  /-- The key comes after the previous one and shares its first `common` bytes. -/
  | after (common : Nat)
  | repeated
  | before (fault : OrderFault)
  deriving DecidableEq, Repr

/-- Places a key after a previous one; both have `offset` bytes in common already. -/
def Placement.ofKeys (offset : Nat) : (key previous : Bytes) → Placement
  | [], [] => .repeated
  | [], previous => .before (.shorter offset (offset + previous.length))
  | _ :: _, [] => .after offset
  | byte :: key, last :: previous =>
      if byte = last then ofKeys (offset + 1) key previous
      else if byte < last then .before (.smallerByte byte offset last)
      else .after offset

end PackedTrie
