/-!
The ways in which the bytes of a trie can contradict themselves. A traversal reports the first one
it meets.
-/

namespace PackedTrie

inductive Corruption where
  /-- A node is said to start where the payload has no byte. -/
  | nodeOutside (offset : Nat)
  /-- The integer that starts here has no end, or none within its longest form. -/
  | brokenInteger (offset : Nat)
  /-- The bytes of a value are not all there. -/
  | valueOutside (offset : Nat)
  /-- The bytes of a suffix are not all there. -/
  | regionOutside (length offset : Nat)
  /-- A declared length leads past the end of the payload. -/
  | lengthOutside (length offset : Nat)
  /-- The last child of a block does not end where the block does. -/
  | childOverrun (ended blockEnd : Nat)
  /-- The root does not fill the payload. -/
  | rootMismatch (ended size : Nat)
  deriving DecidableEq, Repr

def Corruption.text : Corruption → String
  | .nodeOutside offset => s!"Node offset {offset} outside payload"
  | .brokenInteger offset => s!"Truncated VInt at offset {offset}"
  | .valueOutside offset => s!"Value at offset {offset} exceeds payload"
  | .regionOutside length offset => s!"Region of {length} bytes at offset {offset} exceeds payload"
  | .lengthOutside length offset =>
      s!"Length {length} at offset {offset} runs past end of payload"
  | .childOverrun ended blockEnd =>
      s!"Child entry overruns children block: ended at {ended}, block ends at {blockEnd}"
  | .rootMismatch ended size => s!"Root node ends at {ended}, payload is {size} bytes"

end PackedTrie
