import PackedTrie.Header
import PackedTrie.Lookup.Machine

/-!
The kinds of storage in the arithmetic of a machine, with the comparisons and sums that each of
them makes for itself. A mapping holds a whole file and has to move every offset past the header; it
goes by a length of its own, not by that of the file.
-/

namespace PackedTrie.Machine

/-- Buffers that are shared, each of which gives access to a slice of bytes. -/
class SharedBuffer (β : Type) where
  size : β → Nat
  slice : β → Array UInt8
  size_eq : ∀ buffer, size buffer = (slice buffer).size

instance : SharedBuffer Window where
  size := Window.size
  slice window := window.whole.extract window.start (window.start + window.size)
  size_eq window := by
    have inside := window.inside
    rw [Array.size_extract]
    omega

section Words

def checkedAdd (width left right : Nat) : Option Nat :=
  if left + right < 2 ^ width then some (left + right) else none

def range? (bytes : Array UInt8) (start stop : Nat) : Option Bytes :=
  if start ≤ stop ∧ stop ≤ bytes.size then some (bytes.extract start stop).toList else none

/-- A run of bytes of a slice. That its end may be no word is checked for. -/
def sliceRegion? (width : Nat) (bytes : Array UInt8) (offset length : Nat) : Option Bytes :=
  match checkedAdd width offset length with
  | some stop => range? bytes offset stop
  | none => none

end Words

inductive Storage (β : Type) where
  /-- A slice. Vectors and counted arrays answer as the slice of their elements. -/
  | slice (bytes : Array UInt8)
  | shared (buffer : β)
  /-- A file of which only `length` bytes behind the header are to be seen. -/
  | mapped (file : Array UInt8) (length : Nat)
  | reference (target : Storage β)

namespace Storage

variable {β : Type} [SharedBuffer β] (width : Nat)

def size : Storage β → Nat
  | .slice bytes => bytes.size
  | .shared buffer => SharedBuffer.size buffer
  | .mapped _ length => length
  | .reference target => target.size

def byteAt : Storage β → (offset : Nat) → Except Halt (Option UInt8)
  | .slice bytes, offset => pure bytes[offset]?
  | .shared buffer, offset => pure (SharedBuffer.slice buffer)[offset]?
  | .mapped file length, offset =>
      if offset < length then do
        let position ← add width Header.size offset
        pure file[position]?
      else pure none
  | .reference target, offset => target.byteAt offset

def regionAt : Storage β → (offset length : Nat) → Except Halt (Option Bytes)
  | .slice bytes, offset, length => pure (sliceRegion? width bytes offset length)
  | .shared buffer, offset, length =>
      pure (sliceRegion? width (SharedBuffer.slice buffer) offset length)
  | .mapped file visible, offset, length =>
      match checkedAdd width offset length with
      | none => pure none
      | some stop =>
          if visible < stop then pure none
          else do
            let first ← add width Header.size offset
            let last ← add width Header.size stop
            pure (range? file first last)
  | .reference target, offset, length => target.regionAt offset length

/-- The storage keeps the payload. No more bytes are kept than there are words, so a length is a
word always. -/
inductive Keeps (payload : Bytes) : Storage β → Prop where
  | slice {bytes : Array UInt8} (contents : bytes.toList = payload)
      (short : bytes.size < 2 ^ width) : Keeps payload (.slice bytes)
  | shared {buffer : β} (contents : (SharedBuffer.slice buffer).toList = payload)
      (short : SharedBuffer.size buffer < 2 ^ width) : Keeps payload (.shared buffer)
  /-- Anything may stand in place of the header, and behind the payload. -/
  | mapped {file : Array UInt8} (header trailing : Bytes) (start : header.length = Header.size)
      (contents : file.toList = header ++ (payload ++ trailing)) (short : file.size < 2 ^ width) :
      Keeps payload (.mapped file payload.length)
  | reference {target : Storage β} (kept : Keeps payload target) :
      Keeps payload (.reference target)

end Storage

end PackedTrie.Machine
