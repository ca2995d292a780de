/-!
Byte strings: replacing a run of bytes inside a buffer of fixed size, and numbers of fixed width
with the most significant byte first.
-/

namespace PackedTrie

abbrev Bytes := List UInt8

namespace Bytes

/-- The buffer with `patch` laid over it from `offset` on, or `none` if the patch does not fit.
A buffer never grows and never shrinks. -/
def overwrite? (buffer : Bytes) (offset : Nat) (patch : Bytes) : Option Bytes :=
  if offset + patch.length ≤ buffer.length then
    some (buffer.take offset ++ (patch ++ buffer.drop (offset + patch.length)))
  else
    none

theorem length_of_overwrite?_eq_some {buffer patch result : Bytes} {offset : Nat}
    (written : buffer.overwrite? offset patch = some result) :
    result.length = buffer.length := by
  unfold overwrite? at written
  split at written
  · cases written
    simp only [List.length_append, List.length_take, List.length_drop]
    omega
  · contradiction

def bigEndian : Nat → Nat → Bytes
  | 0, _ => []
  | width + 1, value => (value >>> (8 * width)).toUInt8 :: bigEndian width value

/-- The number whose bytes, most significant first, are the given ones. -/
def toNat (bytes : Bytes) : Nat :=
  bytes.foldl (fun value byte => value * 256 + byte.toNat) 0

@[simp] theorem length_bigEndian (width value : Nat) : (bigEndian width value).length = width := by
  induction width with
  | zero => rfl
  | succ width inductionHypothesis => simp [bigEndian, inductionHypothesis]

end Bytes

end PackedTrie
