import PackedTrie.VarInt.Basic

/-!
Reading variable-length integers back. `read` asks for one byte at a time, through an accessor
that may itself have effects, and gives up after `maxLength` bytes; `decode?` is that reader over a
byte string, `probes` are the offsets it asks for. `decodeUnlimited?` trusts its input: it follows
the groups for as long as there are bytes.

Every reader ignores the bits of the first byte from `bits` on, and keeps the value modulo `2 ^ 64`.
-/

namespace PackedTrie.VarInt

def append (value : UInt64) (byte : UInt8) : UInt64 :=
  value * 128 + (byte.toNat % 128).toUInt64

section Reader

variable {m : Type → Type} [Monad m]

def readGroups (fetch : Nat → m (Option UInt8)) :
    (limit : Nat) → UInt64 → Nat → m (Option (UInt64 × Nat))
  | 0, _, _ => pure none
  | limit + 1, value, offset => do
      match ← fetch offset with
      | none => pure none
      | some byte =>
          if 128 ≤ byte then pure (some (append value byte, offset + 1))
          else readGroups fetch limit (append value byte) (offset + 1)

/-- The integer at `offset` and the offset just past it, or `none` if the accessor runs out of
bytes or no marker is met in time. -/
def read (bits : Nat) (fetch : Nat → m (Option UInt8)) (offset : Nat) :
    m (Option (UInt64 × Nat)) := do
  match ← fetch offset with
  | none => pure none
  | some byte =>
      let first := byte.toNat % 1 <<< bits
      if 1 <<< (bits - 1) ≤ first then
        pure (some ((first - 1 <<< (bits - 1)).toUInt64, offset + 1))
      else
        readGroups fetch (maxLength - 1) first.toUInt64 (offset + 1)

end Reader

def read? (bits : Nat) (byteAt : Nat → Option UInt8) (offset : Nat) : Option (UInt64 × Nat) :=
  Id.run (read bits (fun position => pure (byteAt position)) offset)

def decode? (bits : Nat) (bytes : Bytes) (offset : Nat) : Option (UInt64 × Nat) :=
  read? bits (fun position => bytes[position]?) offset

/-- The offsets `read` asks its accessor for, in order. -/
def probes (bits : Nat) (byteAt : Nat → Option UInt8) (offset : Nat) : List Nat :=
  let fetch : Nat → StateM (List Nat) (Option UInt8) := fun position => do
    modify fun asked => asked ++ [position]
    pure (byteAt position)
  ((read bits fetch offset).run []).2

def followGroups : UInt64 → Nat → Bytes → Option (UInt64 × Nat)
  | _, _, [] => none
  | value, offset, byte :: rest =>
      if 128 ≤ byte then some (append value byte, offset + 1)
      else followGroups (append value byte) (offset + 1) rest

/-- The integer at `offset` and the offset just past it, however many groups it has; `none` if the
byte string ends first. -/
def decodeUnlimited? (bits : Nat) (bytes : Bytes) (offset : Nat) : Option (UInt64 × Nat) :=
  match bytes.drop offset with
  | [] => none
  | byte :: rest =>
      let first := byte.toNat % 1 <<< bits
      if 1 <<< (bits - 1) ≤ first then some ((first - 1 <<< (bits - 1)).toUInt64, offset + 1)
      else followGroups first.toUInt64 (offset + 1) rest

theorem lt_of_readGroups_eq_some {byteAt : Nat → Option UInt8} {limit offset next : Nat}
    {value result : UInt64}
    (found : Id.run (readGroups (fun position => pure (byteAt position)) limit value offset) =
      some (result, next)) : offset < next := by
  induction limit generalizing value offset with
  | zero => cases found
  | succ limit inductionHypothesis =>
      cases fetched : byteAt offset with
      | none => simp [readGroups, fetched] at found
      | some byte =>
          simp only [readGroups, fetched, pure_bind] at found
          split at found
          · cases found
            exact Nat.lt_succ_self offset
          · exact Nat.lt_of_succ_lt (inductionHypothesis found)

theorem lt_of_read?_eq_some {bits offset next : Nat} {byteAt : Nat → Option UInt8}
    {value : UInt64} (found : read? bits byteAt offset = some (value, next)) :
    offset < next := by
  cases fetched : byteAt offset with
  | none => simp [read?, read, fetched] at found
  | some byte =>
      simp only [read?, read, fetched, pure_bind] at found
      split at found
      · cases found
        exact Nat.lt_succ_self offset
      · exact Nat.lt_of_succ_lt (lt_of_readGroups_eq_some found)

end PackedTrie.VarInt
