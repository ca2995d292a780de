import Mathlib.Algebra.Group.Nat.Defs
import PackedTrie.Lookup.Walk

/-!
The traversals in the arithmetic of a machine. Offsets, lengths and positions are words of `width`
bits; a sum that needs more bits halts the machine, as does an access to the key outside of it, or a
key that is too long for a buffer. The search moves through the payload and the key by two
positions, and the walk keeps one key that it extends and cuts back.

Loops and calls take a step limit, `fuel`. The room that nested calls need is not modelled.
-/

namespace PackedTrie.Machine

inductive Halt where
  | corruption (fault : Corruption)
  /-- A sum, or the length of the key, is beyond its bounds. -/
  | overflow
  /-- A position is outside the key that is looked for. -/
  | outOfRange
  | outOfFuel
  deriving DecidableEq, Repr

section Words

def add (width left right : Nat) : Except Halt Nat :=
  if left + right < 2 ^ width then .ok (left + right) else .error .overflow

theorem add_eq_ok {width left right sum : Nat} (added : add width left right = .ok sum) :
    sum = left + right := by
  unfold add at added
  split at added
  · cases added
    rfl
  · contradiction

def keyByte (key : Bytes) (position : Nat) : Except Halt UInt8 :=
  match key[position]? with
  | some byte => .ok byte
  | none => .error .outOfRange

def keyRest (key : Bytes) (position : Nat) : Except Halt Bytes :=
  if position ≤ key.length then .ok (key.drop position) else .error .outOfRange

end Words

variable {α : Type} [Payload α] (width : Nat) (τ : ValueType) (payload : α)

section Reads

def byteAt (offset : Nat) : Except Halt UInt8 :=
  match Payload.byte? payload offset with
  | some byte => .ok byte
  | none => .error (.corruption (.nodeOutside offset))

/-- A run of bytes whose length was read from the payload, and need not be a word. -/
def region? (offset length : Nat) : Option Bytes :=
  if length < 2 ^ width then Payload.region? payload offset length else none

def regionAt (offset length : Nat) : Except Halt Bytes :=
  match region? width payload offset length with
  | some region => .ok region
  | none => .error (.corruption (.regionOutside length offset))

def valueAt (head : UInt64) (offset : Nat) : Except Halt τ.Value :=
  match τ.readValue? (region? width payload) head offset with
  | some value => .ok value
  | none => .error (.corruption (.valueOutside offset))

/-- The offset `length` bytes further on; that it may be no word is checked for. -/
def advance (offset length : Nat) : Except Halt Nat :=
  if length < 2 ^ width ∧ offset + length < 2 ^ width ∧ offset + length ≤ Payload.size payload then
    .ok (offset + length)
  else .error (.corruption (.lengthOutside length offset))

def groupsAt (value : UInt64) (offset limit : Nat) : Except Halt (Option (UInt64 × Nat)) :=
  if offset < limit then
    match Payload.byte? payload offset with
    | none => .ok none
    | some byte =>
        match _added : add width offset 1 with
        | .error halt => .error halt
        | .ok next =>
            if 128 ≤ byte then .ok (some (VarInt.append value byte, next))
            else groupsAt (VarInt.append value byte) next limit
  else .ok none
termination_by limit - offset
decreasing_by
  have moved := add_eq_ok _added
  omega

def integer? (bits offset : Nat) : Except Halt (Option (UInt64 × Nat)) :=
  match Payload.byte? payload offset with
  | none => pure none
  | some byte => do
      let first := byte.toNat % 1 <<< bits
      let next ← add width offset 1
      if 1 <<< (bits - 1) ≤ first then pure (some ((first - 1 <<< (bits - 1)).toUInt64, next))
      else
        let limit ← add width offset VarInt.maxLength
        groupsAt width payload first.toUInt64 next limit

def integerAt (bits offset : Nat) : Except Halt (UInt64 × Nat) := do
  match ← integer? width payload bits offset with
  | some found => pure found
  | none => throw (.corruption (.brokenInteger offset))

def blockAt (bits offset : Nat) : Except Halt (Nat × Nat) := do
  let (length, start) ← integerAt width payload bits offset
  let stop ← advance width payload start length.toNat
  pure (start, stop)

def skip (offset : Nat) : Except Halt Nat := do
  match NodeKind.ofLead (← byteAt payload offset) with
  | .leaf =>
      let (head, next) ← integerAt width payload Node.leadBits offset
      advance width payload next (τ.payloadLength head)
  | .branch =>
      let (length, next) ← integerAt width payload Node.leadBits offset
      advance width payload next length.toNat
  | .suffixLeaf | .valueBranch =>
      let (head, next) ← integerAt width payload Node.leadBits offset
      let next ← advance width payload next (τ.payloadLength head)
      let (length, next) ← integerAt width payload 8 next
      advance width payload next length.toNat

end Reads

section Find

mutual

/-- The value that the key from `position` on has below the node at `offset`. -/
def findNode (key : Bytes) : (fuel offset position : Nat) → Except Halt (Option τ.Value)
  | 0, _, _ => throw .outOfFuel
  | fuel + 1, offset, position => do
      match NodeKind.ofLead (← byteAt payload offset) with
      | .leaf =>
          if position = key.length then
            let (head, next) ← integerAt width payload Node.leadBits offset
            let value ← valueAt width τ payload head next
            pure (some value)
          else pure none
      | .suffixLeaf =>
          let (head, next) ← integerAt width payload Node.leadBits offset
          let value ← valueAt width τ payload head next
          let next ← advance width payload next (τ.payloadLength head)
          let (length, next) ← integerAt width payload 8 next
          let suffix ← regionAt width payload next length.toNat
          let rest ← keyRest key position
          pure (if suffix = rest then some value else none)
      | .branch =>
          if position = key.length then pure none
          else
            let (start, stop) ← blockAt width payload Node.leadBits offset
            let wanted ← keyByte key position
            findBlock key fuel wanted start stop position
      | .valueBranch =>
          let (head, next) ← integerAt width payload Node.leadBits offset
          if position = key.length then
            let value ← valueAt width τ payload head next
            pure (some value)
          else
            let next ← advance width payload next (τ.payloadLength head)
            let (start, stop) ← blockAt width payload 8 next
            let wanted ← keyByte key position
            findBlock key fuel wanted start stop position

def findBlock (key : Bytes) :
    (fuel : Nat) → (wanted : UInt8) → (offset stop position : Nat) → Except Halt (Option τ.Value)
  | 0, _, _, _, _ => throw .outOfFuel
  | fuel + 1, wanted, offset, stop, position =>
      if offset < stop then do
        let byte ← byteAt payload offset
        let next ← add width offset 1
        if byte = wanted then
          let position ← add width position 1
          findNode key fuel next position
        else
          let next ← skip width τ payload next
          findBlock key fuel wanted next stop position
      else if offset = stop then pure none
      else throw (.corruption (.childOverrun offset stop))

end

end Find

/-- What a walk carries along: the bytes that lead to where it is, and the entries visited. -/
structure Tour (τ : ValueType) where
  key : Bytes := []
  visited : List (Bytes × τ.Value) := []

namespace Tour

def visit {τ : ValueType} (tour : Tour τ) (value : τ.Value) : Tour τ :=
  { tour with visited := tour.visited ++ [(tour.key, value)] }

def truncate {τ : ValueType} (tour : Tour τ) (length : Nat) : Tour τ :=
  { tour with key := tour.key.take length }

end Tour

section Walk

/-- Puts bytes at the end of the key. A buffer takes up at most half of the addresses. -/
def extendKey (bytes : Bytes) : EStateM Halt (Tour τ) Unit := fun tour =>
  if tour.key.length + bytes.length < 2 ^ (width - 1) then
    .ok () { tour with key := tour.key ++ bytes }
  else .error .overflow tour

mutual

def walkNode : (fuel offset : Nat) → EStateM Halt (Tour τ) Nat
  | 0, _ => throw .outOfFuel
  | fuel + 1, offset => do
      match NodeKind.ofLead (← liftExcept (byteAt payload offset)) with
      | .leaf =>
          let (head, next) ← liftExcept (integerAt width payload Node.leadBits offset)
          let value ← liftExcept (valueAt width τ payload head next)
          modify fun tour => tour.visit value
          liftExcept (advance width payload next (τ.payloadLength head))
      | .suffixLeaf =>
          let (head, next) ← liftExcept (integerAt width payload Node.leadBits offset)
          let value ← liftExcept (valueAt width τ payload head next)
          let next ← liftExcept (advance width payload next (τ.payloadLength head))
          let (length, next) ← liftExcept (integerAt width payload 8 next)
          let suffix ← liftExcept (regionAt width payload next length.toNat)
          let base := (← get).key.length
          extendKey width τ suffix
          modify fun tour => (tour.visit value).truncate base
          liftExcept (add width next suffix.length)
      | .branch =>
          let (start, stop) ← liftExcept (blockAt width payload Node.leadBits offset)
          walkBlock fuel start stop
      | .valueBranch =>
          let (head, next) ← liftExcept (integerAt width payload Node.leadBits offset)
          let value ← liftExcept (valueAt width τ payload head next)
          modify fun tour => tour.visit value
          let next ← liftExcept (advance width payload next (τ.payloadLength head))
          let (start, stop) ← liftExcept (blockAt width payload 8 next)
          walkBlock fuel start stop

/-- Walks through the children block from `offset` to `stop`; the result is the offset where the
last child ends. -/
def walkBlock : (fuel offset stop : Nat) → EStateM Halt (Tour τ) Nat
  | 0, _, _ => throw .outOfFuel
  | fuel + 1, offset, stop =>
      if offset < stop then do
        let byte ← liftExcept (byteAt payload offset)
        extendKey width τ [byte]
        let child ← liftExcept (add width offset 1)
        let next ← walkNode fuel child
        modify fun tour => tour.truncate (tour.key.length - 1)
        walkBlock fuel next stop
      else if offset = stop then pure offset
      else throw (.corruption (.childOverrun offset stop))

end

end Walk

variable {τ} (trie : Trie α τ) (fuel : Nat)

def find (key : Bytes) : Except Halt (Option τ.Value) :=
  findNode width τ trie.payload key fuel 0 0

def walk : List (Bytes × τ.Value) × Except Halt Unit :=
  match walkNode width τ trie.payload fuel 0 {} with
  | .error halt tour => (tour.visited, .error halt)
  | .ok stop tour =>
      if stop = Payload.size trie.payload then (tour.visited, .ok ())
      else (tour.visited, .error (.corruption (.rootMismatch stop (Payload.size trie.payload))))

end PackedTrie.Machine
