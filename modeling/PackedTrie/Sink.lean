import PackedTrie.Error

/-!
Where bytes are written to: a sink that grows, or one of fixed capacity that takes what fits of a
run of bytes and then fails.
-/

namespace PackedTrie

structure Sink where
  /-- `none` for a sink that grows. -/
  capacity : Option Nat
  written : Array UInt8 := #[]

namespace Sink

def fits (sink : Sink) (bytes : Bytes) : Bool :=
  match sink.capacity with
  | none => true
  | some capacity => sink.written.size + bytes.length ≤ capacity

/-- Takes as many of the bytes as fit. -/
def take (sink : Sink) (bytes : Bytes) : Sink :=
  match sink with
  | ⟨none, written⟩ => ⟨none, written ++ bytes⟩
  | ⟨some capacity, written⟩ =>
      let room := capacity - written.size
      ⟨some capacity, written ++ bytes.take room⟩

def put (bytes : Bytes) : EStateM Error Sink Unit := fun sink =>
  if sink.fits bytes then .ok () (sink.take bytes)
  else .error (.io .shortWrite) (sink.take bytes)

end Sink

end PackedTrie
