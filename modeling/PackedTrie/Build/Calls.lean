import PackedTrie.Build.Builder

/-!
A builder in use: keys are offered one after the other, also after some of them were turned down,
and at any time all can be closed.
-/

namespace PackedTrie.Builder

variable {τ : ValueType}

/-- The builder after a call, whether or not the call succeeds. -/
def offer (builder : Builder τ) (entry : Bytes × τ.Value) : Builder τ :=
  match add entry.1 entry.2 builder with
  | .ok _ after => after
  | .error _ after => after

def result (builder : Builder τ) (entry : Bytes × τ.Value) : Except Error Unit :=
  match add entry.1 entry.2 builder with
  | .ok _ _ => .ok ()
  | .error error _ => .error error

def offerAll (builder : Builder τ) (calls : List (Bytes × τ.Value)) : Builder τ :=
  calls.foldl offer builder

def results : Builder τ → List (Bytes × τ.Value) → List (Except Error Unit)
  | _, [] => []
  | builder, entry :: calls => builder.result entry :: results (builder.offer entry) calls

/-- A call is accepted if it succeeds and there is one key more. -/
def accepts (builder : Builder τ) (entry : Bytes × τ.Value) : Bool :=
  match add entry.1 entry.2 builder with
  | .ok _ after => after.stats.keysAdded == builder.stats.keysAdded + 1
  | .error _ _ => false

def accepted : Builder τ → List (Bytes × τ.Value) → List (Bytes × τ.Value)
  | _, [] => []
  | builder, entry :: calls =>
      let later := accepted (builder.offer entry) calls
      if builder.accepts entry then entry :: later else later

def finishWithStats (builder : Builder τ) : Except Error (Node τ × Stats) :=
  match finish builder with
  | .ok root after => .ok (root, after.stats)
  | .error error _ => .error error

end PackedTrie.Builder
