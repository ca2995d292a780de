import Mathlib

/-!
Computations with a state, done one after the other.
-/

namespace PackedTrie.Sequencing

variable {ε σ β γ : Type} {first : EStateM ε σ β} {second : β → EStateM ε σ γ} {state : σ}

theorem bind_of_ok {after : σ} {result : β} (done : first state = .ok result after) :
    (first >>= second) state = second result after := by
  simp only [bind, EStateM.bind, done]

theorem bind_of_error {after : σ} {error : ε} (failed : first state = .error error after) :
    (first >>= second) state = .error error after := by
  simp only [bind, EStateM.bind, failed]

theorem bind_eq_ok_iff {last : σ} {result : γ} :
    (first >>= second) state = .ok result last ↔
      ∃ middle between, first state = .ok middle between ∧
        second middle between = .ok result last := by
  simp only [bind, EStateM.bind]
  cases first state <;> simp

end PackedTrie.Sequencing
