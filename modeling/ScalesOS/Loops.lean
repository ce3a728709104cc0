import Mathlib.Tactic

/-!
# Loops

A loop is a turn that goes on with a new state, ends with a result, or fails. `iterate` makes
at most a given number of turns.
-/

namespace Loops

variable {ε σ ρ : Type}

/-- The result of a loop; `stuck` if there are not enough turns. -/
def iterate (stuck : ε) (turn : σ → Except ε (σ ⊕ ρ)) : ℕ → σ → Except ε ρ
  | 0,_ => .error stuck
  | fuel+1,s =>
    match turn s with
    | .error e => .error e
    | .ok (.inl t) => iterate stuck turn fuel t
    | .ok (.inr r) => .ok r

variable {stuck : ε} {turn : σ → Except ε (σ ⊕ ρ)} {s t : σ} {r : ρ} {fuel : ℕ}

theorem iterate_next (h : turn s = .ok (.inl t)) :
    iterate stuck turn (fuel+1) s = iterate stuck turn fuel t := by
  simp [iterate,h]

theorem iterate_ended (h : turn s = .ok (.inr r)) : iterate stuck turn (fuel+1) s = .ok r := by
  simp [iterate,h]

theorem iterate_more {fuel' : ℕ} (h : iterate stuck turn fuel s = .ok r) (hle : fuel ≤ fuel') :
    iterate stuck turn fuel' s = .ok r := by
  induction fuel generalizing s fuel' with
  | zero => cases h
  | succ fuel ih =>
    obtain ⟨n,rfl⟩ : ∃ n, fuel' = n+1 := ⟨fuel'-1,by omega⟩
    cases hs : turn s with
    | error e => simp [iterate,hs] at h
    | ok x =>
      cases x with
      | inl t =>
        rw [iterate_next hs] at h ⊢
        exact ih h (by omega)
      | inr r' =>
        rw [iterate_ended hs] at h ⊢
        exact h

/-- A loop ends if `I n` says of a state that at most `n` turns follow. -/
theorem iterate_spec (stuck : ε) {I : ℕ → σ → Prop} {Q : ρ → Prop}
    (hturn : ∀ n s, I n s → ∃ x, turn s = .ok x ∧ x.elim (fun t => ∃ m < n, I m t) Q) (fuel : ℕ) :
    ∀ {s n}, I n s → n < fuel → ∃ r, iterate stuck turn fuel s = .ok r ∧ Q r := by
  induction fuel with
  | zero =>
    intro s n _ hn
    exact absurd hn (Nat.not_lt_zero n)
  | succ fuel ih =>
    intro s n hs hn
    obtain ⟨x,hx,hnext⟩ := hturn n s hs
    cases x with
    | inl t =>
      obtain ⟨m,hm,ht⟩ := hnext
      rw [iterate_next hx]
      exact ih ht (by omega)
    | inr r => exact ⟨r,iterate_ended hx,hnext⟩

end Loops
