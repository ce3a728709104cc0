import Mathlib.Tactic

/-!
# Exact conditions of computations that may fail

`Exactly E P x Q` says all about the outcome of `x`: under `P` a value in `Q`, and otherwise
an error in `E`. The rules compose the conditions of the steps to the condition of a run.
-/

namespace ScalesOS
namespace ExactRuns

variable {ε α β σ : Type} {E : ε → Prop}

def Exactly (E : ε → Prop) (P : Prop) (x : Except ε α) (Q : α → Prop) : Prop :=
  (P ∧ ∃ a, x = .ok a ∧ Q a) ∨ (¬ P ∧ ∃ e, x = .error e ∧ E e)

variable {P P' : Prop} {x : Except ε α} {Q Q' : α → Prop}

theorem Exactly.ok {a : α} (hP : P) (hQ : Q a) : Exactly E P (.ok a) Q := .inl ⟨hP,a,rfl,hQ⟩

theorem Exactly.error {e : ε} (hP : ¬ P) (he : E e) : Exactly E P (.error e) Q := .inr ⟨hP,e,rfl,he⟩

theorem Exactly.congr (h : Exactly E P x Q) (hP : P ↔ P') : Exactly E P' x Q := by
  rwa [propext hP] at h

theorem Exactly.imp (h : Exactly E P x Q) (hQ : ∀ a, Q a → Q' a) : Exactly E P x Q' :=
  h.imp_left fun ⟨hP,a,hx,ha⟩ => ⟨hP,a,hx,hQ a ha⟩

theorem Exactly.known (h : Exactly E P x Q) : Exactly E P x (fun a => P ∧ Q a) := by
  rcases h with ⟨hP,a,hx,ha⟩ | herror
  · exact .inl ⟨hP,a,hx,hP,ha⟩
  · exact .inr herror

theorem Exactly.ok_iff (h : Exactly E P x Q) : (∃ a, x = .ok a) ↔ P := by
  rcases h with ⟨hP,a,hx,-⟩ | ⟨hP,e,hx,-⟩
  · exact iff_of_true ⟨a,hx⟩ hP
  · refine iff_of_false ?_ hP
    rintro ⟨a,ha⟩
    rw [hx] at ha
    cases ha

theorem Exactly.of_error {e : ε} (h : Exactly E P x Q) (hx : x = .error e) : E e := by
  rcases h with ⟨-,b,hb,-⟩ | ⟨-,e',he,hE⟩
  · rw [hx] at hb
    cases hb
  · obtain rfl := Except.error.inj (he.symm.trans hx)
    exact hE

theorem Exactly.ite {c : Prop} [Decidable c] {a : α} {e : ε} (he : E e) :
    Exactly E c (if c then pure a else throw e) (· = a) := by
  split
  · rename_i hc
    exact .ok hc rfl
  · rename_i hc
    exact .error hc he

theorem Exactly.bind {f : α → Except ε β} {R : β → Prop} (h : Exactly E P x Q)
    (hf : ∀ a, Q a → Exactly E P' (f a) R) : Exactly E (P ∧ P') (x >>= f) R := by
  rcases h with ⟨hP,a,rfl,ha⟩ | ⟨hP,e,rfl,he⟩
  · exact (hf a ha).congr (and_iff_right hP).symm
  · exact .error (fun h => hP h.1) he

/-- A loop over a list: the invariant of the state before each round gives the round's condition. -/
theorem Exactly.foldlM {f : σ → α → Except ε σ} {I : ℕ → σ → Prop} {C : ℕ → α → Prop}
    (hf : ∀ k a s, I k s → Exactly E (C k a) (f s a) (I (k+1))) (l : List α) (k : ℕ)
    {s : σ} (hs : I k s) :
    Exactly E (∀ i (h : i < l.length), C (k+i) l[i]) (l.foldlM f s) (I (k+l.length)) := by
  induction l generalizing k s with
  | nil => exact .ok (fun i h => absurd h (Nat.not_lt_zero i)) hs
  | cons a l ih =>
    have hrounds : (C k a ∧ ∀ i (h : i < l.length), C (k+1+i) l[i]) ↔
        ∀ i (h : i < (a::l).length), C (k+i) (a::l)[i] := by
      constructor
      · rintro ⟨hhead,htail⟩ i h
        cases i with
        | zero => exact hhead
        | succ i =>
          have hi := htail i (Nat.lt_of_succ_lt_succ h)
          rwa [show k+1+i = k+(i+1) by omega] at hi
      · intro h
        refine ⟨h 0 (Nat.succ_pos _),fun i hi => ?_⟩
        have hi := h (i+1) (Nat.succ_lt_succ hi)
        rwa [show k+(i+1) = k+1+i by omega] at hi
    have hlen : k+1+l.length = k+(a::l).length := by
      rw [List.length_cons]
      omega
    rw [List.foldlM_cons,← hlen]
    exact ((hf k a s hs).bind fun t ht => ih (k+1) ht).congr hrounds

end ExactRuns
end ScalesOS
