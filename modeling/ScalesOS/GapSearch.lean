import Mathlib.Data.List.Range

/-! Searching for `n` free places in a row. A round of the search looks at the next `n` places
and, if one of them is taken, goes on to the first place behind it that is not blocked. -/
namespace ScalesOS
namespace GapSearch

/-- The place `o` that the first round arrives at. -/
def FirstGap (taken blocked : ℕ → Prop) (n o : ℕ) : Prop :=
  (o = 0 ∧ ∀ i < n, ¬taken i) ∨
    ∃ i < n, taken i ∧ (∀ j < i, ¬taken j) ∧ i ≤ o ∧ (∀ j, i ≤ j → j < o → blocked j) ∧ ¬blocked o

variable {taken blocked : ℕ → Prop} {n o b : ℕ}

/-- The round passes over no `n` places in a row that are not blocked. -/
theorem FirstGap.le_of_run (h : FirstGap taken blocked n o) (hblocked : ∀ j, taken j → blocked j)
    (hrun : ∀ i < n, ¬blocked (b+i)) : o ≤ b := by
  rcases h with ⟨rfl,-⟩ | ⟨i,hi,htaken,-,-,hskip,-⟩
  · exact Nat.zero_le b
  · have hbehind : i < b := by
      by_contra hc
      refine hrun (i-b) (by omega) ?_
      rw [Nat.add_sub_cancel' (not_lt.mp hc)]
      exact hblocked i htaken
    by_contra hc
    exact hrun 0 (by omega) (hskip b hbehind.le (not_le.mp hc))

variable {p : ℕ → Bool}

theorem firstGap_find (h : FirstGap (fun i => p i = true) blocked n o) :
    (o = 0 ∧ (List.range n).find? p = none) ∨
      ∃ i, (List.range n).find? p = some i ∧ i ≤ o ∧ (∀ j, i ≤ j → j < o → blocked j) ∧
      ¬blocked o := by
  rcases h with ⟨rfl,hfree⟩ | ⟨i,hi,htaken,hbefore,hio,hskip,hgap⟩
  · refine .inl ⟨rfl,List.find?_range_eq_none.mpr fun i hi => ?_⟩
    simpa using hfree i hi
  · refine .inr ⟨i,List.find?_range_eq_some.mpr ⟨htaken,List.mem_range.mpr hi,fun j hj => ?_⟩,hio,
      hskip,hgap⟩
    simpa using hbefore j hj

/-- A loop that goes on while places are blocked ends at the first one that is not. -/
theorem skip_eq {ε : Type} {q : ℕ → Prop} [DecidablePred q] {skip : ℕ → ℕ → Except ε ℕ}
    (hskip : ∀ fuel i, skip (fuel+1) i = if q i then skip fuel (i+1) else .ok i) {m : ℕ}
    (hm : ¬q m) (fuel : ℕ) :
    ∀ i, i ≤ m → m-i < fuel → (∀ j, i ≤ j → j < m → q j) → skip fuel i = .ok m := by
  induction fuel with
  | zero => exact fun i _ hfuel _ => absurd hfuel (Nat.not_lt_zero _)
  | succ fuel ih =>
    intro i him hfuel hq
    rw [hskip]
    rcases him.lt_or_eq with hlt | rfl
    · rw [if_pos (hq i le_rfl hlt)]
      exact ih (i+1) hlt (by omega) fun j hj => hq j (by omega)
    · exact if_neg hm

end GapSearch
end ScalesOS
