import Mathlib.Data.List.Basic
import Mathlib.Tactic.Common

/-!
# Lists that take back

A list is read from the left onto a stack: some elements are put onto it, some take the last
one back, and some do nothing. Read from the right, what is left is what no later element
takes back.
-/

namespace ScalesOS

inductive Effect
  | skip
  | takeBack
  | put
  deriving DecidableEq

namespace Cancelling

variable {α : Type} (effect : α → Effect) (real : α → Bool)

/-- One element is read. -/
def step (stack : List α) (x : α) : List α :=
  match effect x with
  | .skip => stack
  | .takeBack => stack.dropLast
  | .put => stack++[x]

/-- How many elements the list takes back of what is before it. -/
@[simp] def pending : List α → ℕ
  | [] => 0
  | x :: l =>
    match effect x with
    | .skip => pending l
    | .takeBack => pending l+1
    | .put => pending l-1

/-- What no later element takes back. -/
@[simp] def left : List α → List α
  | [] => []
  | x :: l =>
    match effect x with
    | .skip => left l
    | .takeBack => left l
    | .put => if pending effect l = 0 then x :: left l else left l

/-- The elements that are not real make no difference: each is taken back itself, and what is
left with them is left without them. -/
@[simp] def Harmless : List α → Prop
  | [] => True
  | x :: l => Harmless l ∧ (effect x = .put →
      if real x then pending effect l = 0 → pending effect (l.filter real) = 0
      else 0 < pending effect l)

instance (l : List α) : Decidable (Harmless effect real l) := by
  induction l with
  | nil => exact isTrue trivial
  | cons x l ih =>
    unfold Harmless
    infer_instance

variable {effect real}

theorem foldl_step (l : List α) : ∀ stack : List α,
    l.foldl (step effect) stack = stack.take (stack.length-pending effect l)++left effect l := by
  induction l with
  | nil =>
    intro stack
    simp [pending,left]
  | cons x l ih =>
    intro stack
    rw [List.foldl_cons,ih,step,pending,left]
    cases effect x with
    | skip => rfl
    | takeBack =>
      dsimp only
      rw [List.length_dropLast,List.dropLast_eq_take,List.take_take]
      congr 2
      omega
    | put =>
      dsimp only
      rw [List.length_append,List.length_singleton]
      by_cases hzero : pending effect l = 0
      · rw [if_pos hzero,hzero,Nat.sub_zero,List.take_of_length_le (by simp),Nat.zero_sub,
          Nat.sub_zero,List.take_length,List.append_assoc]
        rfl
      · rw [if_neg hzero,List.take_append_of_le_length (by omega)]
        congr 2
        omega

theorem foldl_nil (l : List α) : l.foldl (step effect) [] = left effect l := by
  rw [foldl_step,List.take_nil,List.nil_append]

theorem left_subset (l : List α) : left effect l ⊆ l := by
  induction l with
  | nil => exact List.Subset.refl _
  | cons x l ih =>
    have hrest : left effect l ⊆ x :: l := fun y hy => List.mem_cons_of_mem x (ih hy)
    rw [left]
    cases effect x with
    | skip => exact hrest
    | takeBack => exact hrest
    | put =>
      dsimp only
      split
      · exact List.cons_subset.mpr ⟨List.mem_cons_self,hrest⟩
      · exact hrest

theorem effect_left (l : List α) : ∀ x ∈ left effect l, effect x = .put := by
  induction l with
  | nil => exact fun x hx => by cases hx
  | cons y l ih =>
    rw [left]
    cases hy : effect y with
    | skip => exact ih
    | takeBack => exact ih
    | put =>
      dsimp only
      split
      · exact fun x hx => (List.mem_cons.mp hx).elim (fun h => h ▸ hy) (ih x)
      · exact ih

theorem left_of_put {l : List α} (h : ∀ x ∈ l, effect x = .put) :
    pending effect l = 0 ∧ left effect l = l := by
  induction l with
  | nil => exact ⟨rfl,rfl⟩
  | cons x l ih =>
    obtain ⟨hpending,hleft⟩ := ih fun y hy => h y (List.mem_cons_of_mem x hy)
    rw [pending,left,h x List.mem_cons_self]
    dsimp only
    rw [if_pos hpending,hpending,hleft]
    exact ⟨rfl,rfl⟩

/-- Elements that only put use up what would otherwise be taken back before them. -/
theorem real_le {l : List α} (h : ∀ x ∈ l, real x = false → effect x = .put) :
    pending effect l ≤ pending effect (l.filter real) ∧
    (left effect (l.filter real)).Sublist (left effect l) := by
  induction l with
  | nil => exact ⟨Nat.le_refl _,List.Sublist.refl _⟩
  | cons x l ih =>
    obtain ⟨hpending,hsub⟩ := ih fun y hy => h y (List.mem_cons_of_mem x hy)
    cases hx : real x with
    | false =>
      rw [List.filter_cons_of_neg (by simp [hx]),pending,left,h x List.mem_cons_self hx]
      dsimp only
      refine ⟨by omega,?_⟩
      split
      · exact hsub.cons x
      · exact hsub
    | true =>
      rw [List.filter_cons_of_pos hx,pending,pending,left,left]
      cases effect x with
      | skip => exact ⟨hpending,hsub⟩
      | takeBack => exact ⟨Nat.succ_le_succ hpending,hsub⟩
      | put =>
        dsimp only
        refine ⟨by omega,?_⟩
        split
        · rw [if_pos (by omega)]
          exact hsub.cons_cons x
        · split
          · exact hsub.cons x
          · exact hsub

/-- The same is left with the elements that are not real just if they are harmless. -/
theorem left_eq_iff {l : List α} (h : ∀ x ∈ l, real x = false → effect x = .put) :
    left effect l = left effect (l.filter real) ↔ Harmless effect real l := by
  induction l with
  | nil => exact iff_of_true rfl trivial
  | cons x l ih =>
    have hrest : ∀ y ∈ l, real y = false → effect y = .put := fun y hy =>
      h y (List.mem_cons_of_mem x hy)
    obtain ⟨hpending,hsub⟩ := real_le hrest
    have hlength := hsub.length_le
    have ih := ih hrest
    -- what is put and not taken back makes the one list longer than the other
    have hlonger : x :: left effect l ≠ left effect (l.filter real) := fun heq => by
      rw [← heq,List.length_cons] at hlength
      omega
    rw [Harmless]
    cases hx : real x with
    | false =>
      rw [List.filter_cons_of_neg (by simp [hx]),left,h x List.mem_cons_self hx,
        if_neg Bool.false_ne_true]
      dsimp only
      split
      · rename_i hzero
        exact iff_of_false hlonger fun hall => by
          have hpos := hall.2 rfl
          omega
      · exact ih.trans ⟨fun hl => ⟨hl,fun _ => by omega⟩,fun hall => hall.1⟩
    | true =>
      rw [List.filter_cons_of_pos hx,left,left,if_pos rfl]
      cases effect x with
      | skip => exact ih.trans ⟨fun hl => ⟨hl,fun hput => by cases hput⟩,fun hall => hall.1⟩
      | takeBack => exact ih.trans ⟨fun hl => ⟨hl,fun hput => by cases hput⟩,fun hall => hall.1⟩
      | put =>
        dsimp only
        by_cases hzero : pending effect l = 0
        · rw [if_pos hzero]
          by_cases hreal : pending effect (l.filter real) = 0
          · rw [if_pos hreal,List.cons_inj_right]
            exact ih.trans ⟨fun hl => ⟨hl,fun _ _ => hreal⟩,fun hall => hall.1⟩
          · rw [if_neg hreal]
            exact iff_of_false hlonger fun hall => hreal (hall.2 rfl hzero)
        · rw [if_neg hzero,if_neg (by omega)]
          exact ih.trans ⟨fun hl => ⟨hl,fun _ h => absurd h hzero⟩,fun hall => hall.1⟩

theorem harmless_of_real {l : List α} (h : ∀ x ∈ l, real x = true) : Harmless effect real l := by
  refine (left_eq_iff fun x hx hfalse => ?_).mp (by rw [List.filter_eq_self.mpr h])
  rw [h x hx] at hfalse
  cases hfalse

end Cancelling
end ScalesOS
