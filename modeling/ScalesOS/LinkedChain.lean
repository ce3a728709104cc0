import Mathlib.Tactic

/-!
# Singly linked lists

Nodes of any kind with a link from each to the next one. A segment leads from one link
through a list of nodes to another link; a segment that ends at no node is a whole list, and
it cannot contain a node twice.
-/

namespace LinkedChain

variable {α : Type} {next next' : α → Option α} {a b c : Option α} {l m : List α} {x y : α}

/-- The links lead from `a` through the nodes of the list to `b`. -/
def Segment (next : α → Option α) : Option α → List α → Option α → Prop
  | a, [], b => a = b
  | a, x :: l, b => a = some x ∧ Segment next (next x) l b

theorem segment_append : Segment next a (l++m) b ↔
    ∃ c, Segment next a l c ∧ Segment next c m b := by
  induction l generalizing a with
  | nil => simp [Segment]
  | cons x l ih => simp [Segment,ih,and_assoc]

theorem Segment.congr (h : Segment next a l b) (hnext : ∀ x ∈ l, next' x = next x) :
    Segment next' a l b := by
  induction l generalizing a with
  | nil => exact h
  | cons x l ih =>
    refine ⟨h.1,?_⟩
    rw [hnext x List.mem_cons_self]
    exact ih h.2 fun y hy => hnext y (List.mem_cons_of_mem x hy)

/-- Whoever starts at the same link and comes to the end sees the same nodes. -/
theorem Segment.unique (hl : Segment next a l none) (hm : Segment next a m none) : l = m := by
  induction l generalizing a m with
  | nil =>
    cases m with
    | nil => rfl
    | cons y m =>
      have hnone : a = none := hl
      rw [hnone] at hm
      cases hm.1
  | cons x l ih =>
    cases m with
    | nil =>
      have hnone : a = none := hm
      rw [hnone] at hl
      cases hl.1
    | cons y m =>
      obtain rfl := Option.some.inj (hl.1.symm.trans hm.1)
      rw [ih hl.2 hm.2]

/-- A list that ends has no node twice: from the first occurrence on it would be as long as
from the second one. -/
theorem Segment.nodup (h : Segment next a l none) : l.Nodup := by
  induction l generalizing a with
  | nil => exact List.nodup_nil
  | cons x l ih =>
    refine List.nodup_cons.mpr ⟨fun hx => ?_,ih h.2⟩
    obtain ⟨l₁,l₂,rfl⟩ := List.append_of_mem hx
    obtain ⟨c,-,hc⟩ := segment_append.mp h.2
    have hlen := congrArg List.length (h.2.unique hc.2)
    simp at hlen
    omega

theorem Segment.head (h : Segment next a l none) : a = l.head? := by
  cases l with
  | nil => exact h
  | cons x l => exact h.1

variable [DecidableEq α]

theorem Segment.insert (h : Segment next a (l++[x]) c) (hm : Segment next c m b)
    (hx : x ∉ l) (hxm : x ∉ m) (hyl : y ∉ l) (hym : y ∉ m) (hxy : y ≠ x) :
    Segment (Function.update (Function.update next x (some y)) y c) a (l++x :: y :: m) b := by
  obtain ⟨d,hl,hd,-⟩ := segment_append.mp h
  refine segment_append.mpr ⟨d,hl.congr fun z hz => ?_,hd,?_,?_⟩
  · have hzx : z ≠ x := fun heq => hx (heq ▸ hz)
    have hzy : z ≠ y := fun heq => hyl (heq ▸ hz)
    rw [Function.update_of_ne hzy,Function.update_of_ne hzx]
  · rw [Function.update_of_ne (Ne.symm hxy),Function.update_self]
  · rw [Function.update_self]
    refine hm.congr fun z hz => ?_
    have hzx : z ≠ x := fun heq => hxm (heq ▸ hz)
    have hzy : z ≠ y := fun heq => hym (heq ▸ hz)
    rw [Function.update_of_ne hzy,Function.update_of_ne hzx]

theorem Segment.skip (h : Segment next a (l++x :: y :: m) b) (hx : x ∉ l) (hxm : x ∉ m) :
    Segment (Function.update next x (next y)) a (l++x :: m) b := by
  obtain ⟨d,hl,hd,hy⟩ := segment_append.mp h
  refine segment_append.mpr ⟨d,hl.congr fun z hz => ?_,hd,?_⟩
  · have hzx : z ≠ x := fun heq => hx (heq ▸ hz)
    rw [Function.update_of_ne hzx]
  · rw [Function.update_self]
    refine hy.2.congr fun z hz => ?_
    have hzx : z ≠ x := fun heq => hxm (heq ▸ hz)
    rw [Function.update_of_ne hzx]

end LinkedChain
