import Mathlib.Tactic

/-!
# Trees of blocks of pointers

A pointer leads to a block of `k` pointers, and the digits of a place to the base `k`, the highest
first, are the indices of the pointers to take. A null pointer leads nowhere.
-/

namespace PointerTree
variable (entry : ℕ → ℕ → ℕ) (k : ℕ)

/-- From a pointer through entry `index` of its block. The indices that are used are kept. -/
def through (pointer index : ℕ) (next : ℕ → ℕ × List ℕ) : ℕ × List ℕ :=
  if pointer = 0 then (0,[]) else
    ((next (entry pointer index)).1,index::(next (entry pointer index)).2)

def walk : (depth pointer place : ℕ) → ℕ × List ℕ
  | 0,pointer,_ => (pointer,[])
  | depth+1,pointer,place => through entry pointer (place/k^depth) fun target =>
    walk depth target (place%k^depth)

def Leads (value : ℕ) (r : ℕ × List ℕ) : Prop := r.1 = value ∧ ∀ i ∈ r.2, i < k

variable {entry k}

@[simp] theorem through_null (index : ℕ) (next : ℕ → ℕ × List ℕ) :
    through entry 0 index next = (0,[]) := if_pos rfl

theorem through_of_ne {pointer : ℕ} (h : pointer ≠ 0) (index : ℕ) (next : ℕ → ℕ × List ℕ) :
    through entry pointer index next = ((next (entry pointer index)).1,
      index::(next (entry pointer index)).2) := if_neg h

@[simp] theorem walk_null (depth place : ℕ) : walk entry k depth 0 place = (0,[]) := by
  cases depth <;> simp [walk]

theorem walk_lt (depth : ℕ) : ∀ {pointer place : ℕ}, place < k^depth →
    ∀ i ∈ (walk entry k depth pointer place).2, i < k := by
  induction depth with
  | zero =>
    intro pointer place _ i hi
    simp [walk] at hi
  | succ depth ih =>
    intro pointer place hplace i hi
    rw [pow_succ] at hplace
    by_cases hpointer : pointer = 0
    · simp [hpointer] at hi
    · rw [walk,through_of_ne hpointer] at hi
      rcases List.mem_cons.mp hi with rfl | hi
      · exact Nat.div_lt_of_lt_mul hplace
      · have hpos : 0 < k^depth := Nat.pos_of_ne_zero fun hzero => by simp [hzero] at hplace
        exact ih (Nat.mod_lt _ hpos) i hi

theorem leads_walk {depth place : ℕ} (h : place < k^depth) (pointer : ℕ) :
    Leads k (walk entry k depth pointer place).1 (walk entry k depth pointer place) :=
  ⟨rfl,walk_lt depth h⟩

@[simp] theorem leads_null {value : ℕ} : Leads k value (0,[]) ↔ value = 0 := by
  simp [Leads,eq_comm]

theorem leads_through {value pointer : ℕ} (h : pointer ≠ 0) (index : ℕ) (next : ℕ → ℕ × List ℕ) :
    Leads k value (through entry pointer index next) ↔
    index < k ∧ Leads k value (next (entry pointer index)) := by
  simp [through_of_ne h,Leads,and_left_comm]

end PointerTree
