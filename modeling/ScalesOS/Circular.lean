import Mathlib.Tactic

/-!
# Circular buffers

A fixed number of cells in a circle, of which those from a first position up to a last one,
exclusive, hold a sequence. One cell always stays free, so that equal positions mean that
the sequence is empty.
-/

namespace Circular

variable {α : Type} {size i j : ℕ}

/-- The position `k` cells after `i`. -/
def index (size i k : ℕ) : ℕ := if i+k < size then i+k else i+k-size

/-- The next position. -/
def next (size i : ℕ) : ℕ := if i+1 = size then 0 else i+1

/-- The number of cells from `i` up to `j`. -/
def dist (size i j : ℕ) : ℕ := if i ≤ j then j-i else size-i+j

/-- The sequence of `n` cells from `i` on. -/
def contents (cells : ℕ → α) (size i n : ℕ) : List α :=
  (List.range n).map fun k => cells (index size i k)

theorem next_lt (hi : i < size) : next size i < size := by
  rw [next]
  split <;> omega

theorem dist_lt (hi : i < size) (hj : j < size) : dist size i j < size := by
  rw [dist]
  split <;> omega

theorem index_dist (hi : i < size) (hj : j < size) : index size i (dist size i j) = j := by
  rw [index,dist]
  split_ifs <;> omega

theorem index_ne {k : ℕ} (hi : i < size) (hk : k < dist size i j) : index size i k ≠ j := by
  rw [dist] at hk
  rw [index]
  split_ifs at hk ⊢ <;> omega

theorem index_next {k : ℕ} (hk : k+1 < size) : index size (next size i) k = index size i (k+1) := by
  rw [index,index,next]
  split_ifs <;> omega

theorem dist_next_right (hi : i < size) (hroom : dist size i j+1 < size) :
    dist size i (next size j) = dist size i j+1 := by
  rw [dist] at hroom
  rw [dist,dist,next]
  split_ifs at hroom ⊢ <;> omega

theorem dist_next_left (hi : i < size) (hj : j < size) (hne : i ≠ j) :
    dist size i j = dist size (next size i) j+1 := by
  rw [dist,dist,next]
  split_ifs <;> omega

@[simp] theorem length_contents (cells : ℕ → α) (size i n : ℕ) :
    (contents cells size i n).length = n := by
  simp [contents]

theorem contents_push (cells : ℕ → α) (x : α) (hi : i < size) (hj : j < size)
    (hroom : dist size i j+1 < size) :
    contents (Function.update cells j x) size i (dist size i (next size j)) =
        contents cells size i (dist size i j)++[x] := by
  rw [dist_next_right hi hroom,contents,List.range_succ,List.map_append,List.map_singleton,
    index_dist hi hj,Function.update_self,contents]
  congr 1
  refine List.map_congr_left fun k hk => ?_
  exact Function.update_of_ne (index_ne hi (List.mem_range.mp hk)) _ _

theorem contents_pop (cells : ℕ → α) (hi : i < size) (hj : j < size) (hne : i ≠ j) :
    contents cells size i (dist size i j) = cells i ::
    contents cells size (next size i) (dist size (next size i) j) := by
  rw [dist_next_left hi hj hne,contents,List.range_succ_eq_map,List.map_cons,List.map_map,contents]
  have hfirst : index size i 0 = i := if_pos hi
  rw [hfirst]
  congr 1
  refine List.map_congr_left fun k hk => ?_
  have hlt := dist_lt hi hj
  rw [dist_next_left hi hj hne] at hlt
  have hk' := List.mem_range.mp hk
  exact congrArg cells (index_next (by omega)).symm

end Circular
