import Mathlib

/-!
# Tables of records

Records of one size lie behind one another, and a whole number of them is in each block. The place
of a record is its table's start and its number of sizes, however it is counted: in records, or in
blocks and records of the last block.
-/

namespace RecordTables
variable {base size block n i j : ℕ}

/-- The bytes of record `i` of the table at `base`. -/
def record (base size i : ℕ) : Set ℕ := Set.Ico (base+i*size) (base+i*size+size)

/-- The bytes of a table of `n` records. -/
def table (base size n : ℕ) : Set ℕ := Set.Ico base (base+n*size)

theorem record_end (size : ℕ) (h : i < n) : i*size+size ≤ n*size := by
  rw [← Nat.succ_mul]
  exact Nat.mul_le_mul_right size h

theorem record_subset (h : i < n) : record base size i ⊆ table base size n := by
  have hend := record_end size h
  apply Set.Ico_subset_Ico <;> omega

theorem record_disjoint (h : i ≠ j) : Disjoint (record base size i) (record base size j) := by
  apply Set.disjoint_left.mpr
  rintro x ⟨hlow,hhigh⟩ ⟨hlow',hhigh'⟩
  rcases Nat.lt_or_gt_of_ne h with hij | hij
  · have hend := record_end size hij
    omega
  · have hend := record_end size hij
    omega

theorem inner_eq (hblock : 0 < block) (hdvd : size ∣ block) :
    i-i*size/block*(block/size) = i%(block/size) := by
  obtain ⟨q,rfl⟩ := hdvd
  have hsize : 0 < size := Nat.pos_of_mul_pos_right hblock
  have hdiv : i*size/(size*q) = i/q := by rw [Nat.mul_comm i,Nat.mul_div_mul_left _ _ hsize]
  have hsplit := Nat.div_add_mod' i q
  rw [hdiv,Nat.mul_div_cancel_left q hsize]
  omega

theorem inner_le (hblock : 0 < block) (hdvd : size ∣ block) :
    (i-i*size/block*(block/size))*size+size ≤ block := by
  have hsize : 0 < size := Nat.pos_of_dvd_of_pos hdvd hblock
  have hlt : i%(block/size) < block/size :=
    Nat.mod_lt i (Nat.div_pos (Nat.le_of_dvd hblock hdvd) hsize)
  have hend := record_end size hlt
  rwa [Nat.div_mul_cancel hdvd,← inner_eq hblock hdvd] at hend

/-- Blocks and records inside the last block add up to the place of the record. -/
theorem place_eq (hblock : 0 < block) (hdvd : size ∣ block) :
    i*size/block*block+(i-i*size/block*(block/size))*size = i*size := by
  rw [inner_eq hblock hdvd]
  obtain ⟨q,rfl⟩ := hdvd
  have hsize : 0 < size := Nat.pos_of_mul_pos_right hblock
  rw [Nat.mul_comm i,Nat.mul_div_mul_left _ _ hsize,Nat.mul_div_cancel_left q hsize]
  calc i/q*(size*q)+i%q*size = size*(i/q*q+i%q) := by ring
    _ = size*i := by rw [Nat.div_add_mod']

end RecordTables
