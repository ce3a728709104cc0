import ScalesOS.ByteMemory

/-!
# Files with missing blocks

A file is a sequence of blocks of one size. Some of them have a place, which is a number other than
zero, and the others are full of zeros.
-/

namespace SparseFile
open ByteMemory
variable {bs pos size n : ℕ} {target : ℕ → ℕ} {content : ℕ → Mem}

/-- The bytes of the file whose block `k` has the place `target k`. -/
def fileByte (bs : ℕ) (target : ℕ → ℕ) (content : ℕ → Mem) : Mem := fun x =>
  if target (x/bs) = 0 then 0 else content (target (x/bs)) (x%bs)

/-- No block is missing among those with the `n` bytes from `pos` on. -/
def Mapped (bs : ℕ) (target : ℕ → ℕ) (pos n : ℕ) : Prop :=
  ∀ x, pos ≤ x → x < pos+n → target (x/bs) ≠ 0

/-- Of `size` bytes from `pos` on, the first `n` are those before the first block that is
missing. -/
structure UpToHole (bs : ℕ) (target : ℕ → ℕ) (pos size n : ℕ) : Prop where
  le : n ≤ size
  mapped : Mapped bs target pos n
  stop : n = size ∨ target ((pos+n)/bs) = 0

theorem inside (h : n < bs-pos%bs) : (pos+n)/bs = pos/bs ∧ (pos+n)%bs = pos%bs+n := by
  have hbs : 0 < bs := by omega
  have hsum : pos+n = bs*(pos/bs)+(pos%bs+n) := by rw [← Nat.add_assoc,Nat.div_add_mod]
  have hlt : pos%bs+n < bs := by omega
  rw [hsum,Nat.mul_add_div hbs,Nat.mul_add_mod,Nat.div_eq_of_lt hlt,Nat.mod_eq_of_lt hlt]
  exact ⟨Nat.add_zero _,rfl⟩

theorem next_block (hbs : 0 < bs) (pos : ℕ) :
    (pos+(bs-pos%bs))/bs = pos/bs+1 ∧ (pos+(bs-pos%bs))%bs = 0 := by
  have hlt := Nat.mod_lt pos hbs
  have hsum := Nat.div_add_mod pos bs
  have hnext : pos+(bs-pos%bs) = bs*(pos/bs+1) := by
    rw [Nat.mul_succ]
    omega
  rw [hnext]
  exact ⟨Nat.mul_div_cancel_left _ hbs,Nat.mul_mod_right _ _⟩

/-- The part of a block from `pos` on is in the file where it is in the block. -/
theorem load_fileByte {m : Mem} (hn : n ≤ bs-pos%bs) (htarget : target (pos/bs) ≠ 0)
    (hm : ∀ x < bs, m x = content (target (pos/bs)) x) :
    load m (pos%bs) n = load (fileByte bs target content) pos n := by
  apply List.map_congr_left
  intro i hi
  have hi : i < bs-pos%bs := (List.mem_range.mp hi).trans_le hn
  obtain ⟨hblock,hplace⟩ := inside hi
  rw [fileByte,hblock,hplace,if_neg htarget]
  exact hm _ (by omega)

theorem Mapped.block (hn : n ≤ bs-pos%bs) (htarget : target (pos/bs) ≠ 0) :
    Mapped bs target pos n := by
  intro x hlow hhigh
  obtain ⟨i,rfl⟩ := Nat.exists_eq_add_of_le hlow
  rwa [(inside (show i < bs-pos%bs by omega)).1]

theorem UpToHole.zero : UpToHole bs target pos 0 0 := ⟨le_rfl,fun x _ _ => by omega,.inl rfl⟩

theorem UpToHole.hole (h : target (pos/bs) = 0) : UpToHole bs target pos size 0 :=
  ⟨Nat.zero_le _,fun x _ _ => by omega,.inr h⟩

theorem UpToHole.last (hsize : size ≤ bs-pos%bs) (htarget : target (pos/bs) ≠ 0) :
    UpToHole bs target pos size size :=
  ⟨le_rfl,.block hsize htarget,.inl rfl⟩

/-- A whole block, or the rest of it, before what comes from the next one on. -/
theorem UpToHole.next (hsize : bs-pos%bs ≤ size) (htarget : target (pos/bs) ≠ 0)
    (h : UpToHole bs target (pos+(bs-pos%bs)) (size-(bs-pos%bs)) n) :
    UpToHole bs target pos size (bs-pos%bs+n) := by
  obtain ⟨hle,hmapped,hstop⟩ := h
  refine ⟨by omega,?_,?_⟩
  · intro x hlow hhigh
    rcases Nat.lt_or_ge x (pos+(bs-pos%bs)) with hx | hx
    · exact Mapped.block le_rfl htarget x hlow hx
    · exact hmapped x hx (by omega)
  · rw [← Nat.add_assoc]
    rcases hstop with rfl | hhole
    · exact .inl (Nat.add_sub_cancel' hsize)
    · exact .inr hhole

theorem UpToHole.eq_of_mapped (h : UpToHole bs target pos size n)
    (hmapped : Mapped bs target pos size) : n = size := by
  rcases h.stop with heq | hhole
  · exact heq
  · by_contra hne
    exact hmapped (pos+n) (Nat.le_add_right _ _)
      (Nat.add_lt_add_left (lt_of_le_of_ne h.le hne) _) hhole

theorem UpToHole.eq_of_hole {m : ℕ} (h : UpToHole bs target pos size n)
    (hmapped : Mapped bs target pos m) (hlt : m < size)
    (hhole : target ((pos+m)/bs) = 0) : n = m := by
  rcases lt_trichotomy n m with hless | heq | hmore
  · have hzero := h.stop.resolve_left (by omega)
    exact absurd hzero (hmapped (pos+n) (Nat.le_add_right _ _) (by omega))
  · exact heq
  · exact absurd hhole (h.mapped (pos+m) (Nat.le_add_right _ _) (by omega))

theorem UpToHole.unique {m : ℕ} (h : UpToHole bs target pos size n)
    (h' : UpToHole bs target pos size m) : n = m := by
  rcases h'.stop with rfl | hhole
  · exact h.eq_of_mapped h'.mapped
  · rcases Nat.lt_or_ge m size with hlt | hge
    · exact h.eq_of_hole h'.mapped hlt hhole
    · obtain rfl := le_antisymm h'.le hge
      exact h.eq_of_mapped h'.mapped

end SparseFile
