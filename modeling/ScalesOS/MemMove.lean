import ScalesOS.ByteMemory

/-!
# Moving memory

`memmove` of `libc/src/string/memmove.c` and `memcpy` below it. Pointers and lengths are 32-bit
words, and pointer differences and `int` are signed. The kernel's library has its `memcpy` in
assembly, the one for programs has it in C.
-/

namespace ScalesOS
namespace MemMove

open ByteMemory

/-- The C version of `memcpy` does nothing with a null pointer, `rep movsb` does not look. -/
def memcpy (arch : Bool) (m : Mem) (dest src n : BitVec 32) : Mem :=
  if arch then copyUp m dest.toNat src.toNat n.toNat
  else if dest ≠ 0 ∧ src ≠ 0 then copyUp m dest.toNat src.toNat n.toNat
  else m

/-- The result and the memory afterwards. In the loop from the top `i` is an `int`. -/
def memmove (arch : Bool) (m : Mem) (dest src n : BitVec 32) : BitVec 32 × Mem :=
  if src = dest ∨ n = 0 then (dest,m)
  else if src < dest ∧ (dest-src).toInt < n.toInt then
    (dest,copyDown m dest.toNat src.toNat ((n-1).toInt+1).toNat)
  else if dest < src ∧ (src-dest).toInt < n.toInt then (dest,copyUp m dest.toNat src.toNat n.toNat)
  else (dest,memcpy arch m dest src n)

/-- One of the pointers is null, and the ranges are apart as the comparisons see them. -/
def NullCopy (dest src n : BitVec 32) : Prop :=
  (dest = 0 ∧ n ≤ src ∧ src.toNat < 2^31 ∨ src = 0 ∧ n ≤ dest ∧ dest.toNat < 2^31) ∧ n ≠ 0

instance (dest src n : BitVec 32) : Decidable (NullCopy dest src n) := by
  unfold NullCopy
  infer_instance

section
variable {dest src n : BitVec 32}

theorem copy_self (m : Mem) (a n : ℕ) : copy m a a n = m := by
  funext x
  simp only [copy]
  split
  · exact congrArg m (by omega)
  · rfl

theorem copy_zero (m : Mem) (a b : ℕ) : copy m a b 0 = m := by
  funext x
  simp [copy]

/-- A difference that is too large for an `int` is negative, and so less than every length. -/
theorem near_iff {p q : BitVec 32} (hn : n.toNat < 2^31) (h : q < p) :
    (p-q).toInt < n.toInt ↔ p.toNat-q.toNat < n.toNat ∨ 2^31 ≤ p.toNat-q.toNat := by
  have hle : q ≤ p := BitVec.le_of_lt h
  have hsub := BitVec.toNat_sub_of_le hle
  have hlt : q.toNat < p.toNat := h
  have := p.isLt
  rw [BitVec.toInt_eq_toNat_cond,BitVec.toInt_eq_toNat_cond,hsub,
    if_pos (by omega : 2*n.toNat < 2^32)]
  split <;> omega

theorem count_eq (hn : n.toNat < 2^31) (hne : n ≠ 0) : ((n-1).toInt+1).toNat = n.toNat := by
  have hpos : 0 < n.toNat := by
    have := BitVec.toNat_ne.mp hne
    simp at this
    omega
  have hsub : (n-1).toNat = n.toNat-1 := BitVec.toNat_sub_of_le (by simp [BitVec.le_def]; omega)
  rw [BitVec.toInt_eq_toNat_cond,hsub,if_pos (by omega)]
  omega

theorem eq_zero_iff {p : BitVec 32} : p = 0 ↔ p.toNat = 0 := by
  rw [← BitVec.toNat_inj]
  rfl

theorem nullCopy_iff : NullCopy dest src n ↔
    (dest.toNat = 0 ∧ n.toNat ≤ src.toNat ∧ src.toNat < 2^31 ∨
    src.toNat = 0 ∧ n.toNat ≤ dest.toNat ∧ dest.toNat < 2^31) ∧ n.toNat ≠ 0 := by
  simp only [NullCopy,ne_eq,eq_zero_iff,BitVec.le_def]

/-- `memcpy` copies what does not overlap, unless it is asked for a null pointer. -/
theorem memcpy_eq (arch : Bool) (m : Mem)
    (h : dest.toNat ≤ src.toNat ∨ src.toNat+n.toNat ≤ dest.toNat) :
    memcpy arch m dest src n =
      if arch = false ∧ (dest = 0 ∨ src = 0) then m else copy m dest.toNat src.toNat n.toNat := by
  rw [memcpy,copyUp_eq m _ h]
  cases arch
  · by_cases hd : dest = 0#32 <;> by_cases hs : src = 0#32 <;> simp [hd,hs]
  · simp

/-- Every move is the move of what was there before; only with the `memcpy` in C, a null pointer
and ranges apart nothing is moved. -/
theorem memmove_moves (arch : Bool) (m : Mem) (hn : n.toNat < 2^31)
    (hsrc : src.toNat+n.toNat ≤ 2^32) (hdest : dest.toNat+n.toNat ≤ 2^32) :
    memmove arch m dest src n =
      (dest,if arch = false ∧ NullCopy dest src n then m
        else copy m dest.toNat src.toNat n.toNat) := by
  have hnull := @nullCopy_iff dest src n
  rw [memmove]
  split
  · -- nothing to do
    rename_i hnone
    have hcopy : copy m dest.toNat src.toNat n.toNat = m := by
      rcases hnone with rfl | rfl
      · exact copy_self m _ _
      · exact copy_zero m _ _
    rw [hcopy,ite_self]
  · rename_i hsome
    simp only [not_or,eq_zero_iff,← BitVec.toNat_inj (x := src)] at hsome
    split
    · rename_i hdown
      have hlt : src.toNat < dest.toNat := hdown.1
      have hnear := (near_iff hn hdown.1).mp hdown.2
      have hkept : ¬ NullCopy dest src n := by
        rw [hnull]
        omega
      rw [if_neg fun h => hkept h.2,count_eq hn (mt eq_zero_iff.mp hsome.2),copyDown_eq m _ hlt.le]
    · split
      · rename_i hup
        have hlt : dest.toNat < src.toNat := hup.1
        have hnear := (near_iff hn hup.1).mp hup.2
        have hkept : ¬ NullCopy dest src n := by
          rw [hnull]
          omega
        rw [if_neg fun h => hkept h.2,copyUp_eq m _ (.inl hlt.le)]
      · -- the ranges are apart
        rename_i hdown hup
        have happart : dest.toNat+n.toNat ≤ src.toNat ∧ src.toNat-dest.toNat < 2^31 ∨
            src.toNat+n.toNat ≤ dest.toNat ∧ dest.toNat-src.toNat < 2^31 := by
          rcases Nat.lt_or_gt_of_ne hsome.1 with hlt | hlt
          · have hfar := mt (near_iff hn hlt).mpr fun h => hdown ⟨hlt,h⟩
            omega
          · have hfar := mt (near_iff hn hlt).mpr fun h => hup ⟨hlt,h⟩
            omega
        have hsame : (dest = 0 ∨ src = 0) ↔ NullCopy dest src n := by
          rw [hnull,eq_zero_iff,eq_zero_iff]
          omega
        simp only [memcpy_eq arch m (by
          omega : dest.toNat ≤ src.toNat ∨ src.toNat+n.toNat ≤ dest.toNat),hsame]

/-- A move by one byte to the right inside a range. -/
theorem memmove_moves_overlap : memmove true (BitVec.ofNat 8) 0x1001 0x1000 3 =
    (0x1001,copy (BitVec.ofNat 8) 0x1001 0x1000 3) :=
  memmove_moves true (BitVec.ofNat 8) (by decide) (by decide) (by decide)

/-- From address 0 the `memcpy` in C copies nothing. -/
theorem memmove_null : ¬ ∀ arch m dest src n, n.toNat < 2^31 → src.toNat+n.toNat ≤ 2^32 →
    dest.toNat+n.toNat ≤ 2^32 →
    memmove arch m dest src n = (dest,copy m dest.toNat src.toNat n.toNat) := by
  intro h
  have hmoved := congrArg (fun r => r.2 0x1000)
    (h false (fun x => if x = 0 then 1 else 0) 0x1000 0 1 (by decide) (by decide) (by decide))
  revert hmoved
  decide

end
end MemMove
end ScalesOS
