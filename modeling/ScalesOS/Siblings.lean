import ScalesOS.CloneRelease

/-!
# A directory and its copy

After a clone the copy is a directory in its own right, with the same kernel half as its
source. Its frames come in the order of the slots, so the number of free frames below
2 GiB decides how far the copy stays below.
-/

namespace ScalesOS
namespace Vm

open Entry Pmm

section Kernel

variable {s : Vm} {d d' : ℕ}

theorem SharedKernel.lookup_eq (h : s.SharedKernel d d') {n : ℕ} (h1 : KERNEL_PD ≤ n/1024)
    (h2 : n/1024 < 1023) : s.lookup d' n = s.lookup d n := by
  rw [lookup,lookup,table,table,h _ h1 h2]

theorem SharedKernel.symm (h : s.SharedKernel d d') : s.SharedKernel d' d :=
  fun i h1 h2 => (h i h1 h2).symm

theorem window_page {n : ℕ} (h1 : WINDOW_START ≤ n) (h2 : n < 1023*1024) :
    KERNEL_PD ≤ n/1024 ∧ n/1024 < 1023 := by
  have hK : KERNEL_PD = 768 := rfl
  have hW : WINDOW_START = 0xC1000 := by decide
  omega

end Kernel

theorem large_mod {w w' : ℕ} (h : w%0x1000 = w'%0x1000) : large w = large w' := by
  rw [large,large]
  congr 1
  omega

section Copy

variable {s s' : Vm} {d c L : ℕ}

theorem Cloned.spaceOk_source (hc : Cloned s s' d c L) (hs : s.SpaceOk d) : s'.SpaceOk d := by
  refine hs.transfer hc.source (fun k hk => ((hc.free_iff k).mp hk).1) ?_ fun n h1 h2 => ?_
  · rw [hc.view _ (by decide) (by decide)]
    exact hs.guard
  · rw [hc.view n h1 (window_lt h2.le)]
    exact hs.windows n h1 h2

theorem Cloned.shared (hc : Cloned s s' d c L) : s'.SharedKernel d c := fun i h1 h2 => by
  rw [hc.kernel i h1 h2,hc.source.dir]

/-- A table of the copy is one of its own frames or a kernel table of the source. -/
theorem Cloned.table_cases (hc : Cloned s s' d c L) {i : ℕ} (hi : s'.IsTable c i) :
    (s.UsedSlot d (i,none) ∧ s'.table c i = s'.slotFrame c (i,none)) ∨
      (KERNEL_PD ≤ i ∧ s.IsTable d i ∧ s'.table c i = s.table d i) := by
  rcases Nat.lt_or_ge i KERNEL_PD with h | h
  · exact .inl ⟨(hc.used_iff (i,none)).mp ⟨h,hi.2.1⟩,rfl⟩
  · obtain ⟨h1,h2,h3⟩ := hi
    rw [hc.kernel i h h1] at h2 h3
    exact .inr ⟨h,⟨h1,h2,h3⟩,by rw [table,table,hc.kernel i h h1]⟩

theorem Cloned.not_free (hc : Cloned s s' d c L) {a : Slot} (ha : s.UsedSlot d a) :
    ¬ s'.pmm.IsFree (s'.slotFrame c a) := fun hf => ((hc.free_iff _).mp hf).2 ⟨a,ha,rfl⟩

/-- The frames of the copy were free, so they are none that the source has in use. -/
theorem Cloned.ne_used (hc : Cloned s s' d c L) {a : Slot} (ha : s.UsedSlot d a) {f : ℕ}
    (hf : ¬ s.pmm.IsFree f) : s'.slotFrame c a ≠ f := fun he => hf (he ▸ (hc.fresh a ha).1)

theorem Cloned.dirOk_copy (hc : Cloned s s' d c L) (hs : s.SpaceOk d) (hp : s.HeapPage d c) :
    s'.DirOk c where
  self := hc.self
  distinct i j hi hj he := by
    rcases hc.table_cases hi with ⟨ha,hti⟩ | ⟨-,ha,hti⟩ <;>
      rcases hc.table_cases hj with ⟨hb,htj⟩ | ⟨-,hb,htj⟩ <;> rw [hti,htj] at he
    · exact congrArg Prod.fst (hc.inj _ _ ha hb he)
    · exact absurd he (hc.ne_used ha (hs.dirOk.used j hb))
    · exact absurd he.symm (hc.ne_used hb (hs.dirOk.used i ha))
    · exact hs.dirOk.distinct i j ha hb he
  apart i hi := by
    rcases hc.table_cases hi with ⟨ha,ht⟩ | ⟨-,ha,ht⟩ <;> rw [ht]
    · exact hc.ne_used ha hp.used
    · exact (hp.foreign.2 i ha).symm
  used i hi hf := by
    rcases hc.table_cases hi with ⟨ha,ht⟩ | ⟨-,ha,ht⟩ <;> rw [ht] at hf
    · exact hc.not_free ha hf
    · exact hs.dirOk.used i ha ((hc.free_iff _).mp hf).1
  used_dir hf := hp.used ((hc.free_iff _).mp hf).1

theorem Cloned.spaceOk_copy (hc : Cloned s s' d c L) (hs : s.SpaceOk d) (hp : s.HeapPage d c) :
    s'.SpaceOk c where
  dirOk := hc.dirOk_copy hs hp
  user_small i hi hpr := by
    have ha := (hc.used_iff (i,none)).mp ⟨hi,hpr⟩
    rw [show s'.phys c i = s'.slotWord c (i,none) from rfl,large_mod (hc.flags _ ha)]
    exact hs.user_small i hi ha.2
  kernel_tables i h1 h2 := by
    have hK : KERNEL_PD ≤ i := le_trans (by decide) h1
    obtain ⟨-,hpr,hla⟩ := hs.kernel_tables i h1 h2
    rw [← hc.kernel i hK h2] at hpr hla
    exact ⟨h2,hpr,hla⟩
  guard := by
    obtain ⟨h1,h2⟩ := window_page (n:=WINDOW_END) (by decide) (by decide)
    rw [hc.shared.lookup_eq h1 h2]
    exact (hc.spaceOk_source hs).guard
  windows n h1 h2 := by
    obtain ⟨h3,h4⟩ := window_page h1 (window_lt h2.le)
    rw [hc.shared.lookup_eq h3 h4]
    exact (hc.spaceOk_source hs).windows n h1 h2
  pages_used i j ha := hc.not_free ((hc.used_iff _).mp ha)
  pages_apart i j ha := by
    have ha' := (hc.used_iff _).mp ha
    refine ⟨hc.ne_used ha' hp.used,fun i' hi' => ?_⟩
    rcases hc.table_cases hi' with ⟨hb,ht⟩ | ⟨-,hb,ht⟩ <;> rw [ht]
    · intro he
      have := hc.inj _ _ ha' hb he
      simp at this
    · exact hc.ne_used ha' (hs.dirOk.used i' hb)

end Copy

theorem slotIndex_inj {s : Vm} {d : ℕ} {a a' : Slot} (ha : s.UsedSlot d a) (ha' : s.UsedSlot d a')
    (he : slotIndex a = slotIndex a') : a = a' := by
  obtain ⟨i,_ | j⟩ := a <;> obtain ⟨i',_ | j'⟩ := a' <;> simp only [slotIndex] at he
  · simp only [Prod.mk.injEq,and_true]
    omega
  · have := ha'.2.1
    omega
  · have := ha.2.1
    omega
  · have := ha.2.1
    have := ha'.2.1
    simp only [Prod.mk.injEq,Option.some.injEq]
    omega

/-- The number of slots up to `a`: that many frames a clone takes until it has copied `a`. -/
def slotRank (s : Vm) (d : ℕ) (a : Slot) : ℕ :=
  ((s.usedSlots d).filter fun a' => slotIndex a' ≤ slotIndex a).card

section Rank

variable {s s' : Vm} {d c L : ℕ}

theorem Cloned.frame_lt_iff (hc : Cloned s s' d c L) {a a' : Slot} (ha : s.UsedSlot d a)
    (ha' : s.UsedSlot d a') :
    s'.slotFrame c a < s'.slotFrame c a' ↔ slotIndex a < slotIndex a' := by
  refine ⟨fun h => ?_,hc.ordered a a' ha ha'⟩
  rcases lt_trichotomy (slotIndex a) (slotIndex a') with hlt | heq | hgt
  · exact hlt
  · rw [slotIndex_inj ha ha' heq] at h
    exact absurd h (lt_irrefl _)
  · exact absurd (hc.ordered a' a ha' ha hgt) (by omega)

theorem Cloned.low_iff (hc : Cloned s s' d c L) {a : Slot} (ha : s.UsedSlot d a) :
    s'.slotFrame c a < 0x80000 ↔ s.slotRank d a ≤ s.pmm.lowFree.card := by
  constructor
  · intro hlow
    refine Finset.card_le_card_of_injOn (s'.slotFrame c) (fun a' ha' => ?_) fun a₁ h₁ a₂ h₂ he => ?_
    · obtain ⟨hu,hle⟩ := Finset.mem_filter.mp ha'
      have hu := mem_usedSlots.mp hu
      have hnot := (not_congr (hc.frame_lt_iff ha hu)).mpr (by omega)
      exact mem_lowFree.mpr ⟨by omega,(hc.fresh a' hu).1⟩
    · exact hc.inj a₁ a₂ (mem_usedSlots.mp (Finset.mem_filter.mp h₁).1)
        (mem_usedSlots.mp (Finset.mem_filter.mp h₂).1) he
  · intro hrank
    by_contra hhigh
    -- all low frames went to slots before `a`
    have hsub : s.pmm.lowFree ⊆
        (((s.usedSlots d).filter fun a' => slotIndex a' ≤ slotIndex a).erase a).image
        (s'.slotFrame c) := by
      intro l hl
      obtain ⟨hlt,hfree⟩ := mem_lowFree.mp hl
      have htaken : ¬ s'.pmm.IsFree l := fun hf => by
        have := hc.lowest a ha l hf
        omega
      rw [hc.free_iff l,not_and,not_not] at htaken
      obtain ⟨a',ha',rfl⟩ := htaken hfree
      have hidx := (hc.frame_lt_iff ha' ha).mp (by omega)
      refine Finset.mem_image.mpr ⟨a',Finset.mem_erase.mpr ⟨?_,?_⟩,rfl⟩
      · rintro rfl
        exact lt_irrefl _ hidx
      · exact Finset.mem_filter.mpr ⟨mem_usedSlots.mpr ha',hidx.le⟩
    have hmem : a ∈ (s.usedSlots d).filter fun a' => slotIndex a' ≤ slotIndex a :=
      Finset.mem_filter.mpr ⟨mem_usedSlots.mpr ha,le_rfl⟩
    have h1 := (Finset.card_le_card hsub).trans Finset.card_image_le
    rw [Finset.card_erase_of_mem hmem] at h1
    have h2 := Finset.card_pos.mpr ⟨a,hmem⟩
    rw [slotRank] at hrank
    omega

end Rank

end Vm
end ScalesOS
