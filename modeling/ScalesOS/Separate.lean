import ScalesOS.Siblings
import ScalesOS.BlockRelease

/-!
# Directories side by side

Two directories are separate if nothing in the user half of the first is used by the
second. Then whatever happens to the user half of the first leaves the second as it is.
-/

namespace ScalesOS
namespace Vm

open Entry Pmm

/-- `f` holds a table or a page of the user half of `d`. -/
def UserFrame (s : Vm) (d f : ℕ) : Prop := ∃ a, s.UsedSlot d a ∧ s.slotFrame d a = f

structure Separate (s : Vm) (c d : ℕ) : Prop where
  foreign : ∀ f, s.UserFrame c f → s.Foreign d f
  pages : ∀ f, s.UserFrame c f → ∀ i j, s.UsedSlot d (i,some j) → s.slotFrame d (i,some j) ≠ f

section Transport

variable {s s' : Vm} {c d : ℕ}

theorem UserSame.userFrame_iff (h : UserSame s s' d) (f : ℕ) : s'.UserFrame d f ↔
    s.UserFrame d f := by
  constructor
  · rintro ⟨a,ha,rfl⟩
    have ha' := (h.used_iff a).mp ha
    exact ⟨a,ha',(h.slotFrame_eq ha').symm⟩
  · rintro ⟨a,ha,rfl⟩
    exact ⟨a,(h.used_iff a).mpr ha,h.slotFrame_eq ha⟩

theorem UserSame.trans {s'' : Vm} (h : UserSame s s' d) (h' : UserSame s' s'' d) :
    UserSame s s'' d where
  dir := h'.dir.trans h.dir
  tables i hi hp := by
    rw [← h.table_eq,h'.tables i hi (by rw [h.dir]; exact hp),h.table_eq,h.tables i hi hp]

/-- Separation depends on the user half of the first and on the tables of the second. -/
theorem Separate.transfer (h : s.Separate c d) (hc : ∀ f, s'.UserFrame c f → s.UserFrame c f)
    (hd : UserSame s s' d) : s'.Separate c d where
  foreign f hf := by
    obtain ⟨h1,h2⟩ := h.foreign f (hc f hf)
    refine ⟨h1,fun i hi => ?_⟩
    rw [hd.table_eq]
    exact h2 i ((isTable_congr hd.dir i).mp hi)
  pages f hf i j ha := by
    have ha' := (hd.used_iff _).mp ha
    rw [hd.slotFrame_eq ha']
    exact h.pages f (hc f hf) i j ha'

theorem Separate.of_userSame (h : s.Separate c d) (hc : UserSame s s' c) (hd : UserSame s s' d) :
    s'.Separate c d := h.transfer (fun f => (hc.userFrame_iff f).mp) hd

theorem SharedKernel.congr (h : s.SharedKernel c d) (hc : s'.phys c = s.phys c)
    (hd : s'.phys d = s.phys d) : s'.SharedKernel c d := fun i h1 h2 => by
  rw [hc,hd,h i h1 h2]

theorem SpaceOk.userFrame_used (h : s.SpaceOk d) {f : ℕ} (hf : s.UserFrame d f) :
    ¬ s.pmm.IsFree f := by
  obtain ⟨⟨i,_ | j⟩,ha,rfl⟩ := hf
  · exact h.dirOk.used i (h.user_table ha.1 ha.2)
  · exact h.pages_used i j ha

/-- Frames that are free in `s` cannot be in use by a directory of `s`. -/
theorem SpaceOk.foreign_free (h : s.SpaceOk d) {f : ℕ} (hf : s.pmm.IsFree f) :
    s.Foreign d f ∧ ∀ i j, s.UsedSlot d (i,some j) → s.slotFrame d (i,some j) ≠ f :=
  ⟨h.dirOk.foreign_of_free hf,fun i j ha he => h.pages_used i j ha (he ▸ hf)⟩

end Transport

section Clone

variable {s s' : Vm} {c d e L : ℕ}

theorem SharedKernel.kernelTable_iff (h : s.SharedKernel d e) (f : ℕ) :
    s.KernelTable d f ↔ s.KernelTable e f := by
  constructor
  · rintro ⟨i,h1,h2,rfl⟩; exact ⟨i,h1,h2,h.table_eq h1 h2⟩
  · rintro ⟨i,h1,h2,rfl⟩; exact ⟨i,h1,h2,(h.table_eq h1 h2).symm⟩

/-- Another directory with the same kernel half does not notice the clone of `d`. -/
theorem Cloned.other (hc : Cloned s s' d c L) (he : s.SpaceOk e) (hshare : s.SharedKernel d e)
    (hp : s.HeapPage e c) : UserSame s s' e where
  dir := hc.others e hp.foreign.1.symm (fun _ ha => hc.ne_used ha he.dirOk.used_dir)
    ((not_congr (hshare.kernelTable_iff e)).mpr he.not_kernel_dir)
  tables i hi hpr := hc.others _ (hp.foreign.2 i (he.user_table hi hpr)).symm
    (fun _ ha => hc.ne_used ha (he.dirOk.used i (he.user_table hi hpr)))
    ((not_congr (hshare.kernelTable_iff _)).mpr (he.not_kernel_table hi hpr))

theorem Cloned.noStale (hc : Cloned s s' d c L) : s'.NoStale c := by
  intro i j hi hj hno
  refine hc.empty i j ((hc.used_iff _).mp hi) (fun ha => ?_) hj
  have := ((hc.used_iff _).mpr ha).2.2.2
  rw [hno] at this
  cases this

theorem Cloned.shared_other (hc : Cloned s s' d c L) (he : s.SpaceOk e)
    (hshare : s.SharedKernel d e) (hp : s.HeapPage e c) : s'.SharedKernel d e :=
  hshare.congr hc.source.dir (hc.other he hshare hp).dir

theorem Cloned.space_other (hc : Cloned s s' d c L) (he : s.SpaceOk e) (hshare : s.SharedKernel d e)
    (hp : s.HeapPage e c) : s'.SpaceOk e := by
  have hview : ∀ n, WINDOW_START ≤ n → n < 1023*1024 → s'.lookup e n = s.lookup e n := by
    intro n h1 h2
    obtain ⟨h3,h4⟩ := window_page h1 h2
    rw [(hc.shared_other he hshare hp).lookup_eq h3 h4,hc.view n h1 h2,hshare.lookup_eq h3 h4]
  refine he.transfer (hc.other he hshare hp) (fun k hk =>
    ((hc.free_iff k).mp hk).1) ?_ fun n h1 h2 => ?_
  · rw [hview _ (by decide) (by decide)]
    exact he.guard
  · rw [hview n h1 (window_lt h2.le)]
    exact he.windows n h1 h2

theorem Cloned.separate_copy (hc : Cloned s s' d c L) (he : s.SpaceOk e)
    (hshare : s.SharedKernel d e) (hp : s.HeapPage e c) : s'.Separate c e := by
  have hu := hc.other he hshare hp
  have hfree : ∀ f, s'.UserFrame c f → s.pmm.IsFree f := by
    rintro f ⟨a,ha,rfl⟩
    exact (hc.fresh a ((hc.used_iff a).mp ha)).1
  refine ⟨fun f hf => ?_,fun f hf i j ha => ?_⟩
  · obtain ⟨⟨h1,h2⟩,-⟩ := he.foreign_free (hfree f hf)
    refine ⟨h1,fun i hi => ?_⟩
    rw [hu.table_eq]
    exact h2 i ((isTable_congr hu.dir i).mp hi)
  · have ha' := (hu.used_iff _).mp ha
    rw [hu.slotFrame_eq ha']
    exact (he.foreign_free (hfree f hf)).2 i j ha'

theorem Cloned.separate_other (hc : Cloned s s' d c L) (he : s.SpaceOk e)
    (hshare : s.SharedKernel d e) (hp : s.HeapPage e c) : s'.Separate e c := by
  have hu := hc.other he hshare hp
  have hold : ∀ f, s'.UserFrame e f → s.UserFrame e f := fun f => (hu.userFrame_iff f).mp
  refine ⟨fun f hf => ⟨?_,fun i hi => ?_⟩,fun f hf i j ha => ?_⟩
  · obtain ⟨⟨i,_ | j⟩,ha,rfl⟩ := hold f hf
    · exact (hp.foreign.2 i (he.user_table ha.1 ha.2)).symm
    · exact hp.pages i j ha
  · have hf' := hold f hf
    rcases hc.table_cases hi with ⟨ha,ht⟩ | ⟨hK,hit,ht⟩ <;> rw [ht]
    · exact (hc.ne_used ha (he.userFrame_used hf')).symm
    · -- a kernel table of the copy is one of `e`
      have hit' : s.IsTable e i := by
        obtain ⟨h1,h2,h3⟩ := hit
        rw [hshare i hK h1] at h2 h3
        exact ⟨h1,h2,h3⟩
      rw [show s.table d i = s.table e i by rw [table,table,hshare i hK hit.1]]
      obtain ⟨⟨i',_ | j'⟩,ha,rfl⟩ := hf'
      · intro heq
        have := he.dirOk.distinct _ _ (he.user_table ha.1 ha.2) hit' heq
        have := ha.1
        omega
      · exact (he.pages_apart i' j' ha).2 i hit'
  · exact hc.ne_used ((hc.used_iff _).mp ha) (he.userFrame_used (hold f hf))

end Clone

section Unmapping

variable {u t : Vm} {c d : ℕ} {gone freed : ℕ → Prop}

theorem Unmapping.used_table (hu : u.SpaceOk c) (h : Unmapping u t c gone freed) (i : ℕ) :
    t.UsedSlot c (i,none) ↔ u.UsedSlot c (i,none) := by
  simp only [UsedSlot,h.dir_eq hu]

theorem Unmapping.used_page (hu : u.SpaceOk c) (h : Unmapping u t c gone freed) (n : ℕ) :
    t.UsedSlot c (pageSlot n) ↔ u.UsedSlot c (pageSlot n) ∧ ¬ gone n := by
  have hj : n%1024 < 1024 := Nat.mod_lt n (by decide)
  have hn : n/1024*1024+n%1024 = n := by omega
  simp only [pageSlot,UsedSlot,h.dir_eq hu,h.table_eq hu]
  constructor
  · rintro ⟨h1,h2,h3,h4⟩
    by_cases hg : gone n
    · rw [h.erased _ _ ⟨h1,h3⟩ hj (by rwa [hn])] at h4
      cases h4
    · rw [h.kept _ _ ⟨h1,h3⟩ hj (by rwa [hn])] at h4
      exact ⟨⟨h1,h2,h3,h4⟩,hg⟩
  · rintro ⟨⟨h1,h2,h3,h4⟩,hg⟩
    rw [← h.kept _ _ ⟨h1,h3⟩ hj (by rwa [hn])] at h4
    exact ⟨h1,h2,h3,h4⟩

theorem pageSlot_of_used {s : Vm} {i j : ℕ} (ha : s.UsedSlot d (i,some j)) :
    pageSlot (i*1024+j) = (i,some j) := pageSlot_eq ha.2.1

theorem Unmapping.used_sub (hu : u.SpaceOk c) (h : Unmapping u t c gone freed) {a : Slot}
    (ha : t.UsedSlot c a) : u.UsedSlot c a := by
  obtain ⟨i,_ | j⟩ := a
  · exact (h.used_table hu i).mp ha
  · have hs := pageSlot_of_used ha
    rw [← hs] at ha ⊢
    exact ((h.used_page hu _).mp ha).1

theorem Unmapping.slotFrame_eq (hu : u.SpaceOk c) (h : Unmapping u t c gone freed) {a : Slot}
    (ha : t.UsedSlot c a) : t.slotFrame c a = u.slotFrame c a := by
  obtain ⟨i,_ | j⟩ := a
  · rw [slotFrame,slotFrame,slotWord,slotWord,h.dir_eq hu]
  · have hg : ¬ gone (i*1024+j) := by
      have hs := pageSlot_of_used ha
      rw [← hs] at ha
      exact ((h.used_page hu _).mp ha).2
    have hsub := h.used_sub hu ha
    rw [slotFrame,slotFrame,slotWord,slotWord,h.table_eq hu,
      h.kept i j ⟨hsub.1,hsub.2.2.1⟩ hsub.2.1 hg]

theorem Unmapping.noStale (hu : u.SpaceOk c) (h : Unmapping u t c gone freed) (hn : u.NoStale c) :
    t.NoStale c := by
  intro i j hi hj hp
  have hi' := (h.used_table hu i).mp hi
  rw [h.table_eq hu] at hp ⊢
  by_cases hg : gone (i*1024+j)
  · exact h.erased i j hi' hj hg
  · rw [h.kept i j hi' hj hg] at hp ⊢
    exact hn i j hi' hj hp

theorem Unmapping.userFrame_sub (hu : u.SpaceOk c) (h : Unmapping u t c gone freed) {f : ℕ}
    (hf : t.UserFrame c f) : u.UserFrame c f := by
  obtain ⟨a,ha,rfl⟩ := hf
  exact ⟨a,h.used_sub hu ha,(h.slotFrame_eq hu ha).symm⟩

theorem Unmapping.phys_eq (h : Unmapping u t c gone freed) {f : ℕ}
    (hf : ∀ i, u.UsedSlot c (i,none) → u.table c i ≠ f) : t.phys f = u.phys f :=
  h.frames f fun i hi => (hf i hi).symm

theorem Separate.table_ne (hsep : u.Separate c d) {i : ℕ} (hi : u.UsedSlot c (i,none)) :
    u.Foreign d (u.table c i) := hsep.foreign _ ⟨(i,none),hi,rfl⟩

theorem Unmapping.other (h : Unmapping u t c gone freed) (hd : u.SpaceOk d)
    (hsep : u.Separate c d) :
    UserSame u t d where
  dir := h.phys_eq fun _ hi => (hsep.table_ne hi).1
  tables i hi hp := h.phys_eq fun _ hj => (hsep.table_ne hj).2 i (hd.user_table hi hp)

theorem Unmapping.other_lookup (h : Unmapping u t c gone freed) (hd : u.SpaceOk d)
    (hsep : u.Separate c d) {n : ℕ} (hn : n < 1023*1024) : t.lookup d n = u.lookup d n :=
  lookup_congr hn (h.other hd hsep).dir fun ht => h.phys_eq fun _ hj => (hsep.table_ne hj).2 _ ht

theorem Unmapping.freed_frame (h : Unmapping u t c gone freed) {l : ℕ} (hl : t.pmm.IsFree l)
    (hno : ¬ u.UserFrame c l) : u.pmm.IsFree l := by
  rcases (h.free_iff l).mp hl with hl | ⟨n,ha,-,-,rfl⟩
  · exact hl
  · exact absurd ⟨_,ha,rfl⟩ hno

theorem Separate.not_uses (hsep : u.Separate c d) {f : ℕ} (hc : u.UserFrame c f) :
    ¬ u.Uses d f := by
  rintro (rfl | ⟨i,hi,rfl⟩ | ⟨i,j,ha,rfl⟩)
  · exact (hsep.foreign _ hc).1 rfl
  · exact (hsep.foreign _ hc).2 i hi rfl
  · exact hsep.pages _ hc i j ha rfl

theorem Unmapping.other_space (h : Unmapping u t c gone freed) (hd : u.SpaceOk d)
    (hsep : u.Separate c d) : t.SpaceOk d := by
  refine hd.keep (h.other hd hsep) (fun k hk hf => ?_) ?_ fun n h1 h2 => ?_
  · exact hd.uses_used hk (h.freed_frame hf fun hc => hsep.not_uses hc hk)
  · rw [h.other_lookup hd hsep (by decide)]
    exact hd.guard
  · rw [h.other_lookup hd hsep (window_lt h2.le)]
    exact hd.windows n h1 h2

theorem Unmapping.own_lookup (hu : u.SpaceOk c) (h : Unmapping u t c gone freed) {n : ℕ}
    (h1 : WINDOW_START ≤ n) (h2 : n < 1023*1024) : t.lookup c n = u.lookup c n := by
  have hK : KERNEL_PD < PDE LOWMEM_START := by decide
  refine lookup_congr h2 (h.dir_eq hu) fun ht => h.phys_eq fun i hi he => ?_
  have := hu.dirOk.distinct _ _ (hu.user_table hi.1 hi.2) ht he
  have := (window_page h1 h2).1
  have := hi.1
  omega

/-- The directory itself, if the frames that are freed back no other page. -/
theorem Unmapping.own_space (hu : u.SpaceOk c) (h : Unmapping u t c gone freed)
    (hsub : ∀ n, freed n → gone n)
    (hinj : ∀ n a, u.UsedSlot c (pageSlot n) → freed n → u.UsedSlot c a →
      u.slotFrame c (pageSlot n) = u.slotFrame c a → pageSlot n = a) : t.SpaceOk c := by
  have hdir := h.dir_eq hu
  have htable := h.table_eq hu
  have hold : ∀ f, t.pmm.IsFree f → (∀ n, u.UsedSlot c (pageSlot n) → freed n →
      u.slotFrame c (pageSlot n) ≠ f) → u.pmm.IsFree f := by
    intro f hf hno
    rcases (h.free_iff f).mp hf with hf | ⟨n,ha,hfr,-,he⟩
    · exact hf
    · exact absurd he (hno n ha hfr)
  refine ⟨⟨by rw [hdir]; exact hu.dirOk.self,fun i j hi hj he => ?_,fun i hi => ?_,
    fun i hi hf => ?_,fun hf => ?_⟩,by rw [hdir]; exact hu.user_small,
    fun i h1 h2 => (isTable_congr hdir i).mpr (hu.kernel_tables i h1 h2),?_,fun n h1 h2 => ?_,
    fun i j ha hf => ?_,fun i j ha => ?_⟩
  · rw [htable,htable] at he
    exact hu.dirOk.distinct i j ((isTable_congr hdir i).mp hi) ((isTable_congr hdir j).mp hj) he
  · rw [htable]
    exact hu.dirOk.apart i ((isTable_congr hdir i).mp hi)
  · have hi' := (isTable_congr hdir i).mp hi
    rw [htable] at hf
    refine hu.dirOk.used i hi' (hold _ hf fun n ha _ => ?_)
    exact (hu.pages_apart _ _ ha).2 i hi'
  · exact hu.dirOk.used_dir (hold _ hf fun n ha _ => (hu.pages_apart _ _ ha).1)
  · rw [h.own_lookup hu (by decide) (by decide)]
    exact hu.guard
  · rw [h.own_lookup hu h1 (window_lt h2.le)]
    exact hu.windows n h1 h2
  · have ha' := h.used_sub hu ha
    have hs := pageSlot_of_used ha
    rw [h.slotFrame_eq hu ha] at hf
    refine hu.pages_used i j ha' (hold _ hf fun n hn hfr he => ?_)
    -- a page whose frame has been freed is gone
    have heq := hinj n _ hn hfr ha' he
    rw [← heq] at ha
    exact ((h.used_page hu n).mp ha).2 (hsub n hfr)
  · have ha' := h.used_sub hu ha
    rw [h.slotFrame_eq hu ha]
    refine ⟨(hu.pages_apart i j ha').1,fun i' hi' => ?_⟩
    rw [htable]
    exact (hu.pages_apart i j ha').2 i' ((isTable_congr hdir i').mp hi')

end Unmapping

end Vm
end ScalesOS
