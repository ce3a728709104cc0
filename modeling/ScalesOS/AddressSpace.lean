import ScalesOS.GapSearch
import ScalesOS.PagingMap

/-!
# Address spaces

A well-formed address space has its kernel half in place, so that the windows of
`k_map` never need a new table. The slots of the user half are its page tables and its
pages, each with the frame it refers to.
-/

namespace ScalesOS
namespace Vm

open Entry Pmm

/-- A page table `(i,none)` or a page `(i,some j)` of the user half. -/
abbrev Slot := ℕ × Option ℕ

def slotIndex : Slot → ℕ
  | (i,none) => i*1025
  | (i,some j) => i*1025+1+j

def slotWord (s : Vm) (d : ℕ) : Slot → ℕ
  | (i,none) => s.phys d i
  | (i,some j) => s.phys (s.table d i) j

def slotFrame (s : Vm) (d : ℕ) (a : Slot) : ℕ := page (s.slotWord d a)

def UsedSlot (s : Vm) (d : ℕ) : Slot → Prop
  | (i,none) => i < KERNEL_PD ∧ present (s.phys d i) = true
  | (i,some j) => i < KERNEL_PD ∧ j < 1024 ∧ present (s.phys d i) = true ∧
      present (s.phys (s.table d i) j) = true

def WINDOW_START : ℕ := LOWMEM_START/0x1000
def WINDOW_END : ℕ := LOWMEM_END/0x1000

/-- A directory of a running kernel. The page behind the window area stays unmapped. -/
structure SpaceOk (s : Vm) (d : ℕ) : Prop where
  dirOk : s.DirOk d
  user_small : ∀ i < KERNEL_PD, present (s.phys d i) = true → large (s.phys d i) = false
  kernel_tables : ∀ i, PDE LOWMEM_START ≤ i → i < 1023 → s.IsTable d i
  guard : s.lookup d WINDOW_END = none
  windows : ∀ n, WINDOW_START ≤ n → n < WINDOW_END → s.lookup d n ≠ some 0
  pages_used : ∀ i j, s.UsedSlot d (i,some j) → ¬ s.pmm.IsFree (s.slotFrame d (i,some j))
  pages_apart : ∀ i j, s.UsedSlot d (i,some j) → s.slotFrame d (i,some j) ≠ d ∧
    ∀ i', s.IsTable d i' → s.slotFrame d (i,some j) ≠ s.table d i'

/-- `first_free_address` is a page of the window area, or its end. -/
def WindowStart (s : Vm) (n : ℕ) : Prop :=
  s.firstFreeAddress = n*0x1000 ∧ WINDOW_START ≤ n ∧ n ≤ WINDOW_END

def OneWindow (s : Vm) (d : ℕ) : Prop :=
  ∃ n, s.firstFreeAddress ≤ n*0x1000 ∧ n < WINDOW_END ∧ s.lookup d n = none

def TwoWindows (s : Vm) (d : ℕ) : Prop :=
  ∃ n n', s.firstFreeAddress ≤ n*0x1000 ∧ n < n' ∧ n' < WINDOW_END ∧
    s.lookup d n = none ∧ s.lookup d n' = none

section Windows

variable {s : Vm} {d : ℕ}

theorem SpaceOk.window_table (h : s.SpaceOk d) {n : ℕ} (h1 : WINDOW_START ≤ n)
    (h2 : n < 1023*1024) :
    s.IsTable d (n/1024) := by
  refine h.kernel_tables _ ?_ (by omega)
  simp only [WINDOW_START,LOWMEM_START,PDE] at *
  omega

/-- The search stops at the first page of the window area that is not mapped. -/
theorem virt2phys_window (h : s.SpaceOk s.directory) {n : ℕ} (h1 : WINDOW_START ≤ n)
    (h2 : n ≤ WINDOW_END) :
    s.kMemPagingVirt2phys (n*0x1000) ≠ 0 ↔ s.lookup s.directory n ≠ none := by
  have hlt : n < 1023*1024 := lt_of_le_of_lt h2 (by decide)
  have hv := h.dirOk.virt2phys_eq (n:=n) (o:=0) (by decide) fun _ => (h.window_table h1 hlt).2.2
  rw [Nat.add_zero] at hv
  rw [hv]
  cases hl : s.lookup s.directory n with
  | none => simp
  | some f =>
    have hf : f ≠ 0 := by
      rintro rfl
      rcases Nat.lt_or_ge n WINDOW_END with hn | hn
      · exact h.windows n h1 hn hl
      · rw [show n = WINDOW_END by omega,h.guard] at hl
        cases hl
    simpa using hf

theorem skipMapped_spec (start offset m fuel i : ℕ) (hi : i ≤ m) (hfuel : m-i < fuel)
    (hmapped : ∀ j, i ≤ j → j < m → s.kMemPagingVirt2phys ((start+(j+offset)*0x1000)%W32) ≠ 0)
    (hfree : s.kMemPagingVirt2phys ((start+(m+offset)*0x1000)%W32) = 0) :
    s.skipMapped start offset fuel i = .ok m :=
  GapSearch.skip_eq (fun _ _ => rfl) (not_not.mpr hfree) fuel i hi hfuel hmapped

theorem searchWindow_spec (h : s.SpaceOk s.directory) (fuel : ℕ) {a m : ℕ} (ha : WINDOW_START ≤ a)
    (hend : a+m ≤ WINDOW_END) (hmapped : ∀ i < m, s.lookup s.directory (a+i) ≠ none)
    (hfree : s.lookup s.directory (a+m) = none) :
    s.searchWindow (a*0x1000) 1 (fuel+2) 0 = .ok m := by
  have hlt : WINDOW_END < 0xFF000 := by decide
  have haddr : ∀ i ≤ m, (a*0x1000+(i+0)*0x1000)%W32 = (a+i)*0x1000 := by
    intro i hi
    simp only [W32]
    omega
  have hvirt : ∀ i < m, s.kMemPagingVirt2phys ((a*0x1000+(i+0)*0x1000)%W32) ≠ 0 := by
    intro i hi
    rw [haddr i (by omega)]
    exact (virt2phys_window h (by omega) (by omega)).mpr (hmapped i hi)
  have hzero : s.kMemPagingVirt2phys ((a+m)*0x1000) = 0 := by
    by_contra hc
    exact (virt2phys_window h (by omega) hend).mp hc hfree
  have hrange : List.range 1 = [0] := rfl
  rcases Nat.eq_zero_or_pos m with rfl | hm
  · rw [searchWindow,hrange,List.find?_cons_of_neg (by rw [haddr 0 le_rfl]; simpa using hzero)]
    rfl
  · have hskip := skipMapped_spec (s:=s) (a*0x1000) 0 m 0x100001 0 (by omega) (by omega)
      (fun i _ hi => hvirt i hi) (by rw [haddr m le_rfl]; exact hzero)
    rw [searchWindow,hrange,List.find?_cons_of_pos (by simpa using hvirt 0 hm)]
    simp only [hskip]
    show (if LOWMEM_END ≤ (a*0x1000+m*0x1000)%W32 then pure m
      else s.searchWindow (a*0x1000) 1 (fuel+1) m) = _
    split
    · rfl
    · -- the second round starts on a page that is not mapped
      have haddr' : (a*0x1000+(0+m)*0x1000)%W32 = (a+m)*0x1000 := by simp only [W32]; omega
      rw [searchWindow,hrange,List.find?_cons_of_neg (by rw [haddr']; simpa using hzero)]
      rfl

/-- Page `n` of the window area shows frame `k`. -/
def openWindow (s : Vm) (n k : ℕ) : Vm :=
  { s.setWord (s.table s.directory (n/1024)) (n%1024) (0x1000*k |||
    (PAGE_PRESENT ||| PAGE_WRITABLE))
    with firstFreeAddress := (n+1)*0x1000 }

/-- Mapping one page of the window area to a frame that is marked as in use. -/
theorem mapRegion_window (h : s.SpaceOk s.directory) {n k : ℕ} (h1 : WINDOW_START ≤ n)
    (h2 : n < WINDOW_END) (hnone : s.lookup s.directory n = none) (hk0 : k ≠ 0) (hk : k < 0x100000)
    (halloc : kMemPmmIsAllocated s.pmm (0x1000*k) = true) :
    kMemPagingMapRegion { s with firstFreeAddress := (n+1)*0x1000 } (n*0x1000) (0x1000*k) 1
      (PAGE_PRESENT ||| PAGE_WRITABLE) true = .ok (s.openWindow n k) := by
  have hlt : WINDOW_END < 0xFF000 := by decide
  have ht := h.window_table h1 (by omega)
  set s₁ : Vm := { s with firstFreeAddress := (n+1)*0x1000 } with hs₁
  have hclaim : s₁.claimFrame (0x1000*k) = s₁ := by rw [claimFrame,if_pos halloc]
  have hpd : PDE (n*0x1000) = n/1024 := by rw [PDE]; omega
  have hpt : PTE (n*0x1000) = n%1024 := by rw [PTE]; omega
  have hframe : s₁.ptFrame (n/1024) = s.table s.directory (n/1024) := h.dirOk.ptFrame_eq _
  have hpte : present (s₁.pte (n/1024) (n%1024)) = false := by
    have hl := lookup_of_isTable ht (Nat.mod_lt n (by decide : 0 < 1024))
    rw [show n/1024*1024+n%1024 = n by omega,hnone] at hl
    rw [pte,hframe,show s₁.phys = s.phys from rfl]
    by_contra hc
    rw [Bool.not_eq_false] at hc
    rw [if_pos hc] at hl
    cases hl
  have hmod : 0x1000*k%W32 = 0x1000*k := Nat.mod_eq_of_lt (by simp only [W32]; omega)
  have hmap : s₁.kMemPagingMap (n*0x1000) (0x1000*k) (PAGE_PRESENT ||| PAGE_WRITABLE) =
      .ok (s.openWindow n k) := by
    rw [map_of_present (by rw [hpd]; exact ht.2.1) (by omega),hpd,hpt,hpte,hframe,hmod]
    rfl
  rw [kMemPagingMapRegion,if_pos rfl,if_neg (by omega)]
  show mapContiguous _ 1 _ (0x1000*k%W32) s₁ = _
  rw [hmod,mapContiguous,hclaim,hmap]
  rfl

theorem kMap_spec (h : s.SpaceOk s.directory) {a k : ℕ} (hw : s.WindowStart a) (hk0 : k ≠ 0)
    (hk : k < 0x100000) (halloc : kMemPmmIsAllocated s.pmm (0x1000*k) = true) :
    ∃ n, a ≤ n ∧ n ≤ WINDOW_END ∧ s.lookup s.directory n = none ∧
      (∀ i, a ≤ i → i < n → s.lookup s.directory i ≠ none) ∧
      s.kMap (0x1000*k) 1 (PAGE_PRESENT ||| PAGE_WRITABLE) =
        if n = WINDOW_END then .error (.panic "k_map(): failed to find free address.")
        else .ok (n*0x1000,s.openWindow n k) := by
  obtain ⟨hstart,ha,haend⟩ := hw
  have hlt : WINDOW_END < 0xFF000 := by decide
  have hend : LOWMEM_END = WINDOW_END*0x1000 := by decide
  have hex : ∃ m, s.lookup s.directory (a+m) = none :=
    ⟨WINDOW_END-a,by rw [show a+(WINDOW_END-a) = WINDOW_END by omega]; exact h.guard⟩
  have hfree := Nat.find_spec hex
  have hleast : ∀ i < Nat.find hex, s.lookup s.directory (a+i) ≠ none := fun i hi =>
    Nat.find_min hex hi
  generalize Nat.find hex = m at hfree hleast
  have hme : a+m ≤ WINDOW_END := by
    by_contra hc
    refine hleast (WINDOW_END-a) (by omega) ?_
    rw [show a+(WINDOW_END-a) = WINDOW_END by omega]
    exact h.guard
  have hsearch : s.searchWindow s.firstFreeAddress 1 W32 0 = .ok m :=
    hstart ▸ searchWindow_spec h (W32-2) ha hme hleast hfree
  refine ⟨a+m,by omega,hme,hfree,fun i h1 h2 => ?_,?_⟩
  · rw [show i = a+(i-a) by omega]
    exact hleast _ (by omega)
  · have hsum : (s.firstFreeAddress+(m+1)*0x1000)%W32 = (a+m+1)*0x1000 := by
      rw [hstart]; simp only [W32]; omega
    have hsum' : (s.firstFreeAddress+0x1000*m)%W32 = (a+m)*0x1000 := by
      rw [hstart]; simp only [W32]; omega
    have hnext : ((a+m)*0x1000+1*0x1000)%W32 = (a+m+1)*0x1000 := by simp only [W32]; omega
    have hret : s.kMap (0x1000*k) 1 (PAGE_PRESENT ||| PAGE_WRITABLE) =
        if LOWMEM_END < (a+m+1)*0x1000 then .error (.panic "k_map(): failed to find free address.")
        else (do
          let s' ← kMemPagingMapRegion { s with firstFreeAddress := (a+m+1)*0x1000 } ((a+m)*0x1000)
            (0x1000*k) 1 (PAGE_PRESENT ||| PAGE_WRITABLE) true
          pure ((a+m)*0x1000,s')) := by
      rw [kMap,hsearch]
      simp only [bind,Except.bind,hsum,hsum',hnext]
      split <;> rfl
    rw [hret]
    by_cases hlast : a+m = WINDOW_END
    · rw [if_pos (by omega),if_pos hlast]
    · rw [if_neg (by omega),if_neg hlast,
        mapRegion_window h (by omega) (by omega) hfree hk0 hk halloc]
      rfl

def closeWindow (s : Vm) (n : ℕ) : Vm :=
  { s.setWord (s.table s.directory (n/1024)) (n%1024) 0 with
    firstFreeAddress := if n*0x1000 < s.firstFreeAddress then n*0x1000 else s.firstFreeAddress }

theorem kUnmap_spec (h : s.SpaceOk s.directory) {n : ℕ} (h1 : WINDOW_START ≤ n)
    (h2 : n < WINDOW_END) :
    s.kUnmap (n*0x1000) 1 = s.closeWindow n := by
  have hlt : WINDOW_END < 0xFF000 := by decide
  have hs : LOWMEM_START = WINDOW_START*0x1000 := by decide
  have he : LOWMEM_END = WINDOW_END*0x1000 := by decide
  have ht := h.window_table h1 (by omega)
  have haddr : (n*0x1000+1*0x1000)%W32 = (n+1)*0x1000 := by simp only [W32]; omega
  have haddr' : (n*0x1000+0*0x1000)%W32 = n*0x1000 := by
    rw [Nat.zero_mul,Nat.add_zero]
    exact Nat.mod_eq_of_lt (by simp only [W32]; omega)
  have hpd : PDE (n*0x1000) = n/1024 := by rw [PDE]; omega
  have hpt : PTE (n*0x1000) = n%1024 := by rw [PTE]; omega
  have hun :
      s.kMemPagingUnmap (n*0x1000) = s.setWord (s.table s.directory (n/1024)) (n%1024) 0 := by
    rw [kMemPagingUnmap,hpd,hpt,h.dirOk.ptFrame_eq,if_neg (by simpa [pde] using ht.2.1)]
  rw [kUnmap,if_pos ⟨by omega,by rw [haddr]; omega⟩]
  simp only [kMemPagingUnmapRegion,haddr',hun]
  rfl

end Windows

/-- `x` is neither the directory nor one of its tables. -/
def Foreign (s : Vm) (d x : ℕ) : Prop := x ≠ d ∧ ∀ i, s.IsTable d i → x ≠ s.table d i

theorem DirOk.foreign_of_free {s : Vm} {d x : ℕ} (hd : s.DirOk d) (hx : s.pmm.IsFree x) :
    s.Foreign d x :=
  ⟨fun he => hd.used_dir (he ▸ hx),fun i hi he => hd.used i hi (he ▸ hx)⟩

section Slots

variable {s s' : Vm} {d : ℕ}

structure UserSame (s s' : Vm) (d : ℕ) : Prop where
  dir : s'.phys d = s.phys d
  tables : ∀ i < KERNEL_PD, present (s.phys d i) = true →
    s'.phys (s.table d i) = s.phys (s.table d i)

theorem UserSame.table_eq (h : UserSame s s' d) (i : ℕ) : s'.table d i = s.table d i := by
  rw [table,table,h.dir]

theorem UserSame.used_iff (h : UserSame s s' d) (a : Slot) : s'.UsedSlot d a ↔ s.UsedSlot d a := by
  obtain ⟨i,_ | j⟩ := a
  · simp only [UsedSlot,h.dir]
  · simp only [UsedSlot,h.table_eq,h.dir]
    constructor
    · rintro ⟨hi,hj,hp,hq⟩
      rw [h.tables i hi hp] at hq
      exact ⟨hi,hj,hp,hq⟩
    · rintro ⟨hi,hj,hp,hq⟩
      rw [← h.tables i hi hp] at hq
      exact ⟨hi,hj,hp,hq⟩

theorem UserSame.slotWord_eq (h : UserSame s s' d) {a : Slot} (ha : s.UsedSlot d a) :
    s'.slotWord d a = s.slotWord d a := by
  obtain ⟨i,_ | j⟩ := a
  · simp only [slotWord,h.dir]
  · simp only [slotWord,h.table_eq,h.tables i ha.1 ha.2.2.1]

theorem UserSame.slotFrame_eq (h : UserSame s s' d) {a : Slot} (ha : s.UsedSlot d a) :
    s'.slotFrame d a = s.slotFrame d a := by
  rw [slotFrame,slotFrame,h.slotWord_eq ha]

def Uses (s : Vm) (d k : ℕ) : Prop :=
  k = d ∨ (∃ i, s.IsTable d i ∧ s.table d i = k) ∨ ∃ i j, s.UsedSlot d (i,some j) ∧
    s.slotFrame d (i,some j) = k

theorem SpaceOk.uses_used (h : s.SpaceOk d) {k : ℕ} (hk : s.Uses d k) : ¬ s.pmm.IsFree k := by
  rcases hk with rfl | ⟨i,hi,rfl⟩ | ⟨i,j,ha,rfl⟩
  · exact h.dirOk.used_dir
  · exact h.dirOk.used i hi
  · exact h.pages_used i j ha

theorem SpaceOk.keep (h : s.SpaceOk d) (hu : UserSame s s' d)
    (hused : ∀ k, s.Uses d k → ¬ s'.pmm.IsFree k) (hguard : s'.lookup d WINDOW_END = none)
    (hwin : ∀ n, WINDOW_START ≤ n → n < WINDOW_END → s'.lookup d n ≠ some 0) : s'.SpaceOk d where
  dirOk := by
    refine ⟨by rw [hu.dir]; exact h.dirOk.self,fun i j hi hj he => ?_,fun i hi => ?_,fun i hi => ?_,
      hused d (Or.inl rfl)⟩
    · rw [hu.table_eq,hu.table_eq] at he
      exact h.dirOk.distinct i j ((isTable_congr hu.dir i).mp hi)
        ((isTable_congr hu.dir j).mp hj) he
    · rw [hu.table_eq]
      exact h.dirOk.apart i ((isTable_congr hu.dir i).mp hi)
    · rw [hu.table_eq]
      exact hused _ (Or.inr (Or.inl ⟨i,(isTable_congr hu.dir i).mp hi,rfl⟩))
  user_small := by rw [hu.dir]; exact h.user_small
  kernel_tables i h1 h2 := (isTable_congr hu.dir i).mpr (h.kernel_tables i h1 h2)
  guard := hguard
  windows := hwin
  pages_used i j ha := by
    have ha' := (hu.used_iff _).mp ha
    rw [hu.slotFrame_eq ha']
    exact hused _ (Or.inr (Or.inr ⟨i,j,ha',rfl⟩))
  pages_apart i j ha := by
    have ha' := (hu.used_iff _).mp ha
    rw [hu.slotFrame_eq ha']
    refine ⟨(h.pages_apart i j ha').1,fun i' hi' => ?_⟩
    rw [hu.table_eq]
    exact (h.pages_apart i j ha').2 i' ((isTable_congr hu.dir i').mp hi')

theorem SpaceOk.transfer (h : s.SpaceOk d) (hu : UserSame s s' d)
    (hfree : ∀ k, s'.pmm.IsFree k → s.pmm.IsFree k) (hguard : s'.lookup d WINDOW_END = none)
    (hwin : ∀ n, WINDOW_START ≤ n → n < WINDOW_END → s'.lookup d n ≠ some 0) : s'.SpaceOk d :=
  h.keep hu (fun _ hk hf => h.uses_used hk (hfree _ hf)) hguard hwin

theorem SpaceOk.switch (h : s.SpaceOk d) (e : ℕ) : (s.kMemPagingSetPageDirectory e).SpaceOk d :=
  h.transfer ⟨rfl,fun _ _ _ => rfl⟩ (fun _ hk => hk) h.guard h.windows

theorem SpaceOk.user_table (h : s.SpaceOk d) {i : ℕ} (hi : i < KERNEL_PD)
    (hp : present (s.phys d i) = true) : s.IsTable d i :=
  ⟨lt_trans hi (by decide),hp,h.user_small i hi hp⟩

/-- Tables of the user half and of the kernel half are different frames. -/
theorem SpaceOk.user_ne_kernel (h : s.SpaceOk d) {i j : ℕ} (hi : i < KERNEL_PD)
    (hp : present (s.phys d i) = true) (hj : PDE LOWMEM_START ≤ j) (hj' : j < 1023) :
    s.table d i ≠ s.table d j := by
  intro he
  have := h.dirOk.distinct i j (h.user_table hi hp) (h.kernel_tables j hj hj') he
  have : KERNEL_PD < PDE LOWMEM_START := by decide
  omega

end Slots

end Vm
end ScalesOS
