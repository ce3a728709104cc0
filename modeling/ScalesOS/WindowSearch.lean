import ScalesOS.AddressSpace
import ScalesOS.FrameMarking
import ScalesOS.GapSearch

/-! The search of `k_map` for unmapped pages. The offset at which a round goes on is counted from
the last offset, but stored as if it were counted from `first_free_address`: only the first round
arrives where it should. -/
namespace ScalesOS
namespace Vm

open Entry Pmm GapSearch

/-- Page `j` from `start` on is mapped. -/
def MappedFrom (s : Vm) (start j : ℕ) : Prop := s.kMemPagingVirt2phys ((start+j*0x1000)%W32) ≠ 0

/-- The first round ends the search: it arrives at a place before the end of the address space
where the window is free, or at the end of the window area. -/
def SearchSettles (s : Vm) (size : ℕ) : Prop :=
  ∃ o, FirstGap (s.MappedFrom s.firstFreeAddress) (s.MappedFrom s.firstFreeAddress) size o ∧
    s.firstFreeAddress+o*0x1000 < W32 ∧
    (LOWMEM_END ≤ s.firstFreeAddress+o*0x1000 ∨ ∀ i < size, ¬s.MappedFrom s.firstFreeAddress (i+o))

/-- What `k_map` is for. The first part is that the search comes to an end. -/
def FindsWindow (s : Vm) (frame size flags : ℕ) : Prop :=
  (∃ o, s.searchWindow s.firstFreeAddress size W32 0 = .ok o) ∧
    ∀ a s', s.kMap frame size flags = .ok (a,s') → LOWMEM_START ≤ a ∧ a+size*0x1000 ≤ LOWMEM_END ∧
      ∀ j < size, s.lookup s.directory (a/0x1000+j) = none

/-- The kernel half is in place, and `first_free_address` lies in the window area. -/
structure WindowsOk (s : Vm) : Prop where
  dirOk : s.DirOk s.directory
  kernel_tables : ∀ i, PDE LOWMEM_START ≤ i → i < 1023 → s.IsTable s.directory i
  recursive : present (s.pde 1023) = true ∧ large (s.pde 1023) = false
  directory_ne : s.directory ≠ 0
  first : LOWMEM_START ≤ s.firstFreeAddress ∧ s.firstFreeAddress ≤ LOWMEM_END

/-- Any calls of `k_map` and `k_unmap`. -/
inductive WindowCall : Vm → Vm → Prop
  | map {s s' : Vm} {frame size flags a : ℕ} (h : s.kMap frame size flags = .ok (a,s')) :
      WindowCall s s'
  | unmap (s : Vm) (addr size : ℕ) : WindowCall s (s.kUnmap addr size)

/-- Calls whose search is over after the first round, and that do not unmap a range over the end
of the address space. -/
inductive SettledCall : Vm → Vm → Prop
  | map {s s' : Vm} {frame size flags a : ℕ} (hsettles : s.SearchSettles size)
      (h : s.kMap frame size flags = .ok (a,s')) : SettledCall s s'
  | unmap (s : Vm) (addr size : ℕ) (h : addr < LOWMEM_START ∨ addr+size*0x1000 < W32) :
      SettledCall s (s.kUnmap addr size)

variable {s s' : Vm}

theorem searchWindow_settled {start size o : ℕ}
    (hgap : FirstGap (s.MappedFrom start) (s.MappedFrom start) size o) (hlow : start+o*0x1000 < W32)
    (hend : LOWMEM_END ≤ start+o*0x1000 ∨ ∀ i < size, ¬s.MappedFrom start (i+o)) (fuel : ℕ) :
    s.searchWindow start size (fuel+2) 0 = .ok o := by
  have hlast : o < 0x100000 := by simp only [W32] at hlow; omega
  have hround :
    FirstGap (fun i => decide (s.kMemPagingVirt2phys ((start+(i+0)*0x1000)%W32) ≠ 0) = true)
      (s.MappedFrom start) size o := by
    simp only [decide_eq_true_eq]
    exact hgap
  rcases firstGap_find hround with ⟨rfl,hnone⟩ | ⟨i,hsome,hio,hskip,hgap⟩
  · rw [searchWindow,hnone]
    rfl
  · have hsecond := skipMapped_spec start 0 o 0x100001 i hio (by omega) hskip (not_not.mp hgap)
    rw [searchWindow,hsome]
    simp only [hsecond,bind,Except.bind,Nat.mod_eq_of_lt hlow]
    split
    · rfl
    · -- the window at `o` is free
      have hfree := hend.resolve_left ‹_›
      have hnone :
          (List.range size).find? (fun i =>
            decide (s.kMemPagingVirt2phys ((start+(i+o)*0x1000)%W32) ≠ 0)) = none :=
        List.find?_range_eq_none.mpr fun i hi => by simpa [MappedFrom] using hfree i hi
      rw [searchWindow,hnone]
      rfl

theorem window_slot {v : ℕ} (h1 : LOWMEM_START ≤ v) (h2 : v < USABLE_MEMORY_END) :
    PDE LOWMEM_START ≤ PDE v ∧ PDE v < 1023 := by
  simp only [LOWMEM_START,USABLE_MEMORY_END,PDE] at *
  omega

/-- The states differ in the entries of some pages and in what the allocator took. -/
structure Rewrites (s s' : Vm) (pages : ℕ → Prop) : Prop where
  directory_eq : s'.directory = s.directory
  dir_eq : s'.phys s.directory = s.phys s.directory
  free : ∀ k, s'.pmm.IsFree k → s.pmm.IsFree k
  first_eq : s'.firstFreeAddress = s.firstFreeAddress
  heap_eq : s'.heapEnd = s.heapEnd
  lookup_eq : ∀ n < 1023*1024, ¬pages n → s'.lookup s.directory n = s.lookup s.directory n

theorem Rewrites.refl (s : Vm) (pages : ℕ → Prop) : s.Rewrites s pages :=
  ⟨rfl,rfl,fun _ => id,rfl,rfl,fun _ _ _ => rfl⟩

theorem Rewrites.trans {s'' : Vm} {pages : ℕ → Prop} (h : s.Rewrites s' pages)
    (h' : s'.Rewrites s'' pages) :
    s.Rewrites s'' pages where
  directory_eq := h'.directory_eq.trans h.directory_eq
  dir_eq := by
    have hdir := h'.dir_eq
    rw [h.directory_eq] at hdir
    exact hdir.trans h.dir_eq
  free k hk := h.free k (h'.free k hk)
  first_eq := h'.first_eq.trans h.first_eq
  heap_eq := h'.heap_eq.trans h.heap_eq
  lookup_eq n hn hout := by
    have hlook := h'.lookup_eq n hn hout
    rw [h.directory_eq] at hlook
    exact hlook.trans (h.lookup_eq n hn hout)

theorem Rewrites.mono {pages pages' : ℕ → Prop} (h : s.Rewrites s' pages)
    (hsub : ∀ n, pages n → pages' n) :
    s.Rewrites s' pages' :=
  { h with lookup_eq := fun n hn hout => h.lookup_eq n hn fun hin => hout (hsub n hin) }

theorem Rewrites.windowsOk {pages : ℕ → Prop} (h : s.Rewrites s' pages) (hs : s.WindowsOk) :
    s'.WindowsOk := by
  have hpde : ∀ i, s'.pde i = s.pde i := fun i => by rw [pde,pde,h.directory_eq,h.dir_eq]
  refine ⟨?_,fun i h1 h2 => ?_,?_,?_,?_⟩
  · rw [h.directory_eq]
    exact hs.dirOk.congr h.dir_eq h.free
  · rw [h.directory_eq,isTable_congr h.dir_eq]
    exact hs.kernel_tables i h1 h2
  · rw [hpde]
    exact hs.recursive
  · rw [h.directory_eq]
    exact hs.directory_ne
  · rw [h.first_eq]
    exact hs.first

theorem DirOk.rewrites_setEntry (hd : s.DirOk s.directory) {v : ℕ}
    (ht : s.IsTable s.directory (PDE v)) (w : ℕ) :
    s.Rewrites (s.setWord (s.table s.directory (PDE v)) (PTE v) w) (· = v/0x1000) := by
  refine ⟨rfl,phys_setWord_frame _ _ _ _ (hd.apart _ ht).symm,fun _ => id,rfl,rfl,
    fun n hn hout => ?_⟩
  rw [hd.lookup_setEntry ht (PTE_lt v) w hn,if_neg (by rwa [page_number])]

theorem rewrites_pmm {p : Pmm} (h : s.pmm.Takes p) (pages : ℕ → Prop) : s.Rewrites
    { s with pmm := p } pages :=
  ⟨rfl,rfl,h.free,rfl,rfl,fun _ _ _ => rfl⟩

theorem DirOk.enterPage_eq (hd : s.DirOk s.directory) {v p flags : ℕ}
    (ht : s.IsTable s.directory (PDE v))
    (h : enterPage v p flags s = .ok s') : s.lookup s.directory (v/0x1000) = none ∧
      ∃ b q, s.pmm.Takes q ∧ (p ≠ 0 → b = p) ∧
        s' = setWord { s with pmm := q } (s.table s.directory (PDE v)) (PTE v)
        (b%W32 ||| flags) := by
  have htakes := enterPage_takes h
  rw [enterPage] at h
  split at h
  · cases h
  rename_i hpte
  obtain ⟨⟨b,q⟩,halloc,h⟩ := Result.bind_eq_ok.mp h
  obtain rfl := Except.ok.inj h
  rw [pte,hd.ptFrame_eq] at hpte
  have hframe : ptFrame { s with pmm := q } (PDE v) = s.table s.directory (PDE v) := hd.ptFrame_eq _
  refine ⟨?_,b,q,htakes,fun hp => ?_,by rw [hframe]⟩
  · rw [← page_number,lookup_of_isTable ht (PTE_lt v),if_neg hpte]
  · rw [if_neg hp] at halloc
    exact (Prod.mk.inj (Except.ok.inj halloc)).1.symm

theorem WindowsOk.map_eq (hs : s.WindowsOk) {v p flags : ℕ} (h1 : LOWMEM_START ≤ v)
    (h2 : v < USABLE_MEMORY_END)
    (hret : s.kMemPagingMap v p flags = .ok s') : s.lookup s.directory (v/0x1000) = none ∧
      ∃ b q, s.pmm.Takes q ∧ (p ≠ 0 → b = p) ∧
        s' = setWord { s with pmm := q } (s.table s.directory (PDE v)) (PTE v) (b%W32 |||
          mapFlags flags) := by
  obtain ⟨hlo,hhi⟩ := window_slot h1 h2
  have ht := hs.kernel_tables _ hlo hhi
  have hpresent : present (s.pde (PDE v)) = true := ht.2.1
  rw [Vm.map_eq,if_pos hpresent] at hret
  exact hs.dirOk.enterPage_eq ht hret

theorem WindowsOk.map (hs : s.WindowsOk) {v p flags : ℕ} (h1 : LOWMEM_START ≤ v)
    (h2 : v < USABLE_MEMORY_END)
    (hret : s.kMemPagingMap v p flags = .ok s') : s.Rewrites s' (· = v/0x1000) := by
  obtain ⟨-,b,q,hq,-,rfl⟩ := hs.map_eq h1 h2 hret
  have hrewrites := rewrites_pmm hq (· = v/0x1000)
  obtain ⟨hlo,hhi⟩ := window_slot h1 h2
  exact hrewrites.trans ((hrewrites.windowsOk hs).dirOk.rewrites_setEntry
    (hs.kernel_tables _ hlo hhi) _)

/-- The page then shows what the address says, with the flags in its low bits. -/
theorem WindowsOk.map_lookup (hs : s.WindowsOk) {v p flags : ℕ} (h1 : LOWMEM_START ≤ v)
    (h2 : v < USABLE_MEMORY_END)
    (hp : p ≠ 0) (hret : s.kMemPagingMap v p flags = .ok s') : s'.lookup s.directory (v/0x1000) =
      if present (p%W32 ||| mapFlags flags) then
          some (page (p%W32 ||| mapFlags flags)) else none := by
  obtain ⟨-,b,q,hq,hb,rfl⟩ := hs.map_eq h1 h2 hret
  obtain rfl := hb hp
  obtain ⟨hlo,hhi⟩ := window_slot h1 h2
  have hpmm := (rewrites_pmm hq (· = v/0x1000)).windowsOk hs
  have hpage : v/0x1000 < 1023*1024 := by
    simp only [USABLE_MEMORY_END] at h2
    omega
  rw [← page_number] at hpage ⊢
  exact (hpmm.dirOk.lookup_setEntry (hpmm.kernel_tables _ hlo hhi) (PTE_lt v) _ hpage).trans
    (if_pos rfl)

theorem claimFrame_rewrites (s : Vm) (frame : ℕ) (pages : ℕ → Prop) :
    s.Rewrites (s.claimFrame frame) pages := by
  have htakes := claimFrame_takes s frame
  rw [claimFrame] at htakes ⊢
  split
  · exact .refl _ _
  · rename_i hfree
    rw [if_neg hfree] at htakes
    exact rewrites_pmm htakes _

@[simp] theorem lookup_claimFrame (s : Vm) (frame d n : ℕ) :
    (s.claimFrame frame).lookup d n = s.lookup d n := by
  rw [claimFrame]
  split <;> rfl

theorem WindowsOk.mapContiguous {flags : ℕ} (n : ℕ) : ∀ {s : Vm} {v frame : ℕ}, s.WindowsOk →
    LOWMEM_START ≤ v → v+n*0x1000 ≤ LOWMEM_END → mapContiguous flags n v frame s = .ok s' →
    (∀ j < n, s.lookup s.directory (v/0x1000+j) = none) ∧
      s.Rewrites s' fun m => v/0x1000 ≤ m ∧ m < v/0x1000+n := by
  induction n with
  | zero =>
    intro s v frame _ _ _ h
    obtain rfl := Except.ok.inj h
    exact ⟨fun j hj => absurd hj (Nat.not_lt_zero j),.refl _ _⟩
  | succ n ih =>
    intro s v frame hs h1 h2 h
    have hend : LOWMEM_END < USABLE_MEMORY_END := by decide
    have hmax : USABLE_MEMORY_END < W32 := by decide
    obtain ⟨s₁,hmap,h⟩ := Result.bind_eq_ok.mp h
    have hclaim := s.claimFrame_rewrites frame (· = v/0x1000)
    have hnone := ((hclaim.windowsOk hs).map_eq h1 (by omega) hmap).1
    rw [hclaim.directory_eq,lookup_claimFrame] at hnone
    have hfirst := hclaim.trans ((hclaim.windowsOk hs).map h1 (by omega) hmap)
    have hnext : (v+0x1000)%W32 = v+0x1000 := Nat.mod_eq_of_lt (by omega)
    rw [hnext] at h
    obtain ⟨hrest,hlater⟩ := ih (hfirst.windowsOk hs) (by omega) (by omega) h
    have hpage : (v+0x1000)/0x1000 = v/0x1000+1 := by omega
    rw [hpage] at hrest hlater
    rw [hfirst.directory_eq] at hrest
    have hwindow : v/0x1000+(n+1) < 1023*1024 := by simp only [USABLE_MEMORY_END] at hend; omega
    refine ⟨fun j hj => ?_,(hfirst.mono fun m hm => ?_).trans (hlater.mono fun m hm => ?_)⟩
    · cases j with
      | zero => exact hnone
      | succ j =>
        have hj := hrest j (by omega)
        rw [hfirst.lookup_eq _ (by omega) (by omega)] at hj
        rwa [Nat.add_comm j,← Nat.add_assoc]
    · omega
    · omega

theorem WindowsOk.unmap (hs : s.WindowsOk) {v : ℕ} (h1 : LOWMEM_START ≤ v)
    (h2 : v < USABLE_MEMORY_END) :
    s.Rewrites (s.kMemPagingUnmap v) (· = v/0x1000) := by
  rw [kMemPagingUnmap]
  split
  · exact .refl _ _
  · rw [hs.dirOk.ptFrame_eq]
    obtain ⟨hlo,hhi⟩ := window_slot h1 h2
    exact hs.dirOk.rewrites_setEntry (hs.kernel_tables _ hlo hhi) 0

theorem WindowsOk.unmapRegion (hs : s.WindowsOk) {v : ℕ} (h1 : LOWMEM_START ≤ v) (n : ℕ)
    (h2 : v+n*0x1000 ≤ LOWMEM_END) :
    s.Rewrites (s.kMemPagingUnmapRegion v n) fun m => v/0x1000 ≤ m ∧ m < v/0x1000+n := by
  have hend : LOWMEM_END < USABLE_MEMORY_END := by decide
  have hmax : USABLE_MEMORY_END < W32 := by decide
  induction n with
  | zero => exact .refl _ _
  | succ n ih =>
    have ih := ih (le_trans (Nat.add_le_add_left (Nat.mul_le_mul_right _ (Nat.le_succ n)) v) h2)
    have hbefore : s.Rewrites (s.kMemPagingUnmapRegion v n) fun m =>
        v/0x1000 ≤ m ∧ m < v/0x1000+(n+1) :=
      ih.mono fun m hm => ⟨hm.1,hm.2.trans (Nat.lt_succ_self _)⟩
    have hmod : (v+n*0x1000)%W32 = v+n*0x1000 := Nat.mod_eq_of_lt (by omega)
    rw [kMemPagingUnmapRegion,hmod]
    have hpage :=
      @WindowsOk.unmap (s.kMemPagingUnmapRegion v n) (hbefore.windowsOk hs) (v+n*0x1000) (by
        omega) (by omega)
    refine hbefore.trans (hpage.mono fun m hm => ?_)
    have hindex : (v+n*0x1000)/0x1000 = v/0x1000+n := Nat.add_mul_div_right _ _ (by decide)
    omega

theorem WindowsOk.withFirst (hs : s.WindowsOk) (first : ℕ)
    (h : LOWMEM_START ≤ first ∧ first ≤ LOWMEM_END) :
    WindowsOk { s with firstFreeAddress := first } :=
  ⟨⟨hs.dirOk.self,hs.dirOk.distinct,hs.dirOk.apart,hs.dirOk.used,hs.dirOk.used_dir⟩,
    hs.kernel_tables,hs.recursive,hs.directory_ne,h⟩

theorem WindowsOk.withHeap (hs : s.WindowsOk) (heapEnd : ℕ) : WindowsOk
    { s with heapEnd := heapEnd } :=
  ⟨⟨hs.dirOk.self,hs.dirOk.distinct,hs.dirOk.apart,hs.dirOk.used,hs.dirOk.used_dir⟩,
    hs.kernel_tables,hs.recursive,hs.directory_ne,hs.first⟩

theorem WindowsOk.kUnmap (hs : s.WindowsOk) {addr size : ℕ}
    (h : addr < LOWMEM_START ∨ addr+size*0x1000 < W32) :
    (s.kUnmap addr size).WindowsOk := by
  rw [Vm.kUnmap]
  split
  · rename_i hrange
    have hmod : (addr+size*0x1000)%W32 = addr+size*0x1000 := Nat.mod_eq_of_lt (by omega)
    rw [hmod] at hrange
    have hok := (hs.unmapRegion hrange.1 size hrange.2).windowsOk hs
    have hfirst := hok.first
    refine hok.withFirst _ ?_
    split <;> omega
  · exact hs

/-- The upper part of the directory, and the directory itself behind its last entry. -/
structure Upper (s : Vm) (d : ℕ) (entries : ℕ → ℕ) : Prop where
  directory_eq : s.directory = d
  entry : ∀ i, PDE LOWMEM_START ≤ i → i < 1024 → s.phys d i = entries i

/-- Mapping over the end of the address space stops in the recursive mapping of the kernel
tables. -/
theorem not_mapContiguous_of_upper {d flags : ℕ} {entries : ℕ → ℕ}
    (htables : ∀ i, PDE LOWMEM_START ≤ i → i < 1024 →
    present (entries i) = true ∧ (i < 1023 → page (entries i) ≠ d)) (hself :
    page (entries 1023) = d) (n : ℕ) :
    ∀ {s : Vm} {v frame : ℕ}, s.Upper d entries → LOWMEM_START ≤ v → v < W32 → W32 ≤ v+n*0x1000 →
      ∀ s', mapContiguous flags n v frame s ≠ .ok s' := by
  have hfirst : PDE LOWMEM_START = 772 := by decide
  have hmax : W32 = 1024*0x400000 := by decide
  induction n with
  | zero => intro s v frame _ _ hlt hle; omega
  | succ n ih =>
    intro s v frame hs h1 h2 h3 s' h
    obtain ⟨s₁,hmap,h⟩ := Result.bind_eq_ok.mp h
    have hclaim : (s.claimFrame frame).Upper d entries := by
      rw [claimFrame]
      split
      · exact hs
      · exact ⟨hs.directory_eq,hs.entry⟩
    generalize s.claimFrame frame = c at hmap hclaim
    have hlo : PDE LOWMEM_START ≤ PDE v := Nat.div_le_div_right h1
    have hhi : PDE v < 1024 := by rw [PDE]; omega
    have hpde : c.pde (PDE v) = entries (PDE v) := by
      rw [pde,hclaim.directory_eq,hclaim.entry _ hlo hhi]
    have hpt : c.ptFrame (PDE v) = page (entries (PDE v)) := by
      rw [ptFrame,hclaim.directory_eq,hclaim.entry 1023 (by omega) (by omega),hself,
        hclaim.entry _ hlo hhi]
    rw [map_eq,if_pos (hpde ▸ (htables _ hlo hhi).1)] at hmap
    change enterPage _ _ _ c = _ at hmap
    rw [enterPage] at hmap
    split at hmap
    · cases hmap
    rename_i hpte
    obtain ⟨⟨b,q⟩,-,hmap⟩ := Result.bind_eq_ok.mp hmap
    obtain rfl := Except.ok.inj hmap
    rw [pte,hpt] at hpte
    -- the entry was not present, so it is not one of those in the recursive mapping
    have hbelow : PDE v < 1023 ∨ PTE v < 772 := by
      by_contra hc
      push Not at hc
      refine hpte ?_
      rw [show PDE v = 1023 by omega,hself,hclaim.entry _ (by omega) (PTE_lt v)]
      exact (htables _ (by omega) (PTE_lt v)).1
    have hin : v+0x1000 < W32 := by
      simp only [PDE,PTE] at hbelow
      omega
    rw [Nat.mod_eq_of_lt hin] at h
    refine ih ?_ (by omega) hin (by omega) s' h
    refine ⟨hclaim.directory_eq,fun i hi1 hi2 => ?_⟩
    rw [show ptFrame { c with pmm := q } (PDE v) = page (entries (PDE v)) from hpt]
    rcases Nat.lt_or_ge (PDE v) 1023 with hlt | hge
    · rw [phys_setWord_frame _ _ _ _ ((htables _ hlo hhi).2 hlt).symm]
      exact hclaim.entry i hi1 hi2
    · rw [phys_setWord_index _ _ _ _ (by omega)]
      exact hclaim.entry i hi1 hi2

theorem WindowsOk.upper_tables (hs : s.WindowsOk) (i : ℕ) (h1 : PDE LOWMEM_START ≤ i)
    (h2 : i < 1024) :
    present (s.phys s.directory i) = true ∧
        (i < 1023 → page (s.phys s.directory i) ≠ s.directory) := by
  rcases Nat.lt_or_ge i 1023 with hlt | hge
  · have ht := hs.kernel_tables i h1 hlt
    exact ⟨ht.2.1,fun _ => hs.dirOk.apart i ht⟩
  · obtain rfl : i = 1023 := by omega
    exact ⟨hs.recursive.1,fun hlt => absurd hlt (by omega)⟩

theorem WindowsOk.mapped_last (hs : s.WindowsOk) {start j : ℕ} (hlt : start+j*0x1000 < W32)
    (hlast : 0xFFFFF ≤ (start+j*0x1000)/0x1000) : s.MappedFrom start j := by
  rw [MappedFrom,Nat.mod_eq_of_lt hlt]
  generalize start+j*0x1000 = v at hlt hlast
  have hpde : PDE v = 1023 := by simp only [PDE,W32] at *; omega
  have hpte : PTE v = 1023 := by simp only [PTE,W32] at *; omega
  have hself : page (s.phys s.directory 1023) = s.directory := hs.dirOk.self
  have hframe : s.ptFrame 1023 = s.directory := by rw [ptFrame,hself,hself]
  have hentry : s.pte 1023 1023 = s.phys s.directory 1023 := by rw [pte,hframe]
  have hpresent : present (s.phys s.directory 1023) = true := hs.recursive.1
  have hsmall : large (s.phys s.directory 1023) = false := hs.recursive.2
  have hne := hs.directory_ne
  simp only [kMemPagingVirt2phys,hpde,hpte,hentry,pde,hpresent,hsmall,hself]
  simp
  omega

theorem WindowsOk.mapped_over (hs : s.WindowsOk) {start o size : ℕ} (hlow : start+o*0x1000 < W32)
    (hover : W32 ≤ start+(o+size)*0x1000) : ∃ i < size, s.MappedFrom start (i+o) := by
  have hmax : W32 = 0x100000*0x1000 := by decide
  have hsum : ∀ i, start+(i+o)*0x1000 = start+o*0x1000+i*0x1000 := fun i => by omega
  rw [Nat.add_comm o,hsum] at hover
  suffices h : ∃ i < size, start+o*0x1000+i*0x1000 < W32 ∧
      0xFFFFF ≤ (start+o*0x1000+i*0x1000)/0x1000 by
    obtain ⟨i,hi,hlt,hlast⟩ := h
    rw [← hsum] at hlt hlast
    exact ⟨i,hi,hs.mapped_last hlt hlast⟩
  generalize start+o*0x1000 = a at hlow hover
  exact ⟨0xFFFFF-a/0x1000,by omega,by omega,by omega⟩

theorem mapRegion_contiguous {v frame size flags : ℕ}
    (h : s.kMemPagingMapRegion v frame size flags true = .ok s') :
    ∃ f p, s.pmm.Takes p ∧ mapContiguous flags size v f { s with pmm := p } = .ok s' := by
  rw [kMemPagingMapRegion,if_pos rfl] at h
  by_cases hframe : frame = 0
  · rw [if_pos hframe] at h
    obtain ⟨⟨b,p⟩,halloc,h⟩ := Result.bind_eq_ok.mp h
    exact ⟨b%W32,p,allocFrames_takes halloc,h⟩
  · rw [if_neg hframe] at h
    exact ⟨frame%W32,s.pmm,.refl _,h⟩

theorem WindowsOk.kMap_region (hs : s.WindowsOk) {frame size flags a : ℕ}
    (hsettles : s.SearchSettles size)
    (h : s.kMap frame size flags = .ok (a,s')) : (∃ o, a = s.firstFreeAddress+o*0x1000) ∧
    a+size*0x1000 ≤ LOWMEM_END ∧
      kMemPagingMapRegion { s with firstFreeAddress := a+size*0x1000 } a frame size flags true =
      .ok s' := by
  obtain ⟨o,hgap,hlow,hend⟩ := hsettles
  have hsearch : s.searchWindow s.firstFreeAddress size W32 0 = .ok o :=
    searchWindow_settled hgap hlow hend (W32-2)
  have hfirst := hs.first
  have hstart : (s.firstFreeAddress+0x1000*o)%W32 = s.firstFreeAddress+o*0x1000 := by
    rw [Nat.mul_comm,Nat.mod_eq_of_lt hlow]
  have hret : s.kMap frame size flags =
      if LOWMEM_END < (s.firstFreeAddress+(o+size)*0x1000)%W32 then
        .error (.panic "k_map(): failed to find free address.")
      else (do
        let s' ← kMemPagingMapRegion
          { s with firstFreeAddress := (s.firstFreeAddress+o*0x1000+size*0x1000)%W32 }
          (s.firstFreeAddress+o*0x1000) frame size flags true
        pure (s.firstFreeAddress+o*0x1000,s')) := by
    rw [Vm.kMap,hsearch]
    simp only [bind,Except.bind,hstart]
    split <;> rfl
  rw [hret] at h
  split at h
  · cases h
  rename_i hcheck
  obtain ⟨s₁,hmap,h⟩ := Result.bind_eq_ok.mp h
  obtain ⟨rfl,rfl⟩ := Prod.mk.inj (Except.ok.inj h)
  have hsum : s.firstFreeAddress+(o+size)*0x1000 = s.firstFreeAddress+o*0x1000+size*0x1000 := by
    omega
  rw [hsum] at hcheck
  rcases Nat.lt_or_ge (s.firstFreeAddress+o*0x1000+size*0x1000) W32 with hin | hover
  · rw [Nat.mod_eq_of_lt hin] at hcheck hmap
    exact ⟨⟨o,rfl⟩,not_lt.mp hcheck,hmap⟩
  · -- the search has not stopped at a free window, and mapping over the end panics
    exfalso
    obtain ⟨f,p,-,hmap⟩ := mapRegion_contiguous hmap
    rcases hend with hend | hfree
    · refine not_mapContiguous_of_upper hs.upper_tables hs.dirOk.self size ?_ ?_ hlow hover _ hmap
      · exact ⟨rfl,fun _ _ _ => rfl⟩
      · exact hfirst.1.trans (Nat.le_add_right _ _)
    · rw [← hsum] at hover
      obtain ⟨i,hi,hmapped⟩ := hs.mapped_over hlow hover
      exact hfree i hi hmapped

theorem WindowsOk.kMap (hs : s.WindowsOk) {frame size flags : ℕ} (hsettles : s.SearchSettles size) :
    s.FindsWindow frame size flags ∧ ∀ a s', s.kMap frame size flags = .ok (a,s') →
    s'.WindowsOk := by
  have hright : ∀ a s', s.kMap frame size flags = .ok (a,s') →
    (LOWMEM_START ≤ a ∧ a+size*0x1000 ≤ LOWMEM_END ∧
      ∀ j < size, s.lookup s.directory (a/0x1000+j) = none) ∧ s'.WindowsOk := by
    intro a s' h
    obtain ⟨⟨o,hstart⟩,hend,hmap⟩ := hs.kMap_region hsettles h
    obtain ⟨f,p,htakes,hmap⟩ := mapRegion_contiguous hmap
    have hfirst := hs.first
    have hpmm :=
      (rewrites_pmm htakes fun _ => False).windowsOk (hs.withFirst (a+size*0x1000) ⟨by omega,hend⟩)
    obtain ⟨hnone,hrest⟩ := hpmm.mapContiguous size (by omega) hend hmap
    exact ⟨⟨by omega,hend,hnone⟩,hrest.windowsOk hpmm⟩
  obtain ⟨o,hgap,hlow,hend⟩ := hsettles
  exact ⟨⟨⟨o,searchWindow_settled hgap hlow hend (W32-2)⟩,fun a s' h => (hright a s' h).1⟩,
    fun a s' h => (hright a s' h).2⟩

theorem SettledCall.windowsOk (hs : s.WindowsOk) (h : SettledCall s s') : s'.WindowsOk := by
  cases h with
  | map hsettles h => exact (hs.kMap hsettles).2 _ _ h
  | unmap addr size h => exact hs.kUnmap h

/-- In a run whose searches are all over after the first round, `k_map` does what it is for. -/
theorem finds_window {s₀ : Vm} (h₀ : s₀.WindowsOk)
    (hrun : Relation.ReflTransGen SettledCall s₀ s) {size : ℕ}
    (hsettles : s.SearchSettles size) (frame flags : ℕ) : s.FindsWindow frame size flags := by
  have hs : s.WindowsOk :=
    reach_invariant (fun _ _ hs hstep => SettledCall.windowsOk hs hstep) h₀ hrun
  exact (hs.kMap hsettles).1

theorem kernelMachine_isTable {i : ℕ} : kernelMachine.IsTable 0x100 i ↔
    KERNEL_PD ≤ i ∧ i < 1023 := by
  have hK : KERNEL_PD = 768 := rfl
  constructor
  · rintro ⟨hi,hp,-⟩
    refine ⟨?_,hi⟩
    by_contra hc
    have hentry : kernelMachine.phys 0x100 i = 0 := by
      simp [kernelMachine,show i ≠ 1023 by omega,hc]
    rw [hentry] at hp
    cases hp
  · rintro ⟨h1,h2⟩
    have hentry : kernelMachine.phys 0x100 i = 0x1000*(0x200+i)+3 := by
      simp [kernelMachine,show i ≠ 1023 by omega,h1]
    refine ⟨h2,?_,?_⟩
    · rw [hentry,present,beq_iff_eq]; omega
    · rw [hentry,large,beq_eq_false_iff_ne]; omega

theorem kernelMachine_table {i : ℕ} (hi : kernelMachine.IsTable 0x100 i) :
    kernelMachine.table 0x100 i = 0x200+i := by
  obtain ⟨h1,h2⟩ := kernelMachine_isTable.mp hi
  have hentry : kernelMachine.phys 0x100 i = 0x1000*(0x200+i)+3 := by
    simp [kernelMachine,show i ≠ 1023 by omega,h1]
  rw [table,hentry,page]
  omega

theorem kernelMachine_used {k : ℕ} (h : k < 0x1000) : ¬kernelMachine.pmm.IsFree k := by
  rintro ⟨-,hbit⟩
  have hword : kernelMachine.pmm.bitmap (k/32) = 0#32 := if_pos (by omega)
  rw [BitArray.bit,hword] at hbit
  simp at hbit

theorem kernelMachine_windowsOk : kernelMachine.WindowsOk := by
  have hfirst : PDE LOWMEM_START = 772 := by decide
  have hK : KERNEL_PD = 768 := rfl
  refine ⟨⟨by decide,fun i j hi hj he => ?_,fun i hi he => ?_,fun i hi => ?_,
    kernelMachine_used (by decide)⟩,
    fun i h1 h2 => kernelMachine_isTable.mpr ⟨by omega,h2⟩,by decide,by decide,by decide⟩
  · rw [show kernelMachine.directory = 0x100 from rfl,kernelMachine_table hi,
      kernelMachine_table hj] at he
    omega
  · rw [show kernelMachine.directory = 0x100 from rfl,kernelMachine_table hi] at he
    omega
  · rw [show kernelMachine.directory = 0x100 from rfl,kernelMachine_table hi]
    have hi := kernelMachine_isTable.mp hi
    exact kernelMachine_used (by omega)

instance (s : Vm) (start j : ℕ) : Decidable (s.MappedFrom start j) :=
  inferInstanceAs (Decidable (_ ≠ 0))

theorem finds_window_first : kernelMachine.FindsWindow 0x800000 4 3 :=
  finds_window kernelMachine_windowsOk .refl ⟨0,.inl ⟨rfl,by decide⟩,by decide,
    .inr (by decide)⟩ 0x800000 3

/-- A round that ends at the offset it started from goes on for ever. -/
theorem searchWindow_stuck {start size o i : ℕ}
    (hfind : ((List.range size).find? fun i =>
      s.kMemPagingVirt2phys ((start+(i+o)*0x1000)%W32) ≠ 0) = some i)
    (hskip : s.skipMapped start o 0x100001 i = .ok o)
    (hlow : (start+o*0x1000)%W32 < LOWMEM_END) (fuel : ℕ) :
    s.searchWindow start size fuel o = .error .loop := by
  induction fuel with
  | zero => rfl
  | succ fuel ih =>
    rw [searchWindow,hfind]
    simp only [hskip,bind,Except.bind]
    rw [if_neg hlow.not_ge]
    exact ih

def mapFour : Result Vm := do
  let (_,s) ← kernelMachine.kMap 0x800000 1 3
  let (_,s) ← s.kMap 0x801000 1 3
  let (_,s) ← s.kMap 0x802000 1 3
  let (_,s) ← s.kMap 0x803000 1 3
  pure ((s.kUnmap (LOWMEM_START+0x2000) 1).kUnmap LOWMEM_START 1)

theorem mapFour_reached (h : mapFour = .ok s) :
    Relation.ReflTransGen WindowCall kernelMachine s := by
  obtain ⟨⟨_,s₁⟩,h₁,h⟩ := Result.bind_eq_ok.mp h
  obtain ⟨⟨_,s₂⟩,h₂,h⟩ := Result.bind_eq_ok.mp h
  obtain ⟨⟨_,s₃⟩,h₃,h⟩ := Result.bind_eq_ok.mp h
  obtain ⟨⟨_,s₄⟩,h₄,h⟩ := Result.bind_eq_ok.mp h
  obtain rfl := Except.ok.inj h
  have hmapped :=
    (((Relation.ReflTransGen.single (.map h₁)).tail (.map h₂)).tail (.map h₃)).tail
    (WindowCall.map h₄)
  exact (hmapped.tail (.unmap _ _ _)).tail (.unmap _ _ _)

/-- The free pages are now the first, the third and those from the fifth on. A search for two
pages stays at the third. -/
theorem two_pages_not_found : ¬∀ s₀ s : Vm, s₀.WindowsOk → Relation.ReflTransGen WindowCall s₀ s →
    ∀ frame size flags, 0 < size → s.FindsWindow frame size flags := by
  intro hfinds
  have hrun : mapFour.toOption.any (fun s : Vm => decide (s.firstFreeAddress = LOWMEM_START ∧
      ((List.range 2).find? fun i => s.kMemPagingVirt2phys ((LOWMEM_START+(i+0)*0x1000)%W32) ≠ 0) =
      some 1 ∧ (s.skipMapped LOWMEM_START 0 0x100001 1).toOption = some 2 ∧
      ((List.range 2).find? fun i => s.kMemPagingVirt2phys ((LOWMEM_START+(i+2)*0x1000)%W32) ≠ 0) =
      some 1 ∧
      (s.skipMapped LOWMEM_START 2 0x100001 1).toOption = some 2)) = true := by decide +kernel
  obtain ⟨s,hs,hround⟩ := (Option.any_eq_true _ _).mp hrun
  obtain ⟨hstart,hfind,hskip,hfind₂,hskip₂⟩ := of_decide_eq_true hround
  obtain ⟨⟨o,hsearch⟩,-⟩ := hfinds kernelMachine s kernelMachine_windowsOk
    (mapFour_reached (Result.eq_ok_of_toOption hs)) 0x804000 2 3 (by decide)
  have hloop : s.searchWindow LOWMEM_START 2 (W32-1+1) 0 = .error .loop := by
    rw [searchWindow,hfind]
    simp only [Result.eq_ok_of_toOption hskip,bind,Except.bind]
    rw [if_neg (by decide)]
    exact searchWindow_stuck hfind₂ (Result.eq_ok_of_toOption hskip₂) (by decide) _
  rw [hstart,show W32 = W32-1+1 from rfl,hloop] at hsearch
  cases hsearch

end Vm
end ScalesOS
