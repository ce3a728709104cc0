import ScalesOS.Paging
import ScalesOS.PmmFrames

/-!
# Page tables as a map

A directory is read as a finite map from virtual page numbers to frame numbers. Every
entry update changes this map at one page, and a new page table changes it nowhere.
-/

namespace ScalesOS

namespace Entry

theorem or_flags {k f : ℕ} (hf : f < 0x1000) : 0x1000*k ||| f = 0x1000*k+f := by
  have h := Nat.two_pow_add_eq_or_of_lt (i:=12) (b:=f) (by simpa using hf) k
  simpa using h.symm

theorem page_or {k f : ℕ} (hk : k < 0x100000) (hf : f < 0x1000) : page (0x1000*k ||| f) = k := by
  rw [or_flags hf,page]
  omega

theorem present_or {k f : ℕ} (hf : f < 0x1000) : present (0x1000*k ||| f) = present f := by
  rw [or_flags hf,present,present]
  congr 1
  omega

theorem present_or_odd {w f : ℕ} (hf : f%2 = 1) : present (w ||| f) = true := by
  have hbit : ∀ b < 2, b ||| 1 = 1 := by decide
  have hmod : (w ||| f)%2 = w%2 ||| f%2 := @Nat.or_mod_two_pow w _ 1
  rw [hf,hbit _ (Nat.mod_lt _ (by decide))] at hmod
  exact beq_iff_eq.mpr hmod

theorem large_or {k f : ℕ} (hf : f < 0x1000) : large (0x1000*k ||| f) = large f := by
  rw [or_flags hf,large,large]
  congr 1
  omega

theorem page_lt (w : ℕ) : page w < 0x100000 := Nat.mod_lt _ (by decide)

@[simp] theorem present_zero : present 0 = false := rfl

end Entry

open Entry

namespace Vm

open Pmm

section Updates

variable (s : Vm) (frame i w : ℕ) (words : ℕ → ℕ)

@[simp] theorem pmm_setWord : (s.setWord frame i w).pmm = s.pmm := rfl
@[simp] theorem pmm_setPage : (s.setPage frame words).pmm = s.pmm := rfl
@[simp] theorem directory_setWord : (s.setWord frame i w).directory = s.directory := rfl
@[simp] theorem directory_setPage : (s.setPage frame words).directory = s.directory := rfl
@[simp] theorem firstFreeAddress_setWord :
    (s.setWord frame i w).firstFreeAddress = s.firstFreeAddress := rfl
@[simp] theorem firstFreeAddress_setPage :
    (s.setPage frame words).firstFreeAddress = s.firstFreeAddress := rfl
@[simp] theorem heapEnd_setWord : (s.setWord frame i w).heapEnd = s.heapEnd := rfl
@[simp] theorem heapEnd_setPage : (s.setPage frame words).heapEnd = s.heapEnd := rfl

@[simp] theorem phys_setWord_self : (s.setWord frame i w).phys frame i = w := by simp [setWord]
@[simp] theorem phys_setPage_self : (s.setPage frame words).phys frame = words := by simp [setPage]

variable {f j : ℕ}

theorem phys_setWord_frame (h : f ≠ frame) : (s.setWord frame i w).phys f = s.phys f := by
  funext k
  simp [setWord,h]

theorem phys_setWord_index (h : j ≠ i) : (s.setWord frame i w).phys f j = s.phys f j := by
  simp [setWord,h]

theorem phys_setPage_frame (h : f ≠ frame) : (s.setPage frame words).phys f = s.phys f := by
  simp [setPage,h]

end Updates

/-- Entry `i` of directory `d` refers to a page table. -/
def IsTable (s : Vm) (d i : ℕ) : Prop :=
  i < 1023 ∧ present (s.phys d i) = true ∧ large (s.phys d i) = false

def table (s : Vm) (d i : ℕ) : ℕ := page (s.phys d i)

/-- The frame that directory `d` maps page number `n` to. -/
def lookup (s : Vm) (d n : ℕ) : Option ℕ :=
  if present (s.phys d (n/1024)) && !large (s.phys d (n/1024)) then
    if present (s.phys (s.table d (n/1024)) (n%1024)) then
      some (page (s.phys (s.table d (n/1024)) (n%1024)))
    else none
  else none

/-- A directory whose recursive slot is set and whose page tables are frames in use,
different from each other and from the directory. -/
structure DirOk (s : Vm) (d : ℕ) : Prop where
  self : page (s.phys d 1023) = d
  distinct : ∀ i j, s.IsTable d i → s.IsTable d j → s.table d i = s.table d j → i = j
  apart : ∀ i, s.IsTable d i → s.table d i ≠ d
  used : ∀ i, s.IsTable d i → ¬ s.pmm.IsFree (s.table d i)
  used_dir : ¬ s.pmm.IsFree d

theorem DirOk.ptFrame_eq {s : Vm} (hd : s.DirOk s.directory) (i : ℕ) :
    s.ptFrame i = s.table s.directory i := by
  rw [ptFrame,hd.self,table]

theorem lookup_of_isTable {s : Vm} {d i j : ℕ} (hi : s.IsTable d i) (hj : j < 1024) :
    s.lookup d (i*1024+j) = if present (s.phys (s.table d i) j) then
      some (page (s.phys (s.table d i) j)) else none := by
  have h1 : (i*1024+j)/1024 = i := by omega
  have h2 : (i*1024+j)%1024 = j := by omega
  simp [lookup,h1,h2,hi.2.1,hi.2.2]

theorem lookup_of_not_table {s : Vm} {d n : ℕ} (hn : n < 1023*1024)
    (h : ¬ s.IsTable d (n/1024)) : s.lookup d n = none := by
  rw [lookup,if_neg]
  intro hc
  simp only [Bool.and_eq_true,Bool.not_eq_true'] at hc
  exact h ⟨by omega,hc.1,hc.2⟩

/-- Two states that agree on a directory and on its tables agree on the map. -/
theorem lookup_congr {s s' : Vm} {d n : ℕ} (hn : n < 1023*1024) (hdir : s'.phys d = s.phys d)
    (htab : s.IsTable d (n/1024) → s'.phys (s.table d (n/1024)) = s.phys (s.table d (n/1024))) :
    s'.lookup d n = s.lookup d n := by
  by_cases ht : s.IsTable d (n/1024)
  · have htab := htab ht
    rw [table] at htab
    rw [lookup,lookup,table,table,hdir,htab]
  · have ht' : ¬ s'.IsTable d (n/1024) := by rwa [IsTable,hdir]
    rw [lookup_of_not_table hn ht,lookup_of_not_table hn ht']

theorem isTable_congr {s s' : Vm} {d : ℕ} (hdir : s'.phys d = s.phys d) (i : ℕ) :
    s'.IsTable d i ↔ s.IsTable d i := by
  rw [IsTable,IsTable,hdir]

theorem DirOk.congr {s s' : Vm} {d : ℕ} (hd : s.DirOk d) (hdir : s'.phys d = s.phys d)
    (hfree : ∀ k, s'.pmm.IsFree k → s.pmm.IsFree k) : s'.DirOk d where
  self := by rw [hdir]; exact hd.self
  distinct i j hi hj he := by
    rw [isTable_congr hdir] at hi hj
    rw [table,table,hdir] at he
    exact hd.distinct i j hi hj he
  apart i hi := by
    rw [isTable_congr hdir] at hi
    rw [table,hdir]
    exact hd.apart i hi
  used i hi hc := by
    rw [isTable_congr hdir] at hi
    rw [table,hdir] at hc
    exact hd.used i hi (hfree _ hc)
  used_dir hc := hd.used_dir (hfree _ hc)

theorem DirOk.setEntry {s : Vm} {d : ℕ} (hd : s.DirOk d) {i : ℕ} (hi : s.IsTable d i) (j w : ℕ) :
    (s.setWord (s.table d i) j w).DirOk d :=
  hd.congr (phys_setWord_frame _ _ _ _ (hd.apart i hi).symm) fun _ h => h

theorem DirOk.lookup_setEntry {s : Vm} {d : ℕ} (hd : s.DirOk d) {i j : ℕ} (hi : s.IsTable d i)
    (hj : j < 1024) (w : ℕ) {n : ℕ} (hn : n < 1023*1024) :
    (s.setWord (s.table d i) j w).lookup d n =
      if n = i*1024+j then (if present w then some (page w) else none) else s.lookup d n := by
  have hdir : (s.setWord (s.table d i) j w).phys d = s.phys d :=
    phys_setWord_frame _ _ _ _ (hd.apart i hi).symm
  obtain ⟨a,b,hb,rfl⟩ : ∃ a b, b < 1024 ∧ n = a*1024+b := ⟨n/1024,n%1024,by omega,by omega⟩
  by_cases ha : a = i
  · subst ha
    have htab : (s.setWord (s.table d a) j w).table d a = s.table d a := by rw [table,hdir,table]
    rw [lookup_of_isTable ((isTable_congr hdir a).mpr hi) hb,htab,lookup_of_isTable hi hb]
    by_cases hbj : b = j
    · subst hbj
      simp
    · rw [phys_setWord_index _ _ _ _ hbj,if_neg (show ¬ a*1024+b = a*1024+j by omega)]
  · rw [if_neg (by omega)]
    refine lookup_congr hn hdir fun ht => phys_setWord_frame _ _ _ _ fun he => ?_
    have := hd.distinct _ _ ht hi he
    omega

theorem DirOk.virt2phys_eq {s : Vm} (hd : s.DirOk s.directory) {n o : ℕ} (ho : o < 0x1000)
    (hsmall : present (s.pde (n/1024)) = true → large (s.pde (n/1024)) = false) :
    s.kMemPagingVirt2phys (n*0x1000+o) = (s.lookup s.directory n).elim 0 (fun f => f*0x1000+o) := by
  have h1 : PDE (n*0x1000+o) = n/1024 := by rw [PDE]; omega
  have h2 : PTE (n*0x1000+o) = n%1024 := by rw [PTE]; omega
  have h3 : (n*0x1000+o)%0x1000 = o := by omega
  simp only [kMemPagingVirt2phys,h1,h2,h3,lookup,pte,hd.ptFrame_eq]
  rw [show s.phys s.directory (n/1024) = s.pde (n/1024) from rfl]
  cases hp : present (s.pde (n/1024)) with
  | false => simp
  | true =>
    rw [hsmall hp]
    cases hq : present (s.phys (s.table s.directory (n/1024)) (n%1024)) <;> simp

/-- What installing a table does: one free frame below 4 GiB becomes an empty table. -/
structure Installed (s s' : Vm) (i k : ℕ) : Prop where
  was_free : s.pmm.IsFree k
  low : k < 0x100000
  directory_eq : s'.directory = s.directory
  isTable : s'.IsTable s.directory i
  table_eq : s'.table s.directory i = k
  cleared : s'.phys k = fun _ => 0
  entries : ∀ j, j ≠ i → s'.phys s.directory j = s.phys s.directory j
  frames : ∀ f, f ≠ k → f ≠ s.directory → s'.phys f = s.phys f
  free_iff : ∀ l, s'.pmm.IsFree l ↔ s.pmm.IsFree l ∧ l ≠ k
  windows : s'.firstFreeAddress = s.firstFreeAddress ∧ s'.heapEnd = s.heapEnd

theorem installTable_spec {s s' : Vm} {i flags k₀ : ℕ} (hd : s.DirOk s.directory) (hi : i < 1023)
    (hfirst : 32*s.pmm.firstFreeIndex ≤ k₀) (hfree : s.pmm.IsFree k₀) (hlow : k₀ < 0x100000)
    (hret : s.installTable i flags = .ok s') : ∃ k, Installed s s' i k := by
  obtain ⟨k,p',halloc,hk,hkf,-,hafter,-⟩ := allocFrame_spec hfirst hfree hlow
  rw [installTable,halloc] at hret
  obtain ⟨fl,hfl,hpres,hsmall,hret⟩ : ∃ fl, fl < 0x1000 ∧ present fl = true ∧ large fl = false ∧
      (let s₁ := (Vm.setWord { s with pmm := p' } s.directory i ((0x1000*k ||| fl)%W32))
       s₁.setPage (s₁.ptFrame i) fun _ => 0) = s' := by
    by_cases hk0 : 0x1000*k = 0
    · simp only [hk0] at hret
      cases hret
    · refine ⟨if flags &&& PAGE_USER ≠ 0 then PAGE_PRESENT ||| PAGE_WRITABLE ||| PAGE_USER
        else PAGE_PRESENT ||| PAGE_WRITABLE,?_,?_,?_,?_⟩
      · split <;> decide
      · split <;> decide
      · split <;> decide
      · simp only [bind,Except.bind,hk0,if_false] at hret
        exact Except.ok.inj hret
  have hkd : k ≠ s.directory := fun he => hd.used_dir (he ▸ hkf)
  have hword : (0x1000*k ||| fl)%W32 = 0x1000*k ||| fl :=
    Nat.mod_eq_of_lt (by rw [or_flags hfl]; simp only [W32]; omega)
  rw [hword] at hret
  set s₁ := Vm.setWord { s with pmm := p' } s.directory i (0x1000*k ||| fl) with hs₁
  have hself : page (s₁.phys s₁.directory 1023) = s.directory := by
    rw [hs₁,phys_setWord_index _ _ _ _ (by omega)]
    exact hd.self
  have hpt : s₁.ptFrame i = k := by
    rw [ptFrame,hself,hs₁,phys_setWord_self,page_or hk hfl]
  have hentry : s₁.phys s.directory i = 0x1000*k ||| fl := phys_setWord_self _ _ _ _
  simp only [hpt] at hret
  subst hret
  have hdir : (s₁.setPage k fun _ => 0).phys s.directory = s₁.phys s.directory :=
    phys_setPage_frame _ _ _ hkd.symm
  refine ⟨k,⟨hkf,hk,rfl,⟨hi,?_,?_⟩,?_,phys_setPage_self _ _ _,fun j hj => ?_,fun f hf hfd => ?_,
    hafter,rfl,rfl⟩⟩
  · rw [hdir,hentry,present_or hfl,hpres]
  · rw [hdir,hentry,large_or hfl,hsmall]
  · rw [table,hdir,hentry,page_or hk hfl]
  · rw [hdir,hs₁,phys_setWord_index _ _ _ _ hj]
  · rw [phys_setPage_frame _ _ _ hf,hs₁,phys_setWord_frame _ _ _ _ hfd]

theorem Installed.isTable_iff {s s' : Vm} {i k : ℕ} (h : Installed s s' i k) {j : ℕ} (hj : j ≠ i) :
    (s'.IsTable s.directory j ↔ s.IsTable s.directory j) ∧
      s'.table s.directory j = s.table s.directory j := by
  rw [IsTable,IsTable,table,table,h.entries j hj]
  exact ⟨Iff.rfl,rfl⟩

theorem Installed.dirOk {s s' : Vm} {i k : ℕ} (h : Installed s s' i k)
    (hd : s.DirOk s.directory) : s'.DirOk s.directory := by
  have hi : i < 1023 := h.isTable.1
  have hkd : k ≠ s.directory := fun he => hd.used_dir (he ▸ h.was_free)
  -- the new frame was free, every older table was not
  have hnew : ∀ j, j ≠ i → s'.IsTable s.directory j →
      s.IsTable s.directory j ∧ s'.table s.directory j = s.table s.directory j ∧
      s.table s.directory j ≠ k := by
    intro j hj ht
    obtain ⟨hiff,htab⟩ := h.isTable_iff hj
    exact ⟨hiff.mp ht,htab,fun he => hd.used j (hiff.mp ht) (he ▸ h.was_free)⟩
  refine ⟨?_,fun a b ha hb hab => ?_,fun a ha => ?_,fun a ha hc => ?_,fun hc => ?_⟩
  · rw [h.entries 1023 (by omega)]
    exact hd.self
  · by_cases hai : a = i <;> by_cases hbi : b = i
    · omega
    · obtain ⟨-,htab,hne⟩ := hnew b hbi hb
      rw [hai,h.table_eq,htab] at hab
      exact absurd hab.symm hne
    · obtain ⟨-,htab,hne⟩ := hnew a hai ha
      rw [hbi,h.table_eq,htab] at hab
      exact absurd hab hne
    · obtain ⟨ha',hta,-⟩ := hnew a hai ha
      obtain ⟨hb',htb,-⟩ := hnew b hbi hb
      rw [hta,htb] at hab
      exact hd.distinct a b ha' hb' hab
  · by_cases hai : a = i
    · rwa [hai,h.table_eq]
    · obtain ⟨ha',hta,-⟩ := hnew a hai ha
      rw [hta]
      exact hd.apart a ha'
  · obtain ⟨hc,hck⟩ := (h.free_iff _).mp hc
    by_cases hai : a = i
    · exact hck (by rw [hai,h.table_eq])
    · obtain ⟨ha',hta,-⟩ := hnew a hai ha
      rw [hta] at hc
      exact hd.used a ha' hc
  · exact hd.used_dir ((h.free_iff _).mp hc).1

theorem Installed.lookup_eq {s s' : Vm} {i k : ℕ} (h : Installed s s' i k)
    (hd : s.DirOk s.directory) (hempty : present (s.pde i) = false) {n : ℕ} (hn : n < 1023*1024) :
    s'.lookup s.directory n = s.lookup s.directory n := by
  obtain ⟨a,b,hb,rfl⟩ : ∃ a b, b < 1024 ∧ n = a*1024+b := ⟨n/1024,n%1024,by omega,by omega⟩
  by_cases hai : a = i
  · subst hai
    have hnot : ¬ s.IsTable s.directory ((a*1024+b)/1024) := by
      rw [show (a*1024+b)/1024 = a by omega]
      intro hc
      exact absurd hc.2.1 (by rw [show s.phys s.directory a = s.pde a from rfl,hempty]; decide)
    rw [lookup_of_not_table hn hnot,lookup_of_isTable h.isTable hb,h.table_eq,h.cleared]
    rfl
  · obtain ⟨hiff,htab⟩ := h.isTable_iff hai
    by_cases ht : s.IsTable s.directory a
    · rw [lookup_of_isTable ht hb,lookup_of_isTable (hiff.mpr ht) hb,htab,
        h.frames _ ?_ (hd.apart a ht)]
      exact fun he => hd.used a ht (he ▸ h.was_free)
    · have hdiv : (a*1024+b)/1024 = a := by omega
      rw [lookup_of_not_table hn (by rw [hdiv]; exact fun hc => ht (hiff.mp hc)),
        lookup_of_not_table hn (by rwa [hdiv])]

/-- The flags that `k_mem_paging_map` uses. -/
def mapFlags (flags : ℕ) : ℕ := if flags = 0 then PAGE_PRESENT ||| PAGE_WRITABLE else flags

theorem mapFlags_lt {flags : ℕ} (h : flags < 0x100) : mapFlags flags < 0x1000 := by
  rw [mapFlags]
  split
  · decide
  · omega

/-- Where the table exists, mapping a frame is the write of one entry. -/
theorem map_of_present {s : Vm} {vaddr paddr flags : ℕ} (hp : present (s.pde (PDE vaddr)) = true)
    (h0 : paddr ≠ 0) :
    s.kMemPagingMap vaddr paddr flags =
      if present (s.pte (PDE vaddr) (PTE vaddr)) then
        .error (.panic ("Remapping 0x" ++ fmtX8 vaddr))
      else .ok (s.setWord (s.ptFrame (PDE vaddr)) (PTE vaddr) (paddr%W32 ||| mapFlags flags)) := by
  simp only [kMemPagingMap,hp,if_true,h0,if_false,bind,Except.bind,pure,Except.pure]
  split <;> rfl

/-- Where it does not, the call goes on as if the new table had always been there. -/
theorem map_of_absent {s s' : Vm} {vaddr paddr flags : ℕ}
    (hp : present (s.pde (PDE vaddr)) = false)
    (hret : s.kMemPagingMap vaddr paddr flags = .ok s') :
    ∃ s₁, s.installTable (PDE vaddr) (mapFlags flags) = .ok s₁ ∧
      (present (s₁.pde (PDE vaddr)) = true → s₁.kMemPagingMap vaddr paddr flags = .ok s') := by
  simp only [kMemPagingMap,hp,Bool.false_eq_true,if_false] at hret
  obtain ⟨s₁,hinst,hret⟩ := Result.bind_eq_ok.mp hret
  refine ⟨s₁,hinst,fun hp₁ => ?_⟩
  simp only [kMemPagingMap,hp₁,if_true]
  exact hret

theorem PDE_lt {v : ℕ} (hv : v < USABLE_MEMORY_END) : PDE v < 1023 := by
  simp only [USABLE_MEMORY_END] at hv
  rw [PDE]
  omega

theorem PTE_lt (v : ℕ) : PTE v < 1024 := Nat.mod_lt _ (by decide)

theorem page_number (v : ℕ) : PDE v*1024+PTE v = v/0x1000 := by
  rw [PDE,PTE]
  omega

theorem map_present_spec {s s' : Vm} (hd : s.DirOk s.directory) {v p flags : ℕ}
    (hi : s.IsTable s.directory (PDE v)) (hp : p%0x1000 = 0) (hp0 : p ≠ 0) (hplt : p < W32)
    (hfl : flags < 0x100) (hret : s.kMemPagingMap v p flags = .ok s') :
    s' = s.setWord (s.table s.directory (PDE v)) (PTE v) (p ||| mapFlags flags) ∧
    s.lookup s.directory (v/0x1000) = none ∧
    ∀ n < 1023*1024, s'.lookup s.directory n =
      if n = v/0x1000 then (if present (mapFlags flags) then some (p/0x1000) else none)
      else s.lookup s.directory n := by
  rw [map_of_present hi.2.1 hp0] at hret
  cases hpte : present (s.pte (PDE v) (PTE v)) with
  | true =>
    rw [hpte] at hret
    cases hret
  | false =>
    rw [hpte] at hret
    have he := (Except.ok.inj hret).symm
    rw [hd.ptFrame_eq,Nat.mod_eq_of_lt hplt] at he
    subst he
    refine ⟨rfl,?_,fun n hn => ?_⟩
    · rw [pte,hd.ptFrame_eq] at hpte
      rw [← page_number,lookup_of_isTable hi (PTE_lt v),hpte]
      rfl
    · rw [hd.lookup_setEntry hi (PTE_lt v) _ hn,page_number]
      obtain ⟨k,rfl⟩ : ∃ k, p = 0x1000*k := ⟨p/0x1000,by omega⟩
      have hk : k < 0x100000 := by simp only [W32] at hplt; omega
      rw [present_or (mapFlags_lt hfl),page_or hk (mapFlags_lt hfl),
        show 0x1000*k/0x1000 = k by omega]

theorem map_present_returns {s : Vm} (hd : s.DirOk s.directory) {v p : ℕ} (flags : ℕ)
    (hi : s.IsTable s.directory (PDE v)) (hp0 : p ≠ 0)
    (hnone : s.lookup s.directory (v/0x1000) = none) :
    ∃ s', s.kMemPagingMap v p flags = .ok s' := by
  rw [← page_number,lookup_of_isTable hi (PTE_lt v)] at hnone
  have hpte : ¬ present (s.pte (PDE v) (PTE v)) = true := fun hc => by
    rw [pte,hd.ptFrame_eq] at hc
    rw [if_pos hc] at hnone
    cases hnone
  exact ⟨_,by rw [map_of_present hi.2.1 hp0,if_neg hpte]⟩

/-- The table of `v` exists, or the search will meet a free frame below 4 GiB. -/
def TableAvailable (s : Vm) (v : ℕ) : Prop :=
  present (s.pde (PDE v)) = true ∨
    ∃ k, 32*s.pmm.firstFreeIndex ≤ k ∧ k < 0x100000 ∧ s.pmm.IsFree k

/-- No entry of the directory maps 4 MiB. -/
def NoLarge (s : Vm) : Prop := ∀ i < 1023, present (s.pde i) = true → large (s.pde i) = false

theorem map_spec {s s' : Vm} (hd : s.DirOk s.directory) (hl : s.NoLarge) {v p flags : ℕ}
    (hv : v < USABLE_MEMORY_END) (hp : p%0x1000 = 0) (hp0 : p ≠ 0) (hplt : p < W32)
    (hfl : flags < 0x100) (hroom : s.TableAvailable v) (hret : s.kMemPagingMap v p flags = .ok s') :
    s'.directory = s.directory ∧ s'.DirOk s.directory ∧ s'.NoLarge ∧
    ∀ n < 1023*1024, s'.lookup s.directory n =
      if n = v/0x1000 then (if present (mapFlags flags) then some (p/0x1000) else none)
      else s.lookup s.directory n := by
  cases hpd : present (s.pde (PDE v)) with
  | true =>
    have hi : s.IsTable s.directory (PDE v) := ⟨PDE_lt hv,hpd,hl _ (PDE_lt hv) hpd⟩
    obtain ⟨rfl,-,hlook⟩ := map_present_spec hd hi hp hp0 hplt hfl hret
    refine ⟨rfl,hd.setEntry hi _ _,fun i hi' hpi => ?_,hlook⟩
    rw [pde,directory_setWord,phys_setWord_frame _ _ _ _ (hd.apart _ hi).symm] at hpi ⊢
    exact hl i hi' hpi
  | false =>
    obtain ⟨k,hk1,hk2,hk3⟩ := hroom.resolve_left (by simp [hpd])
    obtain ⟨s₁,hinst,hret⟩ := map_of_absent hpd hret
    obtain ⟨k',hins⟩ := installTable_spec hd (PDE_lt hv) hk1 hk3 hk2 hinst
    have hd₁ : s₁.DirOk s₁.directory := hins.directory_eq ▸ hins.dirOk hd
    have hi₁ : s₁.IsTable s₁.directory (PDE v) := hins.directory_eq ▸ hins.isTable
    obtain ⟨rfl,-,hlook⟩ := map_present_spec hd₁ hi₁ hp hp0 hplt hfl (hret hi₁.2.1)
    rw [hins.directory_eq] at hd₁ hi₁ hlook ⊢
    refine ⟨hins.directory_eq,hd₁.setEntry hi₁ _ _,fun i hi hpi => ?_,fun n hn => ?_⟩
    · rw [pde,directory_setWord,hins.directory_eq,
        phys_setWord_frame _ _ _ _ (hd₁.apart _ hi₁).symm] at hpi ⊢
      by_cases hiv : i = PDE v
      · rw [hiv]
        exact hi₁.2.2
      · rw [hins.entries i hiv] at hpi ⊢
        exact hl i hi hpi
    · rw [hlook n hn,hins.lookup_eq hd hpd hn]

theorem unmap_spec {s : Vm} (hd : s.DirOk s.directory) (hl : s.NoLarge) {v : ℕ}
    (hv : v < USABLE_MEMORY_END) :
    (s.kMemPagingUnmap v).directory = s.directory ∧ (s.kMemPagingUnmap v).DirOk s.directory ∧
    (s.kMemPagingUnmap v).NoLarge ∧
    ∀ n < 1023*1024, (s.kMemPagingUnmap v).lookup s.directory n =
      if n = v/0x1000 then none else s.lookup s.directory n := by
  cases hpd : present (s.pde (PDE v)) with
  | false =>
    have he : s.kMemPagingUnmap v = s := by simp [kMemPagingUnmap,hpd]
    rw [he]
    refine ⟨rfl,hd,hl,fun n hn => ?_⟩
    split
    · rename_i hnv
      refine lookup_of_not_table hn fun hc => ?_
      rw [show n/1024 = PDE v by rw [hnv,PDE]; omega] at hc
      exact absurd hc.2.1 (by
        rw [show s.phys s.directory (PDE v) = s.pde (PDE v) from rfl,hpd]; decide)
    · rfl
  | true =>
    have hi : s.IsTable s.directory (PDE v) := ⟨PDE_lt hv,hpd,hl _ (PDE_lt hv) hpd⟩
    have he : s.kMemPagingUnmap v = s.setWord (s.table s.directory (PDE v)) (PTE v) 0 := by
      simp [kMemPagingUnmap,hpd,hd.ptFrame_eq]
    rw [he]
    refine ⟨rfl,hd.setEntry hi _ _,fun i hi' hpi => ?_,fun n hn => ?_⟩
    · rw [pde,directory_setWord,phys_setWord_frame _ _ _ _ (hd.apart _ hi).symm] at hpi ⊢
      exact hl i hi' hpi
    · rw [hd.lookup_setEntry hi (PTE_lt v) _ hn,page_number]
      rfl

/-- The map of a whole address space, from page addresses to page addresses. -/
def mapping (s : Vm) (v : ℕ) : Option ℕ := (s.lookup s.directory (v/0x1000)).map (·*0x1000)

/-- One call on the current address space, with its effect on an abstract map. -/
inductive PageCall : Vm × (ℕ → Option ℕ) → Vm × (ℕ → Option ℕ) → Prop
  | map {s s' : Vm} {m : ℕ → Option ℕ} {v p flags : ℕ} (hv : v%0x1000 = 0)
      (hvlt : v < USABLE_MEMORY_END) (hp : p%0x1000 = 0) (hp0 : p ≠ 0) (hplt : p < W32)
      (hfl : flags < 0x100) (hpres : flags = 0 ∨ flags%2 = 1) (hnew : m v = none)
      (hroom : s.TableAvailable v) (hret : s.kMemPagingMap v p flags = .ok s') :
      PageCall (s,m) (s',Function.update m v (some p))
  | unmap {s : Vm} {m : ℕ → Option ℕ} {v : ℕ} (hv : v%0x1000 = 0) (hvlt : v < USABLE_MEMORY_END) :
      PageCall (s,m) (s.kMemPagingUnmap v,Function.update m v none)

structure Refines (s : Vm) (m : ℕ → Option ℕ) : Prop where
  dirOk : s.DirOk s.directory
  noLarge : s.NoLarge
  agree : ∀ v, v%0x1000 = 0 → v < USABLE_MEMORY_END → m v = s.mapping v

theorem mapFlags_present {flags : ℕ} (h : flags = 0 ∨ flags%2 = 1) :
    present (mapFlags flags) = true := by
  rw [mapFlags]
  split
  · decide
  · simp only [present,beq_iff_eq]
    omega

theorem page_in_range {v : ℕ} (hv : v < USABLE_MEMORY_END) : v/0x1000 < 1023*1024 := by
  simp only [USABLE_MEMORY_END] at hv
  omega

theorem PageCall.refines {c c' : Vm × (ℕ → Option ℕ)} (h : Refines c.1 c.2)
    (hcall : PageCall c c') : Refines c'.1 c'.2 := by
  cases hcall with
  | map hv hvlt hp hp0 hplt hfl hpres hnew hroom hret =>
    rename_i s s' m v p flags
    obtain ⟨hdir,hd,hl,hlook⟩ := map_spec h.dirOk h.noLarge hvlt hp hp0 hplt hfl hroom hret
    refine ⟨hdir ▸ hd,hl,fun u hu hult => ?_⟩
    show Function.update m v (some p) u = _
    rw [mapping,hdir,hlook _ (page_in_range hult)]
    by_cases huv : u = v
    · subst huv
      rw [if_pos rfl,mapFlags_present hpres,Function.update_self]
      simp only [if_true,Option.map_some]
      congr 1
      omega
    · rw [if_neg (by omega),Function.update_of_ne huv]
      exact h.agree u hu hult
  | unmap hv hvlt =>
    rename_i s m v
    obtain ⟨hdir,hd,hl,hlook⟩ := unmap_spec h.dirOk h.noLarge hvlt
    refine ⟨hdir ▸ hd,hl,fun u hu hult => ?_⟩
    show Function.update m v none u = _
    rw [mapping,hdir,hlook _ (page_in_range hult)]
    by_cases huv : u = v
    · subst huv
      rw [if_pos rfl,Function.update_self]
      rfl
    · rw [if_neg (by omega),Function.update_of_ne huv]
      exact h.agree u hu hult

theorem Refines.translate {s : Vm} {m : ℕ → Option ℕ} (h : Refines s m) {v o : ℕ}
    (hv : v%0x1000 = 0) (hvlt : v < USABLE_MEMORY_END) (ho : o < 0x1000) :
    s.kMemPagingVirt2phys (v+o) = (m v).elim 0 (·+o) := by
  have hn := page_in_range hvlt
  have hsplit : v+o = v/0x1000*0x1000+o := by omega
  rw [hsplit,h.dirOk.virt2phys_eq ho fun hp => h.noLarge _ (by omega) hp,h.agree v hv hvlt,mapping]
  cases s.lookup s.directory (v/0x1000) <;> rfl

/-- In every run on an address space without 4 MiB pages where each table that has to
be installed finds a free frame below 4 GiB, translation agrees with the abstract map;
and such a call changes the translation of no page but its own. -/
theorem page_tables_refine {s₀ : Vm} (hd : s₀.DirOk s₀.directory) (hl : s₀.NoLarge)
    {s : Vm} {m : ℕ → Option ℕ}
    (hrun : Relation.ReflTransGen PageCall (s₀,s₀.mapping) (s,m)) :
    (∀ v o, v%0x1000 = 0 → v < USABLE_MEMORY_END → o < 0x1000 →
      s.kMemPagingVirt2phys (v+o) = (m v).elim 0 (·+o)) ∧
    ∀ v p flags s', v%0x1000 = 0 → v < USABLE_MEMORY_END → p%0x1000 = 0 → p ≠ 0 → p < W32 →
      flags < 0x100 → (flags = 0 ∨ flags%2 = 1) → m v = none → s.TableAvailable v →
      s.kMemPagingMap v p flags = .ok s' →
      ∀ u o, u%0x1000 = 0 → u < USABLE_MEMORY_END → o < 0x1000 → u ≠ v →
        s'.kMemPagingVirt2phys (u+o) = s.kMemPagingVirt2phys (u+o) := by
  have href : Refines s m := reach_invariant (I:=fun c => Refines c.1 c.2)
    (fun _ _ => PageCall.refines) ⟨hd,hl,fun _ _ _ => rfl⟩ hrun
  refine ⟨fun v o hv hvlt ho => href.translate hv hvlt ho,?_⟩
  intro v p flags s' hv hvlt hp hp0 hplt hfl hpres hnew hroom hret u o hu hult ho huv
  have href' := (PageCall.map hv hvlt hp hp0 hplt hfl hpres hnew hroom hret).refines href
  rw [href'.translate hu hult ho,href.translate hu hult ho]
  simp [Function.update_of_ne huv]

def onePage (pmm : Pmm) : Vm where
  pmm := pmm
  phys f i := if f = 1 ∧ i = 1023 then 0x1003 else if f = 1 ∧ i = 0 then 0x5003
    else if f = 5 ∧ i = 0 then 0x9003 else 0
  directory := 1
  firstFreeAddress := LOWMEM_START
  heapEnd := HEAP_START

theorem onePage_pde (pmm : Pmm) {i : ℕ} (hi : i < 1023)
    (hp : present ((onePage pmm).phys 1 i) = true) :
    i = 0 := by
  by_contra hc
  have : (onePage pmm).phys 1 i = 0 := by simp [onePage,hc,show i ≠ 1023 by omega]
  rw [this] at hp
  cases hp

theorem onePage_ok (pmm : Pmm) (h1 : ¬ pmm.IsFree 1) (h5 : ¬ pmm.IsFree 5) :
    (onePage pmm).DirOk 1 ∧ (onePage pmm).NoLarge := by
  have hself : (onePage pmm).phys 1 1023 = 0x1003 := by simp [onePage]
  have hzero : (onePage pmm).phys 1 0 = 0x5003 := by simp [onePage]
  have htable : (onePage pmm).table 1 0 = 5 := by rw [table,hzero]; decide
  refine ⟨⟨by rw [hself]; decide,fun i j hi hj _ => ?_,fun i hi => ?_,fun i hi => ?_,h1⟩,
    fun i hi hp => ?_⟩
  · rw [onePage_pde pmm hi.1 hi.2.1,onePage_pde pmm hj.1 hj.2.1]
  · obtain rfl := onePage_pde pmm hi.1 hi.2.1
    rw [htable]
    decide
  · obtain rfl := onePage_pde pmm hi.1 hi.2.1
    rw [htable]
    exact h5
  · obtain rfl := onePage_pde pmm hi hp
    rw [pde,show (onePage pmm).directory = 1 from rfl,hzero]
    decide

def lowFrames : Pmm := ⟨fun i => if i = 0 then 0xC0#32 else 0#32,1,0,0,0,2⟩

theorem page_tables_refine_one_page :
    ∃ s m, Relation.ReflTransGen PageCall (onePage lowFrames,(onePage lowFrames).mapping) (s,m) ∧
      s.kMemPagingVirt2phys 0x401023 = 0x7023 ∧ s.kMemPagingVirt2phys 0x10 = 0x9010 := by
  have heval : ((onePage lowFrames).kMemPagingMap 0x401000 0x7000 0).map
      (fun s => (s.kMemPagingVirt2phys 0x401023,s.kMemPagingVirt2phys 0x10)) =
      .ok (0x7023,0x9010) := by decide +kernel
  obtain ⟨hd,hl⟩ := onePage_ok lowFrames (by decide) (by decide)
  cases hret : (onePage lowFrames).kMemPagingMap 0x401000 0x7000 0 with
  | error e => rw [hret] at heval; cases heval
  | ok s' =>
    have hrun :=
      Relation.ReflTransGen.single (PageCall.map (m:=(onePage lowFrames).mapping) (v:=0x401000)
      (p:=0x7000) (by decide) (by decide) (by decide) (by decide) (by decide) (by decide)
      (.inl rfl) (by decide) (.inr ⟨6,by decide,by decide,by decide⟩) hret)
    have href := page_tables_refine hd hl hrun
    refine ⟨_,_,hrun,?_,?_⟩
    · rw [show 0x401023 = 0x401000+0x23 from rfl,href.1 0x401000 0x23 (by decide) (by
        decide) (by decide)]
      rfl
    · rw [show 0x10 = 0+0x10 from rfl,href.1 0 0x10 (by decide) (by decide) (by decide)]
      rfl

def highFrames : Pmm := ⟨fun i => if i = 32768 then 0x20#32 else 0#32,32769,32768,0,0,1⟩

/-- The frame for a new page table comes back truncated and is the table of page 0,
whose translation is lost. -/
theorem new_table_clears_other_table :
    ∃ s s' : Vm, s.DirOk s.directory ∧ s.NoLarge ∧ s.mapping 0x401000 = none ∧
      s.kMemPagingMap 0x401000 0x7000 0 = .ok s' ∧
      s.kMemPagingVirt2phys 0 = 0x9000 ∧ s'.kMemPagingVirt2phys 0 = 0 := by
  have heval : ((onePage highFrames).kMemPagingMap 0x401000 0x7000 0).map
      (fun s => s.kMemPagingVirt2phys 0) = .ok 0 := by decide +kernel
  obtain ⟨hd,hl⟩ := onePage_ok highFrames (by decide) (by decide)
  cases hret : (onePage highFrames).kMemPagingMap 0x401000 0x7000 0 with
  | error e => rw [hret] at heval; cases heval
  | ok s' =>
    refine ⟨onePage highFrames,s',hd,hl,by decide,hret,by decide,?_⟩
    rw [hret] at heval
    exact Except.ok.inj heval

end Vm
end ScalesOS
