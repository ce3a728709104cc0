import ScalesOS.ShmRuns
import ScalesOS.WindowSearch

/-! Ranges of pages that are mapped and unmapped one by one. Inside the user half and behind the
kernel image every page has an entry of its own, and only the entries of the range change. What is
mapped stays mapped however far a range of new pages runs. -/
namespace ScalesOS
namespace Vm

open Entry Pmm

def SmallSlot (i : ℕ) : Prop := i < KERNEL_PD ∨ (PDE LOWMEM_START ≤ i ∧ i < 1023)

structure Paged (s : Vm) : Prop where
  windowsOk : s.WindowsOk
  user_small : ∀ i < KERNEL_PD, present (s.pde i) = true → large (s.pde i) = false
  small : s.pmm.bitmapSize ≤ 0x8000

structure Remaps (s s' : Vm) (pages : ℕ → Prop) : Prop where
  paged : s'.Paged
  directory_eq : s'.directory = s.directory
  takes : s.Takes s'
  lookup_eq : ∀ n < 1023*1024, ¬pages n → s'.lookup s.directory n = s.lookup s.directory n

variable {s s' : Vm} {pages : ℕ → Prop}

theorem Remaps.refl (hs : s.Paged) (pages : ℕ → Prop) : s.Remaps s pages :=
  ⟨hs,rfl,.refl _,fun _ _ _ => rfl⟩

theorem Remaps.trans {s'' : Vm} (h : s.Remaps s' pages) (h' : s'.Remaps s'' pages) :
    s.Remaps s'' pages where
  paged := h'.paged
  directory_eq := h'.directory_eq.trans h.directory_eq
  takes := h.takes.trans h'.takes
  lookup_eq n hn hout := by
    have hlook := h'.lookup_eq n hn hout
    rw [h.directory_eq] at hlook
    exact hlook.trans (h.lookup_eq n hn hout)

theorem Remaps.mono {pages' : ℕ → Prop} (h : s.Remaps s' pages) (hsub : ∀ n, pages n → pages' n) :
    s.Remaps s' pages' :=
  { h with lookup_eq := fun n hn hout => h.lookup_eq n hn fun hin => hout (hsub n hin) }

theorem SmallSlot.lt {i : ℕ} (h : SmallSlot i) : i < 1023 := by
  have hkernel : KERNEL_PD < 1023 := by decide
  rcases h with h | h
  · omega
  · exact h.2

theorem Paged.isTable (hs : s.Paged) {i : ℕ} (hi : SmallSlot i) (hp : present (s.pde i) = true) :
    s.IsTable s.directory i := by
  rcases hi with huser | ⟨h1,h2⟩
  · exact ⟨SmallSlot.lt (.inl huser),hp,hs.user_small i huser hp⟩
  · exact hs.windowsOk.kernel_tables i h1 h2

theorem Paged.of_rewrites (hs : s.Paged) (h : s.Rewrites s' pages) (htakes : s.Takes s') :
    s.Remaps s' pages := by
  refine ⟨⟨h.windowsOk hs.windowsOk,fun i hi hp => ?_,?_⟩,h.directory_eq,htakes,h.lookup_eq⟩
  · have hpde : s'.pde i = s.pde i := by rw [pde,pde,h.directory_eq,h.dir_eq]
    rw [hpde] at hp ⊢
    exact hs.user_small i hi hp
  · rw [htakes.size_eq]
    exact hs.small

theorem Paged.withPmm (hs : s.Paged) {p : Pmm} (h : s.pmm.Takes p) (pages : ℕ → Prop) : s.Remaps
    { s with pmm := p } pages :=
  hs.of_rewrites (rewrites_pmm h pages) h

theorem Paged.setEntry (hs : s.Paged) {v : ℕ} (ht : s.IsTable s.directory (PDE v)) (w : ℕ) :
    s.Remaps (s.setWord (s.table s.directory (PDE v)) (PTE v) w) (· = v/0x1000) :=
  hs.of_rewrites (hs.windowsOk.dirOk.rewrites_setEntry ht w) (Pmm.Takes.refl s.pmm)

theorem Paged.installTable (hs : s.Paged) {i flags : ℕ} (hi : SmallSlot i)
    (habsent : present (s.pde i) = false) (h : s.installTable i flags = .ok s') :
    s.Remaps s' (fun _ => False) ∧ s'.IsTable s.directory i := by
  have hd := hs.windowsOk.dirOk
  have huser : i < KERNEL_PD := by
    refine hi.resolve_right fun ⟨h1,h2⟩ => ?_
    have ht := hs.windowsOk.kernel_tables i h1 h2
    exact Bool.false_ne_true (habsent.symm.trans ht.2.1)
  have hkernel : KERNEL_PD < PDE LOWMEM_START := by decide
  obtain ⟨⟨b,q⟩,halloc,-⟩ := Result.bind_eq_ok.mp h
  obtain ⟨k,-,-,hlo,hhi,hrun,-⟩ := allocFrames_ok halloc
  have hsmall := hs.small
  obtain ⟨k',hins⟩ := installTable_spec hd hi.lt hlo ⟨by omega,hrun 0 (by omega)⟩ (by omega) h
  have htakes : s.Takes s' := installTable_takes h
  have hdirOk := hins.dirOk hd
  have hpde : ∀ j, j ≠ i → s'.pde j = s.pde j := fun j hj => by
    rw [pde,hins.directory_eq]
    exact hins.entries j hj
  have hpaged : s'.Paged := by
    refine ⟨⟨hins.directory_eq ▸ hdirOk,fun j h1 h2 => ?_,?_,hins.directory_eq ▸
      hs.windowsOk.directory_ne,?_⟩,fun j hj hp => ?_,?_⟩
    · rw [hins.directory_eq,(hins.isTable_iff (show j ≠ i by omega)).1]
      exact hs.windowsOk.kernel_tables j h1 h2
    · rw [hpde 1023 (by have := hi.lt; omega)]
      exact hs.windowsOk.recursive
    · rw [hins.windows.1]
      exact hs.windowsOk.first
    · by_cases hji : j = i
      · have htable := hins.isTable.2.2
        rw [hji,pde,hins.directory_eq]
        exact htable
      · rw [hpde j hji] at hp ⊢
        exact hs.user_small j hj hp
    · rw [htakes.size_eq]
      exact hs.small
  exact ⟨⟨hpaged,hins.directory_eq,htakes,fun n hn _ => hins.lookup_eq hd habsent hn⟩,hins.isTable⟩

theorem Paged.enter (hs : s.Paged) {v p flags : ℕ} (ht : s.IsTable s.directory (PDE v))
    (h : enterPage v p flags s = .ok s') : s.lookup s.directory (v/0x1000) = none ∧
    s.Remaps s' (· = v/0x1000) ∧ ∃ b, (p ≠ 0 → b = p) ∧ s'.lookup s.directory (v/0x1000) =
        if present (b%W32 ||| flags) then some (page (b%W32 ||| flags)) else none := by
  obtain ⟨hnone,b,q,hq,hb,rfl⟩ := hs.windowsOk.dirOk.enterPage_eq ht h
  have hpmm := hs.withPmm hq (· = v/0x1000)
  refine ⟨hnone,hpmm.trans (hpmm.paged.setEntry ht _),b,hb,?_⟩
  have hslot : PDE v < 1023 := ht.1
  have hpage : PDE v*1024+PTE v < 1023*1024 := by have := PTE_lt v; omega
  rw [← page_number]
  exact (hpmm.paged.windowsOk.dirOk.lookup_setEntry ht (PTE_lt v) _ hpage).trans (if_pos rfl)

theorem Paged.map (hs : s.Paged) {v p flags : ℕ} (hv : SmallSlot (PDE v))
    (h : s.kMemPagingMap v p flags = .ok s') :
    s.lookup s.directory (v/0x1000) = none ∧ s.Remaps s' (· = v/0x1000) ∧
      ∃ b, (p ≠ 0 → b = p) ∧ s'.lookup s.directory (v/0x1000) =
        if present (b%W32 ||| mapFlags flags) then
            some (page (b%W32 ||| mapFlags flags)) else none := by
  rw [map_eq] at h
  obtain ⟨s₁,htable,h⟩ := Result.bind_eq_ok.mp h
  by_cases hp : present (s.pde (PDE v)) = true
  · rw [if_pos hp] at htable
    obtain rfl := Except.ok.inj htable
    exact hs.enter (hs.isTable hv hp) h
  · rw [if_neg hp] at htable
    obtain ⟨hnew,ht⟩ := hs.installTable hv (Bool.eq_false_of_not_eq_true hp) htable
    rw [← hnew.directory_eq] at ht
    obtain ⟨hnone,hremaps,hentry⟩ := hnew.paged.enter ht h
    have hpage : v/0x1000 < 1023*1024 := by
      have := hv.lt
      rw [← page_number]
      have := PTE_lt v
      omega
    rw [hnew.directory_eq,hnew.lookup_eq _ hpage id] at hnone
    rw [hnew.directory_eq] at hentry
    exact ⟨hnone,(hnew.mono fun _ => False.elim).trans hremaps,hentry⟩

theorem Paged.unmap (hs : s.Paged) {v : ℕ} (hv : SmallSlot (PDE v)) :
    s.Remaps (s.kMemPagingUnmap v) (· = v/0x1000) ∧
    (s.kMemPagingUnmap v).lookup s.directory (v/0x1000) = none := by
  have hslot := hv.lt
  have hpage : PDE v*1024+PTE v < 1023*1024 := by have := PTE_lt v; omega
  rw [kMemPagingUnmap,← page_number]
  by_cases hp : present (s.pde (PDE v)) = true
  · have ht := hs.isTable hv hp
    have hd := hs.windowsOk.dirOk
    rw [hp,Bool.not_true,if_neg Bool.false_ne_true,hd.ptFrame_eq]
    refine ⟨by simpa only [page_number] using hs.setEntry ht 0,?_⟩
    rw [hd.lookup_setEntry ht (PTE_lt v) 0 hpage,if_pos rfl]
    rfl
  · rw [Bool.eq_false_of_not_eq_true hp,Bool.not_false,if_pos rfl]
    refine ⟨.refl hs _,lookup_of_not_table hpage fun ht => hp ?_⟩
    have hindex : (PDE v*1024+PTE v)/1024 = PDE v := by have := PTE_lt v; omega
    rw [hindex] at ht
    exact ht.2.1

def SmallRange (v n : ℕ) : Prop :=
  v+n*0x1000 ≤ VIRTUAL_BASE ∨ (LOWMEM_START ≤ v ∧ v+n*0x1000 ≤ USABLE_MEMORY_END)

def InRange (v n m : ℕ) : Prop := v/0x1000 ≤ m ∧ m < v/0x1000+n

instance (v n m : ℕ) : Decidable (InRange v n m) := inferInstanceAs (Decidable (_ ∧ _))

theorem SmallRange.lt {v n : ℕ} (h : SmallRange v n) : v+n*0x1000 ≤ USABLE_MEMORY_END := by
  have hlimit : VIRTUAL_BASE ≤ USABLE_MEMORY_END := by decide
  rcases h with h | h
  · omega
  · exact h.2

theorem SmallRange.slot {v n : ℕ} (h : SmallRange v (n+1)) : SmallSlot (PDE v) := by
  rcases h with h | ⟨h1,h2⟩
  · refine .inl ?_
    simp only [VIRTUAL_BASE,KERNEL_PD,PDE] at *
    omega
  · exact .inr (window_slot h1 (show v < USABLE_MEMORY_END by omega))

theorem SmallRange.tail {v n : ℕ} (h : SmallRange v (n+1)) : SmallRange (v+0x1000) n := by
  rcases h with h | ⟨h1,h2⟩
  · exact .inl (by omega)
  · exact .inr ⟨by omega,by omega⟩

theorem SmallRange.init {v n : ℕ} (h : SmallRange v (n+1)) : SmallRange v n := by
  rw [SmallRange,Nat.succ_mul,← Nat.add_assoc] at h
  exact h.imp (Nat.le_of_add_right_le ·) fun h => ⟨h.1,Nat.le_of_add_right_le h.2⟩

theorem SmallRange.last {v n : ℕ} (h : SmallRange v (n+1)) : SmallRange (v+n*0x1000) 1 := by
  rw [SmallRange,Nat.succ_mul,← Nat.add_assoc] at h
  rw [SmallRange,Nat.one_mul]
  exact h.imp id fun h => ⟨h.1.trans (Nat.le_add_right _ _),h.2⟩

theorem SmallRange.page_lt {v n m : ℕ} (h : SmallRange v n) (hm : InRange v n m) :
    m < 1023*1024 := by
  have hlt := h.lt
  obtain ⟨-,h2⟩ := hm
  simp only [USABLE_MEMORY_END] at hlt
  omega

theorem inRange_head {v n : ℕ} {m : ℕ} (h : m = v/0x1000) : InRange v (n+1) m := by
  rw [InRange]
  omega

theorem inRange_tail {v n m : ℕ} (h : InRange (v+0x1000) n m) : InRange v (n+1) m := by
  have hnext : (v+0x1000)/0x1000 = v/0x1000+1 := by omega
  rw [InRange,hnext] at h
  rw [InRange]
  omega

theorem Paged.mapScattered {flags : ℕ} (hflags : mapFlags flags%2 = 1) (n : ℕ) : ∀ {i v : ℕ}
    {s : Vm}, s.Paged → SmallRange v n → mapScattered 0 flags n i v s = .ok s' →
      s.Remaps s' (InRange v n) ∧ ∀ j < n, s'.lookup s.directory (v/0x1000+j) ≠ none := by
  induction n with
  | zero =>
    intro i v s hs _ h
    obtain rfl := Except.ok.inj h
    exact ⟨.refl hs _,fun j hj => absurd hj (Nat.not_lt_zero j)⟩
  | succ n ih =>
    intro i v s hs hv h
    rw [Vm.mapScattered,if_pos rfl] at h
    obtain ⟨⟨b,p⟩,halloc,h⟩ := Result.bind_eq_ok.mp h
    obtain ⟨s₁,hmap,h⟩ := Result.bind_eq_ok.mp h
    have hpmm := hs.withPmm (allocFrames_takes halloc) (InRange v (n+1))
    have hclaim :=
      hpmm.trans (hpmm.paged.of_rewrites (claimFrame_rewrites _ (b%W32) _) (claimFrame_takes _ _))
    obtain ⟨-,hentry,b',-,hpage⟩ := hclaim.paged.map hv.slot hmap
    rw [present_or_odd hflags,if_pos rfl,hclaim.directory_eq] at hpage
    have hfirst := hclaim.trans (hentry.mono fun m => inRange_head)
    have hlimit := hv.lt
    have hmax : USABLE_MEMORY_END < W32 := by decide
    have hnext : (v+0x1000)%W32 = v+0x1000 := Nat.mod_eq_of_lt (by omega)
    rw [hnext] at h
    obtain ⟨hrest,hmapped⟩ := ih hfirst.paged hv.tail h
    refine ⟨hfirst.trans (hrest.mono fun m => inRange_tail),fun j hj => ?_⟩
    rw [hfirst.directory_eq] at hmapped
    have hindex : (v+0x1000)/0x1000 = v/0x1000+1 := by omega
    cases j with
    | zero =>
      have hsame :=
        hrest.lookup_eq (v/0x1000) (hv.page_lt (inRange_head rfl)) (by rw [InRange,hindex]; omega)
      rw [hfirst.directory_eq] at hsame
      rw [Nat.add_zero,hsame,hpage]
      exact Option.some_ne_none _
    | succ j =>
      have hlater := hmapped j (by omega)
      rwa [hindex,Nat.add_assoc,Nat.add_comm 1] at hlater

theorem map_heapEnd {v p flags : ℕ} (h : s.kMemPagingMap v p flags = .ok s') :
    s'.heapEnd = s.heapEnd := by
  rw [map_eq] at h
  obtain ⟨s₁,htable,h⟩ := Result.bind_eq_ok.mp h
  have hentry : s'.heapEnd = s₁.heapEnd := by
    rw [enterPage] at h
    split at h
    · cases h
    obtain ⟨r,-,h⟩ := Result.bind_eq_ok.mp h
    obtain rfl := Except.ok.inj h
    rfl
  rw [hentry]
  split at htable
  · obtain rfl := Except.ok.inj htable
    rfl
  · obtain ⟨r,-,htable⟩ := Result.bind_eq_ok.mp htable
    dsimp only at htable
    split at htable
    · cases htable
    obtain rfl := Except.ok.inj htable
    rfl

theorem mapScattered_heapEnd {flags : ℕ} (n : ℕ) : ∀ {i v : ℕ}
    {s : Vm}, mapScattered 0 flags n i v s = .ok s' → s'.heapEnd = s.heapEnd := by
  induction n with
  | zero =>
    intro i v s h
    obtain rfl := Except.ok.inj h
    rfl
  | succ n ih =>
    intro i v s h
    rw [Vm.mapScattered,if_pos rfl] at h
    obtain ⟨⟨b,p⟩,-,h⟩ := Result.bind_eq_ok.mp h
    obtain ⟨s₁,hmap,h⟩ := Result.bind_eq_ok.mp h
    rw [ih h,map_heapEnd hmap,claimFrame]
    split <;> rfl

theorem Paged.growHeap (hs : s.Paged) {n : ℕ} (hstart : LOWMEM_START ≤ s.heapEnd)
    (hend : s.heapEnd+n*0x1000 ≤ USABLE_MEMORY_END)
    (h : s.growHeap n = .ok s') : s.Remaps s' (InRange s.heapEnd n) ∧
      ∀ j < n, s'.lookup s.directory (s.heapEnd/0x1000+j) ≠ none := by
  obtain ⟨t,hmap,h⟩ := Result.bind_eq_ok.mp h
  obtain rfl := Except.ok.inj h
  obtain ⟨hremaps,hmapped⟩ := hs.mapScattered rfl n (.inr ⟨hstart,hend⟩) hmap
  have hpaged : Paged { t with heapEnd := t.heapEnd+n*0x1000 } :=
    ⟨hremaps.paged.windowsOk.withHeap _,hremaps.paged.user_small,hremaps.paged.small⟩
  exact ⟨⟨hpaged,hremaps.directory_eq,hremaps.takes,hremaps.lookup_eq⟩,hmapped⟩

theorem Paged.mapShared {start flags : ℕ} (hlt : flags < 0x1000) (hodd : flags%2 = 1)
    (frames : List ℕ) :
    ∀ {i : ℕ} {s s' : Vm}, s.Paged → SmallRange (start+i*0x1000) frames.length →
      (∀ f ∈ frames, f ≠ 0 ∧ s.pmm.Used f) → mapShared start flags i frames s = .ok s' →
      s.Remaps s' (InRange (start+i*0x1000) frames.length) ∧
        ∀ j, (hj : j < frames.length) → s.lookup s.directory (start/0x1000+i+j) = none ∧
          s'.lookup s.directory (start/0x1000+i+j) = some (frames[j]/0x1000) := by
  induction frames with
  | nil =>
    intro i s s' hs _ _ h
    obtain rfl := Except.ok.inj h
    exact ⟨.refl hs _,fun j hj => absurd hj (Nat.not_lt_zero j)⟩
  | cons frame frames ih =>
    intro i s s' hs hv hframes h
    obtain ⟨s₁,hmap,hlater⟩ := Result.bind_eq_ok.mp h
    obtain ⟨hne,k,rfl,hk,-⟩ := hframes frame List.mem_cons_self
    rw [List.length_cons] at hv
    have hlimit := hv.lt
    have hmax : USABLE_MEMORY_END < W32 := by decide
    have hmod : (start+i*0x1000)%W32 = start+i*0x1000 := Nat.mod_eq_of_lt (by omega)
    have hword : 0x1000*k%W32 = 0x1000*k := Nat.mod_eq_of_lt (by simp only [W32]; omega)
    have hmapFlags : mapFlags flags = flags := by rw [mapFlags,if_neg (by rintro rfl; cases hodd)]
    rw [hmod] at hmap
    obtain ⟨hnone,hentry,b,hb,hpage⟩ := hs.map hv.slot hmap
    obtain rfl := hb hne
    rw [hmapFlags,present_or_odd hodd,if_pos rfl,hword,page_or hk hlt] at hpage
    have hfirst := hentry.mono fun m => @inRange_head _ frames.length m
    have hindex : (start+i*0x1000)/0x1000 = start/0x1000+i := Nat.add_mul_div_right _ _ (by decide)
    have hstep : start+(i+1)*0x1000 = start+i*0x1000+0x1000 := by
      rw [Nat.add_mul,Nat.one_mul,Nat.add_assoc]
    have hnext : (start+i*0x1000+0x1000)/0x1000 = start/0x1000+i+1 := by
      rw [Nat.add_div_right _ (by decide),hindex]
    obtain ⟨hrest,hmapped⟩ := @ih (i+1) s₁ s' hentry.paged (by rw [hstep]; exact hv.tail)
      (fun f hf => ⟨(hframes f (List.mem_cons_of_mem _ hf)).1,
        (hframes f (List.mem_cons_of_mem _ hf)).2.takes hentry.takes⟩) hlater
    rw [hstep] at hrest
    rw [hindex] at hnone hpage
    refine ⟨hfirst.trans (hrest.mono fun m => inRange_tail),fun j hj => ?_⟩
    cases j with
    | zero =>
      have hin : start/0x1000+i < 1023*1024 := hv.page_lt (inRange_head hindex.symm)
      have hsame := hrest.lookup_eq _ hin (by rw [InRange,hnext]; omega)
      rw [hentry.directory_eq] at hsame
      refine ⟨hnone,?_⟩
      rw [Nat.add_zero,hsame,hpage]
      exact congrArg some (Nat.mul_div_cancel_left k (by decide)).symm
    | succ j =>
      rw [List.length_cons] at hj
      obtain ⟨hbefore,hafter⟩ := hmapped j (by omega)
      rw [hentry.directory_eq] at hbefore hafter
      have hsum : start/0x1000+(i+1)+j = start/0x1000+i+(j+1) := by omega
      rw [hsum] at hbefore hafter
      have hin : start/0x1000+i+(j+1) < 1023*1024 := hv.page_lt (by rw [InRange,hindex]; omega)
      rw [hentry.lookup_eq _ hin (by rw [hindex]; omega)] at hbefore
      exact ⟨hbefore,hafter⟩

theorem Paged.unmapRegion (hs : s.Paged) {v : ℕ} (n : ℕ) (hv : SmallRange v n) :
    s.Remaps (s.kMemPagingUnmapRegion v n) (InRange v n) ∧
      ∀ j < n, (s.kMemPagingUnmapRegion v n).lookup s.directory (v/0x1000+j) = none := by
  induction n with
  | zero => exact ⟨.refl hs _,fun j hj => absurd hj (Nat.not_lt_zero j)⟩
  | succ n ih =>
    obtain ⟨hbefore,hnone⟩ := ih hv.init
    have hlimit := hv.lt
    have hmax : USABLE_MEMORY_END < W32 := by decide
    have hmod : (v+n*0x1000)%W32 = v+n*0x1000 := Nat.mod_eq_of_lt (by omega)
    have hindex : (v+n*0x1000)/0x1000 = v/0x1000+n := Nat.add_mul_div_right _ _ (by decide)
    rw [kMemPagingUnmapRegion,hmod]
    obtain ⟨hlast,hgone⟩ := hbefore.paged.unmap hv.last.slot
    rw [hindex] at hlast hgone
    rw [hbefore.directory_eq] at hgone
    refine ⟨(hbefore.mono fun m hm => ⟨hm.1,hm.2.trans (by omega)⟩).trans (hlast.mono fun m hm =>
      ⟨by omega,by omega⟩),fun j hj => ?_⟩
    by_cases hjn : j = n
    · rw [hjn]
      exact hgone
    · have hin : v/0x1000+j < 1023*1024 := hv.page_lt ⟨by omega,by omega⟩
      have hsame := hlast.lookup_eq _ hin (by omega)
      rw [hbefore.directory_eq] at hsame
      rw [hsame]
      exact hnone j (by omega)

structure SelfMapped (s : Vm) : Prop where
  self : page (s.phys s.directory 1023) = s.directory
  slot : present (s.phys s.directory 1023) = true
  used : ¬s.pmm.IsFree s.directory
  small : s.pmm.bitmapSize ≤ 0x8000

structure Retains (s s' : Vm) : Prop where
  directory_eq : s'.directory = s.directory
  takes : s.Takes s'
  word : ∀ f j, ¬s.pmm.IsFree f → present (s.phys f j) = true → s'.phys f j = s.phys f j

theorem Paged.selfMapped (hs : s.Paged) : s.SelfMapped :=
  ⟨hs.windowsOk.dirOk.self,hs.windowsOk.recursive.1,hs.windowsOk.dirOk.used_dir,hs.small⟩

theorem Retains.refl (s : Vm) : s.Retains s := ⟨rfl,.refl _,fun _ _ _ _ => rfl⟩

theorem Retains.trans {s'' : Vm} (h : s.Retains s') (h' : s'.Retains s'') : s.Retains s'' where
  directory_eq := h'.directory_eq.trans h.directory_eq
  takes := h.takes.trans h'.takes
  word f j hf hp := by
    have hsame := h.word f j hf hp
    rw [h'.word f j (fun hc => hf (h.takes.free f hc)) (by rwa [hsame]),hsame]

theorem Retains.selfMapped (hs : s.SelfMapped) (h : s.Retains s') : s'.SelfMapped := by
  have hslot := h.word s.directory 1023 hs.used hs.slot
  refine ⟨?_,?_,fun hc => ?_,?_⟩
  · rw [h.directory_eq,hslot]
    exact hs.self
  · rw [h.directory_eq,hslot]
    exact hs.slot
  · rw [h.directory_eq] at hc
    exact hs.used (h.takes.free _ hc)
  · rw [h.takes.size_eq]
    exact hs.small

theorem Retains.lookup (h : s.Retains s') (hd : s.DirOk s.directory) {n f : ℕ} (hn : n < 1023*1024)
    (hf : s.lookup s.directory n = some f) : s'.lookup s.directory n = some f := by
  by_cases ht : s.IsTable s.directory (n/1024)
  · have hentry := h.word _ (n/1024) hd.used_dir ht.2.1
    have htable : s'.table s.directory (n/1024) = s.table s.directory (n/1024) := by
      rw [table,hentry,table]
    have ht' : s'.IsTable s.directory (n/1024) := by
      rw [IsTable,hentry]
      exact ht
    have hindex : n/1024*1024+n%1024 = n := by omega
    have hj : n%1024 < 1024 := Nat.mod_lt _ (by decide)
    rw [← hindex] at hf ⊢
    rw [lookup_of_isTable ht hj] at hf
    rw [lookup_of_isTable ht' hj,htable]
    split at hf
    · rename_i hp
      rw [h.word _ (n%1024) (hd.used _ ht) hp,if_pos hp]
      exact hf
    · cases hf
  · rw [lookup_of_not_table hn ht] at hf
    cases hf

theorem Retains.withPmm {p : Pmm} (h : s.pmm.Takes p) : s.Retains { s with pmm := p } :=
  ⟨rfl,h,fun _ _ _ _ => rfl⟩

theorem enterPage_retains {v p flags : ℕ} (h : enterPage v p flags s = .ok s') : s.Retains s' := by
  have htakes := enterPage_takes h
  rw [enterPage] at h
  split at h
  · cases h
  rename_i hpte
  obtain ⟨⟨b,q⟩,-,h⟩ := Result.bind_eq_ok.mp h
  obtain rfl := Except.ok.inj h
  refine ⟨rfl,htakes,fun f j hf hp => ?_⟩
  -- the entry that is written was not present
  by_cases hframe : f = s.ptFrame (PDE v)
  · have hindex : j ≠ PTE v := fun hj => hpte (by rwa [hframe,hj] at hp)
    exact phys_setWord_index _ _ _ _ hindex
  · exact congrFun (phys_setWord_frame _ _ _ _ hframe) j

theorem SelfMapped.installTable_retains (hs : s.SelfMapped) {i flags : ℕ}
    (habsent : present (s.pde i) = false) (h : s.installTable i flags = .ok s') : s.Retains s' := by
  have htakes := installTable_takes h
  obtain ⟨⟨b,q⟩,halloc,h⟩ := Result.bind_eq_ok.mp h
  obtain ⟨k,rfl,hk,hwas,-⟩ := allocFrames_spec_small hs.small halloc
  have hsmall := hs.small
  have hi : 1023 ≠ i := fun hi => Bool.false_ne_true (habsent.symm.trans (hi ▸ hs.slot))
  have hfree : s.pmm.IsFree k := hwas 0 (by decide)
  dsimp only at h
  split at h
  · cases h
  obtain rfl := Except.ok.inj h
  generalize hfl : (if flags &&& PAGE_USER ≠ 0 then PAGE_PRESENT ||| PAGE_WRITABLE ||| PAGE_USER
    else PAGE_PRESENT ||| PAGE_WRITABLE) = fl at *
  have hlt : fl < 0x1000 := by
    rw [← hfl]
    split <;> decide
  have hword : (0x1000*k ||| fl)%W32 = 0x1000*k ||| fl :=
    Nat.mod_eq_of_lt (by rw [or_flags hlt]; simp only [W32]; omega)
  refine ⟨rfl,htakes,fun f j hf hp => ?_⟩
  rw [hword]
  have hframe : ptFrame (setWord { s with pmm := q } s.directory i (0x1000*k ||| fl)) i = k := by
    have hself := hs.self
    rw [ptFrame,directory_setWord,phys_setWord_index _ _ _ _ hi]
    dsimp only
    rw [hself,phys_setWord_self,page_or (by omega) hlt]
  have hother : f ≠ k := fun hfk => hf (hfk ▸ hfree)
  rw [hframe,phys_setPage_frame _ _ _ hother]
  by_cases hdir : f = s.directory
  · have hindex : j ≠ i := fun hj =>
      Bool.false_ne_true (habsent.symm.trans (by rwa [hdir,hj] at hp))
    exact phys_setWord_index _ _ _ _ hindex
  · exact congrFun (phys_setWord_frame _ _ _ _ hdir) j

theorem SelfMapped.map_retains (hs : s.SelfMapped) {v p flags : ℕ}
    (h : s.kMemPagingMap v p flags = .ok s') : s.Retains s' := by
  rw [map_eq] at h
  obtain ⟨s₁,htable,h⟩ := Result.bind_eq_ok.mp h
  refine Retains.trans ?_ (enterPage_retains h)
  split at htable
  · obtain rfl := Except.ok.inj htable
    exact .refl _
  · exact hs.installTable_retains (Bool.eq_false_of_not_eq_true ‹_›) htable

theorem SelfMapped.map_last (hs : s.SelfMapped) {v p flags : ℕ} (hpage : v/0x1000 = 0xFFFFF) :
    s.kMemPagingMap v p flags ≠ .ok s' := by
  intro h
  have hpde : PDE v = 1023 := by rw [PDE]; omega
  have hpte : PTE v = 1023 := by rw [PTE]; omega
  have hslot : present (s.pde 1023) = true := hs.slot
  have hframe : s.ptFrame 1023 = s.directory := by rw [ptFrame,hs.self,hs.self]
  rw [map_eq,hpde,if_pos hslot] at h
  change enterPage _ _ _ s = _ at h
  rw [enterPage,hpde,hpte,pte,hframe,if_pos hs.slot] at h
  cases h

theorem SelfMapped.mapScattered_end {flags : ℕ} (n : ℕ) : ∀ {i v : ℕ}
    {s : Vm}, s.SelfMapped → v < W32 →
    mapScattered 0 flags n i v s = .ok s' → v/0x1000+n ≤ 0xFFFFF := by
  induction n with
  | zero =>
    intro i v s _ hv _
    simp only [W32] at hv
    omega
  | succ n ih =>
    intro i v s hs hv h
    rw [Vm.mapScattered,if_pos rfl] at h
    obtain ⟨⟨b,p⟩,halloc,h⟩ := Result.bind_eq_ok.mp h
    obtain ⟨s₁,hmap,h⟩ := Result.bind_eq_ok.mp h
    have hclaim : s.Retains (claimFrame { s with pmm := p } (b%W32)) := by
      refine (Retains.withPmm (allocFrames_takes halloc)).trans ?_
      refine ⟨?_,claimFrame_takes _ _,fun f j _ _ => ?_⟩
      · rw [claimFrame]
        split <;> rfl
      · rw [claimFrame]
        split <;> rfl
    have hrec := hclaim.selfMapped hs
    have hne : v/0x1000 ≠ 0xFFFFF := fun hlast => hrec.map_last hlast hmap
    have hstep := (hrec.map_retains hmap).selfMapped hrec
    simp only [W32] at hv
    have hnext : (v+0x1000)%W32 = v+0x1000 := Nat.mod_eq_of_lt (by simp only [W32]; omega)
    rw [hnext] at h
    have hrest := ih hstep (by simp only [W32]; omega) h
    omega

theorem SelfMapped.mapShared_retains {start flags : ℕ} (frames : List ℕ) : ∀ {i : ℕ}
    {s : Vm}, s.SelfMapped → mapShared start flags i frames s = .ok s' → s.Retains s' := by
  induction frames with
  | nil =>
    intro i s _ h
    obtain rfl := Except.ok.inj h
    exact .refl _
  | cons frame frames ih =>
    intro i s hs h
    obtain ⟨s₁,hmap,h⟩ := Result.bind_eq_ok.mp h
    have hfirst := hs.map_retains hmap
    exact hfirst.trans (ih (hfirst.selfMapped hs) h)

end Vm
end ScalesOS
