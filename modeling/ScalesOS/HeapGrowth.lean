import ScalesOS.CloneSpace

/-!
# Growth of the kernel heap

The kernel heap grows by pages of its own, each backed by a fresh frame and entered in
kernel tables that all directories share.
-/

namespace ScalesOS

open Entry Pmm

/-- The frames below 2 GiB that are free. -/
@[irreducible] def Pmm.lowFree (p : Pmm) : Finset ℕ :=
  (Finset.range 0x80000).filter fun k => p.IsFree k

theorem Pmm.mem_lowFree {p : Pmm} {k : ℕ} : k ∈ p.lowFree ↔ k < 0x80000 ∧ p.IsFree k := by
  rw [lowFree,Finset.mem_filter,Finset.mem_range]

theorem Pmm.card_lowFree_of_lowest {p p' : Pmm} {k : ℕ} (hk : p.IsFree k)
    (hmin : ∀ l, p.IsFree l → k ≤ l) (hafter : ∀ l, p'.IsFree l ↔ p.IsFree l ∧ l ≠ k) :
    p'.lowFree.card = p.lowFree.card-1 := by
  by_cases hlow : k < 0x80000
  · have he : p'.lowFree = p.lowFree.erase k := by
      ext l
      rw [Finset.mem_erase,mem_lowFree,mem_lowFree,hafter l]
      tauto
    rw [he,Finset.card_erase_of_mem (mem_lowFree.mpr ⟨hlow,hk⟩)]
  · have hnone : ∀ l, ¬ (l < 0x80000 ∧ p.IsFree l) := fun l hl =>
      hlow (lt_of_le_of_lt (hmin l hl.2) hl.1)
    have he : p.lowFree = ∅ := by
      ext l
      simp only [mem_lowFree,Finset.notMem_empty,iff_false]
      exact hnone l
    have he' : p'.lowFree = ∅ := by
      ext l
      simp only [mem_lowFree,Finset.notMem_empty,iff_false,hafter l]
      exact fun hl => hnone l ⟨hl.1,hl.2.1⟩
    rw [he,he']
    rfl

/-- An allocation of one frame from an allocator whose search meets all free frames: it
returns the lowest one, if that is below 4 GiB. -/
theorem Pmm.allocFrame_lowest {p p' : Pmm} {f : ℕ} (hok : p.FirstFreeOk)
    (hlow : p.bitmapSize ≤ 0x8000 ∨ p.lowFree.Nonempty)
    (hret : kMemPmmAllocFrames p 1 = .ok (f,p')) :
    ∃ k, f = 0x1000*k ∧ k < 0x100000 ∧ p.IsFree k ∧ (∀ l, p.IsFree l → k ≤ l) ∧
      (∀ l, p'.IsFree l ↔ p.IsFree l ∧ l ≠ k) ∧ p'.bitmapSize = p.bitmapSize ∧ p'.FirstFreeOk := by
  have hfirst : ∀ l, p.IsFree l → 32*p.firstFreeIndex ≤ l := by
    intro l hl
    have := hok l hl
    omega
  obtain ⟨l,hl,hlt⟩ : ∃ l, p.IsFree l ∧ l < 0x100000 := by
    rcases hlow with hsize | ⟨l,hl⟩
    · obtain ⟨k,-,hk,hwas,-⟩ := allocFrames_spec_small hsize hret
      exact ⟨k,hwas 0 (by omega),by omega⟩
    · obtain ⟨h1,h2⟩ := mem_lowFree.mp hl
      exact ⟨l,h2,by omega⟩
  obtain ⟨k,q,hret',hk,hkf,hmin,hafter,hsize,hok'⟩ := allocFrame_spec (hfirst l hl) hl hlt
  rw [hret'] at hret
  obtain ⟨rfl,rfl⟩ := Prod.mk.inj (Except.ok.inj hret)
  exact ⟨k,rfl,hk,hkf,fun l hl => hmin l (hfirst l hl) hl,hafter,hsize,hok' hok⟩

namespace Vm

def HEAP_PAGE : ℕ := HEAP_START/0x1000

/-- `s'` is `s` after the heap of directory `d` has grown by `n` pages. -/
structure Grown (s s' : Vm) (d n : ℕ) : Prop where
  directory_eq : s'.directory = s.directory
  window_eq : s'.firstFreeAddress = s.firstFreeAddress
  words : ∀ f j, s'.phys f j ≠ s.phys f j →
    ∃ i, PDE LOWMEM_START ≤ i ∧ i < 1023 ∧ f = s.table d i ∧ HEAP_PAGE ≤ i*1024+j
  view : ∀ m < 1023*1024, m*0x1000 < s.heapEnd ∨ s.heapEnd+n*0x1000 ≤ m*0x1000 →
    s'.lookup d m = s.lookup d m
  free_iff : ∀ l, s'.pmm.IsFree l ↔ s.pmm.IsFree l ∧ ¬ ∃ m, s.heapEnd ≤ m*0x1000 ∧
    m*0x1000 < s.heapEnd+n*0x1000 ∧ s'.lookup d m = some l
  new_free : ∀ m, s.heapEnd ≤ m*0x1000 → m*0x1000 < s.heapEnd+n*0x1000 → ∀ l,
    s'.lookup d m = some l → s.pmm.IsFree l
  freed_eq : s'.pmm.freed = s.pmm.freed
  size_eq : s'.pmm.bitmapSize = s.pmm.bitmapSize
  first_ok : s'.pmm.FirstFreeOk
  card_eq : s'.pmm.lowFree.card = s.pmm.lowFree.card-n

theorem Grown.refl {s : Vm} (d : ℕ) (hok : s.pmm.FirstFreeOk) : Grown s s d 0 :=
  ⟨rfl,rfl,fun _ _ h => absurd rfl h,fun _ _ _ => rfl,
    fun _ => ⟨fun h => ⟨h,fun ⟨_,h1,h2,_⟩ => by omega⟩,fun h => h.1⟩,
    fun _ h1 h2 => by omega,rfl,rfl,hok,(Nat.sub_zero _).symm⟩

theorem Grown.free_sub {s s' : Vm} {d n : ℕ} (hg : Grown s s' d n) (l : ℕ) (h : s'.pmm.IsFree l) :
    s.pmm.IsFree l := ((hg.free_iff l).mp h).1

/-- A change inside kernel tables leaves the directory and its user half alone. -/
theorem Grown.dir_eq {s s' : Vm} {d n : ℕ} (hg : Grown s s' d n) (hs : s.SpaceOk d) :
    s'.phys d = s.phys d := by
  funext j
  by_contra hne
  obtain ⟨i,h1,h2,hf,-⟩ := hg.words d j hne
  exact hs.dirOk.apart i (hs.kernel_tables i h1 h2) hf.symm

theorem claimFrame_taken {t : Vm} {p' : Pmm} {k : ℕ} (hk : k < 0x100000) (hfree : t.pmm.IsFree k)
    (hafter : ∀ l, p'.IsFree l ↔ t.pmm.IsFree l ∧ l ≠ k)
    (hsize : p'.bitmapSize = t.pmm.bitmapSize) :
    claimFrame { t with pmm := p' } (0x1000*k) = { t with pmm := p' } := by
  refine if_pos ((isAllocated_iff p' hk).mpr ⟨?_,fun hc => ((hafter k).mp hc).2 rfl⟩)
  rw [hsize]
  exact hfree.1

theorem heap_pde {m : ℕ} (hm : HEAP_PAGE ≤ m) : PDE LOWMEM_START ≤ m/1024 := by
  have h1 : HEAP_PAGE = 0xF7001 := by decide
  have h2 : PDE LOWMEM_START = 772 := by decide
  omega

/-- A page of the heap has its table when the frame for it has been allocated. -/
theorem Grown.heap_table {s t : Vm} {n m : ℕ} {p' : Pmm} (hg : Grown s t s.directory n)
    (hs : s.SpaceOk s.directory)
    (hm : HEAP_PAGE ≤ m) (hm' : m < 1023*1024) (hsub : ∀ l, p'.IsFree l → t.pmm.IsFree l) :
    Vm.DirOk { t with pmm := p' } s.directory ∧
        Vm.IsTable { t with pmm := p' } s.directory (m/1024) := by
  have hdir := hg.dir_eq hs
  exact ⟨hs.dirOk.congr hdir fun l hl => hg.free_sub l (hsub l hl),
    (isTable_congr hdir _).mpr (hs.kernel_tables _ (heap_pde hm) (by omega))⟩

theorem Grown.page {s t t' : Vm} {n m : ℕ} (hs : s.SpaceOk s.directory) (hzero : ¬ s.pmm.IsFree 0)
    (hg : Grown s t s.directory n) (hm : HEAP_PAGE ≤ m) (hm' : m < 1023*1024)
    (hpage : s.heapEnd+n*0x1000 = m*0x1000)
    (hlow : s.pmm.bitmapSize ≤ 0x8000 ∨ n+1 ≤ s.pmm.lowFree.card) {r : ℕ × Pmm}
    (halloc : kMemPmmAllocFrames t.pmm 1 = .ok r)
    (hret : kMemPagingMap (claimFrame { t with pmm := r.2 } (r.1%W32)) (m*0x1000) (r.1%W32)
      (PAGE_PRESENT ||| PAGE_WRITABLE) = .ok t') :
    Grown s t' s.directory (n+1) ∧ t'.heapEnd = t.heapEnd := by
  obtain ⟨f,p'⟩ := r
  have hself : s.heapEnd ≤ m*0x1000 ∧ m*0x1000 < s.heapEnd+(n+1)*0x1000 := by omega
  have hpages : ∀ m', m' ≠ m →
      (m'*0x1000 < s.heapEnd+(n+1)*0x1000 ↔ m'*0x1000 < s.heapEnd+n*0x1000) := by
    intro m' hne
    omega
  have hbound : ∀ m', m'*0x1000 < s.heapEnd+(n+1)*0x1000 → m' < 1023*1024 := by
    intro m' h
    omega
  have houter : ∀ m', m'*0x1000 < s.heapEnd ∨ s.heapEnd+(n+1)*0x1000 ≤ m'*0x1000 →
      m' ≠ m ∧ (m'*0x1000 < s.heapEnd ∨ s.heapEnd+n*0x1000 ≤ m'*0x1000) := by
    intro m' h
    omega
  have hlow' : t.pmm.bitmapSize ≤ 0x8000 ∨ t.pmm.lowFree.Nonempty := by
    rw [hg.size_eq]
    refine hlow.imp id fun h => Finset.card_pos.mp ?_
    rw [hg.card_eq]
    omega
  obtain ⟨k,rfl,hk,hkf,hmin,hafter,hsize,hok⟩ := allocFrame_lowest hg.first_ok hlow' halloc
  have hk0 : k ≠ 0 := fun h => hzero (hg.free_sub 0 (h ▸ hkf))
  have hmod : 0x1000*k%W32 = 0x1000*k := Nat.mod_eq_of_lt (by simp only [W32]; omega)
  simp only [hmod,claimFrame_taken hk hkf hafter hsize] at hret
  have hdir := hg.dir_eq hs
  obtain ⟨hd,hit⟩ := hg.heap_table hs hm hm' fun l hl => ((hafter l).mp hl).1
  have hpd : PDE (m*0x1000) = m/1024 := by rw [PDE]; omega
  have hpt : PTE (m*0x1000) = m%1024 := by rw [PTE]; omega
  have htab : t.table s.directory (m/1024) = s.table s.directory (m/1024) := by
    rw [table,table,hdir]
  obtain ⟨he,-,hview⟩ :=
    map_present_spec (hg.directory_eq ▸ hd) (by rw [hpd]; exact hg.directory_eq ▸ hit)
    (by omega) (by omega) (by simp only [W32]; omega) (by decide) hret
  have hview : ∀ m' < 1023*1024, t'.lookup s.directory m' =
      if m' = m then some k else t.lookup s.directory m' := by
    intro m' hlt
    have h := hview m' hlt
    rw [show m*0x1000/0x1000 = m by omega,show 0x1000*k/0x1000 = k by omega] at h
    rw [← hg.directory_eq]
    exact h
  have hpmm : t'.pmm = p' := by rw [he]; rfl
  rw [hpmm.symm] at hafter hsize hok
  refine ⟨⟨?_,?_,fun g j hne => ?_,fun m' hlt hout => ?_,fun l => ?_,
    fun m' h1 h2 l hl => ?_,?_,hsize.trans hg.size_eq,hok,?_⟩,?_⟩
  · rw [he]; exact hg.directory_eq
  · rw [he]; exact hg.window_eq
  · by_cases hsame : t.phys g j = s.phys g j
    · rw [← hsame] at hne
      have hgj : g = t.table t.directory (PDE (m*0x1000)) ∧ j = PTE (m*0x1000) := by
        by_contra hc
        rw [he] at hne
        exact hne (if_neg hc)
      rw [hg.directory_eq,hpd,hpt,htab] at hgj
      exact ⟨m/1024,heap_pde hm,by omega,hgj.1,by omega⟩
    · exact hg.words g j hsame
  · obtain ⟨hne,hout⟩ := houter m' hout
    rw [hview m' hlt,if_neg hne]
    exact hg.view m' hlt hout
  · have hnew : (∃ m', s.heapEnd ≤ m'*0x1000 ∧ m'*0x1000 < s.heapEnd+(n+1)*0x1000 ∧
        t'.lookup s.directory m' = some l) ↔
        (∃ m', s.heapEnd ≤ m'*0x1000 ∧ m'*0x1000 < s.heapEnd+n*0x1000 ∧
          t.lookup s.directory m' = some l) ∨ l = k := by
      constructor
      · rintro ⟨m',h1,h2,h3⟩
        rw [hview m' (hbound m' h2)] at h3
        split at h3
        · exact .inr (Option.some.inj h3).symm
        · rename_i hne
          exact .inl ⟨m',h1,(hpages m' hne).mp h2,h3⟩
      · rintro (⟨m',h1,h2,h3⟩ | rfl)
        · have hne : m' ≠ m := by
            rintro rfl
            exact absurd h2 (not_lt.mpr hpage.le)
          have h2' := (hpages m' hne).mpr h2
          exact ⟨m',h1,h2',by rw [hview m' (hbound m' h2'),if_neg hne]; exact h3⟩
        · exact ⟨m,hself.1,hself.2,by rw [hview m hm',if_pos rfl]⟩
    rw [hafter l,hg.free_iff l,hnew,not_or,and_assoc]
  · rw [hview m' (hbound m' h2)] at hl
    split at hl
    · rw [← Option.some.inj hl]
      exact hg.free_sub k hkf
    · rename_i hne
      exact hg.new_free m' h1 ((hpages m' hne).mp h2) l hl
  · rw [hpmm]
    exact (allocFrames_freed halloc).trans hg.freed_eq
  · have hcard := card_lowFree_of_lowest hkf hmin hafter
    rw [hg.card_eq] at hcard
    exact hcard.trans (Nat.sub_sub _ _ _)
  · rw [he]
    rfl

theorem mapScattered_grown {s : Vm} (hs : s.SpaceOk s.directory) (hzero : ¬ s.pmm.IsFree 0)
    (n : ℕ) : ∀ t t' i m k, Grown s t s.directory k → HEAP_PAGE ≤ m → m+n ≤ 1023*1024 →
    s.heapEnd+k*0x1000 = m*0x1000 →
    (s.pmm.bitmapSize ≤ 0x8000 ∨ k+n ≤ s.pmm.lowFree.card) →
    mapScattered 0 (PAGE_PRESENT ||| PAGE_WRITABLE) n i (m*0x1000) t = .ok t' →
    Grown s t' s.directory (k+n) ∧ t'.heapEnd = t.heapEnd := by
  induction n with
  | zero =>
    intro t t' i m k hg _ _ _ _ hret
    obtain rfl := Except.ok.inj hret
    exact ⟨hg,rfl⟩
  | succ n ih =>
    intro t t' i m k hg hm hm' hpage hlow hret
    rw [mapScattered,if_pos rfl] at hret
    obtain ⟨r,halloc,hret⟩ := Result.bind_eq_ok.mp hret
    obtain ⟨t₁,hmap,hret⟩ := Result.bind_eq_ok.mp hret
    obtain ⟨hg₁,hheap₁⟩ :=
      hg.page hs hzero hm (by omega) hpage (hlow.imp id fun h => by omega) halloc hmap
    have hpage' : s.heapEnd+(k+1)*0x1000 = (m+1)*0x1000 := by
      rw [Nat.add_mul,Nat.add_mul,← Nat.add_assoc,hpage]
    have haddr : (m*0x1000+0x1000)%W32 = (m+1)*0x1000 := by simp only [W32]; omega
    rw [haddr] at hret
    obtain ⟨hg₂,hheap₂⟩ := ih t₁ t' (i+1) (m+1) (k+1) hg₁ (by omega) (by omega) hpage'
      (hlow.imp id fun h => by omega) hret
    rw [show k+1+n = k+(n+1) by omega] at hg₂
    exact ⟨hg₂,hheap₂.trans hheap₁⟩

theorem growHeap_grown {s s' : Vm} {n m : ℕ} (hs : s.SpaceOk s.directory) (hzero : ¬ s.pmm.IsFree 0)
    (hok : s.pmm.FirstFreeOk) (hheap : s.heapEnd = m*0x1000) (hm : HEAP_PAGE ≤ m)
    (hend : s.heapEnd+n*0x1000 ≤ HEAP_END)
    (hlow : s.pmm.bitmapSize ≤ 0x8000 ∨ n ≤ s.pmm.lowFree.card)
    (hret : s.growHeap n = .ok s') :
    Grown s s' s.directory n ∧ s'.heapEnd = s.heapEnd+n*0x1000 := by
  obtain ⟨t,hmap,hret⟩ := Result.bind_eq_ok.mp hret
  obtain rfl := Except.ok.inj hret
  rw [kMemPagingMapRegion,if_neg (by decide),hheap] at hmap
  have hlt : m+n ≤ 1023*1024 := by
    have h1 : HEAP_END = 0xFFBFF000 := by decide
    omega
  obtain ⟨hg,hsame⟩ := mapScattered_grown hs hzero n s t 0 m 0 (Grown.refl _ hok) hm hlt
    (by omega) (hlow.imp id fun h => by omega) hmap
  rw [Nat.zero_add] at hg
  exact ⟨⟨hg.directory_eq,hg.window_eq,hg.words,hg.view,hg.free_iff,hg.new_free,hg.freed_eq,
    hg.size_eq,hg.first_ok,hg.card_eq⟩,by rw [hsame]⟩

/-- The growth returns if there are frames for it and the pages behind the heap are not
mapped. -/
theorem mapScattered_returns {s : Vm} (hs : s.SpaceOk s.directory) (hzero : ¬ s.pmm.IsFree 0)
    (n : ℕ) : ∀ t i m k, Grown s t s.directory k → HEAP_PAGE ≤ m → m+n ≤ 1023*1024 →
    s.heapEnd+k*0x1000 = m*0x1000 → k+n ≤ s.pmm.lowFree.card →
    (∀ m', m ≤ m' → m' < m+n → s.lookup s.directory m' = none) →
    ∃ t', mapScattered 0 (PAGE_PRESENT ||| PAGE_WRITABLE) n i (m*0x1000) t = .ok t' := by
  induction n with
  | zero => exact fun t _ _ _ _ _ _ _ _ _ => ⟨t,rfl⟩
  | succ n ih =>
    intro t i m k hg hm hm' hpage hlow hfree
    have hpos : 0 < t.pmm.lowFree.card := by
      rw [hg.card_eq]
      omega
    obtain ⟨l,hl⟩ := Finset.card_pos.mp hpos
    obtain ⟨hl1,hl2⟩ := mem_lowFree.mp hl
    have hfirst : 32*t.pmm.firstFreeIndex ≤ l := by
      have := hg.first_ok l hl2
      omega
    obtain ⟨k',p',halloc,hk,hkf,-,hafter,hsize,-⟩ := allocFrame_spec hfirst hl2 (by omega)
    have hmod : 0x1000*k'%W32 = 0x1000*k' := Nat.mod_eq_of_lt (by simp only [W32]; omega)
    have hk0 : k' ≠ 0 := fun h => hzero (hg.free_sub 0 (h ▸ hkf))
    have hmap : ∃ t₁, kMemPagingMap (claimFrame { t with pmm := p' } (0x1000*k'%W32)) (m*0x1000)
        (0x1000*k'%W32) (PAGE_PRESENT ||| PAGE_WRITABLE) = .ok t₁ := by
      obtain ⟨hd,hit⟩ := hg.heap_table hs hm (by omega) fun l hl => ((hafter l).mp hl).1
      have hpd : PDE (m*0x1000) = m/1024 := by rw [PDE]; omega
      have hnone : Vm.lookup { t with pmm := p' } s.directory (m*0x1000/0x1000) = none := by
        rw [show m*0x1000/0x1000 = m by omega]
        exact (hg.view m (by omega) (.inr hpage.le)).trans (hfree m le_rfl (by omega))
      rw [hmod,claimFrame_taken hk hkf hafter hsize]
      exact map_present_returns (hg.directory_eq ▸ hd) _ (by rw [hpd]; exact hg.directory_eq ▸ hit)
        (by omega) (hg.directory_eq ▸ hnone)
    obtain ⟨t₁,hmap⟩ := hmap
    obtain ⟨hg₁,-⟩ := hg.page hs hzero hm (by omega) hpage (.inr (by omega)) halloc hmap
    have hpage' : s.heapEnd+(k+1)*0x1000 = (m+1)*0x1000 := by
      rw [Nat.add_mul,Nat.add_mul,← Nat.add_assoc,hpage]
    have haddr : (m*0x1000+0x1000)%W32 = (m+1)*0x1000 := by simp only [W32]; omega
    obtain ⟨t',hret⟩ := ih t₁ (i+1) (m+1) (k+1) hg₁ (by omega) (by omega) hpage' (by omega)
      fun m' h1 h2 => hfree m' (by omega) (by omega)
    refine ⟨t',?_⟩
    rw [mapScattered,if_pos rfl]
    refine Result.bind_eq_ok.mpr ⟨_,halloc,Result.bind_eq_ok.mpr ⟨t₁,hmap,?_⟩⟩
    rw [haddr]
    exact hret

theorem growHeap_returns {s : Vm} {n m : ℕ} (hs : s.SpaceOk s.directory) (hzero : ¬ s.pmm.IsFree 0)
    (hok : s.pmm.FirstFreeOk) (hheap : s.heapEnd = m*0x1000) (hm : HEAP_PAGE ≤ m)
    (hend : s.heapEnd+n*0x1000 ≤ HEAP_END) (hlow : n ≤ s.pmm.lowFree.card)
    (hfree : ∀ m', s.heapEnd ≤ m'*0x1000 → m'*0x1000 < s.heapEnd+n*0x1000 →
      s.lookup s.directory m' = none) : ∃ s', s.growHeap n = .ok s' := by
  have hlt : m+n ≤ 1023*1024 := by
    have h1 : HEAP_END = 0xFFBFF000 := by decide
    omega
  obtain ⟨t,ht⟩ := mapScattered_returns hs hzero n s 0 m 0 (Grown.refl _ hok) hm hlt (by omega)
    (by omega) fun m' h1 h2 => hfree m' (by omega) (by omega)
  refine ⟨_,Result.bind_eq_ok.mpr ⟨t,?_,rfl⟩⟩
  rw [kMemPagingMapRegion,if_neg (by decide),hheap]
  exact ht

def SharedKernel (s : Vm) (d d' : ℕ) : Prop :=
  ∀ i, KERNEL_PD ≤ i → i < 1023 → s.phys d i = s.phys d' i

theorem SharedKernel.table_eq {s : Vm} {d d' : ℕ} (h : s.SharedKernel d d') {i : ℕ}
    (h1 : PDE LOWMEM_START ≤ i) (h2 : i < 1023) : s.table d i = s.table d' i := by
  rw [table,table,h i (le_trans (by decide) h1) h2]

/-- Growth through one directory as another one with the same kernel half sees it. -/
theorem Grown.other {s s' : Vm} {n d : ℕ} (hg : Grown s s' s.directory n)
    (hshare : s.SharedKernel s.directory d) : ∀ f j, s'.phys f j ≠ s.phys f j →
    ∃ i, PDE LOWMEM_START ≤ i ∧ i < 1023 ∧ f = s.table d i ∧ HEAP_PAGE ≤ i*1024+j := by
  intro f j hne
  obtain ⟨i,h1,h2,hf,hj⟩ := hg.words f j hne
  exact ⟨i,h1,h2,hf.trans (hshare.table_eq h1 h2),hj⟩

section Other

variable {s s' : Vm} {n d : ℕ}

theorem Grown.phys_eq (hg : Grown s s' s.directory n) (hshare : s.SharedKernel s.directory d)
    {f : ℕ} (hf : ¬ s.KernelTable d f) : s'.phys f = s.phys f := by
  funext j
  by_contra hne
  obtain ⟨i,h1,h2,he,-⟩ := hg.other hshare f j hne
  exact hf ⟨i,h1,h2,he⟩

theorem SpaceOk.not_kernel_dir (hs : s.SpaceOk d) : ¬ s.KernelTable d d := by
  rintro ⟨i,h1,h2,he⟩
  exact hs.dirOk.apart i (hs.kernel_tables i h1 h2) he.symm

theorem SpaceOk.not_kernel_table (hs : s.SpaceOk d) {i : ℕ} (hi : i < KERNEL_PD)
    (hp : present (s.phys d i) = true) : ¬ s.KernelTable d (s.table d i) := by
  rintro ⟨j,h1,h2,he⟩
  exact hs.user_ne_kernel hi hp h1 h2 he

theorem SpaceOk.not_kernel_page (hs : s.SpaceOk d) {i j : ℕ} (ha : s.UsedSlot d (i,some j)) :
    ¬ s.KernelTable d (s.slotFrame d (i,some j)) := by
  rintro ⟨i',h1,h2,he⟩
  exact (hs.pages_apart i j ha).2 i' (hs.kernel_tables i' h1 h2) he

theorem Grown.userSame (hg : Grown s s' s.directory n) (hs : s.SpaceOk d)
    (hshare : s.SharedKernel s.directory d) : UserSame s s' d where
  dir := hg.phys_eq hshare hs.not_kernel_dir
  tables _ hi hp := hg.phys_eq hshare (hs.not_kernel_table hi hp)

theorem Grown.lookup_eq (hg : Grown s s' s.directory n) (hs : s.SpaceOk d)
    (hshare : s.SharedKernel s.directory d) {m : ℕ} (h1 : WINDOW_START ≤ m) (h2 : m ≤ WINDOW_END) :
    s'.lookup d m = s.lookup d m := by
  have hlt : m < 1023*1024 := lt_of_le_of_lt h2 (by decide)
  have hu := hg.userSame hs hshare
  have ht := hs.window_table h1 hlt
  have hword : s'.phys (s.table d (m/1024)) (m%1024) = s.phys (s.table d (m/1024)) (m%1024) := by
    by_contra hne
    obtain ⟨i,hi1,hi2,he,hj⟩ := hg.other hshare _ _ hne
    have := hs.dirOk.distinct _ _ ht (hs.kernel_tables i hi1 hi2) he
    have hw : WINDOW_END < HEAP_PAGE := by decide
    omega
  have hl := lookup_of_isTable ht (Nat.mod_lt m (by decide : 0 < 1024))
  have hl' :=
    lookup_of_isTable ((isTable_congr hu.dir _).mpr ht) (Nat.mod_lt m (by decide : 0 < 1024))
  rw [show m/1024*1024+m%1024 = m by omega] at hl hl'
  rw [hl,hl',hu.table_eq,hword]

theorem Grown.spaceOk (hg : Grown s s' s.directory n) (hs : s.SpaceOk d)
    (hshare : s.SharedKernel s.directory d) : s'.SpaceOk d := by
  refine hs.transfer (hg.userSame hs hshare) hg.free_sub ?_ fun m h1 h2 => ?_
  · rw [hg.lookup_eq hs hshare (by decide) le_rfl]
    exact hs.guard
  · rw [hg.lookup_eq hs hshare h1 h2.le]
    exact hs.windows m h1 h2

end Other

end Vm
end ScalesOS
