import ScalesOS.AddressSpace

/-!
# Cloning and releasing an address space

The clone copies all user slots of a directory into frames of its own, through windows
of the kernel half. The proof follows the two nested loops: between any two steps the
frames taken so far are accounted for slot by slot, and nothing else has changed but
the windows.
-/

namespace ScalesOS
namespace Vm

open Entry Pmm

/-! ## The loop rule -/

theorem forLoop_spec {body : ℕ → Vm → Result Vm} {I : ℕ → Vm → Prop} {n : ℕ} {s s' : Vm}
    (hstep : ∀ i < n, ∀ t t', I i t → body i t = .ok t' → I (i+1) t') (hs : I 0 s)
    (hret : forLoop body n s = .ok s') : I n s' := by
  induction n generalizing s' with
  | zero =>
    obtain rfl := Except.ok.inj hret
    exact hs
  | succ n ih =>
    obtain ⟨t,ht,hret⟩ := Result.bind_eq_ok.mp hret
    exact hstep n (by omega) t s' (ih (fun i hi => hstep i (by omega)) ht) hret

theorem forLoop_returns {body : ℕ → Vm → Result Vm} {I : ℕ → Vm → Prop} {n : ℕ} {s : Vm}
    (hstep : ∀ i < n, ∀ t, I i t → ∃ t', body i t = .ok t' ∧ I (i+1) t') (hs : I 0 s) :
    ∃ s', forLoop body n s = .ok s' ∧ I n s' := by
  induction n with
  | zero => exact ⟨s,rfl,hs⟩
  | succ n ih =>
    obtain ⟨t,ht,hI⟩ := ih fun i hi => hstep i (by omega)
    obtain ⟨t',ht',hI'⟩ := hstep n (by omega) t hI
    exact ⟨t',Result.bind_eq_ok.mpr ⟨t,ht,ht'⟩,hI'⟩

/-! ## The surroundings of a clone -/

/-- The state right before the loops: directory `d` is copied to frame `c`, a page of
the kernel heap that nothing else uses. Frame 0 is never handed out. -/
structure CloneBase (s : Vm) (d c : ℕ) : Prop where
  space : s.SpaceOk d
  foreign : s.Foreign d c
  used : ¬ s.pmm.IsFree c
  pages : ∀ i j, s.UsedSlot d (i,some j) → s.slotFrame d (i,some j) ≠ c
  zero_used : ¬ s.pmm.IsFree 0

/-- `f` holds a page table of the kernel half. -/
def KernelTable (s : Vm) (d f : ℕ) : Prop :=
  ∃ i, PDE LOWMEM_START ≤ i ∧ i < 1023 ∧ f = s.table d i

/-- What has changed since the state `b`: the frames in `taken` have been allocated, the
pages in `opened` are windows, and only these frames, `c` and kernel tables have been
written. -/
structure Env (b s : Vm) (d c : ℕ) (taken : List ℕ) (opened : ℕ → Option ℕ) : Prop where
  directory_eq : s.directory = d
  heapEnd_eq : s.heapEnd = b.heapEnd
  frames : ∀ f, f ≠ c → f ∉ taken → ¬ b.KernelTable d f → s.phys f = b.phys f
  view : ∀ n, WINDOW_START ≤ n → n < 1023*1024 → s.lookup d n = (opened n).or (b.lookup d n)
  opened_ok : ∀ n k, opened n = some k → WINDOW_START ≤ n ∧ n < WINDOW_END ∧ k ≠ 0
  taken_free : ∀ k ∈ taken, b.pmm.IsFree k
  free_iff : ∀ l, s.pmm.IsFree l ↔ b.pmm.IsFree l ∧ l ∉ taken
  freed_eq : s.pmm.freed = b.pmm.freed
  size_eq : s.pmm.bitmapSize = b.pmm.bitmapSize
  first_ok : s.pmm.FirstFreeOk
  window_start : ∃ a, s.WindowStart a

section Env

variable {b s : Vm} {d c : ℕ} {taken : List ℕ} {opened : ℕ → Option ℕ}

theorem window_lt {n : ℕ} (h : n ≤ WINDOW_END) : n < 1023*1024 := lt_of_le_of_lt h (by decide)

theorem Env.view_window (he : Env b s d c taken opened) (n : ℕ) (h1 : WINDOW_START ≤ n)
    (h2 : n ≤ WINDOW_END) : s.lookup d n = (opened n).or (b.lookup d n) :=
  he.view n h1 (window_lt h2)

theorem CloneBase.not_kernel_dir (hb : CloneBase b d c) : ¬ b.KernelTable d d := by
  rintro ⟨i,h1,h2,he⟩
  exact hb.space.dirOk.apart i (hb.space.kernel_tables i h1 h2) he.symm

theorem CloneBase.not_kernel_table (hb : CloneBase b d c) {i : ℕ} (hi : i < KERNEL_PD)
    (hp : present (b.phys d i) = true) : ¬ b.KernelTable d (b.table d i) := by
  rintro ⟨j,h1,h2,he⟩
  exact hb.space.user_ne_kernel hi hp h1 h2 he

theorem CloneBase.not_kernel_copy (hb : CloneBase b d c) : ¬ b.KernelTable d c := by
  rintro ⟨i,h1,h2,he⟩
  exact hb.foreign.2 i (hb.space.kernel_tables i h1 h2) he

theorem CloneBase.not_kernel_free (hb : CloneBase b d c) {k : ℕ} (hk : b.pmm.IsFree k) :
    ¬ b.KernelTable d k := by
  rintro ⟨i,h1,h2,he⟩
  exact hb.space.dirOk.used i (hb.space.kernel_tables i h1 h2) (he ▸ hk)

theorem Env.userSame (hb : CloneBase b d c) (he : Env b s d c taken opened) : UserSame b s d where
  dir := he.frames d hb.foreign.1.symm
    (fun hc => hb.space.dirOk.used_dir (he.taken_free _ hc)) hb.not_kernel_dir
  tables i hi hp := he.frames _ (hb.foreign.2 i (hb.space.user_table hi hp)).symm
    (fun hc => hb.space.dirOk.used i (hb.space.user_table hi hp) (he.taken_free _ hc))
    (hb.not_kernel_table hi hp)

theorem Env.page_eq (hb : CloneBase b d c) (he : Env b s d c taken opened) {i j : ℕ}
    (ha : b.UsedSlot d (i,some j)) :
    s.phys (b.slotFrame d (i,some j)) = b.phys (b.slotFrame d (i,some j)) := by
  refine he.frames _ (hb.pages i j ha) (fun hc => ?_) ?_
  · exact hb.space.pages_used i j ha (he.taken_free _ hc)
  · rintro ⟨i',h1,h2,hf⟩
    exact (hb.space.pages_apart i j ha).2 i' (hb.space.kernel_tables i' h1 h2) hf

theorem Env.spaceOk (hb : CloneBase b d c) (he : Env b s d c taken opened) : s.SpaceOk d := by
  refine hb.space.transfer (he.userSame hb) (fun k hk => ((he.free_iff k).mp hk).1) ?_ ?_
  · have hno : opened WINDOW_END = none := by
      cases h : opened WINDOW_END with
      | none => rfl
      | some k => exact absurd (he.opened_ok _ _ h).2.1 (lt_irrefl _)
    rw [he.view_window _ (by decide) le_rfl,hno,hb.space.guard]
    rfl
  · intro n h1 h2
    rw [he.view_window n h1 h2.le]
    cases h : opened n with
    | none => simpa using hb.space.windows n h1 h2
    | some k =>
      have := (he.opened_ok n k h).2.2
      simpa using this

theorem Env.table_eq (hb : CloneBase b d c) (he : Env b s d c taken opened) (i : ℕ) :
    s.table d i = b.table d i := (he.userSame hb).table_eq i

theorem Env.alloc (he : Env b s d c taken opened) {l : ℕ} (hl : s.pmm.IsFree l)
    (hlow : l < 0x100000) :
    ∃ k p', kMemPmmAllocFrames s.pmm 1 = .ok (0x1000*k,p') ∧ k < 0x100000 ∧ b.pmm.IsFree k ∧
      k ∉ taken ∧ (∀ l', s.pmm.IsFree l' → k ≤ l') ∧
      Env b { s with pmm := p' } d c (k::taken) opened := by
  have hfirst : ∀ l', s.pmm.IsFree l' → 32*s.pmm.firstFreeIndex ≤ l' := by
    intro l' hl'
    have := he.first_ok l' hl'
    omega
  obtain ⟨k,p',hret,hk,hkf,hmin,hafter,hsize,hok⟩ := allocFrame_spec (hfirst l hl) hl hlow
  obtain ⟨hkb,hkt⟩ := (he.free_iff k).mp hkf
  refine ⟨k,p',hret,hk,hkb,hkt,fun l' hl' => hmin l' (hfirst l' hl') hl',?_⟩
  refine ⟨he.directory_eq,he.heapEnd_eq,fun f h1 h2 h3 => ?_,he.view,he.opened_ok,?_,fun l' => ?_,
    (allocFrames_freed hret).trans he.freed_eq,hsize.trans he.size_eq,hok he.first_ok,
    he.window_start⟩
  · exact he.frames f h1 (fun hc => h2 (by simp [hc])) h3
  · intro k' hk'
    rcases List.mem_cons.mp hk' with rfl | hk'
    · exact hkb
    · exact he.taken_free k' hk'
  · rw [hafter l',he.free_iff l',List.mem_cons,not_or]
    tauto

theorem Env.free_cons {s' : Vm} {opened' : ℕ → Option ℕ} {k : ℕ} (he : Env b s d c taken opened)
    (he' : Env b s' d c (k::taken) opened') :
    ∀ l, s'.pmm.IsFree l → s.pmm.IsFree l ∧ l ≠ k := by
  intro l hl
  obtain ⟨h1,h2⟩ := (he'.free_iff l).mp hl
  rw [List.mem_cons,not_or] at h2
  exact ⟨(he.free_iff l).mpr ⟨h1,h2.2⟩,h2.1⟩

theorem Env.write (hb : CloneBase b d c) (he : Env b s d c taken opened) {s' : Vm} {x : ℕ}
    (hx : x = c ∨ x ∈ taken) (hphys : ∀ f, f ≠ x → s'.phys f = s.phys f) (hpmm : s'.pmm = s.pmm)
    (hdir : s'.directory = s.directory) (hwin : s'.firstFreeAddress = s.firstFreeAddress)
    (hheap : s'.heapEnd = s.heapEnd) : Env b s' d c taken opened := by
  have hforeign : s.Foreign d x := by
    rcases hx with rfl | hx
    · refine ⟨hb.foreign.1,fun i hi => ?_⟩
      rw [he.table_eq hb]
      exact hb.foreign.2 i ((isTable_congr (he.userSame hb).dir i).mp hi)
    · obtain ⟨h1,h2⟩ := hb.space.dirOk.foreign_of_free (he.taken_free x hx)
      refine ⟨h1,fun i hi => ?_⟩
      rw [he.table_eq hb]
      exact h2 i ((isTable_congr (he.userSame hb).dir i).mp hi)
  refine ⟨hdir.trans he.directory_eq,hheap.trans he.heapEnd_eq,fun f h1 h2 h3 => ?_,
    fun n h1 h2 => ?_,he.opened_ok,he.taken_free,?_,?_,?_,?_,?_⟩
  · rw [hphys f (by rintro rfl; exact hx.elim h1 h2)]
    exact he.frames f h1 h2 h3
  · rw [← he.view n h1 h2]
    refine lookup_congr h2 (hphys d hforeign.1.symm) fun ht => ?_
    exact hphys _ (hforeign.2 _ ht).symm
  · rw [hpmm]; exact he.free_iff
  · rw [hpmm]; exact he.freed_eq
  · rw [hpmm]; exact he.size_eq
  · rw [hpmm]; exact he.first_ok
  · obtain ⟨a,ha⟩ := he.window_start
    exact ⟨a,by rw [WindowStart,hwin]; exact ha⟩

theorem Env.kernelTable (hb : CloneBase b d c) (he : Env b s d c taken opened) {n : ℕ}
    (h1 : WINDOW_START ≤ n) (h2 : n ≤ WINDOW_END) :
    s.IsTable d (n/1024) ∧ b.KernelTable d (s.table d (n/1024)) := by
  have hlt : n < 1023*1024 := lt_of_le_of_lt h2 (by decide)
  refine ⟨(he.spaceOk hb).window_table h1 hlt,n/1024,?_,by omega,he.table_eq hb _⟩
  simp only [WINDOW_START,LOWMEM_START,PDE] at *
  omega

theorem Env.setWindow (hb : CloneBase b d c) (he : Env b s d c taken opened)
    {n w : ℕ} {o : Option ℕ}
    (h1 : WINDOW_START ≤ n) (h2 : n < WINDOW_END) (hold : b.lookup d n = none)
    (hw : (if present w then some (page w) else none) = o) (ho : ∀ k, o = some k → k ≠ 0) {a : ℕ}
    (ha : WINDOW_START ≤ a) (ha' : a ≤ WINDOW_END) :
    Env b { s.setWord (s.table d (n/1024)) (n%1024) w with firstFreeAddress := a*0x1000 } d c taken
      (Function.update opened n o) := by
  obtain ⟨ht,hk⟩ := he.kernelTable hb h1 h2.le
  have hd := (he.spaceOk hb).dirOk
  refine ⟨he.directory_eq,he.heapEnd_eq,fun f hc hf hkf => ?_,fun m hm1 hm2 => ?_,fun m k hmk => ?_,
    he.taken_free,he.free_iff,he.freed_eq,he.size_eq,he.first_ok,a,rfl,ha,ha'⟩
  · have hne : f ≠ s.table d (n/1024) := fun h => hkf (h ▸ hk)
    exact (phys_setWord_frame _ _ _ _ hne).trans (he.frames f hc hf hkf)
  · have hl := hd.lookup_setEntry ht (Nat.mod_lt n (by decide)) w hm2
    rw [show n/1024*1024+n%1024 = n by omega,hw] at hl
    refine Eq.trans hl ?_
    by_cases hmn : m = n
    · subst hmn
      rw [if_pos rfl,Function.update_self,hold,Option.or_none]
    · rw [if_neg hmn,Function.update_of_ne hmn]
      exact he.view m hm1 hm2
  · by_cases hmn : m = n
    · subst hmn
      rw [Function.update_self] at hmk
      exact ⟨h1,h2,ho k hmk⟩
    · rw [Function.update_of_ne hmn] at hmk
      exact he.opened_ok m k hmk

/-- A window on a frame that has been taken: the search finds a page, or the window
area is full and the kernel stops. -/
theorem Env.kMap (hb : CloneBase b d c) (he : Env b s d c taken opened) {k : ℕ} (hk : k ∈ taken)
    (hlow : k < 0x100000) :
    ∃ n, WINDOW_START ≤ n ∧ n ≤ WINDOW_END ∧ s.firstFreeAddress ≤ n*0x1000 ∧
      s.lookup d n = none ∧
      (∀ i, s.firstFreeAddress ≤ i*0x1000 → i < n → s.lookup d i ≠ none) ∧
      s.kMap (0x1000*k) 1 (PAGE_PRESENT ||| PAGE_WRITABLE) =
        (if n = WINDOW_END then .error (.panic "k_map(): failed to find free address.")
        else .ok (n*0x1000,s.openWindow n k)) ∧
      (n < WINDOW_END → opened n = none ∧ b.lookup d n = none ∧
        Env b (s.openWindow n k) d c taken (Function.update opened n (some k))) := by
  obtain ⟨a,ha⟩ := he.window_start
  have hkb := he.taken_free k hk
  have hk0 : k ≠ 0 := fun h => hb.zero_used (h ▸ hkb)
  have hspace : s.SpaceOk s.directory := he.directory_eq.symm ▸ he.spaceOk hb
  have halloc : kMemPmmIsAllocated s.pmm (0x1000*k) = true := by
    rw [isAllocated_iff _ hlow,he.size_eq,he.free_iff]
    exact ⟨hkb.1,fun hc => hc.2 hk⟩
  obtain ⟨n,h1,h2,hnone,hleast,hret⟩ := kMap_spec hspace ha hk0 hlow halloc
  rw [he.directory_eq] at hnone hleast
  have hws : WINDOW_START ≤ n := le_trans ha.2.1 h1
  refine ⟨n,hws,h2,by rw [ha.1]; omega,hnone,fun i hi => ?_,hret,fun hn => ?_⟩
  · exact hleast i (by rw [ha.1] at hi; omega)
  · have hview := he.view_window n hws hn.le
    rw [hnone] at hview
    obtain ⟨hopen,hbn⟩ := Option.or_eq_none_iff.mp hview.symm
    refine ⟨hopen,hbn,?_⟩
    have henv := he.setWindow hb hws hn hbn (w:=0x1000*k ||| (PAGE_PRESENT ||| PAGE_WRITABLE))
      (o:=some k) (by rw [present_or (by decide),page_or hlow (by decide)]; rfl)
      (fun k' h => by cases h; exact hk0) (a:=n+1) (by omega) hn
    rw [openWindow,he.directory_eq]
    exact henv

theorem Env.kUnmap (hb : CloneBase b d c) (he : Env b s d c taken opened) {n : ℕ}
    (h1 : WINDOW_START ≤ n) (h2 : n < WINDOW_END) (hold : b.lookup d n = none) :
    s.kUnmap (n*0x1000) 1 = s.closeWindow n ∧
    Env b (s.closeWindow n) d c taken (Function.update opened n none) := by
  have hspace : s.SpaceOk s.directory := he.directory_eq.symm ▸ he.spaceOk hb
  refine ⟨kUnmap_spec hspace h1 h2,?_⟩
  obtain ⟨a,hstart,ha,ha'⟩ := he.window_start
  have henv := he.setWindow hb h1 h2 hold (w:=0) (o:=none) rfl (fun k h => by cases h)
    (a:=if n < a then n else a) (by split <;> omega) (by split <;> omega)
  have hffa : (if n < a then n else a)*0x1000 =
      if n*0x1000 < s.firstFreeAddress then n*0x1000 else s.firstFreeAddress := by
    rw [hstart]
    split <;> split <;> omega
  rw [closeWindow,he.directory_eq,← hffa]
  exact henv

/-- Window operations leave every frame alone that is not a kernel table. -/
theorem Env.openWindow_phys (hb : CloneBase b d c) (he : Env b s d c taken opened) {n k f : ℕ}
    (h1 : WINDOW_START ≤ n) (h2 : n ≤ WINDOW_END) (hf : ¬ b.KernelTable d f) :
    (s.openWindow n k).phys f = s.phys f := by
  obtain ⟨-,hk⟩ := he.kernelTable hb h1 h2
  rw [openWindow,he.directory_eq]
  exact phys_setWord_frame _ _ _ _ fun h => hf (h ▸ hk)

theorem Env.closeWindow_phys (hb : CloneBase b d c) (he : Env b s d c taken opened) {n f : ℕ}
    (h1 : WINDOW_START ≤ n) (h2 : n ≤ WINDOW_END) (hf : ¬ b.KernelTable d f) :
    (s.closeWindow n).phys f = s.phys f := by
  obtain ⟨-,hk⟩ := he.kernelTable hb h1 h2
  rw [closeWindow,he.directory_eq]
  exact phys_setWord_frame _ _ _ _ fun h => hf (h ▸ hk)

theorem Env.frameAt_window (hb : CloneBase b d c) (he : Env b s d c taken opened) {n k : ℕ}
    (hopen : opened n = some k) : s.frameAt (n*0x1000) = k := by
  obtain ⟨h1,h2,-⟩ := he.opened_ok n k hopen
  have hlt : n < 1023*1024 := lt_trans h2 (by decide)
  have hspace := he.spaceOk hb
  have hv := (he.directory_eq.symm ▸ hspace.dirOk : s.DirOk s.directory).virt2phys_eq (n:=n) (o:=0)
    (by decide) fun _ => by rw [pde,he.directory_eq]; exact (hspace.window_table h1 hlt).2.2
  rw [he.directory_eq,he.view_window n h1 h2.le,hopen,Nat.add_zero] at hv
  rw [frameAt,hv]
  simp

theorem Env.pte_eq (hb : CloneBase b d c) (he : Env b s d c taken opened) {i : ℕ}
    (hi : i < KERNEL_PD) (hp : present (b.phys d i) = true) (j : ℕ) :
    s.pte i j = b.phys (b.table d i) j := by
  have hd : s.DirOk s.directory := he.directory_eq.symm ▸ (he.spaceOk hb).dirOk
  rw [pte,hd.ptFrame_eq,he.directory_eq,he.table_eq hb,(he.userSame hb).tables i hi hp]

theorem Env.frameAt_page (hb : CloneBase b d c) (he : Env b s d c taken opened) {i j : ℕ}
    (ha : b.UsedSlot d (i,some j)) : s.frameAt (ADDR i j) = b.slotFrame d (i,some j) := by
  obtain ⟨hi,hj,hp,hq⟩ := ha
  have hspace := he.spaceOk hb
  have hu := he.userSame hb
  have hKP : KERNEL_PD < 1023 := by decide
  have hit : s.IsTable d i := (isTable_congr hu.dir i).mpr (hb.space.user_table hi hp)
  have hv := (he.directory_eq.symm ▸ hspace.dirOk : s.DirOk s.directory).virt2phys_eq (n:=i*1024+j)
    (o:=0) (by decide) fun _ => by
      rw [pde,he.directory_eq,show (i*1024+j)/1024 = i by omega]
      exact hit.2.2
  rw [he.directory_eq,lookup_of_isTable hit hj,hu.table_eq,hu.tables i hi hp,hq] at hv
  rw [frameAt,show ADDR i j = (i*1024+j)*0x1000+0 by rw [ADDR]; omega,hv]
  simp [slotFrame,slotWord]

/-- The effect of copying one page: one more frame holds the contents, one more entry of
the new table `t` refers to it, and the window is closed again. -/
structure PageCopied (b s s' : Vm) (d c t i j k n : ℕ) (taken : List ℕ) (opened : ℕ → Option ℕ) :
    Prop where
  env : Env b s' d c (k::taken) opened
  contents : s'.phys k = b.phys (b.slotFrame d (i,some j))
  entry : ∀ j', s'.phys t j' =
    if j' = j then 0x1000*k ||| (b.slotWord d (i,some j) &&& 0xFFF) else s.phys t j'
  others : ∀ f, ¬ b.KernelTable d f → f ≠ k → f ≠ t → s'.phys f = s.phys f
  window : s'.firstFreeAddress = n*0x1000

theorem copyPage_effect (hb : CloneBase b d c) (he : Env b s d c taken opened) {i j w t l : ℕ}
    (ha : b.UsedSlot d (i,some j)) (hw : opened w = some t) (ht : t ∈ taken)
    (hl : s.pmm.IsFree l) (hlow : l < 0x100000) :
    ∃ k n s', (∀ l', s.pmm.IsFree l' → k ≤ l') ∧ b.pmm.IsFree k ∧ k ∉ taken ∧ WINDOW_START ≤ n ∧
      n ≤ WINDOW_END ∧ s.firstFreeAddress ≤ n*0x1000 ∧ s.lookup d n = none ∧
      (∀ i, s.firstFreeAddress ≤ i*0x1000 → i < n → s.lookup d i ≠ none) ∧
      s.copyPage i (w*0x1000) j =
        (if n = WINDOW_END then .error (.panic "k_map(): failed to find free address.")
        else .ok s') ∧
      (n < WINDOW_END → PageCopied b s s' d c t i j k n taken opened) := by
  obtain ⟨k,p',halloc,hk,hkb,hkt,hmin,he₁⟩ := he.alloc hl hlow
  obtain ⟨n,h1,h2,hffa,hnone,hleast,hkmap,hopenv⟩ := he₁.kMap hb (List.mem_cons_self ..) hk
  have hpte : s.pte i j = b.slotWord d (i,some j) := he.pte_eq hb ha.1 ha.2.2.1 j
  have hpres : present (s.pte i j) = true := by rw [hpte]; exact ha.2.2.2
  have hmod : 0x1000*k%W32 = 0x1000*k := Nat.mod_eq_of_lt (by simp only [W32]; omega)
  set s₂ := Vm.openWindow { s with pmm := p' } n k with hs₂
  set s₃ := s₂.setWord t j (0x1000*k ||| (b.slotWord d (i,some j) &&& 0xFFF)) with hs₃
  set s₄ := s₃.setPage k (s₃.phys (b.slotFrame d (i,some j))) with hs₄
  -- the states between the steps, while the window is open
  have hopen : n < WINDOW_END → s₂.frameAt (w*0x1000) = t ∧
      s₂.pte i j = b.slotWord d (i,some j) ∧ s₃.frameAt (n*0x1000) = k ∧
      s₃.frameAt (ADDR i j) = b.slotFrame d (i,some j) ∧
      s₃.phys (b.slotFrame d (i,some j)) = b.phys (b.slotFrame d (i,some j)) ∧
      s₄.kUnmap (n*0x1000) 1 = s₄.closeWindow n ∧
      Env b s₄ d c (k::taken) (Function.update opened n (some k)) ∧
      Env b (s₄.closeWindow n) d c (k::taken) opened := by
    intro hn
    obtain ⟨hclosed,hbn,he₂⟩ := hopenv hn
    have hwn : w ≠ n := fun h => by rw [h,hclosed] at hw; cases hw
    have he₃ : Env b s₃ d c (k::taken) (Function.update opened n (some k)) :=
      he₂.write hb (.inr (List.mem_cons_of_mem k ht)) (fun f hf => phys_setWord_frame _ _ _ _ hf)
        rfl rfl rfl rfl
    have he₄ : Env b s₄ d c (k::taken) (Function.update opened n (some k)) :=
      he₃.write hb (.inr (List.mem_cons_self ..)) (fun f hf => phys_setPage_frame _ _ _ hf)
        rfl rfl rfl rfl
    obtain ⟨hun,he₅⟩ := he₄.kUnmap hb h1 hn hbn
    rw [Function.update_idem,← hclosed,Function.update_eq_self] at he₅
    exact ⟨he₂.frameAt_window hb (by rwa [Function.update_of_ne hwn]),
      he₂.pte_eq hb ha.1 ha.2.2.1 j,he₃.frameAt_window hb (Function.update_self ..),
      he₃.frameAt_page hb ha,he₃.page_eq hb ha,hun,he₄,he₅⟩
  refine ⟨k,n,s₄.closeWindow n,hmin,hkb,hkt,h1,h2,hffa,hnone,hleast,?_,fun hn => ?_⟩
  · rw [copyPage,if_pos hpres,halloc]
    show (Vm.kMap { s with pmm := p' } (0x1000*k%W32) 1 (PAGE_PRESENT ||| PAGE_WRITABLE) >>= _) = _
    rw [hmod,hkmap]
    by_cases hn : n = WINDOW_END
    · rw [if_pos hn,if_pos hn]
      rfl
    · rw [if_neg hn,if_neg hn]
      obtain ⟨hf₂,hp₂,hf₃,hf₃',-,hun,-,-⟩ := hopen (by omega)
      show Except.ok (Vm.kUnmap (Vm.setPage (s₂.setWord (s₂.frameAt (w*0x1000)) j
        (0x1000*k ||| (s₂.pte i j &&& 0xFFF))) _ _) (n*0x1000) 1) = _
      rw [hf₂,hp₂,hf₃,hf₃',hun]
  · obtain ⟨-,-,-,-,hc,-,he₄,he₅⟩ := hopen hn
    have hkk : ¬ b.KernelTable d k := hb.not_kernel_free hkb
    have htk : ¬ b.KernelTable d t := hb.not_kernel_free (he.taken_free t ht)
    have htne : t ≠ k := fun h => hkt (h ▸ ht)
    have hs₂f : ∀ f, ¬ b.KernelTable d f → s₂.phys f = s.phys f := fun f hf =>
      he₁.openWindow_phys hb h1 hn.le hf
    refine ⟨he₅,?_,fun j' => ?_,fun f hf hfk hft => ?_,?_⟩
    · rw [he₄.closeWindow_phys hb h1 hn.le hkk,hs₄,phys_setPage_self,hc]
    · rw [he₄.closeWindow_phys hb h1 hn.le htk,hs₄,phys_setPage_frame _ _ _ htne]
      split
      · rename_i hj
        rw [hj,hs₃,phys_setWord_self]
      · rename_i hj
        rw [hs₃,phys_setWord_index _ _ _ _ hj,hs₂f t htk]
    · rw [he₄.closeWindow_phys hb h1 hn.le hf,hs₄,phys_setPage_frame _ _ _ hfk,hs₃,
        phys_setWord_frame _ _ _ _ hft,hs₂f f hf]
    · show (if n*0x1000 < (n+1)*0x1000 then n*0x1000 else (n+1)*0x1000) = n*0x1000
      rw [if_pos (by omega)]

/-- The effect of the first half of copying a table: an empty table in a frame of its
own, entered in the new directory and shown in window `w`. -/
structure TableStarted (b s s' : Vm) (d c i k w : ℕ) (taken : List ℕ) (opened : ℕ → Option ℕ) :
    Prop where
  env : Env b s' d c (k::taken) (Function.update opened w (some k))
  closed : opened w = none
  unmapped : b.lookup d w = none
  cleared : s'.phys k = fun _ => 0
  entry : ∀ i', s'.phys c i' =
    if i' = i then 0x1000*k ||| (b.slotWord d (i,none) &&& 0xFFF) else s.phys c i'
  others : ∀ f, ¬ b.KernelTable d f → f ≠ k → f ≠ c → s'.phys f = s.phys f
  window : s'.firstFreeAddress = (w+1)*0x1000

theorem copyTable_effect (hb : CloneBase b d c) (he : Env b s d c taken opened) {i l : ℕ}
    (ha : b.UsedSlot d (i,none)) (hl : s.pmm.IsFree l) (hlow : l < 0x100000) :
    ∃ k w s', (∀ l', s.pmm.IsFree l' → k ≤ l') ∧ b.pmm.IsFree k ∧ k ∉ taken ∧ WINDOW_START ≤ w ∧
      w ≤ WINDOW_END ∧ s.firstFreeAddress ≤ w*0x1000 ∧ s.lookup d w = none ∧
      (∀ i, s.firstFreeAddress ≤ i*0x1000 → i < w → s.lookup d i ≠ none) ∧
      s.copyTable d c i =
        (if w = WINDOW_END then .error (.panic "k_map(): failed to find free address.")
        else do
          let s ← forLoop (copyPage i (w*0x1000)) 1024 s'
          pure (s.kUnmap (w*0x1000) 1)) ∧
      (w < WINDOW_END → TableStarted b s s' d c i k w taken opened) := by
  obtain ⟨k,p',halloc,hk,hkb,hkt,hmin,he₁⟩ := he.alloc hl hlow
  obtain ⟨w,h1,h2,hffa,hnone,hleast,hkmap,hopenv⟩ := he₁.kMap hb (List.mem_cons_self ..) hk
  have hpres : present (s.phys d i) = true := by rw [(he.userSame hb).dir]; exact ha.2
  have hmod : 0x1000*k%W32 = 0x1000*k := Nat.mod_eq_of_lt (by simp only [W32]; omega)
  set s₂ := Vm.openWindow { s with pmm := p' } w k with hs₂
  set s₃ := s₂.setWord c i (0x1000*k ||| (b.slotWord d (i,none) &&& 0xFFF)) with hs₃
  have hopen : w < WINDOW_END → s₂.phys d i = b.slotWord d (i,none) ∧ s₃.frameAt (w*0x1000) = k ∧
      Env b (s₃.setPage k fun _ => 0) d c (k::taken) (Function.update opened w (some k)) := by
    intro hn
    obtain ⟨-,-,he₂⟩ := hopenv hn
    have he₃ : Env b s₃ d c (k::taken) (Function.update opened w (some k)) :=
      he₂.write hb (.inl rfl) (fun f hf => phys_setWord_frame _ _ _ _ hf) rfl rfl rfl rfl
    refine ⟨by rw [(he₂.userSame hb).dir]; rfl,he₃.frameAt_window hb (Function.update_self ..),?_⟩
    exact he₃.write hb (.inr (List.mem_cons_self ..)) (fun f hf => phys_setPage_frame _ _ _ hf)
      rfl rfl rfl rfl
  refine ⟨k,w,s₃.setPage k fun _ => 0,hmin,hkb,hkt,h1,h2,hffa,hnone,hleast,?_,fun hn => ?_⟩
  · rw [copyTable,if_pos hpres,halloc]
    show (Vm.kMap { s with pmm := p' } (0x1000*k%W32) 1 (PAGE_PRESENT ||| PAGE_WRITABLE) >>= _) = _
    rw [hmod,hkmap]
    by_cases hn : w = WINDOW_END
    · rw [if_pos hn,if_pos hn]
      rfl
    · rw [if_neg hn,if_neg hn]
      obtain ⟨hp₂,hf₃,-⟩ := hopen (by omega)
      simp only [bind,Except.bind]
      rw [hp₂,hf₃]
  · obtain ⟨hclosed,hbn,-⟩ := hopenv hn
    have hkk : ¬ b.KernelTable d k := hb.not_kernel_free hkb
    have hck : c ≠ k := fun h => hb.used (h ▸ hkb)
    have hs₂f : ∀ f, ¬ b.KernelTable d f → s₂.phys f = s.phys f := fun f hf =>
      he₁.openWindow_phys hb h1 hn.le hf
    refine ⟨(hopen hn).2.2,hclosed,hbn,phys_setPage_self _ _ _,fun i' => ?_,
      fun f hf hfk hfc => ?_,rfl⟩
    · rw [phys_setPage_frame _ _ _ hck]
      split
      · rename_i hi
        rw [hi,hs₃,phys_setWord_self]
      · rename_i hi
        rw [hs₃,phys_setWord_index _ _ _ _ hi,hs₂f c hb.not_kernel_copy]
    · rw [phys_setPage_frame _ _ _ hfk,hs₃,phys_setWord_frame _ _ _ _ hfc,hs₂f f hf]

end Env

/-! ## The slots copied so far -/

/-- The slots of `done` that are in use, listed in `got` with their frames. Frames were
handed out in the order of the slots, always the lowest one first. -/
structure Accounted (b s : Vm) (d L : ℕ) (done : Slot → Prop) (got : List (Slot × ℕ)) : Prop where
  frames_nodup : (got.map Prod.snd).Nodup
  slots_nodup : (got.map Prod.fst).Nodup
  low : ∀ x ∈ got, x.2 < L
  slots : ∀ a, a ∈ got.map Prod.fst ↔ done a ∧ b.UsedSlot d a
  lowest : ∀ x ∈ got, ∀ l, s.pmm.IsFree l → x.2 < l
  ordered : ∀ x ∈ got, ∀ y ∈ got, slotIndex x.1 < slotIndex y.1 → x.2 < y.2

/-- The state in the middle of a clone: the copy has all slots of `got`. -/
structure Cloning (b s : Vm) (d c L : ℕ) (opened : ℕ → Option ℕ) (done : Slot → Prop)
    (got : List (Slot × ℕ)) : Prop extends Accounted b s d L done got where
  env : Env b s d c (got.map Prod.snd) opened
  tables : ∀ i j, (i,some j) ∈ got.map Prod.fst → (i,none) ∈ got.map Prod.fst
  word : ∀ a k, (a,k) ∈ got → s.slotWord c a = 0x1000*k ||| (b.slotWord d a &&& 0xFFF)
  contents : ∀ i j k, ((i,some j),k) ∈ got → s.phys k = b.phys (b.slotFrame d (i,some j))
  empty : ∀ i j k, ((i,none),k) ∈ got → (i,some j) ∉ got.map Prod.fst → s.phys k j = 0
  rest : ∀ i, (i,none) ∉ got.map Prod.fst → s.phys c i = b.phys c i

section Accounted

variable {b s s' : Vm} {d L : ℕ} {done done' : Slot → Prop} {got : List (Slot × ℕ)}

theorem Accounted.cons (h : Accounted b s d L done got) {a : Slot} {k : ℕ} (ha : b.UsedSlot d a)
    (hnew : ¬ done a) (hdone : ∀ a', done' a' ↔ done a' ∨ a' = a)
    (hbehind : ∀ a', b.UsedSlot d a' → done a' → slotIndex a' < slotIndex a) (hkL : k < L)
    (hkt : k ∉ got.map Prod.snd) (hk : s.pmm.IsFree k) (hmin : ∀ l, s.pmm.IsFree l → k ≤ l)
    (hafter : ∀ l, s'.pmm.IsFree l → s.pmm.IsFree l ∧ l ≠ k) :
    Accounted b s' d L done' ((a,k)::got) := by
  have hfresh : a ∉ got.map Prod.fst := fun hc => hnew ((h.slots _).mp hc).1
  refine ⟨List.nodup_cons.mpr ⟨hkt,h.frames_nodup⟩,List.nodup_cons.mpr ⟨hfresh,h.slots_nodup⟩,
    ?_,fun a' => ?_,?_,?_⟩
  · intro x hx
    rcases List.mem_cons.mp hx with rfl | hx
    · exact hkL
    · exact h.low x hx
  · rw [List.map_cons,List.mem_cons,h.slots,hdone]
    constructor
    · rintro (rfl | ⟨h1,h2⟩)
      · exact ⟨.inr rfl,ha⟩
      · exact ⟨.inl h1,h2⟩
    · rintro ⟨h1 | rfl,h2⟩
      · exact .inr ⟨h1,h2⟩
      · exact .inl rfl
  · intro x hx l hl
    obtain ⟨hl,hne⟩ := hafter l hl
    rcases List.mem_cons.mp hx with rfl | hx
    · exact lt_of_le_of_ne (hmin l hl) hne.symm
    · exact h.lowest x hx l hl
  · intro x hx y hy hlt
    have hdone : ∀ z ∈ got, slotIndex z.1 < slotIndex a := fun z hz => by
      obtain ⟨h1,h2⟩ := (h.slots z.1).mp (List.mem_map.mpr ⟨z,hz,rfl⟩)
      exact hbehind z.1 h2 h1
    rcases List.mem_cons.mp hx with rfl | hx <;> rcases List.mem_cons.mp hy with rfl | hy
    · exact absurd hlt (lt_irrefl _)
    · exact absurd (hdone y hy) (by simp only at hlt; omega)
    · exact h.lowest x hx k hk
    · exact h.ordered x hx y hy hlt

theorem Accounted.congr (h : Accounted b s d L done got)
    (hdone : ∀ a, b.UsedSlot d a → (done' a ↔ done a)) (hpmm : s'.pmm = s.pmm) :
    Accounted b s' d L done' got := by
  refine ⟨h.frames_nodup,h.slots_nodup,h.low,fun a => ?_,by rw [hpmm]; exact h.lowest,h.ordered⟩
  rw [h.slots]
  constructor
  · rintro ⟨h1,h2⟩; exact ⟨(hdone a h2).mpr h1,h2⟩
  · rintro ⟨h1,h2⟩; exact ⟨(hdone a h2).mp h1,h2⟩

end Accounted

theorem flags_lt (w : ℕ) : w &&& 0xFFF < 0x1000 := lt_of_le_of_lt Nat.and_le_right (by decide)

section Cloning

variable {b s s' : Vm} {d c L : ℕ} {opened : ℕ → Option ℕ} {done done' : Slot → Prop}
  {got : List (Slot × ℕ)}

theorem Cloning.table_eq (h : Cloning b s d c L opened done got) (hL : L ≤ 0x100000) {i t : ℕ}
    (ht : ((i,none),t) ∈ got) : s.table c i = t := by
  have hw := h.word _ _ ht
  have hlt := h.low _ ht
  rw [table,show s.phys c i = s.slotWord c (i,none) from rfl,hw]
  exact page_or (by simp only at hlt; omega) (flags_lt _)

theorem mem_fst {a : Slot} {k : ℕ} (h : (a,k) ∈ got) : a ∈ got.map Prod.fst :=
  List.mem_map.mpr ⟨(a,k),h,rfl⟩

theorem mem_snd {a : Slot} {k : ℕ} (h : (a,k) ∈ got) : k ∈ got.map Prod.snd :=
  List.mem_map.mpr ⟨(a,k),h,rfl⟩

theorem exists_of_mem_fst {a : Slot} (h : a ∈ got.map Prod.fst) : ∃ k, (a,k) ∈ got := by
  obtain ⟨⟨a',k⟩,hm,rfl⟩ := List.mem_map.mp h
  exact ⟨k,hm⟩

theorem Cloning.slot_unique (h : Cloning b s d c L opened done got) {a a' : Slot} {k : ℕ}
    (ha : (a,k) ∈ got) (ha' : (a',k) ∈ got) : a = a' :=
  congrArg Prod.fst (List.inj_on_of_nodup_map h.frames_nodup ha ha' rfl)

theorem Cloning.frame_ne (hb : CloneBase b d c) (h : Cloning b s d c L opened done got) {a : Slot}
    {k : ℕ} (ha : (a,k) ∈ got) : k ≠ c ∧ ¬ b.KernelTable d k := by
  have hk := h.env.taken_free k (mem_snd ha)
  exact ⟨fun he => hb.used (he ▸ hk),hb.not_kernel_free hk⟩

theorem Cloning.addPage (hb : CloneBase b d c) (hL : L ≤ 0x100000) {i j t k n : ℕ}
    (h : Cloning b s d c L opened done got) (ht : ((i,none),t) ∈ got)
    (ha : b.UsedSlot d (i,some j)) (hnew : ¬ done (i,some j))
    (hdone : ∀ a, done' a ↔ done a ∨ a = (i,some j))
    (hbehind : ∀ a, b.UsedSlot d a → done a → slotIndex a < slotIndex (i,some j)) (hkL : k < L)
    (hkb : b.pmm.IsFree k) (hkt : k ∉ got.map Prod.snd) (hmin : ∀ l, s.pmm.IsFree l → k ≤ l)
    (hp : PageCopied b s s' d c t i j k n (got.map Prod.snd) opened) :
    Cloning b s' d c L opened done' (((i,some j),k)::got) := by
  have hck : c ≠ k := fun he => hb.used (he ▸ hkb)
  obtain ⟨htc,-⟩ := h.frame_ne hb ht
  have hfresh : (i,some j) ∉ got.map Prod.fst := fun hc => hnew ((h.slots _).mp hc).1
  -- the new directory itself is not written, so tables keep their frames
  have hdirc : s'.phys c = s.phys c := hp.others c hb.not_kernel_copy hck htc.symm
  have htab : ∀ i, s'.table c i = s.table c i := fun i => by rw [table,table,hdirc]
  refine ⟨h.toAccounted.cons ha hnew hdone hbehind hkL hkt ((h.env.free_iff k).mpr ⟨hkb,hkt⟩) hmin
    (h.env.free_cons hp.env),hp.env,?_,?_,?_,?_,?_⟩
  · intro i' j' hmem
    rcases List.mem_cons.mp hmem with heq | hmem
    · obtain ⟨rfl,-⟩ := Prod.mk.inj heq
      exact List.mem_cons_of_mem _ (mem_fst ht)
    · exact List.mem_cons_of_mem _ (h.tables i' j' hmem)
  · intro a k' hmem
    rcases List.mem_cons.mp hmem with heq | hold
    · obtain ⟨rfl,rfl⟩ := Prod.mk.inj heq
      rw [slotWord,htab,h.table_eq hL ht,hp.entry,if_pos rfl]
    · obtain ⟨i',_ | j'⟩ := a
      · rw [← h.word _ _ hold,slotWord,slotWord,hdirc]
      · obtain ⟨t',ht'⟩ := exists_of_mem_fst (h.tables i' j' (mem_fst hold))
        rw [← h.word _ _ hold,slotWord,slotWord,htab,h.table_eq hL ht']
        by_cases htt : t' = t
        · subst htt
          obtain ⟨rfl,-⟩ := Prod.mk.inj (h.slot_unique ht ht')
          rw [hp.entry,if_neg]
          rintro rfl
          exact hfresh (mem_fst hold)
        · rw [hp.others t' (h.frame_ne hb ht').2 (fun he => hkt (he ▸ mem_snd ht')) htt]
  · intro i' j' k' hmem
    rcases List.mem_cons.mp hmem with heq | hmem
    · obtain ⟨hslot,rfl⟩ := Prod.mk.inj heq
      rw [hslot,hp.contents]
    · rw [hp.others k' (h.frame_ne hb hmem).2 (fun he => hkt (he ▸ mem_snd hmem)) ?_]
      · exact h.contents i' j' k' hmem
      · rintro rfl
        have := h.slot_unique ht hmem
        simp at this
  · intro i' j' k' hmem hno
    rw [List.map_cons,List.mem_cons,not_or] at hno
    rcases List.mem_cons.mp hmem with heq | hmem
    · simp at heq
    · by_cases hkt' : k' = t
      · subst hkt'
        obtain ⟨rfl,-⟩ := Prod.mk.inj (h.slot_unique ht hmem)
        rw [hp.entry,if_neg (fun he => hno.1 (by rw [he]))]
        exact h.empty i j' k' hmem hno.2
      · rw [hp.others k' (h.frame_ne hb hmem).2 (fun he => hkt (he ▸ mem_snd hmem)) hkt']
        exact h.empty i' j' k' hmem hno.2
  · intro i' hno
    rw [List.map_cons,List.mem_cons,not_or] at hno
    rw [hdirc]
    exact h.rest i' hno.2

theorem Cloning.addTable (hb : CloneBase b d c) (hL : L ≤ 0x100000) {i k w : ℕ}
    (h : Cloning b s d c L opened done got) (ha : b.UsedSlot d (i,none)) (hnew : ¬ done (i,none))
    (hdone : ∀ a, done' a ↔ done a ∨ a = (i,none))
    (hbehind : ∀ a, b.UsedSlot d a → done a → slotIndex a < slotIndex (i,none)) (hkL : k < L)
    (hkb : b.pmm.IsFree k) (hkt : k ∉ got.map Prod.snd) (hmin : ∀ l, s.pmm.IsFree l → k ≤ l)
    (hp : TableStarted b s s' d c i k w (got.map Prod.snd) opened) :
    Cloning b s' d c L (Function.update opened w (some k)) done' (((i,none),k)::got) := by
  have hck : c ≠ k := fun he => hb.used (he ▸ hkb)
  have hfresh : (i,none) ∉ got.map Prod.fst := fun hc => hnew ((h.slots _).mp hc).1
  have hframe : ∀ a k', (a,k') ∈ got → s'.phys k' = s.phys k' := by
    intro a k' hmem
    obtain ⟨hkc,hkk⟩ := h.frame_ne hb hmem
    exact hp.others k' hkk (fun he => hkt (he ▸ mem_snd hmem)) hkc
  have hentry : ∀ i', i' ≠ i → s'.phys c i' = s.phys c i' := fun i' hi' => by
    rw [hp.entry,if_neg hi']
  refine ⟨h.toAccounted.cons ha hnew hdone hbehind hkL hkt ((h.env.free_iff k).mpr ⟨hkb,hkt⟩) hmin
    (h.env.free_cons hp.env),hp.env,?_,?_,?_,?_,?_⟩
  · intro i' j' hmem
    rcases List.mem_cons.mp hmem with heq | hmem
    · simp at heq
    · exact List.mem_cons_of_mem _ (h.tables i' j' hmem)
  · intro a k' hmem
    rcases List.mem_cons.mp hmem with heq | hold
    · obtain ⟨rfl,rfl⟩ := Prod.mk.inj heq
      rw [slotWord,hp.entry,if_pos rfl]
    · obtain ⟨i',_ | j'⟩ := a
      · rw [← h.word _ _ hold,slotWord,slotWord,hentry]
        rintro rfl
        exact hfresh (mem_fst hold)
      · have htab := h.tables i' j' (mem_fst hold)
        obtain ⟨t',ht'⟩ := exists_of_mem_fst htab
        have hne : i' ≠ i := fun he => hfresh (he ▸ htab)
        rw [← h.word _ _ hold,slotWord,slotWord,table,hentry i' hne,← table,h.table_eq hL ht',
          hframe _ t' ht']
  · intro i' j' k' hmem
    rcases List.mem_cons.mp hmem with heq | hold
    · simp at heq
    · rw [hframe _ k' hold]
      exact h.contents i' j' k' hold
  · intro i' j' k' hmem hno
    rw [List.map_cons,List.mem_cons,not_or] at hno
    rcases List.mem_cons.mp hmem with heq | hold
    · obtain ⟨-,rfl⟩ := Prod.mk.inj heq
      rw [hp.cleared]
    · rw [hframe _ k' hold]
      exact h.empty i' j' k' hold hno.2
  · intro i' hno
    rw [List.map_cons,List.mem_cons,not_or] at hno
    rw [hentry i' (fun he => hno.1 (by rw [he]))]
    exact h.rest i' hno.2

theorem Cloning.close (hb : CloneBase b d c) (hL : L ≤ 0x100000) {w k : ℕ}
    (h : Cloning b s d c L (Function.update opened w (some k)) done got) (hclosed : opened w = none)
    (hdone : ∀ a, b.UsedSlot d a → (done' a ↔ done a)) (h1 : WINDOW_START ≤ w) (h2 : w < WINDOW_END)
    (hbw : b.lookup d w = none) :
    s.kUnmap (w*0x1000) 1 = s.closeWindow w ∧
        Cloning b (s.closeWindow w) d c L opened done' got := by
  obtain ⟨hun,henv⟩ := h.env.kUnmap hb h1 h2 hbw
  rw [Function.update_idem,← hclosed,Function.update_eq_self] at henv
  have hphys : ∀ f, ¬ b.KernelTable d f → (s.closeWindow w).phys f = s.phys f := fun f hf =>
    h.env.closeWindow_phys hb h1 h2.le hf
  have hdirc := hphys c hb.not_kernel_copy
  refine ⟨hun,h.toAccounted.congr hdone rfl,henv,h.tables,fun a k' hmem => ?_,
    fun i j k' hmem => ?_,fun i j k' hmem hno => ?_,fun i hno => ?_⟩
  · rw [← h.word _ _ hmem]
    obtain ⟨i,_ | j⟩ := a
    · rw [slotWord,slotWord,hdirc]
    · obtain ⟨t,ht⟩ := exists_of_mem_fst (h.tables i j (mem_fst hmem))
      have htab : (s.closeWindow w).table c i = s.table c i := by rw [table,table,hdirc]
      rw [slotWord,slotWord,htab,h.table_eq hL ht,hphys t (h.frame_ne hb ht).2]
  · rw [hphys k' (h.frame_ne hb hmem).2]
    exact h.contents i j k' hmem
  · rw [hphys k' (h.frame_ne hb hmem).2]
    exact h.empty i j k' hmem hno
  · rw [hdirc]
    exact h.rest i hno

theorem Cloning.congr_done (h : Cloning b s d c L opened done got)
    (hdone : ∀ a, b.UsedSlot d a → (done' a ↔ done a)) : Cloning b s d c L opened done' got :=
  ⟨h.toAccounted.congr hdone rfl,h.env,h.tables,h.word,h.contents,h.empty,h.rest⟩

end Cloning

/-! ## The two loops -/

/-- The tables before `i`, table `i` and its first `j` pages. -/
def Before (i j : ℕ) (a : Slot) : Prop := a.1 < i ∨ a.1 = i ∧ ∀ j', a.2 = some j' → j' < j

theorem before_succ (i j : ℕ) (a : Slot) : Before i (j+1) a ↔ Before i j a ∨ a = (i,some j) := by
  obtain ⟨i',_ | j'⟩ := a
  · simp [Before]
  · simp only [Before,Option.some.injEq,forall_eq',Prod.mk.injEq]
    omega

theorem before_zero (i : ℕ) (a : Slot) : Before i 0 a ↔ a.1 < i ∨ a = (i,none) := by
  obtain ⟨i',_ | j'⟩ := a
  · simp [Before]
  · simp [Before]

theorem before_all {s : Vm} {d i : ℕ} {a : Slot} (ha : s.UsedSlot d a) :
    Before i 1024 a ↔ a.1 < i+1 := by
  obtain ⟨i',_ | j'⟩ := a
  · simp only [Before,reduceCtorEq,false_implies,implies_true,and_true]
    omega
  · have := ha.2.1
    simp only [Before,Option.some.injEq,forall_eq']
    omega

theorem Before.index_lt {s : Vm} {d i j : ℕ} {a : Slot} (ha : s.UsedSlot d a) (h : Before i j a) :
    slotIndex a < slotIndex (i,some j) := by
  obtain ⟨i',_ | j'⟩ := a
  · simp only [Before,reduceCtorEq,false_implies,implies_true,and_true] at h
    simp only [slotIndex]
    omega
  · have := ha.2.1
    simp only [Before,Option.some.injEq,forall_eq'] at h
    simp only [slotIndex]
    omega

theorem index_lt_table {s : Vm} {d i : ℕ} {a : Slot} (ha : s.UsedSlot d a) (h : a.1 < i) :
    slotIndex a < slotIndex (i,none) := by
  obtain ⟨i',_ | j'⟩ := a
  · simp only at h
    simp only [slotIndex]
    omega
  · have := ha.2.1
    simp only at h
    simp only [slotIndex]
    omega

/-- Whenever an allocation for a missing slot returns, it finds a frame below `L`. -/
def Supply (b : Vm) (d c L : ℕ) : Prop :=
  ∀ s opened done got a, Cloning b s d c L opened done got → b.UsedSlot d a → ¬ done a →
    ∀ r, kMemPmmAllocFrames s.pmm 1 = .ok r → ∃ l, s.pmm.IsFree l ∧ l < L

section Loops

variable {b : Vm} {d c L : ℕ} {opened : ℕ → Option ℕ}

/-- Between two pages of table `i`, whose copy `t` is shown in window `w`. -/
def InTable (b : Vm) (d c L : ℕ) (opened : ℕ → Option ℕ) (w t i j : ℕ) (s : Vm) : Prop :=
  ∃ got, Cloning b s d c L (Function.update opened w (some t)) (Before i j) got ∧
    ((i,none),t) ∈ got

theorem copyPage_step (hb : CloneBase b d c) (hL : L ≤ 0x100000) (hsup : Supply b d c L)
    {w t i j : ℕ} (hi : b.UsedSlot d (i,none)) (hj : j < 1024) {s s' : Vm}
    (h : InTable b d c L opened w t i j s) (hret : s.copyPage i (w*0x1000) j = .ok s') :
    InTable b d c L opened w t i (j+1) s' := by
  obtain ⟨got,hc,ht⟩ := h
  have hpte : s.pte i j = b.slotWord d (i,some j) := hc.env.pte_eq hb hi.1 hi.2 j
  cases hq : present (s.pte i j) with
  | false =>
    rw [copyPage,hq] at hret
    obtain rfl := Except.ok.inj hret
    refine ⟨got,hc.congr_done fun a ha => ?_,ht⟩
    rw [before_succ]
    refine ⟨fun h => h.resolve_right ?_,.inl⟩
    rintro rfl
    have : present (b.slotWord d (i,some j)) = true := ha.2.2.2
    rw [← hpte,hq] at this
    cases this
  | true =>
    have ha : b.UsedSlot d (i,some j) := ⟨hi.1,hj,hi.2,by rw [hpte] at hq; exact hq⟩
    have hnew : ¬ Before i j (i,some j) := by simp [Before]
    obtain ⟨r,halloc⟩ : ∃ r, kMemPmmAllocFrames s.pmm 1 = .ok r := by
      rw [copyPage,if_pos hq] at hret
      obtain ⟨r,hr,-⟩ := Result.bind_eq_ok.mp hret
      exact ⟨r,hr⟩
    obtain ⟨l,hl,hlL⟩ := hsup s _ _ got _ hc ha hnew r halloc
    obtain ⟨k,n,s₁,hkl,hkb,hkt,h1,h2,-,-,-,heq,hcopied⟩ := copyPage_effect hb hc.env ha
      (Function.update_self ..) (mem_snd ht) hl (by omega)
    rw [heq] at hret
    by_cases hn : n = WINDOW_END
    · rw [if_pos hn] at hret
      cases hret
    · rw [if_neg hn] at hret
      obtain rfl := Except.ok.inj hret
      refine ⟨((i,some j),k)::got,?_,List.mem_cons_of_mem _ ht⟩
      exact hc.addPage hb hL ht ha hnew (before_succ i j) (fun a => Before.index_lt)
        (lt_of_le_of_lt (hkl l hl) hlL) hkb hkt hkl (hcopied (by omega))

def BetweenTables (b : Vm) (d c L : ℕ) (opened : ℕ → Option ℕ) (i : ℕ) (s : Vm) : Prop :=
  ∃ got, Cloning b s d c L opened (fun a => a.1 < i) got

theorem copyTable_step (hb : CloneBase b d c) (hL : L ≤ 0x100000) (hsup : Supply b d c L)
    {i : ℕ} (hi : i < KERNEL_PD) {s s' : Vm} (h : BetweenTables b d c L opened i s)
    (hret : s.copyTable d c i = .ok s') : BetweenTables b d c L opened (i+1) s' := by
  obtain ⟨got,hc⟩ := h
  have hdir : s.phys d i = b.phys d i := by rw [(hc.env.userSame hb).dir]
  cases hp : present (s.phys d i) with
  | false =>
    rw [copyTable,hp] at hret
    obtain rfl := Except.ok.inj hret
    refine ⟨got,hc.congr_done fun a ha => ?_⟩
    have hne : a.1 ≠ i := by
      obtain ⟨i',_ | j'⟩ := a
      · rintro rfl
        have := ha.2
        rw [← hdir,hp] at this
        cases this
      · rintro rfl
        have := ha.2.2.1
        rw [← hdir,hp] at this
        cases this
    omega
  | true =>
    have ha : b.UsedSlot d (i,none) := ⟨hi,by rw [← hdir]; exact hp⟩
    have hnew : ¬ (i,(none : Option ℕ)).1 < i := lt_irrefl i
    obtain ⟨r,halloc⟩ : ∃ r, kMemPmmAllocFrames s.pmm 1 = .ok r := by
      rw [copyTable,if_pos hp] at hret
      obtain ⟨r,hr,-⟩ := Result.bind_eq_ok.mp hret
      exact ⟨r,hr⟩
    obtain ⟨l,hl,hlL⟩ := hsup s _ _ got _ hc ha hnew r halloc
    obtain ⟨k,w,s₁,hkl,hkb,hkt,h1,h2,-,-,-,heq,hstarted⟩ :=
      copyTable_effect hb hc.env ha hl (by omega)
    rw [heq] at hret
    by_cases hw : w = WINDOW_END
    · rw [if_pos hw] at hret
      cases hret
    · rw [if_neg hw] at hret
      obtain ⟨s₂,hloop,hret⟩ := Result.bind_eq_ok.mp hret
      obtain rfl := Except.ok.inj hret
      have hst := hstarted (by omega)
      have hc₁ := hc.addTable hb hL ha hnew (before_zero i) (fun a => index_lt_table)
        (lt_of_le_of_lt (hkl l hl) hlL) hkb hkt hkl hst
      obtain ⟨got₂,hc₂,-⟩ := forLoop_spec
        (fun j hj t t' => copyPage_step hb hL hsup ha hj) ⟨_,hc₁,List.mem_cons_self ..⟩ hloop
      obtain ⟨hun,hc₃⟩ := hc₂.close hb hL hst.closed (fun a ha => (before_all ha).symm)
        h1 (by omega) hst.unmapped
      exact ⟨got₂,by rw [hun]; exact hc₃⟩

/-! ## The loops return -/

/-- There is a free frame below `L` for every missing slot. -/
def Plenty (b : Vm) (d c L : ℕ) : Prop :=
  ∀ s opened done got a, Cloning b s d c L opened done got → b.UsedSlot d a → ¬ done a →
    ∃ l, s.pmm.IsFree l ∧ l < L

theorem Plenty.supply (h : Plenty b d c L) : Supply b d c L :=
  fun s opened done got a hc ha hnew _ _ => h s opened done got a hc ha hnew

theorem copyPage_returns (hb : CloneBase b d c) (hL : L ≤ 0x100000) (hpl : Plenty b d c L)
    {w t i j : ℕ} (hi : b.UsedSlot d (i,none)) (hj : j < 1024) {s : Vm}
    (h : InTable b d c L opened w t i j s) (hwin : s.OneWindow d) :
    ∃ s', s.copyPage i (w*0x1000) j = .ok s' ∧ s'.OneWindow d ∧
      s.firstFreeAddress ≤ s'.firstFreeAddress := by
  obtain ⟨got,hc,ht⟩ := h
  have hpte : s.pte i j = b.slotWord d (i,some j) := hc.env.pte_eq hb hi.1 hi.2 j
  cases hq : present (s.pte i j) with
  | false => exact ⟨s,by rw [copyPage,hq]; rfl,hwin,le_rfl⟩
  | true =>
    have ha : b.UsedSlot d (i,some j) := ⟨hi.1,hj,hi.2,by rw [hpte] at hq; exact hq⟩
    obtain ⟨l,hl,hlL⟩ := hpl s _ _ got _ hc ha (by simp [Before])
    obtain ⟨k,n,s₁,-,-,-,h1,h2,hffa,hnone,hleast,heq,hcopied⟩ := copyPage_effect hb hc.env ha
      (Function.update_self ..) (mem_snd ht) hl (by omega)
    obtain ⟨m,hm1,hm2,hm3⟩ := hwin
    have hn : n < WINDOW_END := by
      by_contra hn
      exact hleast m hm1 (by omega) hm3
    obtain ⟨henv,-,-,-,hstart⟩ := hcopied hn
    refine ⟨s₁,by rw [heq,if_neg (by omega)],⟨n,by rw [hstart],hn,?_⟩,by rw [hstart]; exact hffa⟩
    rw [henv.view_window n h1 h2,← hc.env.view_window n h1 h2]
    exact hnone

theorem copyTable_returns (hb : CloneBase b d c) (hL : L ≤ 0x100000) (hpl : Plenty b d c L)
    {i : ℕ} (hi : i < KERNEL_PD) {s : Vm} (h : BetweenTables b d c L opened i s)
    (hwin : s.TwoWindows d) : ∃ s', s.copyTable d c i = .ok s' ∧ s'.TwoWindows d := by
  obtain ⟨got,hc⟩ := h
  have hdir : s.phys d i = b.phys d i := by rw [(hc.env.userSame hb).dir]
  cases hp : present (s.phys d i) with
  | false => exact ⟨s,by rw [copyTable,hp]; rfl,hwin⟩
  | true =>
    have ha : b.UsedSlot d (i,none) := ⟨hi,by rw [← hdir]; exact hp⟩
    have hnew : ¬ (i,(none : Option ℕ)).1 < i := lt_irrefl i
    obtain ⟨l,hl,hlL⟩ := hpl s _ _ got _ hc ha hnew
    obtain ⟨k,w,s₁,hkl,hkb,hkt,h1,h2,-,-,hleast,heq,hstarted⟩ :=
      copyTable_effect hb hc.env ha hl (by omega)
    obtain ⟨m,m',hm1,hmm,hm2,hm3,hm4⟩ := hwin
    have hwm : w ≤ m := by
      by_contra hwm
      exact hleast m hm1 (by omega) hm3
    have hst := hstarted (by omega)
    have hc₁ := hc.addTable hb hL ha hnew (before_zero i) (fun a => index_lt_table)
        (lt_of_le_of_lt (hkl l hl) hlL) hkb hkt hkl hst
    -- the second free page is still there for the windows of the inner loop
    have hwin₁ : s₁.OneWindow d := by
      refine ⟨m',by rw [hst.window]; omega,hm2,?_⟩
      rw [hst.env.view_window m' (by omega) (by omega),Function.update_of_ne (by omega),
        ← hc.env.view_window m' (by omega) (by omega)]
      exact hm4
    obtain ⟨s₂,hloop,⟨got₂,hc₂,-⟩,⟨n,hn1,hn2,hn3⟩,hffa⟩ := forLoop_returns
      (I:=fun j t => InTable b d c L opened w k i j t ∧ t.OneWindow d ∧
        (w+1)*0x1000 ≤ t.firstFreeAddress) (n:=1024)
      (fun j hj t ⟨hin,hone,hffa⟩ => by
        obtain ⟨t',hret,hone',hle⟩ := copyPage_returns hb hL hpl ha hj hin hone
        exact ⟨t',hret,copyPage_step hb hL hpl.supply ha hj hin hret,hone',by omega⟩)
      ⟨⟨_,hc₁,List.mem_cons_self ..⟩,hwin₁,by rw [hst.window]⟩
    have hw : w < WINDOW_END := by omega
    obtain ⟨hun,hc₃⟩ := hc₂.close hb hL hst.closed (fun a ha => (before_all ha).symm)
      h1 hw hst.unmapped
    refine ⟨s₂.closeWindow w,?_,w,n,?_,by omega,hn2,?_,?_⟩
    · rw [heq,if_neg (by omega),← hun]
      exact Result.bind_eq_ok.mpr ⟨s₂,hloop,rfl⟩
    · show (if w*0x1000 < s₂.firstFreeAddress then w*0x1000 else s₂.firstFreeAddress) ≤ w*0x1000
      rw [if_pos (by omega)]
    · rw [hc₃.env.view_window w h1 hw.le,hst.closed,hst.unmapped]
      rfl
    · have hwn : n ≠ w := by omega
      rw [hc₃.env.view_window n (by omega) hn2.le]
      rw [hc₂.env.view_window n (by omega) hn2.le,Function.update_of_ne hwn] at hn3
      exact hn3

end Loops

end Vm
end ScalesOS
