import ScalesOS.AddressSpace

/-! `k_mem_paging_init`. Every slot of the kernel half that is empty gets a frame for its table;
what is cleared each time is the table of the first slot, `PT_PTR(kernel_pd)`, not the new one. -/
namespace ScalesOS

namespace Pmm

/-- The frames that the next `n` requests for one frame are answered with. -/
def handOut : Pmm → ℕ → List ℕ
  | _, 0 => []
  | p, n+1 =>
    match kMemPmmAllocFrames p 1 with
    | .ok r => r.1/0x1000::handOut r.2 n
    | .error _ => []

theorem allocFrame_small {p p' : Pmm} {b : ℕ} (hp : p.bitmapSize ≤ 0x8000)
    (h : kMemPmmAllocFrames p 1 = .ok (b,p')) :
    ∃ k, b = 0x1000*k ∧ k < 0x100000 ∧ p.IsFree k ∧ (∀ l, p'.IsFree l ↔ p.IsFree l ∧ l ≠ k) ∧
      p'.bitmapSize = p.bitmapSize := by
  obtain ⟨k,hb,hk,hfree,hafter,hsize,-⟩ := allocFrames_spec_small hp h
  refine ⟨k,hb,hk,hfree 0 (by decide),fun l => ?_,hsize⟩
  rw [hafter l]
  exact and_congr_right fun _ => by omega

theorem handOut_succ {p p' : Pmm} {k n : ℕ} (h : kMemPmmAllocFrames p 1 = .ok (0x1000*k,p')) :
    p.handOut (n+1) = k::p'.handOut n := by
  rw [handOut,h]
  exact congrArg (·::p'.handOut n) (Nat.mul_div_cancel_left k (by decide))

theorem handOut_free (n : ℕ) : ∀ {p : Pmm}, p.bitmapSize ≤ 0x8000 →
    (p.handOut n).Nodup ∧ ∀ k ∈ p.handOut n, p.IsFree k ∧ k < 0x100000 := by
  induction n with
  | zero => exact fun _ => ⟨List.nodup_nil,fun k hk => absurd hk List.not_mem_nil⟩
  | succ n ih =>
    intro p hp
    cases halloc : kMemPmmAllocFrames p 1 with
    | error e =>
      rw [handOut,halloc]
      exact ⟨List.nodup_nil,fun k hk => absurd hk List.not_mem_nil⟩
    | ok r =>
      obtain ⟨b,p'⟩ := r
      obtain ⟨k,rfl,hk,hfree,hafter,hsize⟩ := allocFrame_small hp halloc
      obtain ⟨hnodup,hrest⟩ := ih (hsize.trans_le hp)
      rw [handOut_succ halloc]
      refine ⟨List.nodup_cons.mpr ⟨fun hin => ?_,hnodup⟩,fun l hl => ?_⟩
      · exact ((hafter k).mp (hrest k hin).1).2 rfl
      · rcases List.mem_cons.mp hl with rfl | hl
        · exact ⟨hfree,hk⟩
        · exact ⟨((hafter l).mp (hrest l hl).1).1,(hrest l hl).2⟩

end Pmm

namespace Vm

open Entry Pmm

def initEntry (s : Vm) (i : ℕ) : Result Vm :=
  if present (s.pde i) then pure s
  else do
    let r ← kMemPmmAllocFrames s.pmm 1
    if r.1 = 0 then throw (.panic "Out of memory. Failed to allocate page table.")
    let s :=
      setWord { s with pmm := r.2 } s.directory i ((r.1 ||| (PAGE_PRESENT ||| PAGE_WRITABLE))%W32)
    pure (s.setPage (s.ptFrame KERNEL_PD) fun _ => 0)

def initEntries : List ℕ → Vm → Result Vm
  | [], s => pure s
  | i::is, s => do
    let s ← s.initEntry i
    initEntries is s

/-- `current_page_directory` is the boot directory from here on. -/
def kMemPagingInit (s : Vm) : Result Vm :=
  initEntries (List.range' KERNEL_PD 256)
    (s.setWord s.directory 1023 (s.directory*0x1000 ||| (PAGE_PRESENT ||| PAGE_WRITABLE)))

/-- The slots among `is` that have no table. -/
def absent (s : Vm) (is : List ℕ) : List ℕ := is.filter fun i => !present (s.pde i)

/-- The kernel half apart from the recursive slot. -/
def kernelSlots : List ℕ := List.range' KERNEL_PD 255

def Zero (s : Vm) (frame : ℕ) : Prop := ∀ j < 1024, s.phys frame j = 0

/-- What `k_mem_paging_init` is for. The last part says that no page of a new slot translates to
anything. -/
structure InitRight (s s' : Vm) : Prop where
  fresh : ∀ i ∈ s.absent kernelSlots, s'.IsTable s'.directory i ∧
    s.pmm.IsFree (s'.table s'.directory i) ∧ s'.Zero (s'.table s'.directory i)
  own : ∀ i ∈ s.absent kernelSlots, ∀ j ∈ s.absent kernelSlots,
    s'.table s'.directory i = s'.table s'.directory j → i = j
  old : ∀ i ∈ kernelSlots, i ∉ s.absent kernelSlots → s'.pde i = s.pde i ∧
    (large (s.pde i) = false →
      ∀ j < 1024, s'.phys (s.table s.directory i) j = s.phys (s.table s.directory i) j)
  unmapped : ∀ i ∈ s.absent kernelSlots, ∀ j < 1024, s'.lookup s'.directory (i*1024+j) = none

/-- The frame that every round clears, the table of slot `KERNEL_PD`. -/
def wiped (s : Vm) : ℕ := if present (s.pde KERNEL_PD) then page (s.pde KERNEL_PD)
    else (s.pmm.handOut 1).headD 0

/-- The frame that is cleared all the time is not the directory, the other frames that are handed
out hold only zeros, and so does the cleared one if it is the table of an older slot. -/
def WipesRight (s : Vm) : Prop :=
  s.wiped ≠ s.directory ∧
    (∀ k ∈ s.pmm.handOut (s.absent kernelSlots).length, k = s.wiped ∨ s.Zero k) ∧
    ∀ i ∈ kernelSlots, i ∉ s.absent kernelSlots → large (s.pde i) = false →
    s.table s.directory i = s.wiped → s.Zero s.wiped

/-- A boot directory on a machine below 4 GiB. None of its slots refers to itself yet. -/
structure BootOk (s : Vm) : Prop where
  low : s.directory < 0x100000
  used : ¬s.pmm.IsFree s.directory
  small : s.pmm.bitmapSize ≤ 0x8000
  apart : ∀ i ∈ kernelSlots, i ∉ s.absent kernelSlots → large (s.pde i) = false →
    s.table s.directory i ≠ s.directory

variable {s s' : Vm}

structure Recursive (s : Vm) : Prop where
  used : ¬s.pmm.IsFree s.directory
  small : s.pmm.bitmapSize ≤ 0x8000
  self : page (s.pde 1023) = s.directory

/-- One empty slot has been given a frame, and frame `x` has been cleared. -/
structure Given (s s' : Vm) (i k x : ℕ) : Prop where
  alloc : kMemPmmAllocFrames s.pmm 1 = .ok (0x1000*k,s'.pmm)
  directory_eq : s'.directory = s.directory
  entry : x ≠ s.directory → s'.pde i = (0x1000*k ||| (PAGE_PRESENT ||| PAGE_WRITABLE))
  others : x ≠ s.directory → ∀ j, j ≠ i → s'.pde j = s.pde j
  frames : ∀ f, f ≠ s.directory → s'.phys f = if f = x then fun _ => 0 else s.phys f
  cleared : s'.phys x = fun _ => 0

theorem initEntry_absent (hs : s.Recursive) {i : ℕ} (hi : i ≠ 1023)
    (habsent : present (s.pde i) = false) (h : s.initEntry i = .ok s') :
    ∃ k, Given s s' i k (if i = KERNEL_PD then k else page (s.pde KERNEL_PD)) := by
  rw [initEntry,if_neg (by simp [habsent])] at h
  obtain ⟨⟨b,p⟩,halloc,h⟩ := Result.bind_eq_ok.mp h
  obtain ⟨k,rfl,hk,-⟩ := allocFrame_small hs.small halloc
  dsimp only at h
  split at h
  · cases h
  have hword : (0x1000*k ||| (PAGE_PRESENT ||| PAGE_WRITABLE))%W32 = 0x1000*k |||
      (PAGE_PRESENT ||| PAGE_WRITABLE) := by
    refine Nat.mod_eq_of_lt ?_
    have hflags : PAGE_PRESENT ||| PAGE_WRITABLE = 3 := by decide
    rw [hflags,or_flags (by decide)]
    simp only [W32]
    omega
  obtain rfl := Except.ok.inj h
  rw [hword]
  set t :=
    setWord { s with pmm := p } s.directory i (0x1000*k |||
      (PAGE_PRESENT ||| PAGE_WRITABLE)) with ht
  have hdir : t.directory = s.directory := rfl
  have hself : page (t.phys s.directory 1023) = s.directory := by
    rw [ht,phys_setWord_index _ _ _ _ hi.symm]
    exact hs.self
  have hframe : t.ptFrame KERNEL_PD = if i = KERNEL_PD then k else page (s.pde KERNEL_PD) := by
    have hwalk : t.ptFrame KERNEL_PD = page (t.phys s.directory KERNEL_PD) := by
      rw [ptFrame,hdir,hself]
    rw [hwalk]
    by_cases he : i = KERNEL_PD
    · rw [if_pos he,ht,he,phys_setWord_self,page_or hk (by decide)]
    · rw [if_neg he,ht,phys_setWord_index _ _ _ _ (Ne.symm he)]
      rfl
  refine ⟨k,?_⟩
  rw [hframe]
  generalize (if i = KERNEL_PD then k else page (s.pde KERNEL_PD)) = x
  refine ⟨halloc,rfl,fun hx => ?_,fun hx j hj => ?_,fun f hf => ?_,phys_setPage_self _ _ _⟩
  · rw [pde,directory_setPage,hdir,phys_setPage_frame _ _ _ hx.symm]
    exact phys_setWord_self _ _ _ _
  · rw [pde,directory_setPage,hdir,phys_setPage_frame _ _ _ hx.symm]
    exact phys_setWord_index _ _ _ _ hj
  · by_cases hfx : f = x
    · rw [if_pos hfx,hfx,phys_setPage_self]
    · rw [if_neg hfx,phys_setPage_frame _ _ _ hfx]
      exact phys_setWord_frame _ _ _ _ hf

theorem Given.recursive {i k x : ℕ} (h : Given s s' i k x) (hs : s.Recursive) (hi : i ≠ 1023)
    (hx : x ≠ s.directory) :
    s'.Recursive := by
  obtain ⟨k',-,-,-,hafter,hsize⟩ := allocFrame_small hs.small h.alloc
  refine ⟨fun hc => ?_,hsize.trans_le hs.small,?_⟩
  · rw [h.directory_eq] at hc
    exact hs.used ((hafter _).mp hc).1
  · rw [h.others hx _ hi.symm,h.directory_eq]
    exact hs.self

theorem absent_cons (s : Vm) (i : ℕ) (is : List ℕ) :
    s.absent (i::is) = if present (s.pde i) then s.absent is else i::s.absent is := by
  rw [absent,List.filter_cons]
  cases present (s.pde i) <;> rfl

theorem absent_congr {is : List ℕ} (h : ∀ i ∈ is, s'.pde i = s.pde i) :
    s'.absent is = s.absent is :=
  List.filter_congr fun i hi => by rw [h i hi]

/-- The slots `es` have been given the next frames in their order, and frame `x` has been
cleared. -/
structure Filled (s s' : Vm) (es : List ℕ) (x : ℕ) : Prop where
  directory_eq : s'.directory = s.directory
  count : (s.pmm.handOut es.length).length = es.length
  entry : ∀ e ∈ es.zip (s.pmm.handOut es.length),
    s'.pde e.1 = (0x1000*e.2 ||| (PAGE_PRESENT ||| PAGE_WRITABLE))
  others : ∀ i, i ∉ es → s'.pde i = s.pde i
  frames : ∀ f, f ≠ s.directory → s'.phys f = if es ≠ [] ∧ f = x then fun _ => 0 else s.phys f

theorem Filled.nil (s : Vm) (x : ℕ) : Filled s s [] x :=
  ⟨rfl,rfl,fun e he => by simp at he,fun _ _ => rfl,fun _ _ => by simp⟩

theorem Filled.cons {s₁ : Vm} {i k x : ℕ} {es : List ℕ} (hx : x ≠ s.directory) (hi : i ∉ es)
    (h : Given s s₁ i k x) (h' : Filled s₁ s' es x) : Filled s s' (i::es) x where
  directory_eq := h'.directory_eq.trans h.directory_eq
  count := by
    rw [List.length_cons,handOut_succ h.alloc,List.length_cons,h'.count]
  entry e he := by
    rw [List.length_cons,handOut_succ h.alloc,List.zip_cons_cons] at he
    rcases List.mem_cons.mp he with rfl | he
    · rw [h'.others i hi]
      exact h.entry hx
    · exact h'.entry e he
  others j hj := by
    obtain ⟨hne,hout⟩ := not_or.mp (mt List.mem_cons.mpr hj)
    rw [h'.others j hout,h.others hx j hne]
  frames f hf := by
    have hf₁ : f ≠ s₁.directory := h.directory_eq ▸ hf
    rw [h'.frames f hf₁,h.frames f hf]
    by_cases hfx : f = x
    · simp [hfx]
    · simp [hfx]

/-- Once slot `KERNEL_PD` has a table, it is the frame of this slot that is cleared. -/
theorem initEntries_filled (is : List ℕ) : ∀ {s : Vm}, s.Recursive →
    present (s.pde KERNEL_PD) = true →
    page (s.pde KERNEL_PD) ≠ s.directory → is.Nodup → (∀ i ∈ s.absent is, i ≠ 1023) →
    initEntries is s = .ok s' → Filled s s' (s.absent is) (page (s.pde KERNEL_PD)) := by
  induction is with
  | nil =>
    intro s _ _ _ _ _ h
    obtain rfl := Except.ok.inj h
    exact .nil _ _
  | cons i is ih =>
    intro s hs hfirst hx hnodup hlast h
    obtain ⟨hnotin,hnodup⟩ := List.nodup_cons.mp hnodup
    obtain ⟨s₁,hstep,h⟩ := Result.bind_eq_ok.mp h
    rw [absent_cons] at hlast ⊢
    cases hpresent : present (s.pde i) with
    | true =>
      rw [initEntry,if_pos hpresent] at hstep
      obtain rfl := Except.ok.inj hstep
      rw [hpresent,if_pos rfl] at hlast
      rw [if_pos rfl]
      exact ih hs hfirst hx hnodup hlast h
    | false =>
      rw [hpresent,if_neg Bool.false_ne_true] at hlast
      rw [if_neg Bool.false_ne_true]
      have hi : i ≠ 1023 := hlast i List.mem_cons_self
      have hne : i ≠ KERNEL_PD := by
        rintro rfl
        rw [hfirst] at hpresent
        cases hpresent
      obtain ⟨k,hgiven⟩ := initEntry_absent hs hi hpresent hstep
      rw [if_neg hne] at hgiven
      have hsame : s₁.absent is = s.absent is :=
        absent_congr fun j hj => hgiven.others hx j fun he => hnotin (he ▸ hj)
      have hpde : s₁.pde KERNEL_PD = s.pde KERNEL_PD := hgiven.others hx _ hne.symm
      have hrest :=
        ih (hgiven.recursive hs hi hx) (hpde ▸ hfirst) (by rwa [hpde,hgiven.directory_eq]) hnodup
        (fun j hj => hlast j (List.mem_cons_of_mem _ (hsame ▸ hj))) h
      rw [hsame,hpde] at hrest
      exact .cons hx (fun hin => hnotin (List.mem_of_mem_filter hin)) hgiven hrest

/-- If it is the directory that is cleared, a slot that has been given a frame is empty again. -/
theorem initEntries_zero (is : List ℕ) : ∀ {s : Vm} {i : ℕ}, i ∉ is → s.pde i = 0 →
    initEntries is s = .ok s' → s'.directory = s.directory ∧ s'.pde i = 0 := by
  induction is with
  | nil =>
    intro s i _ hzero h
    obtain rfl := Except.ok.inj h
    exact ⟨rfl,hzero⟩
  | cons j is ih =>
    intro s i hi hzero h
    obtain ⟨hne,hout⟩ := not_or.mp (mt List.mem_cons.mpr hi)
    obtain ⟨s₁,hstep,h⟩ := Result.bind_eq_ok.mp h
    have hsame : s₁.directory = s.directory ∧ s₁.pde i = 0 := by
      rw [initEntry] at hstep
      split at hstep
      · obtain rfl := Except.ok.inj hstep
        exact ⟨rfl,hzero⟩
      · obtain ⟨⟨b,p⟩,-,hstep⟩ := Result.bind_eq_ok.mp hstep
        dsimp only at hstep
        split at hstep
        · cases hstep
        obtain rfl := Except.ok.inj hstep
        refine ⟨rfl,?_⟩
        generalize ptFrame _ _ = x
        rw [pde,directory_setPage,directory_setWord]
        by_cases hx : s.directory = x
        · rw [hx,phys_setPage_self]
        · rw [phys_setPage_frame _ _ _ hx,phys_setWord_index _ _ _ _ hne]
          exact hzero
    obtain ⟨hdir,hempty⟩ := ih hout hsame.2 h
    exact ⟨hdir.trans hsame.1,hempty⟩

theorem initEntries_wiped (is : List ℕ) : ∀ {s : Vm}, s.Recursive →
    present (s.pde KERNEL_PD) = true →
    page (s.pde KERNEL_PD) = s.directory → is.Nodup → (∀ i ∈ s.absent is, i ≠ 1023) →
    s.absent is ≠ [] → initEntries is s = .ok s' → ∃ i ∈ s.absent is, s'.pde i = 0 := by
  induction is with
  | nil => exact fun {s} _ _ _ _ _ hne _ => absurd rfl hne
  | cons i is ih =>
    intro s hs hfirst hx hnodup hlast hne h
    obtain ⟨hnotin,hnodup⟩ := List.nodup_cons.mp hnodup
    obtain ⟨s₁,hstep,h⟩ := Result.bind_eq_ok.mp h
    rw [absent_cons] at hlast hne ⊢
    cases hpresent : present (s.pde i) with
    | true =>
      rw [initEntry,if_pos hpresent] at hstep
      obtain rfl := Except.ok.inj hstep
      rw [hpresent,if_pos rfl] at hlast hne
      rw [if_pos rfl]
      exact ih hs hfirst hx hnodup hlast hne h
    | false =>
      rw [hpresent,if_neg Bool.false_ne_true] at hlast
      rw [if_neg Bool.false_ne_true]
      have hi : i ≠ 1023 := hlast i List.mem_cons_self
      have hother : i ≠ KERNEL_PD := by
        rintro rfl
        rw [hfirst] at hpresent
        cases hpresent
      obtain ⟨k,hgiven⟩ := initEntry_absent hs hi hpresent hstep
      rw [if_neg hother,hx] at hgiven
      have hzero : s₁.pde i = 0 := by rw [pde,hgiven.directory_eq,hgiven.cleared]
      exact ⟨i,List.mem_cons_self,(initEntries_zero is hnotin hzero h).2⟩

theorem initEntries_none (is : List ℕ) (h : s.absent is = []) : initEntries is s = .ok s := by
  induction is with
  | nil => rfl
  | cons i is ih =>
    rw [absent_cons] at h
    split at h
    · rename_i hpresent
      rw [initEntries,initEntry,if_pos hpresent]
      exact ih h
    · cases h

def withRecursive (s : Vm) : Vm :=
  s.setWord s.directory 1023 (s.directory*0x1000 ||| (PAGE_PRESENT ||| PAGE_WRITABLE))

theorem withRecursive_pde {i : ℕ} (hi : i ≠ 1023) : s.withRecursive.pde i = s.pde i :=
  phys_setWord_index _ _ _ _ hi

theorem BootOk.recursive (hs : s.BootOk) : s.withRecursive.Recursive := by
  refine ⟨hs.used,hs.small,?_⟩
  rw [withRecursive,pde,directory_setWord,phys_setWord_self,Nat.mul_comm,page_or hs.low (by decide)]

theorem mem_kernelSlots {i : ℕ} : i ∈ kernelSlots ↔ KERNEL_PD ≤ i ∧ i < 1023 := by
  have hK : KERNEL_PD = 768 := rfl
  rw [kernelSlots,List.mem_range'_1]
  omega

theorem absent_withRecursive (s : Vm) :
    s.withRecursive.absent (List.range' KERNEL_PD 256) = s.absent kernelSlots := by
  have hsplit : List.range' KERNEL_PD 256 = kernelSlots++[1023] := List.range'_concat
  have hlast : present (s.withRecursive.pde 1023) = true := by
    rw [withRecursive,pde,directory_setWord,phys_setWord_self,Nat.mul_comm,present_or (by decide)]
    rfl
  rw [hsplit,absent,List.filter_append,List.filter_cons,hlast]
  simp only [Bool.not_true,Bool.false_eq_true,if_false,List.filter_nil,List.append_nil]
  refine List.filter_congr fun i hi => ?_
  rw [withRecursive_pde (by have := mem_kernelSlots.mp hi; omega)]

theorem mem_absent {i : ℕ} : i ∈ s.absent kernelSlots ↔ (KERNEL_PD ≤ i ∧ i < 1023) ∧
    present (s.pde i) = false := by
  rw [absent,List.mem_filter,mem_kernelSlots,Bool.not_eq_true']

theorem init_last (s : Vm) : ∀ i ∈ s.withRecursive.absent (List.range' KERNEL_PD 256),
    i ≠ 1023 := by
  rw [absent_withRecursive]
  exact fun i hi => (mem_absent.mp hi).1.2.ne

theorem init_first (hs : s.BootOk) (hpresent : present (s.pde KERNEL_PD) = false)
    (hret : s.kMemPagingInit = .ok s') :
    ∃ s₁, Given s.withRecursive s₁ KERNEL_PD s.wiped s.wiped ∧ s.pmm.IsFree s.wiped ∧
      s.wiped < 0x100000 ∧ initEntries (List.range' (KERNEL_PD+1) 255) s₁ = .ok s' := by
  have hfirst : s.withRecursive.pde KERNEL_PD = s.pde KERNEL_PD := withRecursive_pde (by decide)
  obtain ⟨s₁,hstep,hret⟩ := Result.bind_eq_ok.mp hret
  obtain ⟨k,hgiven⟩ := initEntry_absent hs.recursive (by decide) (hfirst ▸ hpresent) hstep
  rw [if_pos rfl] at hgiven
  have halloc : kMemPmmAllocFrames s.pmm 1 = .ok (0x1000*k,s₁.pmm) := hgiven.alloc
  have hwiped : s.wiped = k := by
    rw [wiped,if_neg (by simp [hpresent]),handOut_succ halloc]
    rfl
  obtain ⟨k',hk',hlow,hfree,-⟩ := allocFrame_small hs.small halloc
  obtain rfl : k = k' := Nat.eq_of_mul_eq_mul_left (by decide) hk'
  rw [hwiped]
  exact ⟨s₁,hgiven,hfree,hlow,hret⟩

/-- After a run that has not cleared the directory every empty slot has its frame. -/
theorem init_filled (hs : s.BootOk) (hx : s.wiped ≠ s.directory)
    (hret : s.kMemPagingInit = .ok s') :
    Filled s.withRecursive s' (s.absent kernelSlots) s.wiped := by
  have hlast := s.init_last
  have hfirst : s.withRecursive.pde KERNEL_PD = s.pde KERNEL_PD := withRecursive_pde (by decide)
  rw [← absent_withRecursive]
  cases hpresent : present (s.pde KERNEL_PD) with
  | true =>
    have hwiped : s.wiped = page (s.withRecursive.pde KERNEL_PD) := by
      rw [wiped,if_pos hpresent,hfirst]
    rw [hwiped] at hx ⊢
    exact initEntries_filled _ hs.recursive (hfirst ▸ hpresent) hx (List.nodup_range' ..) hlast hret
  | false =>
    have hlist : List.range' KERNEL_PD 256 = KERNEL_PD::List.range' (KERNEL_PD+1) 255 := rfl
    have hnodup : (KERNEL_PD::List.range' (KERNEL_PD+1) 255).Nodup := hlist ▸ List.nodup_range' ..
    obtain ⟨hnotin,hnodup⟩ := List.nodup_cons.mp hnodup
    rw [hlist,absent_cons,hfirst,hpresent,if_neg Bool.false_ne_true] at hlast ⊢
    obtain ⟨s₁,hgiven,-,hlow,hret⟩ := init_first hs hpresent hret
    have hentry : s₁.pde KERNEL_PD = (0x1000*s.wiped ||| (PAGE_PRESENT ||| PAGE_WRITABLE)) :=
      hgiven.entry hx
    have hpage : page (s₁.pde KERNEL_PD) = s.wiped := by rw [hentry,page_or hlow (by decide)]
    have hsame :
        s₁.absent (List.range' (KERNEL_PD+1) 255) =
            s.withRecursive.absent (List.range' (KERNEL_PD+1) 255) :=
      absent_congr fun j hj => hgiven.others hx j fun he => hnotin (he ▸ hj)
    have hrest := initEntries_filled _ (hgiven.recursive hs.recursive (by decide) hx)
      (by rw [hentry,present_or (by decide)]; rfl) (by
        rw [hpage,hgiven.directory_eq]; exact hx) hnodup
      (fun j hj => hlast j (List.mem_cons_of_mem _ (hsame ▸ hj))) hret
    rw [hsame,hpage] at hrest
    exact .cons hx (fun hin => hnotin (List.mem_of_mem_filter hin)) hgiven hrest

theorem Filled.pair {es : List ℕ} {x : ℕ} (h : Filled s.withRecursive s' es x) :
    (∀ i ∈ es, ∃ k, (i,k) ∈ es.zip (s.pmm.handOut es.length)) ∧
      ∀ k ∈ s.pmm.handOut es.length, ∃ i, (i,k) ∈ es.zip (s.pmm.handOut es.length) := by
  have hcount : (s.pmm.handOut es.length).length = es.length := h.count
  refine ⟨fun i hi => ?_,fun k hk => ?_⟩
  · obtain ⟨n,hn,rfl⟩ := List.mem_iff_getElem.mp hi
    exact ⟨(s.pmm.handOut es.length)[n],List.mem_iff_getElem.mpr ⟨n,by simp [hcount,hn],by simp⟩⟩
  · obtain ⟨n,hn,rfl⟩ := List.mem_iff_getElem.mp hk
    exact ⟨es[n],List.mem_iff_getElem.mpr ⟨n,by simpa [hcount] using hn,by simp⟩⟩

theorem zip_unique {es fs : List ℕ} (hnodup : fs.Nodup) {i j k : ℕ} (hi : (i,k) ∈ es.zip fs)
    (hj : (j,k) ∈ es.zip fs) :
    i = j := by
  obtain ⟨n,hn,hin⟩ := List.mem_iff_getElem.mp hi
  obtain ⟨m,hm,hjm⟩ := List.mem_iff_getElem.mp hj
  rw [List.getElem_zip,Prod.mk.injEq] at hin hjm
  obtain rfl : n = m := (List.Nodup.getElem_inj_iff hnodup).mp (hin.2.trans hjm.2.symm)
  exact hin.1.symm.trans hjm.1

theorem Filled.table (hs : s.BootOk) {x i k : ℕ}
    (h : Filled s.withRecursive s' (s.absent kernelSlots) x)
    (hik : (i,k) ∈ (s.absent kernelSlots).zip (s.pmm.handOut (s.absent kernelSlots).length)) :
    s'.IsTable s'.directory i ∧ s'.table s'.directory i = k := by
  obtain ⟨hi,hk⟩ := List.of_mem_zip hik
  have hlow := ((handOut_free _ hs.small).2 k hk).2
  have hentry : s'.phys s'.directory i = (0x1000*k ||| (PAGE_PRESENT ||| PAGE_WRITABLE)) :=
    h.entry _ hik
  refine ⟨⟨(mem_absent.mp hi).1.2,?_,?_⟩,?_⟩
  · rw [hentry,present_or (by decide)]; rfl
  · rw [hentry,large_or (by decide)]; rfl
  · rw [Vm.table,hentry,page_or hlow (by decide)]

theorem withRecursive_phys {f : ℕ} (hf : f ≠ s.directory) : s.withRecursive.phys f = s.phys f :=
  phys_setWord_frame _ _ _ _ hf

theorem initRight_of_filled (hs : s.BootOk) {x : ℕ}
    (h : Filled s.withRecursive s' (s.absent kernelSlots) x)
    (hright : s.absent kernelSlots ≠ [] → x ≠ s.directory ∧
      (∀ k ∈ s.pmm.handOut (s.absent kernelSlots).length, k = x ∨ s.Zero k) ∧
      ∀ i ∈ kernelSlots, i ∉ s.absent kernelSlots → large (s.pde i) = false →
      s.table s.directory i = x → s.Zero x) :
    s.InitRight s' := by
  obtain ⟨hslot,-⟩ := h.pair
  obtain ⟨hnodup,hfree⟩ := handOut_free (s.absent kernelSlots).length hs.small
  have hzero : ∀ k ∈ s.pmm.handOut (s.absent kernelSlots).length,
      s.absent kernelSlots ≠ [] → s'.Zero k := by
    intro k hk hne j hj
    have hkd : k ≠ s.directory := fun he => hs.used (he ▸ (hfree k hk).1)
    rw [h.frames k hkd,withRecursive_phys hkd]
    split
    · rfl
    · rename_i hkx
      exact ((hright hne).2.1 k hk).resolve_left (fun he => hkx ⟨hne,he⟩) j hj
  have hempty : ∀ i ∈ s.absent kernelSlots, s'.IsTable s'.directory i ∧
      s'.Zero (s'.table s'.directory i) := by
    intro i hi
    obtain ⟨k,hik⟩ := hslot i hi
    obtain ⟨hit,hik'⟩ := h.table hs hik
    exact ⟨hit,hik' ▸ hzero k (List.of_mem_zip hik).2 (List.ne_nil_of_mem hi)⟩
  refine ⟨fun i hi => ?_,fun i hi j hj he => ?_,fun i hi hold => ?_,fun i hi j hj => ?_⟩
  · obtain ⟨k,hik⟩ := hslot i hi
    exact ⟨(hempty i hi).1,(h.table hs hik).2 ▸ (hfree k (List.of_mem_zip hik).2).1,(hempty i hi).2⟩
  · obtain ⟨k,hik⟩ := hslot i hi
    obtain ⟨l,hjl⟩ := hslot j hj
    rw [(h.table hs hik).2,(h.table hs hjl).2] at he
    exact zip_unique hnodup hik (he ▸ hjl)
  · have hne : i ≠ 1023 := (mem_kernelSlots.mp hi).2.ne
    refine ⟨(h.others i hold).trans (withRecursive_pde hne),fun hsmall j hj => ?_⟩
    have hapart := hs.apart i hi hold hsmall
    rw [h.frames _ hapart,withRecursive_phys hapart]
    split
    · rename_i hx
      rw [hx.2]
      exact ((hright hx.1).2.2 i hi hold hsmall hx.2 j hj).symm
    · rfl
  · rw [lookup_of_isTable (hempty i hi).1 hj,(hempty i hi).2 j hj]
    rfl

theorem wiped_ne_of_right (hs : s.BootOk) (hret : s.kMemPagingInit = .ok s') (h : s.InitRight s')
    (hne : s.absent kernelSlots ≠ []) : s.wiped ≠ s.directory := by
  intro hx
  cases hpresent : present (s.pde KERNEL_PD) with
  | true =>
    have hfirst : s.withRecursive.pde KERNEL_PD = s.pde KERNEL_PD := withRecursive_pde (by decide)
    have hpage : page (s.withRecursive.pde KERNEL_PD) = s.directory := by
      rw [hfirst,← hx,wiped,if_pos hpresent]
    obtain ⟨i,hi,hzero⟩ :=
      initEntries_wiped _ hs.recursive (hfirst ▸ hpresent) hpage (List.nodup_range' ..) s.init_last
      (by rwa [absent_withRecursive]) hret
    rw [absent_withRecursive] at hi
    have hentry := (h.fresh i hi).1.2.1
    rw [show s'.phys s'.directory i = 0 from hzero] at hentry
    cases hentry
  | false =>
    obtain ⟨s₁,-,hfree,-⟩ := init_first hs hpresent hret
    exact hs.used (hx ▸ hfree)

theorem wipesRight_of_right (hs : s.BootOk) (hret : s.kMemPagingInit = .ok s') (h : s.InitRight s')
    (hne : s.absent kernelSlots ≠ []) : s.WipesRight := by
  have hx := wiped_ne_of_right hs hret h hne
  have hfilled := init_filled hs hx hret
  obtain ⟨-,hframe⟩ := hfilled.pair
  refine ⟨hx,fun k hk => ?_,fun i hi hold hsmall he j hj => ?_⟩
  · obtain ⟨i,hik⟩ := hframe k hk
    obtain ⟨-,-,hzero⟩ := h.fresh i (List.of_mem_zip hik).1
    rw [(hfilled.table hs hik).2] at hzero
    have hkd : k ≠ s.directory := fun he => hs.used (he ▸ ((handOut_free _ hs.small).2 k hk).1)
    refine or_iff_not_imp_left.mpr fun hkx j hj => ?_
    have hsame := hzero j hj
    rwa [hfilled.frames k hkd,if_neg (fun hc => hkx hc.2),withRecursive_phys hkd] at hsame
  · have hsame := (h.old i hi hold).2 hsmall j hj
    rwa [he,hfilled.frames _ hx,if_pos ⟨hne,rfl⟩,eq_comm] at hsame

/-- `k_mem_paging_init` does what it is for exactly if there is nothing to do, or if what it
should clear is clear already. -/
theorem init_right_iff (hs : s.BootOk) (hret : s.kMemPagingInit = .ok s') :
    s.InitRight s' ↔ s.absent kernelSlots = [] ∨ s.WipesRight := by
  constructor
  · exact fun h => or_iff_not_imp_left.mpr (wipesRight_of_right hs hret h)
  · rintro (hnone | hwipes)
    · have hret' :=
        initEntries_none (s:=s.withRecursive) (List.range' KERNEL_PD 256) (by
          rw [absent_withRecursive,hnone])
      obtain rfl := Except.ok.inj (hret'.symm.trans hret)
      refine initRight_of_filled (x:=0) hs ?_ fun hne => absurd hnone hne
      rw [hnone]
      exact .nil _ _
    · exact initRight_of_filled hs (init_filled hs hwipes.1 hret) fun _ => hwipes

theorem initEntry_returns (hs : s.Recursive) (hok : s.pmm.FirstFreeOk)
    (hzero : ¬s.pmm.IsFree 0) {k₀ : ℕ}
    (hfree : s.pmm.IsFree k₀) (i : ℕ) : ∃ s', s.initEntry i = .ok s' := by
  have hlow : k₀ < 0x100000 := by
    have := hfree.1
    have := hs.small
    omega
  obtain ⟨k,p,halloc,-,hk,-⟩ := allocFrame_spec (by have := hok k₀ hfree; omega) hfree hlow
  have hne : 0x1000*k ≠ 0 := fun hc => hzero ((by omega : k = 0) ▸ hk)
  rw [initEntry]
  split
  · exact ⟨s,rfl⟩
  · simp only [halloc,bind,Except.bind]
    rw [if_neg hne]
    exact ⟨_,rfl⟩

/-- With as many free frames as there are empty slots the loop ends without a panic. -/
theorem initEntries_returns (is : List ℕ) : ∀ {s : Vm} {frames : Finset ℕ}, s.Recursive →
    present (s.pde KERNEL_PD) = true → page (s.pde KERNEL_PD) ≠ s.directory → is.Nodup →
    (∀ i ∈ s.absent is, i ≠ 1023) → s.pmm.FirstFreeOk → ¬s.pmm.IsFree 0 →
    (∀ k ∈ frames, s.pmm.IsFree k) →
    (s.absent is).length ≤ frames.card → ∃ s', initEntries is s = .ok s' := by
  induction is with
  | nil => exact fun {s _} _ _ _ _ _ _ _ _ _ => ⟨s,rfl⟩
  | cons i is ih =>
    intro s frames hs hfirst hx hnodup hlast hok hzero hfree hcard
    obtain ⟨hnotin,hnodup⟩ := List.nodup_cons.mp hnodup
    rw [absent_cons] at hlast hcard
    cases hpresent : present (s.pde i) with
    | true =>
      rw [hpresent,if_pos rfl] at hlast hcard
      obtain ⟨s',hret⟩ := ih hs hfirst hx hnodup hlast hok hzero hfree hcard
      exact ⟨s',by rw [initEntries,initEntry,if_pos hpresent]; exact hret⟩
    | false =>
      rw [hpresent,if_neg Bool.false_ne_true] at hlast hcard
      rw [List.length_cons] at hcard
      have hi : i ≠ 1023 := hlast i List.mem_cons_self
      have hother : i ≠ KERNEL_PD := by
        rintro rfl
        rw [hfirst] at hpresent
        cases hpresent
      obtain ⟨k₀,hk₀⟩ := Finset.card_pos.mp (by omega : 0 < frames.card)
      obtain ⟨s₁,hstep⟩ := initEntry_returns hs hok hzero (hfree k₀ hk₀) i
      obtain ⟨k,hgiven⟩ := initEntry_absent hs hi hpresent hstep
      rw [if_neg hother] at hgiven
      obtain ⟨k',hk',-,-,hafter,-⟩ := allocFrame_small hs.small hgiven.alloc
      obtain rfl : k = k' := Nat.eq_of_mul_eq_mul_left (by decide) hk'
      have hsame : s₁.absent is = s.absent is :=
        absent_congr fun j hj => hgiven.others hx j fun he => hnotin (he ▸ hj)
      have hpde : s₁.pde KERNEL_PD = s.pde KERNEL_PD := hgiven.others hx _ hother.symm
      obtain ⟨-,-,-,-,-,-,hok₁⟩ := allocFrames_spec_small hs.small hgiven.alloc
      have hsize := Finset.pred_card_le_card_erase (s:=frames) (a:=k)
      obtain ⟨s',hret⟩ := @ih s₁ (frames.erase k) (hgiven.recursive hs hi hx) (hpde ▸ hfirst)
        (by rwa [hpde,hgiven.directory_eq]) hnodup (fun j hj =>
          hlast j (List.mem_cons_of_mem _ (hsame ▸ hj)))
        (hok₁ hok) (fun hc => hzero ((hafter 0).mp hc).1)
        (fun l hl => (hafter l).mpr ⟨hfree l (Finset.mem_of_mem_erase hl),
          Finset.ne_of_mem_erase hl⟩)
        (by rw [hsame]; omega)
      exact ⟨s',by rw [initEntries,hstep]; exact hret⟩

/-- A machine of 128 MiB, the first 16 in use, with the directory that the boot code leaves: one
slot that maps 4 MiB. All other memory holds `fill`. -/
def bootMachine (fill : ℕ) : Vm where
  pmm := ⟨fun w => if w < 0x80 then 0 else BitVec.allOnes 32,0x400,0x80,0,0,0x7000⟩
  phys f i := if f = 0x100 then if i = KERNEL_PD then 0x83 else 0 else fill
  directory := 0x100
  firstFreeAddress := LOWMEM_START
  heapEnd := HEAP_START

theorem bootMachine_large {fill i : ℕ} (hi : i ∈ kernelSlots)
    (hold : i ∉ (bootMachine fill).absent kernelSlots) :
    large ((bootMachine fill).pde i) = true := by
  by_cases he : i = KERNEL_PD
  · have hentry : (bootMachine fill).pde KERNEL_PD = 0x83 := by simp [pde,bootMachine]
    rw [he,hentry]
    rfl
  · have hentry : (bootMachine fill).pde i = 0 := if_neg he
    refine absurd (mem_absent.mpr ⟨mem_kernelSlots.mp hi,?_⟩) hold
    rw [hentry,present_zero]

theorem bootMachine_bootOk (fill : ℕ) : (bootMachine fill).BootOk := by
  refine ⟨show 0x100 < 0x100000 by decide,show ¬IsFree (bootMachine 0).pmm 0x100 by decide,
    show 0x400 ≤ 0x8000 by decide,fun i hi hold hsmall => ?_⟩
  rw [bootMachine_large hi hold] at hsmall
  cases hsmall

theorem bootMachine_free {k : ℕ} : (bootMachine 0).pmm.IsFree k ↔ 0x1000 ≤ k ∧ k < 0x8000 := by
  rw [IsFree,BitArray.bit]
  by_cases hk : k/32 < 0x80
  · have hword : (bootMachine 0).pmm.bitmap (k/32) = 0#32 := if_pos hk
    rw [hword]
    simp
    omega
  · have hword : (bootMachine 0).pmm.bitmap (k/32) = BitVec.allOnes 32 := if_neg hk
    have hsize : (bootMachine 0).pmm.bitmapSize = 0x400 := rfl
    rw [hword,hsize,BitVec.getLsbD_allOnes,decide_eq_true_eq]
    omega

theorem bootMachine_returns (fill : ℕ) : ∃ s', (bootMachine fill).kMemPagingInit = .ok s' := by
  have hs := (bootMachine_bootOk fill).recursive
  have hfirst : (bootMachine fill).withRecursive.pde KERNEL_PD = 0x83 := by
    rw [withRecursive_pde (by decide)]
    simp [pde,bootMachine]
  refine @initEntries_returns _ (bootMachine fill).withRecursive (Finset.Ico 0x1000 0x2000) hs (by
    rw [hfirst]; rfl)
    (by rw [hfirst]; exact (by decide : 0 ≠ 0x100)) (List.nodup_range' ..) (init_last _)
    (fun k hk => ?_) ?_
    (fun k hk => ?_) ?_
  · have := (bootMachine_free.mp hk).1
    exact (show 0x80 ≤ k/32 by omega)
  · exact fun hc => absurd (bootMachine_free.mp hc).1 (by decide)
  · rw [Finset.mem_Ico] at hk
    exact bootMachine_free.mpr ⟨hk.1,by omega⟩
  · rw [absent_withRecursive,Nat.card_Ico]
    exact (List.length_filter_le _ _).trans (by rw [kernelSlots,List.length_range']; decide)

/-- On zeroed memory all is right. -/
theorem init_right_iff_zeroed : ∃ s', (bootMachine 0).kMemPagingInit = .ok s' ∧
    (bootMachine 0).InitRight s' := by
  obtain ⟨s',hret⟩ := bootMachine_returns 0
  refine ⟨s',hret,(init_right_iff (bootMachine_bootOk 0) hret).mpr (.inr ⟨by
    decide,fun k hk => .inr fun j hj => ?_,fun i hi hold hsmall => ?_⟩)⟩
  · have hfree := ((handOut_free _ (bootMachine_bootOk 0).small).2 k hk).1
    have hk : k ≠ 0x100 := by
      rintro rfl
      exact (bootMachine_bootOk 0).used hfree
    exact if_neg hk
  · rw [bootMachine_large hi hold] at hsmall
    cases hsmall

/-- On other memory the new tables hold what was there before. -/
theorem new_tables_not_cleared : ¬∀ s s' : Vm, s.BootOk → s.kMemPagingInit = .ok s' →
    s.InitRight s' := by
  intro h
  obtain ⟨s',hret⟩ := bootMachine_returns 1
  have hs := bootMachine_bootOk 1
  have habsent : 769 ∈ (bootMachine 1).absent kernelSlots := mem_absent.mpr ⟨by decide,rfl⟩
  have hwipes := wipesRight_of_right hs hret (h _ s' hs hret) (List.ne_nil_of_mem habsent)
  obtain ⟨hslot,-⟩ := (init_filled hs hwipes.1 hret).pair
  obtain ⟨k,hik⟩ := hslot _ habsent
  have hk := (List.of_mem_zip hik).2
  have hfree := (bootMachine_free.mp ((handOut_free _ hs.small).2 k hk).1).1
  rcases hwipes.2.1 k hk with hwiped | hzero
  · have hx : (bootMachine 1).wiped = 0 := by decide
    omega
  · have hfill : (bootMachine 1).phys k 0 = 1 := if_neg (by omega)
    rw [hzero 0 (by decide)] at hfill
    cases hfill

end Vm
end ScalesOS
