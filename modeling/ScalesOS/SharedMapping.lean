import ScalesOS.BlockRelease
import ScalesOS.BlockSearch
import ScalesOS.MmapRuns
import ScalesOS.PageRanges

/-! Shared memory objects in the address space of a process. `sys_mmap` takes the smaller one of
the size of the block, in bytes, and the number of frames of the object for a number of pages;
`sys_munmap` divides the size by the size of a page. -/
namespace ScalesOS
namespace Vm

open Entry Pmm

/-- The heap begins with a mapped page, and stays below the page that ends its area. -/
structure MmapReady (s : Vm) (info : MmapInfo) (growth : ℕ) : Prop where
  paged : s.Paged
  blocks : info.Ok
  heap : HEAP_START ≤ s.heapEnd
  room : s.heapEnd+growth*0x1000 ≤ HEAP_END
  first : s.kMemPagingVirt2phys HEAP_START ≠ 0
  guard : s.kMemPagingVirt2phys HEAP_END = 0

/-- What `sys_mmap` is for. The pages that the kernel heap takes for the record of the block are
left out, and what it has installed goes with a `sys_munmap` that finds the block. -/
structure MapsObject (s : Vm) (flags growth : ℕ) (frames : List ℕ) (block : MmapBlock) (s' : Vm)
    (info' : MmapInfo) : Prop where
  only : ∀ n < 1023*1024, ¬block.Covers (n*0x1000) → ¬InRange s.heapEnd growth n →
    s'.lookup s.directory n = s.lookup s.directory n
  frame : ∀ i, (hi : i < frames.length) → block.Covers (block.start+i*0x1000) →
    s'.lookup s.directory (block.start/0x1000+i) = some (frames[i]/0x1000)
  rest : flags &&& MAP_ANONYMOUS = 0 → ∀ i, frames.length ≤ i →
    block.Covers (block.start+i*0x1000) →
    s'.lookup s.directory (block.start/0x1000+i) = s.lookup s.directory (block.start/0x1000+i)
  removed : ∀ addr, kMemMmapGetMapping info' addr = some block → ∀ n < 1023*1024,
    ¬InRange s.heapEnd growth n → s'.lookup s.directory n ≠ s.lookup s.directory n →
    (s'.sysMunmap info' addr).2.1.lookup s.directory n = none

/-- There is nothing to map, or no more frames than pages; the search for an address has not
ended in the kernel half, from where the pages run over the end of the address space. -/
def ObjectFits (s : Vm) (info : MmapInfo) (start length flags : ℕ) (frames : List ℕ) : Prop :=
  frames = [] ∨ pageCount length = 0 ∨ (frames.length ≤ pageCount length ∧
    ∀ a next, s.placeBlock info start (pageCount length) flags = .ok (some (a,next)) →
    a < USER_STACK_END)

variable {s s' : Vm} {info : MmapInfo} {pages : ℕ}

def Tested (s : Vm) (pages a : ℕ) : Prop :=
  (∀ i < pages, ¬s.MappedFrom a i) ∨ (LOWMEM_START ≤ a ∧ a ≤ HEAP_END)

theorem tested_of_firstMapped {start offset : ℕ} (h : s.firstMapped start offset pages = none) :
    s.Tested pages ((start+0x1000*offset)%W32) := by
  refine .inl fun i hi => not_not.mpr ?_
  have hfree := firstMapped_none h i hi
  have haddr : ((start+0x1000*offset)%W32+i*0x1000)%W32 = (start+(i+offset)*0x1000)%W32 := by
    simp only [W32]
    omega
  rwa [haddr]

/-- From the kernel half on, the search stops at the latest where the area of the heap ends. -/
theorem searchBlock_restarted (hok : info.Ok) (hfirst : s.kMemPagingVirt2phys HEAP_START ≠ 0)
    (hguard : s.kMemPagingVirt2phys HEAP_END = 0) {fuel a : ℕ}
    (h : s.searchBlock info pages fuel LOWMEM_START 0 true = .ok a) : s.Tested pages a := by
  cases fuel with
  | zero => cases h
  | succ fuel =>
    rw [searchBlock] at h
    split at h
    · rename_i hnone
      obtain rfl := Except.ok.inj h
      exact tested_of_firstMapped hnone
    · rename_i i hi
      obtain ⟨j,hskip,h⟩ := Result.bind_eq_ok.mp h
      have hheap : (LOWMEM_START+(0x36001+0)*0x1000)%W32 = HEAP_START := by decide
      have hend : (LOWMEM_START+(0x3EBFF+0)*0x1000)%W32 = HEAP_END := by decide
      have hle : i ≤ 0x36001 := firstMapped_some hi (hheap.symm ▸ hfirst)
      have hj : j ≤ 0x3EBFF := skipTaken_le (hend.symm ▸ hguard)
        (by rw [hend]; exact getMapping_high hok (by decide)) _ _ _ (by omega) hskip
      have hstack : USER_STACK_END ≤ LOWMEM_START := by decide
      have harea : LOWMEM_START+0x3EBFF*0x1000 = HEAP_END := by decide
      have hmax : HEAP_END < W32 := by decide
      have hplace : (LOWMEM_START+j*0x1000)%W32 = LOWMEM_START+j*0x1000 :=
        Nat.mod_eq_of_lt (by omega)
      rw [hplace,if_pos (by omega),if_pos rfl] at h
      obtain rfl := Except.ok.inj h
      rw [Nat.mul_comm 0x1000 j,hplace]
      exact .inr ⟨by omega,by omega⟩

theorem searchBlock_ends (hok : info.Ok) (hfirst : s.kMemPagingVirt2phys HEAP_START ≠ 0)
    (hguard : s.kMemPagingVirt2phys HEAP_END = 0) (fuel : ℕ) : ∀ {start offset a : ℕ},
    s.searchBlock info pages fuel start offset false = .ok a → s.Tested pages a := by
  induction fuel with
  | zero => intro start offset a h; cases h
  | succ fuel ih =>
    intro start offset a h
    rw [searchBlock] at h
    split at h
    · rename_i hnone
      obtain rfl := Except.ok.inj h
      exact tested_of_firstMapped hnone
    · obtain ⟨j,-,h⟩ := Result.bind_eq_ok.mp h
      split at h
      · rw [if_neg Bool.false_ne_true] at h
        exact searchBlock_restarted hok hfirst hguard h
      · exact ih h

/-- The block lies below the stack, or it begins in the kernel half and comes round. -/
theorem placeBlock_cases {growth start length flags a next : ℕ} (hr : s.MmapReady info growth)
    (hstart : start < W32)
    (hlength : length < W32) (h : s.placeBlock info start (pageCount length) flags =
      .ok (some (a,next))) :
    a%0x1000 = 0 ∧ (a+pageCount length*0x1000 < USER_STACK_END ∨
      (LOWMEM_START ≤ a ∧ a ≤ HEAP_END ∧ W32 ≤ a+pageCount length*0x1000 ∧
        pageCount length*0x1000 < W32)) := by
  obtain ⟨haligned,hlt,hend,-⟩ := placeBlock_spec hr.blocks hstart hlength h
  have htested : s.Tested (pageCount length) a := by
    rw [placeBlock] at h
    split at h
    · split at h
      · cases h
      split at h
      · cases h
      split at h
      · cases h
      split at h
      · cases h
      rename_i hmapped
      obtain ⟨rfl,-⟩ := Prod.mk.inj (Option.some.inj (Except.ok.inj h))
      rw [Option.not_isSome_iff_eq_none] at hmapped
      have htested := tested_of_firstMapped hmapped
      rwa [Nat.mul_zero,Nat.add_zero,Nat.mod_eq_of_lt hlt] at htested
    · obtain ⟨b,hsearch,h⟩ := Result.bind_eq_ok.mp h
      split at h
      · cases h
      obtain ⟨rfl,-⟩ := Prod.mk.inj (Option.some.inj (Except.ok.inj h))
      exact searchBlock_ends hr.blocks hr.first hr.guard _ hsearch
  have hcount := pageCount_le hlength
  generalize pageCount length = pages at *
  refine ⟨haligned,?_⟩
  rcases htested with hfree | ⟨hlow,harea⟩
  · -- the last page of the address space is mapped
    have hin : a+pages*0x1000 < W32 := by
      by_contra hover
      have hmapped : ∃ i < pages, s.MappedFrom a (i+0) :=
        hr.paged.windowsOk.mapped_over (by simpa using hlt)
        (by rw [Nat.zero_add]; exact not_lt.mp hover)
      obtain ⟨i,hi,hmapped⟩ := hmapped
      exact hfree i hi hmapped
    rw [Nat.mod_eq_of_lt hin] at hend
    exact .inl hend
  · have hstack : USER_STACK_END ≤ LOWMEM_START := by decide
    refine .inr ⟨hlow,harea,?_,?_⟩
    · by_contra hin
      rw [Nat.mod_eq_of_lt (not_le.mp hin)] at hend
      omega
    · simp only [W32] at hend hlt ⊢
      omega

theorem allocateBlock_ok {start size prot flags growth : ℕ} {block : MmapBlock} {r : Vm × MmapInfo}
    (h : s.kMemMmapAllocateBlock info start size prot flags growth = .ok (some block,r)) :
    ∃ next s₁, s.placeBlock info start (pageCount size) flags = .ok (some (block.start,next)) ∧
      s.mapAnonymous block.start (pageCount size) prot flags = .ok s₁ ∧
      s₁.growHeap growth = .ok r.1 ∧ block.stop = (block.start+pageCount size*0x1000)%W32 ∧
      block.size = pageCount size*0x1000%W32 ∧ r.2.mmapBlocks = info.mmapBlocks++[block] := by
  obtain ⟨place,hplace,h⟩ := Result.bind_eq_ok.mp h
  cases place with
  | none => cases h
  | some place =>
    obtain ⟨s₁,hmap,h⟩ := Result.bind_eq_ok.mp h
    obtain ⟨s₂,hgrow,h⟩ := Result.bind_eq_ok.mp h
    obtain ⟨hblock,rfl⟩ := Prod.mk.inj (Except.ok.inj h)
    obtain rfl := Option.some.inj hblock
    exact ⟨place.2,s₁,hplace,hmap,hgrow,rfl,rfl,rfl⟩

theorem sysMmap_object {start length prot flags growth r : ℕ} {arg : FileArg}
    {fd2fdt : ℤ → Option OpenFile}
    {file : OpenFile} {frames : List ℕ} {info' : MmapInfo} {block : MmapBlock}
    (hflags : flags ≠ MAP_ANONYMOUS)
    (hfile : fd2fdt arg.fd = some file) (hshm : file.shm = some frames)
    (h : s.sysMmap info start length prot flags arg fd2fdt growth = .ok (r,s',info'))
    (hblock : info'.mmapBlocks = info.mmapBlocks++[block]) :
    ∃ next s₁ s₂, s.placeBlock info start (pageCount length) flags = .ok (some (block.start,next)) ∧
      s.mapAnonymous block.start (pageCount length) prot flags = .ok s₁ ∧
      s₁.growHeap growth = .ok s₂ ∧
      mapShared block.start (protFlags prot) 0 (frames.take (min block.size frames.length)) s₂ =
      .ok s' ∧ block.stop = (block.start+pageCount length*0x1000)%W32 ∧
      block.size = pageCount length*0x1000%W32 ∧ block.Shm := by
  have hfail : info' ≠ info := fun hsame => by simp [hsame] at hblock
  rw [sysMmap,if_neg hflags,hfile] at h
  dsimp only at h
  split at h
  · exact absurd (Prod.mk.inj (Prod.mk.inj (Except.ok.inj h)).2).2.symm hfail
  split at h
  · exact absurd (Prod.mk.inj (Prod.mk.inj (Except.ok.inj h)).2).2.symm hfail
  obtain ⟨⟨made,s₂,info₂⟩,halloc,h⟩ := Result.bind_eq_ok.mp h
  cases made with
  | none =>
    exfalso
    obtain ⟨place,-,halloc⟩ := Result.bind_eq_ok.mp halloc
    cases place with
    | none =>
      obtain ⟨-,hsame⟩ := Prod.mk.inj (Except.ok.inj halloc)
      obtain ⟨rfl,rfl⟩ := Prod.mk.inj hsame
      exact hfail (Prod.mk.inj (Prod.mk.inj (Except.ok.inj h)).2).2.symm
    | some place =>
      obtain ⟨t₁,-,halloc⟩ := Result.bind_eq_ok.mp halloc
      obtain ⟨t₂,-,halloc⟩ := Result.bind_eq_ok.mp halloc
      cases halloc
  | some made =>
    obtain ⟨next,s₁,hplace,hmap,hgrow,hstop,hsize,hblocks⟩ := allocateBlock_ok halloc
    rw [hshm] at h
    obtain ⟨s₃,hshared,h⟩ := Result.bind_eq_ok.mp h
    obtain ⟨-,hret⟩ := Prod.mk.inj (Except.ok.inj h)
    obtain ⟨rfl,rfl⟩ := Prod.mk.inj hret
    dsimp only at hblocks hblock hgrow
    rw [hblocks,List.dropLast_concat] at hblock
    obtain rfl := (List.singleton_inj.mp (List.append_cancel_left hblock)).symm
    exact ⟨next,s₁,s₂,hplace,hmap,hgrow,hshared,hstop,hsize,by
      rw [MmapBlock.Shm]
      dsimp only
      rw [Nat.and_or_distrib_right]
      intro hzero
      exact absurd (Nat.or_eq_zero_iff.mp hzero).2 (by decide)⟩

theorem protFlags_spec (prot : ℕ) : protFlags prot < 0x1000 ∧ protFlags prot%2 = 1 ∧
    mapFlags (protFlags prot)%2 = 1 := by
  rw [protFlags]
  split <;> decide

def Allocated (s : Vm) (a pages flags growth n : ℕ) : Prop :=
  InRange s.heapEnd growth n ∨ (flags &&& MAP_ANONYMOUS ≠ 0 ∧ InRange a pages n)

theorem MmapReady.allocated {growth a prot flags : ℕ} {s₁ s₂ : Vm} (hr : s.MmapReady info growth)
    (hrange : flags &&& MAP_ANONYMOUS ≠ 0 → SmallRange a pages)
    (hmap : s.mapAnonymous a pages prot flags = .ok s₁)
    (hgrow : s₁.growHeap growth = .ok s₂) : s.Remaps s₂ (s.Allocated a pages flags growth) ∧
      ∀ j < growth, s₂.lookup s.directory (s.heapEnd/0x1000+j) ≠ none := by
  obtain ⟨hanonymous,hheap⟩ : s.Remaps s₁ (s.Allocated a pages flags growth) ∧
      s₁.heapEnd = s.heapEnd := by
    rw [mapAnonymous] at hmap
    split at hmap
    · rename_i hflags
      obtain ⟨hremaps,-⟩ :=
        hr.paged.mapScattered (protFlags_spec prot).2.2 pages (hrange hflags) hmap
      exact ⟨hremaps.mono fun n hn => .inr ⟨hflags,hn⟩,mapScattered_heapEnd pages hmap⟩
    · obtain rfl := Except.ok.inj hmap
      exact ⟨.refl hr.paged _,rfl⟩
  have hroom := hr.room
  have hlow := hr.heap
  have harea : LOWMEM_START ≤ HEAP_START ∧ HEAP_END ≤ USABLE_MEMORY_END := by decide
  obtain ⟨hgrown,hmapped⟩ := hanonymous.paged.growHeap (by omega) (by omega) hgrow
  rw [hheap] at hgrown hmapped
  rw [hanonymous.directory_eq] at hmapped
  exact ⟨hanonymous.trans (hgrown.mono fun n hn => .inl hn),hmapped⟩

theorem not_anonymous_over {a prot flags : ℕ} {s₁ : Vm} (hs : s.Paged) (ha : a < W32)
    (haligned : a%0x1000 = 0)
    (hover : W32 ≤ a+pages*0x1000) (hmap : s.mapAnonymous a pages prot flags = .ok s₁) :
    flags &&& MAP_ANONYMOUS = 0 := by
  by_contra hflags
  rw [mapAnonymous,if_pos hflags] at hmap
  have hend := hs.selfMapped.mapScattered_end pages ha hmap
  simp only [W32] at hover
  omega

variable {flags growth : ℕ} {frames : List ℕ} {block : MmapBlock} {info' : MmapInfo} {s₂ : Vm}

theorem mapShared_append {start flags : ℕ} (frames later : List ℕ) : ∀ (i : ℕ) (s : Vm),
    mapShared start flags i (frames++later) s = mapShared start flags i frames s >>=
    mapShared start flags (i+frames.length) later := by
  induction frames with
  | nil => exact fun _ _ => rfl
  | cons frame frames ih =>
    intro i s
    rw [List.cons_append,mapShared,mapShared,List.length_cons,bind_assoc,Nat.add_comm frames.length,
      ← Nat.add_assoc]
    exact bind_congr fun s => ih (i+1) s

theorem covers_iff (haligned : block.start%0x1000 = 0)
    (hstop : block.stop = block.start+pages*0x1000) (n : ℕ) :
    block.Covers (n*0x1000) ↔ InRange block.start pages n := by
  rw [MmapBlock.Covers,InRange,hstop]
  omega

theorem not_mapsObject {taken : List ℕ} {prot m : ℕ} {changed : ℕ → Prop}
    (hs₂ : s.Remaps s₂ changed)
    (hheap : ∀ j < growth, s₂.lookup s.directory (s.heapEnd/0x1000+j) ≠ none)
    (hframes : ∀ f ∈ taken, f ≠ 0 ∧ s.pmm.Used f)
    (hshared : mapShared block.start (protFlags prot) 0 taken s₂ = .ok s') (hm : m < taken.length)
    (hrange : SmallRange block.start (m+1))
    (houtside : ¬block.Covers ((block.start/0x1000+m)*0x1000))
    (hchanged : changed (block.start/0x1000+m) → InRange s.heapEnd growth (block.start/0x1000+m)) :
    ¬s.MapsObject flags growth frames block s' info' := by
  intro hmaps
  obtain ⟨hlt,hodd,-⟩ := protFlags_spec prot
  rw [← List.take_append_drop (m+1) taken,mapShared_append] at hshared
  obtain ⟨s₃,hfirst,hrest⟩ := Result.bind_eq_ok.mp hshared
  have hlength : (taken.take (m+1)).length = m+1 := by rw [List.length_take]; omega
  have hzero : block.start+0*0x1000 = block.start := by rw [Nat.zero_mul,Nat.add_zero]
  obtain ⟨hremaps,hmapped⟩ := hs₂.paged.mapShared hlt hodd _ (by rw [hzero,hlength]; exact hrange)
    (fun f hf => ⟨(hframes f (List.mem_of_mem_take hf)).1,
      (hframes f (List.mem_of_mem_take hf)).2.takes hs₂.takes⟩) hfirst
  obtain ⟨hbefore,hafter⟩ := hmapped m (by omega)
  rw [hs₂.directory_eq,Nat.add_zero] at hbefore hafter
  have hpage : block.start/0x1000+m < 1023*1024 := hrange.page_lt ⟨Nat.le_add_right _ _,by omega⟩
  -- what follows does not unmap the page
  have hretains := hremaps.paged.selfMapped.mapShared_retains _ hrest
  have hstays := hretains.lookup hremaps.paged.windowsOk.dirOk hpage
    (by rw [hremaps.directory_eq,hs₂.directory_eq]; exact hafter)
  rw [hremaps.directory_eq,hs₂.directory_eq] at hstays
  have hgrown : ¬InRange s.heapEnd growth (block.start/0x1000+m) := fun ⟨h1,h2⟩ => by
    refine hheap (block.start/0x1000+m-s.heapEnd/0x1000) (by omega) ?_
    rwa [Nat.add_sub_cancel' h1]
  have hsame := hmaps.only _ hpage houtside hgrown
  rw [hstays,← hs₂.lookup_eq _ hpage fun hc => hgrown (hchanged hc),hbefore] at hsame
  cases hsame

theorem MmapReady.mapsObject {prot : ℕ} {taken : List ℕ} (hr : s.MmapReady info growth)
    (haligned : block.start%0x1000 = 0) (hbelow : block.start+pages*0x1000 < USER_STACK_END)
    (hstop : block.stop = block.start+pages*0x1000)
    (hsize : block.size = pages*0x1000) (hshm : block.Shm)
    (hs₂ : s.Remaps s₂ (s.Allocated block.start pages flags growth))
    (hframes : ∀ f ∈ taken, f ≠ 0 ∧ s.pmm.Used f)
    (hfits : taken.length ≤ pages) (htaken : ∀ i, i < pages → taken[i]? = frames[i]?)
    (hshared : mapShared block.start (protFlags prot) 0 taken s₂ = .ok s') :
    s.MapsObject flags growth frames block s' info' := by
  obtain ⟨hlt,hodd,-⟩ := protFlags_spec prot
  have hbase : USER_STACK_END ≤ VIRTUAL_BASE := by decide
  have hrange : SmallRange block.start pages := .inl (by omega)
  have htakenRange : SmallRange block.start taken.length := .inl (by omega)
  have hzero : block.start+0*0x1000 = block.start := by rw [Nat.zero_mul,Nat.add_zero]
  obtain ⟨hremaps,hmapped⟩ := hs₂.paged.mapShared hlt hodd taken (by rwa [hzero])
    (fun f hf => ⟨(hframes f hf).1,(hframes f hf).2.takes hs₂.takes⟩) hshared
  rw [hzero] at hremaps
  have hdir := hremaps.directory_eq.trans hs₂.directory_eq
  have hcovers := covers_iff haligned hstop
  have hpage : ∀ i, (block.start/0x1000+i)*0x1000 = block.start+i*0x1000 := fun i => by omega
  have hindex : ∀ i, block.Covers (block.start+i*0x1000) → i < pages := fun i hi => by
    rw [← hpage,hcovers,InRange] at hi
    omega
  have houter : ∀ n < 1023*1024, ¬InRange block.start taken.length n →
    ¬s.Allocated block.start pages flags growth n →
      s'.lookup s.directory n = s.lookup s.directory n := fun n hn h1 h2 => by
    have hsame := hremaps.lookup_eq n hn h1
    rw [hs₂.directory_eq] at hsame
    exact hsame.trans (hs₂.lookup_eq n hn h2)
  have honly : ∀ n < 1023*1024, ¬block.Covers (n*0x1000) → ¬InRange s.heapEnd growth n →
      s'.lookup s.directory n = s.lookup s.directory n := fun n hn hout hheap => by
    rw [hcovers] at hout
    refine houter n hn (fun hin => hout ⟨hin.1,by have := hin.2; omega⟩) fun h => ?_
    rcases h with h | h
    · exact hheap h
    · exact hout h.2
  refine ⟨honly,fun i hi hcovered => ?_,fun hflags i hi hcovered => ?_,
    fun addr hfind n hn hheap hchanged => ?_⟩
  · have hget := htaken i (hindex i hcovered)
    rw [List.getElem?_eq_getElem hi] at hget
    obtain ⟨hi',hget⟩ := List.getElem?_eq_some_iff.mp hget
    have hframe := (hmapped i hi').2
    rwa [hs₂.directory_eq,Nat.add_zero,hget] at hframe
  · have hin := hindex i hcovered
    have hget := htaken i hin
    rw [List.getElem?_eq_none hi,List.getElem?_eq_none_iff] at hget
    refine houter _ (hrange.page_lt ⟨Nat.le_add_right _ _,by omega⟩) (fun h => ?_) fun h => ?_
    · rw [InRange] at h
      omega
    · rcases h with h | h
      · -- a page of the user half is not one of the heap
        have hheap := hr.heap
        have hlow : USER_STACK_END ≤ HEAP_START := by decide
        rw [InRange] at h
        omega
      · exact h.1 hflags
  · have hin : InRange block.start pages n := by
      by_contra hout
      exact hchanged (honly n hn (fun hc => hout ((hcovers n).mp hc)) hheap)
    have hcount : block.size/0x1000 = pages := by rw [hsize]; exact Nat.mul_div_cancel _ (by decide)
    obtain ⟨-,hgone⟩ := hremaps.paged.unmapRegion pages hrange
    rw [sysMunmap,hfind]
    dsimp only [kMemMmapFreeBlock]
    rw [unmapBlock,if_pos (show block.flags &&& MMAP_FLAG_SHM ≠ 0 from hshm),hcount]
    rw [hdir] at hgone
    have hnone := hgone (n-block.start/0x1000) (by rw [InRange] at hin; omega)
    rwa [Nat.add_sub_cancel' hin.1] at hnone

/-- Nothing is mapped for an object without frames; its block may come round. -/
theorem mapsObject_nil (hs₂ : s.Remaps s₂ (InRange s.heapEnd growth))
    (hover : block.stop < block.start) :
    s.MapsObject flags growth [] block s₂ info' where
  only n hn _ hheap := hs₂.lookup_eq n hn hheap
  frame i hi _ := absurd hi (Nat.not_lt_zero i)
  rest _ i _ hcovered := by
    rw [MmapBlock.Covers] at hcovered
    omega
  removed _ _ n hn hheap hchanged := absurd (hs₂.lookup_eq n hn hheap) hchanged

/-- A call for an object that returns has done what it is for exactly if the object fits. -/
theorem maps_object_iff {start length prot r : ℕ} {arg : FileArg} {fd2fdt : ℤ → Option OpenFile}
    {file : OpenFile} (hr : s.MmapReady info growth) (hstart : start < W32) (hlength : length < W32)
    (hflags : flags ≠ MAP_ANONYMOUS)
    (hfile : fd2fdt arg.fd = some file) (hshm : file.shm = some frames)
    (hframes : ∀ f ∈ frames, f ≠ 0 ∧ s.pmm.Used f)
    (h : s.sysMmap info start length prot flags arg fd2fdt growth = .ok (r,s',info'))
    (hblock : info'.mmapBlocks = info.mmapBlocks++[block]) :
    s.MapsObject flags growth frames block s' info' ↔
        s.ObjectFits info start length flags frames := by
  obtain ⟨next,s₁,s₂,hplace,hmap,hgrow,hshared,hstop,hsize,hshmBlock⟩ :=
    sysMmap_object hflags hfile hshm h hblock
  obtain ⟨haligned,hcases⟩ := placeBlock_cases hr hstart hlength hplace
  have hplaced :
      ∀ a next', s.placeBlock info start (pageCount length) flags = .ok (some (a,next')) →
          a = block.start :=
    fun a next' ha => (Prod.mk.inj (Option.some.inj (Except.ok.inj (ha.symm.trans hplace)))).1
  have htaken : ∀ f ∈ frames.take (min block.size frames.length), f ≠ 0 ∧ s.pmm.Used f :=
    fun f hf => hframes f (List.mem_of_mem_take hf)
  have hstack : USER_STACK_END < W32 := by decide
  have hbase : USER_STACK_END+0x1000 ≤ VIRTUAL_BASE := by decide
  rw [ObjectFits]
  rcases hcases with hbelow | ⟨hlow,harea,hover,hpages⟩
  · rw [Nat.mod_eq_of_lt (by omega)] at hstop hsize
    have huser : SmallRange block.start (pageCount length) := .inl (by omega)
    obtain ⟨hs₂,hheap⟩ := hr.allocated (fun _ => huser) hmap hgrow
    generalize pageCount length = pages at *
    have hmin : frames.length ≤ pages ∨ pages = 0 → min block.size frames.length ≤ pages ∧
        ∀ i < pages, (frames.take (min block.size frames.length))[i]? = frames[i]? := by
      intro hfits
      rw [hsize]
      rcases hfits with hfits | rfl
      · rw [Nat.min_eq_right (by omega),List.take_length]
        exact ⟨hfits,fun _ _ => rfl⟩
      · exact ⟨by omega,fun i hi => absurd hi (Nat.not_lt_zero i)⟩
    constructor
    · intro hmaps
      refine Classical.or_iff_not_imp_left.mpr fun _ =>
        Classical.or_iff_not_imp_left.mpr fun hne => ⟨?_,fun a next' ha => ?_⟩
      · by_contra hmore
        refine not_mapsObject hs₂ hheap htaken hshared (m:=pages) ?_ (.inl ?_) (fun hc =>
          ?_) (fun hc => ?_) hmaps
        · rw [List.length_take,hsize]
          omega
        · omega
        · rw [covers_iff haligned hstop,InRange] at hc
          omega
        · refine hc.resolve_right fun h => ?_
          have := h.2.2
          omega
      · rw [hplaced a next' ha]
        omega
    · intro hfits
      have hfits : frames.length ≤ pages ∨ pages = 0 := by
        rcases hfits with rfl | hzero | ⟨hle,-⟩
        · exact .inl (Nat.zero_le _)
        · exact .inr hzero
        · exact .inl hle
      obtain ⟨hle,hget⟩ := hmin hfits
      exact hr.mapsObject haligned hbelow hstop hsize hshmBlock hs₂ htaken (by
        rw [List.length_take]; omega) hget hshared
  · have hbound : HEAP_END < W32 := by decide
    have harea' : HEAP_END+0x1000 ≤ USABLE_MEMORY_END := by decide
    have hnot := not_anonymous_over hr.paged (show block.start < W32 by omega) haligned hover hmap
    obtain ⟨hallocated,hheap⟩ := hr.allocated (fun hc => absurd hnot hc) hmap hgrow
    have hs₂ : s.Remaps s₂ (InRange s.heapEnd growth) :=
      hallocated.mono fun n hn => hn.resolve_right fun hc => hc.1 hnot
    rw [Nat.mod_eq_of_lt hpages] at hsize
    generalize pageCount length = pages at *
    have hpast : block.stop < block.start := by
      rw [hstop]
      simp only [W32] at hover hpages ⊢
      omega
    have hlowmem : USER_STACK_END ≤ LOWMEM_START := by decide
    constructor
    · intro hmaps
      refine Classical.or_iff_not_imp_left.mpr fun hne =>
        (not_mapsObject hs₂ hheap htaken hshared (m:=0) ?_ (.inr ?_)
        (fun hc => ?_) (fun hc => hc) hmaps).elim
      · have := List.length_pos_iff.mpr hne
        rw [List.length_take,hsize]
        simp only [W32] at hover hbound
        omega
      · omega
      · rw [MmapBlock.Covers] at hc
        omega
    · rintro (rfl | hzero | ⟨-,hplace'⟩)
      · rw [List.take_nil] at hshared
        obtain rfl := Except.ok.inj hshared
        exact mapsObject_nil hs₂ hpast
      · omega
      · have := hplace' _ _ hplace
        omega

def processMachine : Result Vm := do
  let s ← kernelMachine.growHeap 1
  s.kMemPagingMap 0x8048000 0 (PAGE_PRESENT ||| PAGE_USER ||| PAGE_WRITABLE)

def mapObject (frames : List ℕ) (s : Vm) : Result (ℕ × Vm × MmapInfo) :=
  s.sysMmap ⟨USER_MMAP_START,[]⟩ 0 0x1000 (PROT_READ ||| PROT_WRITE) MAP_SHARED ⟨0x8048000,3,
    0⟩ (fun _ => some ⟨2,some frames⟩) 0

def objectBlock : MmapBlock :=
  ⟨USER_MMAP_START,USER_MMAP_START+0x1000,0x1000,0,3,PROT_READ ||| PROT_WRITE,
    MAP_SHARED,MMAP_FLAG_SHM⟩

theorem kernelMachine_paged : kernelMachine.Paged where
  windowsOk := kernelMachine_windowsOk
  user_small i hi hp := by
    have hend : KERNEL_PD ≤ 1023 := by decide
    have hzero : kernelMachine.pde i = 0 := by
      simp only [pde,kernelMachine,if_true]
      rw [if_neg (by omega),if_neg (by omega)]
    rw [hzero] at hp
    cases hp
  small := by decide

theorem processMachine_remaps (h : processMachine = .ok s) : s.Paged ∧ kernelMachine.Takes s := by
  obtain ⟨t,hgrow,hmap⟩ := Result.bind_eq_ok.mp h
  obtain ⟨hgrown,-⟩ := kernelMachine_paged.growHeap (by decide) (by decide) hgrow
  obtain ⟨-,hpage,-⟩ := hgrown.paged.map (.inl (by decide)) hmap
  exact ⟨hpage.paged,hgrown.takes.trans hpage.takes⟩

theorem processMachine_used (h : processMachine = .ok s) {k : ℕ} (hk : k < 0x1000) :
    s.pmm.Used (0x1000*k) :=
  Used.takes ⟨k,rfl,by omega,kernelMachine_used hk⟩ (processMachine_remaps h).2

theorem processMachine_ready (h : processMachine = .ok s) : s.MmapReady ⟨USER_MMAP_START,[]⟩ 0 := by
  have hheap :
    processMachine.toOption.any (fun s : Vm =>
      decide (HEAP_START ≤ s.heapEnd ∧ s.heapEnd+0*0x1000 ≤ HEAP_END ∧
      s.kMemPagingVirt2phys HEAP_START ≠ 0 ∧ s.kMemPagingVirt2phys HEAP_END = 0)) = true := by
        decide +kernel
  rw [h] at hheap
  obtain ⟨hstart,hend,hfirst,hguard⟩ := of_decide_eq_true hheap
  exact ⟨(processMachine_remaps h).1,⟨by decide,by decide,fun b hb => absurd hb List.not_mem_nil,
    fun b hb => absurd hb List.not_mem_nil,List.Pairwise.nil⟩,hstart,hend,hfirst,hguard⟩

theorem maps_object_iff_one : ∃ (s s' : Vm) (r : ℕ) (info' : MmapInfo), processMachine = .ok s ∧
    mapObject [0x900000] s = .ok (r,s',info') ∧
    (s.MapsObject MAP_SHARED 0 [0x900000] objectBlock s' info' ↔
      s.ObjectFits ⟨USER_MMAP_START,[]⟩ 0 0x1000 MAP_SHARED [0x900000]) := by
  have hrun : processMachine.toOption.any (fun s : Vm => (mapObject [0x900000] s).toOption.any
      fun r : ℕ × Vm × MmapInfo => decide (r.2.2.mmapBlocks = [objectBlock])) = true := by
        decide +kernel
  obtain ⟨s,hs,hrun⟩ := (Option.any_eq_true _ _).mp hrun
  obtain ⟨⟨r,s',info'⟩,hret,hblock⟩ := (Option.any_eq_true _ _).mp hrun
  have hs := Result.eq_ok_of_toOption hs
  have hret := Result.eq_ok_of_toOption hret
  refine ⟨s,s',r,info',hs,hret,maps_object_iff (processMachine_ready hs) (by decide) (by
    decide) (by decide) rfl rfl
    (fun f hf => ?_) hret (of_decide_eq_true hblock)⟩
  obtain rfl := List.mem_singleton.mp hf
  exact ⟨by decide,processMachine_used (k:=0x900) hs (by decide)⟩

/-- The second frame of the object gets the page behind the block. -/
theorem second_frame_behind_block : ¬∀ (s s' : Vm) (info info' : MmapInfo)
    (start length prot flags growth r : ℕ)
    (arg : FileArg) (fd2fdt : ℤ → Option OpenFile) (file : OpenFile) (frames : List ℕ)
    (block : MmapBlock),
    s.MmapReady info growth → start < W32 → length < W32 → flags ≠ MAP_ANONYMOUS →
    fd2fdt arg.fd = some file → file.shm = some frames → (∀ f ∈ frames, f ≠ 0 ∧ s.pmm.Used f) →
    s.sysMmap info start length prot flags arg fd2fdt growth = .ok (r,s',info') →
    info'.mmapBlocks = info.mmapBlocks++[block] →
    s.MapsObject flags growth frames block s' info' := by
  intro hright
  have hrun :
    processMachine.toOption.any (fun s : Vm => (mapObject [0x900000,0x901000] s).toOption.any
      fun r : ℕ × Vm × MmapInfo => decide (r.2.2.mmapBlocks = [objectBlock] ∧
        r.2.1.lookup s.directory 0x40001 ≠ s.lookup s.directory 0x40001 ∧
        ¬InRange s.heapEnd 0 0x40001)) = true := by decide +kernel
  obtain ⟨s,hs,hrun⟩ := (Option.any_eq_true _ _).mp hrun
  obtain ⟨⟨r,s',info'⟩,hret,hfacts⟩ := (Option.any_eq_true _ _).mp hrun
  obtain ⟨hblock,hchanged,hheap⟩ := of_decide_eq_true hfacts
  have hs := Result.eq_ok_of_toOption hs
  have hmaps :=
    hright s s' _ info' _ _ _ _ _ r _ _ _ _ objectBlock (processMachine_ready hs) (by
      decide) (by decide)
    (by decide) rfl rfl (fun f hf => ?_) (Result.eq_ok_of_toOption hret) hblock
  · exact hchanged (hmaps.only 0x40001 (by decide) (by decide) hheap)
  · simp only [List.mem_cons,List.not_mem_nil,or_false] at hf
    rcases hf with rfl | rfl
    · exact ⟨by decide,processMachine_used (k:=0x900) hs (by decide)⟩
    · exact ⟨by decide,processMachine_used (k:=0x901) hs (by decide)⟩

end Vm
end ScalesOS
