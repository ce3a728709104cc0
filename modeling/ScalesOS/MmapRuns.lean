import ScalesOS.Mmap
import ScalesOS.PagingMap

/-!
# Blocks over whole runs

The blocks of a process stay disjoint over any sequence of mappings, unmappings and page
faults in which the search never walks over a block whose pages are not there yet. It
tests pages when it looks for a free range and blocks only when it moves on.
-/

namespace ScalesOS

namespace MmapBlock

def Covers (block : MmapBlock) (addr : ℕ) : Prop := block.start ≤ addr ∧ addr < block.stop

instance (block : MmapBlock) (addr : ℕ) : Decidable (block.Covers addr) :=
  inferInstanceAs (Decidable (_ ∧ _))

def Apart (a b : MmapBlock) : Prop := ∀ addr, ¬ (a.Covers addr ∧ b.Covers addr)

end MmapBlock

namespace MmapInfo

def Disjoint (info : MmapInfo) : Prop := info.mmapBlocks.Pairwise MmapBlock.Apart

/-- Blocks are made of whole pages and end below the user stack. -/
structure Ok (info : MmapInfo) : Prop where
  start_aligned : info.start%0x1000 = 0
  start_lt : info.start < W32
  aligned : ∀ block ∈ info.mmapBlocks, block.start%0x1000 = 0 ∧ block.stop%0x1000 = 0
  below : ∀ block ∈ info.mmapBlocks, block.start < W32 ∧ block.stop < USER_STACK_END
  disjoint : info.Disjoint

end MmapInfo

namespace Vm

section Search

variable {s : Vm} {info : MmapInfo} {pages : ℕ}

theorem firstMapped_none {start offset : ℕ} (h : s.firstMapped start offset pages = none) :
    ∀ i < pages, s.kMemPagingVirt2phys ((start+(i+offset)*0x1000)%W32) = 0 := by
  intro i hi
  have := List.find?_eq_none.mp h i (List.mem_range.mpr hi)
  simpa using this

theorem firstMapped_some {start offset i m : ℕ} (h : s.firstMapped start offset pages = some i)
    (hm : s.kMemPagingVirt2phys ((start+(m+offset)*0x1000)%W32) ≠ 0) : i ≤ m := by
  obtain ⟨-,as,bs,happ,hbefore⟩ := List.find?_eq_some_iff_append.mp h
  by_contra hlt
  have hi : i < pages := by
    have : i ∈ List.range pages := by rw [happ]; simp
    exact List.mem_range.mp this
  have hlen : as.length = i := by
    have hget : (List.range pages)[as.length]? = some i := by rw [happ]; simp
    rw [List.getElem?_eq_some_iff] at hget
    obtain ⟨_,hget⟩ := hget
    simpa using hget
  have hmem : m ∈ as := by
    have hget : (List.range pages)[m]? = as[m]? := by
      rw [happ,List.getElem?_append_left (by omega)]
    rw [List.getElem?_range (by omega)] at hget
    exact List.mem_of_getElem? hget.symm
  have := hbefore m hmem
  simp only [Bool.not_eq_true',decide_eq_false_iff_not,not_not] at this
  exact hm this

theorem skipTaken_le {start offset m : ℕ}
    (hfree : s.kMemPagingVirt2phys ((start+(m+offset)*0x1000)%W32) = 0)
    (hnone : kMemMmapGetMapping info ((start+(m+offset)*0x1000)%W32) = none) :
    ∀ fuel i j, i ≤ m → s.skipTaken info start offset fuel i = .ok j → j ≤ m := by
  intro fuel
  induction fuel with
  | zero => intro i j _ h; cases h
  | succ fuel ih =>
    intro i j hi h
    rw [skipTaken] at h
    split at h
    · rename_i htaken
      rcases Nat.eq_or_lt_of_le hi with rfl | hlt
      · rw [hfree,hnone] at htaken
        simp at htaken
      · exact ih (i+1) j hlt h
    · obtain rfl := Except.ok.inj h
      exact hi

/-- The search ends on a range that it has tested, or above the user area. -/
theorem searchBlock_tested : ∀ fuel start offset loop a,
    s.searchBlock info pages fuel start offset loop = .ok a →
    USER_STACK_END ≤ a ∨ ∀ i < pages, s.kMemPagingVirt2phys ((a+i*0x1000)%W32) = 0 := by
  intro fuel
  induction fuel with
  | zero => intro start offset loop a h; cases h
  | succ fuel ih =>
    intro start offset loop a h
    rw [searchBlock] at h
    split at h
    · rename_i hnone
      obtain rfl := Except.ok.inj h
      right
      intro i hi
      have := firstMapped_none hnone i hi
      rwa [show ((start+0x1000*offset)%W32+i*0x1000)%W32 = (start+(i+offset)*0x1000)%W32 by
        simp only [W32]; omega]
    · obtain ⟨offset',-,h⟩ := Result.bind_eq_ok.mp h
      split at h
      · rename_i hend
        split at h
        · obtain rfl := Except.ok.inj h
          left
          rwa [Nat.mul_comm 0x1000 offset']
        · exact ih _ _ _ _ h
      · exact ih _ _ _ _ h

theorem searchBlock_aligned : ∀ fuel start offset loop a, start%0x1000 = 0 →
    s.searchBlock info pages fuel start offset loop = .ok a → a%0x1000 = 0 ∧ a < W32 := by
  intro fuel
  induction fuel with
  | zero => intro start offset loop a _ h; cases h
  | succ fuel ih =>
    intro start offset loop a hstart h
    have hresult : ∀ offset', (start+0x1000*offset')%W32%0x1000 = 0 ∧
        (start+0x1000*offset')%W32 < W32 := by
      intro offset'
      simp only [W32]
      omega
    rw [searchBlock] at h
    split at h
    · obtain rfl := Except.ok.inj h
      exact hresult _
    · obtain ⟨offset',-,h⟩ := Result.bind_eq_ok.mp h
      split at h
      · split at h
        · obtain rfl := Except.ok.inj h
          exact hresult _
        · exact ih _ _ _ _ (by decide) h
      · exact ih _ _ _ _ hstart h

/-- The kernel half as the search needs it: the kernel and the start of its heap are
mapped, the page in between and some page behind are not. -/
structure Barrier (s : Vm) (info : MmapInfo) : Prop where
  start_le : info.start ≤ VIRTUAL_BASE
  kernel : s.kMemPagingVirt2phys VIRTUAL_BASE ≠ 0
  guard : s.kMemPagingVirt2phys LOWMEM_END = 0
  heap : s.kMemPagingVirt2phys HEAP_START ≠ 0
  behind : ∃ n, HEAP_START ≤ n*0x1000 ∧ n < 0x100000 ∧ s.kMemPagingVirt2phys (n*0x1000) = 0

theorem getMapping_high (hok : info.Ok) {addr : ℕ} (h : USER_STACK_END ≤ addr) :
    kMemMmapGetMapping info addr = none := by
  refine List.find?_eq_none.mpr fun block hb => ?_
  have := (hok.below block hb).2
  simp only [Bool.and_eq_true,decide_eq_true_eq,not_and]
  omega

theorem searchBlock_second (hok : info.Ok) (hbar : s.Barrier info) {fuel a : ℕ}
    (h : s.searchBlock info pages fuel LOWMEM_START 0 true = .ok a) : USER_STACK_END ≤ a := by
  have hL : LOWMEM_START = 0xC1000000 := by decide
  have hH : HEAP_START = 0xF7001000 := by decide
  have hU : USER_STACK_END = 0xBFFEF000 := by decide
  obtain ⟨n,hn1,hn2,hfree⟩ := hbar.behind
  cases fuel with
  | zero => cases h
  | succ fuel =>
    rw [searchBlock] at h
    split at h
    · obtain rfl := Except.ok.inj h
      decide
    · rename_i i hi
      obtain ⟨j,hskip,h⟩ := Result.bind_eq_ok.mp h
      have hheap : (LOWMEM_START+(0x36001+0)*0x1000)%W32 = HEAP_START := by decide
      have hle := firstMapped_some hi (hheap.symm ▸ hbar.heap)
      have haddr : (LOWMEM_START+(n-0xC1000+0)*0x1000)%W32 = n*0x1000 := by
        rw [show LOWMEM_START+(n-0xC1000+0)*0x1000 = n*0x1000 by omega]
        exact Nat.mod_eq_of_lt (by simp only [W32]; omega)
      have hj : j ≤ n-0xC1000 := skipTaken_le (by rw [haddr]; exact hfree)
        (by rw [haddr]; exact getMapping_high hok (by omega)) _ _ _ (by omega) hskip
      have hres : (LOWMEM_START+j*0x1000)%W32 = LOWMEM_START+j*0x1000 :=
        Nat.mod_eq_of_lt (by simp only [W32]; omega)
      rw [hres,if_pos (by omega),if_pos rfl] at h
      obtain rfl := Except.ok.inj h
      rw [Nat.mul_comm 0x1000 j,hres]
      omega

theorem searchBlock_ge (hok : info.Ok) (hbar : s.Barrier info) : ∀ fuel offset a,
    info.start+offset*0x1000 ≤ VIRTUAL_BASE →
    s.searchBlock info pages fuel info.start offset false = .ok a →
    USER_STACK_END ≤ a ∨ info.start ≤ a := by
  have hV : VIRTUAL_BASE = 0xC0000000 := by decide
  have hE : LOWMEM_END = 0xF7000000 := by decide
  have hU : USER_STACK_END = 0xBFFEF000 := by decide
  have hal := hok.start_aligned
  intro fuel
  induction fuel with
  | zero => intro offset a _ h; cases h
  | succ fuel ih =>
    intro offset a hoff h
    rw [searchBlock] at h
    split at h
    · obtain rfl := Except.ok.inj h
      right
      rw [Nat.mod_eq_of_lt (by simp only [W32]; omega)]
      omega
    · rename_i i hi
      obtain ⟨j,hskip,h⟩ := Result.bind_eq_ok.mp h
      -- page numbers of the kernel and of the guard page, counted from here
      obtain ⟨m,hm⟩ : ∃ m, info.start+(m+offset)*0x1000 = VIRTUAL_BASE :=
        ⟨(VIRTUAL_BASE-info.start)/0x1000-offset,by omega⟩
      have hm' : info.start+(m+0x37000+offset)*0x1000 = LOWMEM_END := by
        rw [show info.start+(m+0x37000+offset)*0x1000 =
            info.start+(m+offset)*0x1000+0x37000*0x1000 by
          ring,hm]
        decide
      have hle : i ≤ m := firstMapped_some hi (by rw [hm]; exact hbar.kernel)
      have hj : j ≤ m+0x37000 := skipTaken_le (by rw [hm']; exact hbar.guard)
        (by rw [hm']; exact getMapping_high hok (by decide)) _ _ _ (by omega) hskip
      have hnext : j*0x1000 < USER_STACK_END-info.start → info.start+j*0x1000 ≤ VIRTUAL_BASE := by
        omega
      have hres : (info.start+j*0x1000)%W32 = info.start+j*0x1000 :=
        Nat.mod_eq_of_lt (by simp only [W32]; omega)
      rw [hres] at h
      split at h
      · rw [if_neg (by decide)] at h
        exact .inl (searchBlock_second hok hbar h)
      · rename_i hlt
        exact ih j a (hnext (by omega)) h

end Search

/-- The pages that a call of `sys_mmap` may take: those it asks for, or those from
`info->start` on unless the search can come round. -/
def MayTake (s : Vm) (info : MmapInfo) (start length flags addr : ℕ) : Prop :=
  if flags &&& MAP_FIXED ≠ 0 then start ≤ addr ∧ addr < start+pageCount length*0x1000
  else s.Barrier info → info.start ≤ addr

def Populated (s : Vm) (info : MmapInfo) (start length flags : ℕ) : Prop :=
  ∀ block ∈ info.mmapBlocks, ∀ n, block.Covers (n*0x1000) →
    s.MayTake info start length flags (n*0x1000) → s.kMemPagingVirt2phys (n*0x1000) ≠ 0

section Place

variable {s : Vm} {info : MmapInfo}

theorem pageCount_le {size : ℕ} (h : size < W32) : pageCount size ≤ 0x100000 := by
  simp only [W32] at h
  rw [pageCount]
  split <;> omega

/-- Where a new block goes: it is empty, or its pages have been tested and are among
those the call may take. -/
theorem placeBlock_spec (hok : info.Ok) {start length flags a next : ℕ} (hstart : start < W32)
    (hlength : length < W32)
    (h : s.placeBlock info start (pageCount length) flags = .ok (some (a,next))) :
    a%0x1000 = 0 ∧ a < W32 ∧ (a+pageCount length*0x1000)%W32 < USER_STACK_END ∧
    next%0x1000 = 0 ∧ next < W32 ∧
    ∀ n, a ≤ n*0x1000 → n*0x1000 < (a+pageCount length*0x1000)%W32 →
      s.kMemPagingVirt2phys (n*0x1000) = 0 ∧ s.MayTake info start length flags (n*0x1000) := by
  have hU : USER_STACK_END < W32 := by decide
  have hcount := pageCount_le hlength
  -- a range that wraps ends before it starts
  have hwrap : ∀ b n, b ≤ n*0x1000 → n*0x1000 < (b+pageCount length*0x1000)%W32 → b%0x1000 = 0 →
      b < W32 → ∃ i < pageCount length, n*0x1000 = b+i*0x1000 ∧ n*0x1000 < W32 := by
    intro b n h1 h2 h3 h4
    simp only [W32] at h2 h4 ⊢
    exact ⟨n-b/0x1000,by omega,by omega,by omega⟩
  rw [placeBlock] at h
  split at h
  · rename_i hfixed
    split at h
    · cases h
    split at h
    · cases h
    split at h
    · cases h
    split at h
    · cases h
    rename_i hnz hal hend hmapped
    obtain ⟨rfl,rfl⟩ := Prod.mk.inj (Option.some.inj (Except.ok.inj h))
    rw [Option.not_isSome_iff_eq_none] at hmapped
    refine ⟨by omega,hstart,by omega,hok.start_aligned,hok.start_lt,fun n h1 h2 => ?_⟩
    obtain ⟨i,hi,hn,hlt⟩ := hwrap start n h1 h2 (by omega) hstart
    have htest := firstMapped_none hmapped i hi
    rw [Nat.add_zero,← hn,Nat.mod_eq_of_lt hlt] at htest
    refine ⟨htest,?_⟩
    rw [MayTake,if_pos hfixed]
    exact ⟨h1,by omega⟩
  · rename_i hfixed
    obtain ⟨b,hsearch,h⟩ := Result.bind_eq_ok.mp h
    split at h
    · cases h
    rename_i hend
    obtain ⟨rfl,rfl⟩ := Prod.mk.inj (Option.some.inj (Except.ok.inj h))
    obtain ⟨hal,hlt⟩ := searchBlock_aligned _ _ _ _ _ hok.start_aligned hsearch
    refine ⟨hal,hlt,by omega,?_,Nat.mod_lt _ (by decide),fun n h1 h2 => ?_⟩
    · simp only [W32]
      omega
    · obtain ⟨i,hi,hn,hlt'⟩ := hwrap b n h1 h2 hal hlt
      have hlow : ¬ USER_STACK_END ≤ b := by omega
      have htest := (searchBlock_tested _ _ _ _ _ hsearch).resolve_left hlow i hi
      rw [← hn,Nat.mod_eq_of_lt hlt'] at htest
      refine ⟨htest,?_⟩
      rw [MayTake,if_neg hfixed]
      intro hbar
      have :=
        (searchBlock_ge hok hbar _ 0 b (by have := hbar.start_le; omega) hsearch).resolve_left hlow
      omega

theorem allocateBlock_spec {start size prot flags growth : ℕ} {r : Option MmapBlock × Vm × MmapInfo}
    (h : s.kMemMmapAllocateBlock info start size prot flags growth = .ok r) :
    (r.1 = none ∧ r.2.2 = info) ∨
    ∃ a next block, s.placeBlock info start (pageCount size) flags = .ok (some (a,next)) ∧
      r.1 = some block ∧ r.2.2 = ⟨next,info.mmapBlocks++[block]⟩ ∧
      block.start = a ∧ block.stop = (a+pageCount size*0x1000)%W32 := by
  obtain ⟨place,hplace,h⟩ := Result.bind_eq_ok.mp h
  cases place with
  | none =>
    obtain rfl := Except.ok.inj h
    exact .inl ⟨rfl,rfl⟩
  | some p =>
    obtain ⟨a,next⟩ := p
    obtain ⟨s₁,-,h⟩ := Result.bind_eq_ok.mp h
    obtain ⟨s₂,-,h⟩ := Result.bind_eq_ok.mp h
    obtain rfl := Except.ok.inj h
    exact .inr ⟨a,next,_,hplace,rfl,rfl,rfl,rfl⟩

theorem sysMmap_spec {start length prot flags growth : ℕ} {arg : FileArg}
    {fd2fdt : ℤ → Option OpenFile} {r : ℕ × Vm × MmapInfo}
    (h : s.sysMmap info start length prot flags arg fd2fdt growth = .ok r) :
    r.2.2 = info ∨
    ∃ a next block, s.placeBlock info start (pageCount length) flags = .ok (some (a,next)) ∧
      r.2.2 = ⟨next,info.mmapBlocks++[block]⟩ ∧
      block.start = a ∧ block.stop = (a+pageCount length*0x1000)%W32 := by
  rw [sysMmap] at h
  split at h
  · obtain ⟨⟨block,s₁,info₁⟩,halloc,hret⟩ := Result.bind_eq_ok.mp h
    clear h
    rcases allocateBlock_spec halloc with ⟨h1,h2⟩ | ⟨a,next,b,hplace,h1,h2,hstart,hstop⟩ <;>
      simp only at h1 h2 <;> subst h1 <;> subst h2
    · obtain rfl := Except.ok.inj hret
      exact .inl rfl
    · obtain rfl := Except.ok.inj hret
      exact .inr ⟨a,next,b,hplace,rfl,hstart,hstop⟩
  · split at h
    · obtain rfl := Except.ok.inj h
      exact .inl rfl
    split at h
    · obtain rfl := Except.ok.inj h
      exact .inl rfl
    split at h
    · obtain rfl := Except.ok.inj h
      exact .inl rfl
    obtain ⟨⟨block,s₁,info₁⟩,halloc,hret⟩ := Result.bind_eq_ok.mp h
    clear h
    rcases allocateBlock_spec halloc with ⟨h1,h2⟩ | ⟨a,next,b,hplace,h1,h2,hstart,hstop⟩ <;>
      simp only at h1 h2 <;> subst h1 <;> subst h2
    · obtain rfl := Except.ok.inj hret
      exact .inl rfl
    · simp only [List.dropLast_concat] at hret
      split at hret
      · obtain rfl := Except.ok.inj hret
        exact .inr ⟨a,next,_,hplace,rfl,hstart,hstop⟩
      · obtain ⟨s₂,-,hret⟩ := Result.bind_eq_ok.mp hret
        obtain rfl := Except.ok.inj hret
        exact .inr ⟨a,next,_,hplace,rfl,hstart,hstop⟩

/-- A block whose pages have all been tested is apart from every populated one. -/
theorem apart_of_tested {old new : MmapBlock} (hold : old.start%0x1000 = 0 ∧ old.stop%0x1000 = 0)
    (hnew : new.start%0x1000 = 0 ∧ new.stop%0x1000 = 0)
    (h : ∀ n, old.Covers (n*0x1000) → ¬ new.Covers (n*0x1000)) : old.Apart new := by
  rintro addr ⟨⟨h1,h2⟩,⟨h3,h4⟩⟩
  exact h (addr/0x1000) ⟨by omega,by omega⟩ ⟨by omega,by omega⟩

theorem sysMmap_ok (hok : info.Ok) {start length prot flags growth : ℕ} {arg : FileArg}
    {fd2fdt : ℤ → Option OpenFile} {r : ℕ × Vm × MmapInfo} (hstart : start < W32)
    (hlength : length < W32) (hpop : s.Populated info start length flags)
    (h : s.sysMmap info start length prot flags arg fd2fdt growth = .ok r) : r.2.2.Ok := by
  rcases sysMmap_spec h with he | ⟨a,next,block,hplace,he,rfl,hstop⟩
  · rw [he]
    exact hok
  obtain ⟨hal,halt,hend,hnext,hnextlt,hpages⟩ := placeBlock_spec hok hstart hlength hplace
  rw [← hstop] at hend hpages
  have hstopal : block.stop%0x1000 = 0 := by
    rw [hstop]
    simp only [W32]
    omega
  rw [he]
  refine ⟨hnext,hnextlt,?_,?_,?_⟩
  · intro b hb
    rcases List.mem_append.mp hb with hb | hb
    · exact hok.aligned b hb
    · rw [List.mem_singleton.mp hb]
      exact ⟨hal,hstopal⟩
  · intro b hb
    rcases List.mem_append.mp hb with hb | hb
    · exact hok.below b hb
    · rw [List.mem_singleton.mp hb]
      exact ⟨halt,hend⟩
  · refine List.pairwise_append.mpr ⟨hok.disjoint,List.pairwise_singleton _ _,
      fun old hold new hnew => ?_⟩
    rw [List.mem_singleton.mp hnew]
    refine apart_of_tested (hok.aligned old hold) ⟨hal,hstopal⟩ fun n hcov ⟨h1,h2⟩ => ?_
    obtain ⟨hfree,htake⟩ := hpages n h1 h2
    exact hpop old hold n hcov htake hfree

theorem sysMunmap_ok (hok : info.Ok) (start : ℕ) : (s.sysMunmap info start).2.2.Ok := by
  rw [sysMunmap]
  cases hfind : kMemMmapGetMapping info start with
  | none => exact hok
  | some block =>
    have hmem := List.mem_of_find?_eq_some hfind
    have hsub : ∀ b ∈ info.mmapBlocks.erase block, b ∈ info.mmapBlocks := fun b =>
      List.mem_of_mem_erase
    exact ⟨(hok.aligned block hmem).1,(hok.below block hmem).1,
      fun b hb => hok.aligned b (hsub b hb),
      fun b hb => hok.below b (hsub b hb),hok.disjoint.sublist List.erase_sublist⟩

end Place

/-- The machine and the mappings of one process. -/
structure Mapped where
  vm : Vm
  info : MmapInfo

/-- What can happen between two states of a process. Anything else that runs may change
the machine but not the list of blocks. -/
inductive MmapCall
  | mmap (start length prot flags : BitVec 32) (arg : FileArg) (fd2fdt : ℤ → Option OpenFile)
      (growth : ℕ)
  | munmap (start : BitVec 32)
  | fault (address code : ℕ) (fd2fdt : ℤ → Option OpenFile) (read : Option (ℕ → ℕ))
  | other (vm : Vm)

namespace MmapCall

def exec (m : Mapped) : MmapCall → Result Mapped
  | mmap start length prot flags arg fd2fdt growth => do
    let (_,vm,info) ← m.vm.sysMmap m.info start.toNat length.toNat prot.toNat flags.toNat
      arg fd2fdt growth
    pure ⟨vm,info⟩
  | munmap start =>
    let (_,vm,info) := m.vm.sysMunmap m.info start.toNat
    pure ⟨vm,info⟩
  | fault address code fd2fdt read => do
    let (_,vm) ← m.vm.kMemMmapHandlePagefault m.info address code fd2fdt read
    pure ⟨vm,m.info⟩
  | other vm => pure ⟨vm,m.info⟩

def Populated (m : Mapped) : MmapCall → Prop
  | mmap start length _ flags _ _ _ => m.vm.Populated m.info start.toNat length.toNat flags.toNat
  | _ => True

end MmapCall

def MmapStep (m m' : Mapped) : Prop := ∃ call : MmapCall, call.exec m = .ok m'

def PopulatedStep (m m' : Mapped) : Prop :=
  ∃ call : MmapCall, call.Populated m ∧ call.exec m = .ok m'

theorem PopulatedStep.ok {m m' : Mapped} (h : PopulatedStep m m') (hok : m.info.Ok) :
    m'.info.Ok := by
  obtain ⟨call,hpop,hexec⟩ := h
  cases call with
  | mmap start length prot flags arg fd2fdt growth =>
    obtain ⟨r,hret,hexec⟩ := Result.bind_eq_ok.mp hexec
    obtain rfl := Except.ok.inj hexec
    exact sysMmap_ok hok start.isLt length.isLt hpop hret
  | munmap start =>
    obtain rfl := Except.ok.inj hexec
    exact sysMunmap_ok hok start.toNat
  | fault address code fd2fdt read =>
    obtain ⟨r,-,hexec⟩ := Result.bind_eq_ok.mp hexec
    obtain rfl := Except.ok.inj hexec
    exact hok
  | other vm =>
    obtain rfl := Except.ok.inj hexec
    exact hok

/-- The state in which `exec` leaves a process: no block yet, the search starts on a page. -/
def Mapped.Fresh (m : Mapped) : Prop :=
  m.info.mmapBlocks = [] ∧ m.info.start%0x1000 = 0 ∧ m.info.start < W32

theorem Mapped.Fresh.ok {m : Mapped} (h : m.Fresh) : m.info.Ok := by
  obtain ⟨hnil,hal,hlt⟩ := h
  refine ⟨hal,hlt,?_,?_,?_⟩
  · simp [hnil]
  · simp [hnil]
  · simp [MmapInfo.Disjoint,hnil]

theorem candidates_le_one {info : MmapInfo} (h : info.Disjoint) (addr : ℕ) :
    (info.mmapBlocks.filter fun block => block.Covers addr).length ≤ 1 := by
  have hp := h.sublist (List.filter_sublist (p:=fun block : MmapBlock => block.Covers addr))
  have hall : ∀ block ∈ info.mmapBlocks.filter (fun block => block.Covers addr),
      block.Covers addr :=
    fun block hb => by simpa using (List.mem_filter.mp hb).2
  generalize info.mmapBlocks.filter (fun block => block.Covers addr) = found at hp hall
  match found with
  | [] => simp
  | [_] => simp
  | a::b::rest =>
    have hab := (List.pairwise_cons.mp hp).1 b (by simp)
    exact absurd ⟨hall a (by simp),hall b (by simp)⟩ (hab addr)

/-- Over any run in which `sys_mmap` is only called while the blocks it could run into are
populated, the blocks are disjoint and an address has at most one candidate. -/
theorem blocks_disjoint_while_populated {m m' : Mapped} (hm : m.Fresh)
    (hrun : Relation.ReflTransGen PopulatedStep m m') :
    m'.info.Disjoint ∧
      ∀ addr, (m'.info.mmapBlocks.filter fun block => block.Covers addr).length ≤ 1 := by
  have hok :=
    reach_invariant (I:=fun m : Mapped => m.info.Ok) (fun _ _ hok h => h.ok hok) hm.ok hrun
  exact ⟨hok.disjoint,candidates_le_one hok.disjoint⟩

def regularFiles : ℤ → Option OpenFile := fun _ => some ⟨1,none⟩

/-- A process with one page of its own, page 0, that maps from `USER_MMAP_START` on. -/
def freshProcess : Mapped := ⟨onePage lowFrames,⟨0x40000000,[]⟩⟩

def fileMapping (length : BitVec 32) : MmapCall := .mmap 0 length 1 2 ⟨8,3,0⟩ regularFiles 0

theorem blocks_disjoint_while_populated_one :
    ∃ m : Mapped, Relation.ReflTransGen PopulatedStep freshProcess m ∧
      m.info.mmapBlocks.length = 1 ∧ m.info.Disjoint := by
  have hfresh : freshProcess.Fresh := ⟨rfl,by decide,by decide⟩
  have heval : ((fileMapping 0x1000).exec freshProcess).map (fun m => m.info.mmapBlocks.length) =
      .ok 1 := by decide +kernel
  cases hret : (fileMapping 0x1000).exec freshProcess with
  | error e => rw [hret] at heval; cases heval
  | ok m =>
    have hpop : (fileMapping 0x1000).Populated freshProcess := fun block hb => by cases hb
    have hrun := Relation.ReflTransGen.single (r:=PopulatedStep) ⟨_,hpop,hret⟩
    rw [hret] at heval
    exact ⟨m,hrun,Except.ok.inj heval,(blocks_disjoint_while_populated hfresh hrun).1⟩

/-- A mapping of one page, another of two pages behind it, none of them touched. Once the
first is gone, a third one of two pages is put over the start of the second. -/
theorem untouched_block_is_overlapped :
    ∃ m : Mapped, freshProcess.Fresh ∧ Relation.ReflTransGen MmapStep freshProcess m ∧
      ¬ m.info.Disjoint := by
  have heval : (do
      let m ← (fileMapping 0x1000).exec freshProcess
      let m ← (fileMapping 0x2000).exec m
      let m ← (MmapCall.munmap 0x40000000).exec m
      let m ← (fileMapping 0x2000).exec m
      pure (m.info.mmapBlocks.map fun b => (b.start,b.stop)) : Result (List (ℕ × ℕ))) =
      .ok [(0x40001000,0x40003000),(0x40000000,0x40002000)] := by decide +kernel
  obtain ⟨m₁,h₁,heval⟩ := Result.bind_eq_ok.mp heval
  obtain ⟨m₂,h₂,heval⟩ := Result.bind_eq_ok.mp heval
  obtain ⟨m₃,h₃,heval⟩ := Result.bind_eq_ok.mp heval
  obtain ⟨m₄,h₄,heval⟩ := Result.bind_eq_ok.mp heval
  have hrun : Relation.ReflTransGen MmapStep freshProcess m₄ :=
    (((Relation.ReflTransGen.single ⟨_,h₁⟩).tail ⟨_,h₂⟩).tail ⟨_,h₃⟩).tail ⟨_,h₄⟩
  refine ⟨m₄,⟨rfl,by decide,by decide⟩,hrun,fun hd => ?_⟩
  obtain ⟨a,rest,hblocks,ha,hrest⟩ := List.map_eq_cons_iff.mp (Except.ok.inj heval)
  obtain ⟨b,rest',rfl,hb,-⟩ := List.map_eq_cons_iff.mp hrest
  obtain ⟨ha1,ha2⟩ := Prod.mk.inj ha
  obtain ⟨hb1,hb2⟩ := Prod.mk.inj hb
  rw [MmapInfo.Disjoint,hblocks] at hd
  refine (List.pairwise_cons.mp hd).1 b (by simp) 0x40001000 ⟨⟨?_,?_⟩,?_,?_⟩
  · omega
  · omega
  · omega
  · omega

end Vm
end ScalesOS
