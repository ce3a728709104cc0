import ScalesOS.FrameTaking
import ScalesOS.WindowSearch

/-! The search of `k_mem_mmap_allocate_block` for an address. It has the offset of `k_map`, looks
at existing blocks only while it skips, and goes on from the kernel half when it has come to the
end of the user half. -/
namespace ScalesOS
namespace Vm

open GapSearch

/-- Page `j` from `start` on is mapped or part of a block. -/
def TakenFrom (s : Vm) (info : MmapInfo) (start j : ℕ) : Prop :=
  s.MappedFrom start j ∨ (kMemMmapGetMapping info ((start+j*0x1000)%W32)).isSome

def HasRun (s : Vm) (info : MmapInfo) (pages : ℕ) : Prop :=
  ∃ b, info.start+b*0x1000+pages*0x1000 ≤ USER_STACK_END ∧ ∀ i < pages,
    ¬s.TakenFrom info info.start (b+i)

/-- What `k_mem_mmap_allocate_block` is for without `MAP_FIXED`. -/
structure AllocatesRight (s : Vm) (info : MmapInfo) (start size prot flags growth : ℕ) : Prop where
  ends : ∃ r, s.placeBlock info start (pageCount size) flags = .ok r
  finds : s.HasRun info (pageCount size) →
    ∀ r, s.kMemMmapAllocateBlock info start size prot flags growth = .ok r →
    r.1.isSome
  right : ∀ block r, s.kMemMmapAllocateBlock info start size prot flags growth =
    .ok (some block,r) →
    block.stop = block.start+pageCount size*0x1000 ∧ block.stop ≤ USER_STACK_END ∧
      ∀ i < pageCount size, ¬s.TakenFrom info block.start i

/-- The search from the kernel half ends in its first round, and its window lies below the end of
the address space. -/
def RestartEnds (s : Vm) (info : MmapInfo) (pages : ℕ) : Prop :=
  ∃ o, FirstGap (s.MappedFrom LOWMEM_START) (s.TakenFrom info LOWMEM_START) pages o ∧
    LOWMEM_START+o*0x1000+pages*0x1000 < W32

/-- The first round settles the search. It arrives at the stack, or at an unmapped window that
ends below the stack and is free of blocks, or that ends behind the beginning of the stack, or
right there and is not free. -/
def BlockSettles (s : Vm) (info : MmapInfo) (pages : ℕ) : Prop :=
  ∃ o, FirstGap (s.MappedFrom info.start) (s.TakenFrom info info.start) pages o ∧
    info.start+o*0x1000 < W32 ∧ ((USER_STACK_END ≤ info.start+o*0x1000 ∧ s.RestartEnds info pages) ∨
      (info.start+o*0x1000 < USER_STACK_END ∧ (∀ i < pages, ¬s.MappedFrom info.start (i+o)) ∧
        info.start+o*0x1000+pages*0x1000 < W32 ∧
        (info.start+o*0x1000+pages*0x1000 < USER_STACK_END →
          ∀ i < pages, ¬s.TakenFrom info info.start (o+i)) ∧
        (info.start+o*0x1000+pages*0x1000 = USER_STACK_END →
          ∃ i < pages, s.TakenFrom info info.start (o+i))))

variable {s : Vm} {info : MmapInfo} {pages : ℕ}

instance (s : Vm) (info : MmapInfo) (start j : ℕ) : Decidable (s.TakenFrom info start j) :=
  inferInstanceAs (Decidable (_ ∨ _))

theorem skipTaken_spec (start offset m fuel i : ℕ) (hi : i ≤ m) (hfuel : m-i < fuel)
    (htaken : ∀ j, i ≤ j → j < m → s.TakenFrom info start (j+offset))
    (hfree : ¬s.TakenFrom info start (m+offset)) :
    s.skipTaken info start offset fuel i = .ok m :=
  skip_eq (q:=fun j => s.TakenFrom info start (j+offset)) (fun _ _ =>
    rfl) hfree fuel i hi hfuel htaken

theorem searchBlock_round {start o : ℕ}
    (hgap : FirstGap (s.MappedFrom start) (s.TakenFrom info start) pages o)
    (hlow : start+o*0x1000 < W32) (fuel : ℕ) (loop : Bool) :
    (o = 0 ∧ s.searchBlock info pages (fuel+1) start 0 loop = .ok start) ∨
      s.searchBlock info pages (fuel+1) start 0 loop =
        if USER_STACK_END ≤ start+o*0x1000 then
          if loop then .ok (start+o*0x1000) else s.searchBlock info pages fuel LOWMEM_START 0 true
        else s.searchBlock info pages fuel start o loop := by
  have hlast : o < 0x100000 := by simp only [W32] at hlow; omega
  have hround :
    FirstGap (fun i => decide (s.kMemPagingVirt2phys ((start+(i+0)*0x1000)%W32) ≠ 0) = true)
      (s.TakenFrom info start) pages o := by
    simp only [decide_eq_true_eq]
    exact hgap
  rcases firstGap_find hround with ⟨rfl,hnone⟩ | ⟨i,hsome,hio,hskip,hgap⟩
  · left
    refine ⟨rfl,?_⟩
    have hstart : (start+0x1000*0)%W32 = start := by
      rw [Nat.mul_zero,Nat.add_zero]
      exact Nat.mod_eq_of_lt (by simpa using hlow)
    rw [searchBlock,firstMapped,hnone]
    exact congrArg Except.ok hstart
  · right
    have hsecond := skipTaken_spec start 0 o 0x100001 i hio (by omega) hskip hgap
    have hmod : (start+0x1000*o)%W32 = start+o*0x1000 := by rw [Nat.mul_comm,Nat.mod_eq_of_lt hlow]
    rw [searchBlock,firstMapped,hsome]
    simp only [hsecond,bind,Except.bind,Nat.mod_eq_of_lt hlow,hmod]
    rfl

theorem searchBlock_free {start o fuel : ℕ} {loop : Bool} (hlow : start+o*0x1000 < W32)
    (hfree : ∀ i < pages, ¬s.MappedFrom start (i+o)) :
    s.searchBlock info pages (fuel+1) start o loop = .ok (start+o*0x1000) := by
  have hnone : s.firstMapped start o pages = none :=
    List.find?_range_eq_none.mpr fun i hi => by simpa [MappedFrom] using hfree i hi
  rw [searchBlock,hnone]
  exact congrArg Except.ok (by rw [Nat.mul_comm,Nat.mod_eq_of_lt hlow])

theorem searchBlock_restart (h : s.RestartEnds info pages) (fuel : ℕ) :
    ∃ a, s.searchBlock info pages (fuel+1) LOWMEM_START 0 true = .ok a ∧ LOWMEM_START ≤ a ∧
    a+pages*0x1000 < W32 := by
  obtain ⟨o,hgap,hend⟩ := h
  have hstack : USER_STACK_END ≤ LOWMEM_START := by decide
  rcases searchBlock_round hgap (by omega) fuel true with ⟨rfl,hret⟩ | hret
  · exact ⟨_,hret,le_rfl,by omega⟩
  · rw [if_pos (by omega),if_pos rfl] at hret
    exact ⟨_,hret,Nat.le_add_right _ _,by omega⟩

theorem placeBlock_settled (hstart : info.start < USER_STACK_END) (h : s.BlockSettles info pages)
    {start flags : ℕ} (hflags : flags &&& MAP_FIXED = 0) :
    (s.placeBlock info start pages flags = .ok none ∧ ¬s.HasRun info pages) ∨
      ∃ o, s.placeBlock info start pages flags =
          .ok (some (info.start+o*0x1000,info.start+o*0x1000+pages*0x1000)) ∧
        info.start+o*0x1000+pages*0x1000 < USER_STACK_END ∧ ∀ i < pages,
        ¬s.TakenFrom info info.start (o+i) := by
  obtain ⟨o,hgap,hlow,hend⟩ := h
  have hstack : USER_STACK_END ≤ LOWMEM_START := by decide
  have hfuel : ∃ fuel, 2*W32 = fuel+1+1 := ⟨2*W32-2,by decide⟩
  obtain ⟨fuel,hfuel⟩ := hfuel
  have hplace : ∀ {a}, s.searchBlock info pages (2*W32) info.start 0 false = .ok a →
    a+pages*0x1000 < W32 →
      s.placeBlock info start pages flags = .ok (if USER_STACK_END ≤ a+pages*0x1000 then none
        else some (a,a+pages*0x1000)) := by
    intro a hret hlt
    rw [placeBlock,if_neg (not_not.mpr hflags),hret]
    simp only [bind,Except.bind,Nat.mod_eq_of_lt hlt]
    split <;> rfl
  -- no run begins before the place where the first round arrives
  have hbefore : ∀ b, (∀ i < pages, ¬s.TakenFrom info info.start (b+i)) → o ≤ b :=
    fun b hrun => hgap.le_of_run (fun _ hj => .inl hj) hrun
  rcases hend with ⟨hover,hrestart⟩ | ⟨hbelow,hfree,hin,hblocks,hexact⟩
  · left
    obtain ⟨a,hret,ha,hlt⟩ := searchBlock_restart hrestart fuel
    have hsearch : s.searchBlock info pages (2*W32) info.start 0 false = .ok a := by
      rw [hfuel]
      rcases searchBlock_round hgap hlow (fuel+1) false with ⟨rfl,-⟩ | hround
      · omega
      · rwa [hround,if_pos hover,if_neg Bool.false_ne_true]
    refine ⟨by rw [hplace hsearch hlt,if_pos (by omega)],fun ⟨b,hb,hrun⟩ => ?_⟩
    have hob := hbefore b hrun
    rcases Nat.eq_zero_or_pos pages with rfl | hpos
    · rcases hgap with ⟨rfl,-⟩ | ⟨i,hi,-⟩
      · omega
      · omega
    · omega
  · have hsearch :
        s.searchBlock info pages (2*W32) info.start 0 false = .ok (info.start+o*0x1000) := by
      rw [hfuel]
      rcases searchBlock_round hgap hlow (fuel+1) false with ⟨rfl,hround⟩ | hround
      · rwa [Nat.zero_mul,Nat.add_zero]
      · rw [hround,if_neg (by omega)]
        exact searchBlock_free hlow hfree
    rcases Nat.lt_or_ge (info.start+o*0x1000+pages*0x1000) USER_STACK_END with hlt | hge
    · exact .inr ⟨o,by rw [hplace hsearch hin,if_neg (by omega)],hlt,hblocks hlt⟩
    · refine .inl ⟨by rw [hplace hsearch hin,if_pos hge],fun ⟨b,hb,hrun⟩ => ?_⟩
      have hob := hbefore b hrun
      obtain rfl : b = o := by omega
      obtain ⟨i,hi,htaken⟩ := hexact (by omega)
      exact hrun i hi htaken

theorem allocateBlock_some {start size prot flags growth : ℕ} {block : MmapBlock}
    {r : Vm × MmapInfo}
    (h : s.kMemMmapAllocateBlock info start size prot flags growth = .ok (some block,r)) :
    ∃ next, s.placeBlock info start (pageCount size) flags = .ok (some (block.start,next)) ∧
      block.stop = (block.start+pageCount size*0x1000)%W32 ∧
      r.2 = ⟨next,info.mmapBlocks++[block]⟩ := by
  obtain ⟨place,hplace,h⟩ := Result.bind_eq_ok.mp h
  cases place with
  | none => cases h
  | some place =>
    obtain ⟨s₁,-,h⟩ := Result.bind_eq_ok.mp h
    obtain ⟨s₂,-,h⟩ := Result.bind_eq_ok.mp h
    obtain ⟨hblock,rfl⟩ := Prod.mk.inj (Except.ok.inj h)
    obtain rfl := Option.some.inj hblock
    exact ⟨place.2,hplace,rfl,rfl⟩

theorem allocateBlock_isSome {start size prot flags growth : ℕ}
    {r : Option MmapBlock × Vm × MmapInfo} {place : ℕ × ℕ}
    (hplace : s.placeBlock info start (pageCount size) flags = .ok (some place))
    (h : s.kMemMmapAllocateBlock info start size prot flags growth = .ok r) : r.1.isSome := by
  obtain ⟨place',hplace',h⟩ := Result.bind_eq_ok.mp h
  obtain rfl := Except.ok.inj (hplace.symm.trans hplace')
  obtain ⟨s₁,-,h⟩ := Result.bind_eq_ok.mp h
  obtain ⟨s₂,-,h⟩ := Result.bind_eq_ok.mp h
  obtain rfl := Except.ok.inj h
  rfl

theorem allocatesRight_of_settles (hstart : info.start < USER_STACK_END)
    {start size prot flags growth : ℕ}
    (hflags : flags &&& MAP_FIXED = 0) (h : s.BlockSettles info (pageCount size)) :
    s.AllocatesRight info start size prot flags growth := by
  rcases @placeBlock_settled _ _ _ hstart h start flags hflags with
    ⟨hplace,hnone⟩ | ⟨o,hplace,hend,hfree⟩
  · refine ⟨⟨none,hplace⟩,fun hrun => absurd hrun hnone,fun block r hret => ?_⟩
    obtain ⟨next,hsome,-⟩ := allocateBlock_some hret
    cases hplace.symm.trans hsome
  · refine ⟨⟨_,hplace⟩,fun _ r hret => allocateBlock_isSome hplace hret,fun block r hret => ?_⟩
    obtain ⟨next,hsome,hstop,-⟩ := allocateBlock_some hret
    have hplaced := Option.some.inj (Except.ok.inj (hplace.symm.trans hsome))
    obtain ⟨hblock,-⟩ := Prod.mk.inj hplaced
    have hmax : USER_STACK_END < W32 := by decide
    rw [← hblock] at hstop ⊢
    rw [Nat.mod_eq_of_lt (by omega)] at hstop
    refine ⟨hstop,by omega,fun i hi htaken => hfree i hi ?_⟩
    have haddr : info.start+o*0x1000+i*0x1000 = info.start+(o+i)*0x1000 := by
      rw [Nat.add_mul,Nat.add_assoc]
    rwa [TakenFrom,MappedFrom,haddr] at htaken

inductive BlockCall : Vm × MmapInfo → Vm × MmapInfo → Prop
  | allocate {s : Vm} {info : MmapInfo} {start size prot flags growth : ℕ} {r : Option MmapBlock ×
      Vm × MmapInfo}
      (h : s.kMemMmapAllocateBlock info start size prot flags growth = .ok r) :
      BlockCall (s,info) r.2
  | free {s : Vm} {info : MmapInfo} {block : MmapBlock} (h : block ∈ info.mmapBlocks) :
      BlockCall (s,info) (s.kMemMmapFreeBlock (info.mmapBlocks.erase block) block)

/-- Calls whose search is settled by the first round, and requests for an address that do not run
over the end of the address space. In between other code changes the page tables, and
`sys_mmap` fills in the blocks. -/
inductive SettledMmap : Vm × MmapInfo → Vm × MmapInfo → Prop
  | allocate {s : Vm} {info : MmapInfo} {start size prot flags growth : ℕ} {r : Option MmapBlock ×
      Vm × MmapInfo}
      (hflags : flags &&& MAP_FIXED = 0) (hsettles : s.BlockSettles info (pageCount size))
      (h : s.kMemMmapAllocateBlock info start size prot flags growth = .ok r) :
      SettledMmap (s,info) r.2
  | fixed {s : Vm} {info : MmapInfo} {start size prot flags growth : ℕ} {r : Option MmapBlock ×
      Vm × MmapInfo}
      (hflags : flags &&& MAP_FIXED ≠ 0) (hend : start+pageCount size*0x1000 < W32)
      (h : s.kMemMmapAllocateBlock info start size prot flags growth = .ok r) :
      SettledMmap (s,info) r.2
  | free {s : Vm} {info : MmapInfo} {block : MmapBlock} (h : block ∈ info.mmapBlocks) :
      SettledMmap (s,info) (s.kMemMmapFreeBlock (info.mmapBlocks.erase block) block)
  | other {s s' : Vm} {info info' : MmapInfo} (hstart : info'.start = info.start)
      (hblocks : info'.mmapBlocks.map MmapBlock.start = info.mmapBlocks.map MmapBlock.start) :
      SettledMmap (s,info) (s',info')

/-- Blocks and the place where the search begins lie below the stack. -/
structure InfoOk (info : MmapInfo) : Prop where
  start : info.start < USER_STACK_END
  blocks : ∀ a ∈ info.mmapBlocks.map MmapBlock.start, a < USER_STACK_END

theorem InfoOk.allocate (hi : InfoOk info) {start size prot flags growth : ℕ}
    {r : Option MmapBlock × Vm × MmapInfo}
    (hplace : ∀ a next, s.placeBlock info start (pageCount size) flags = .ok (some (a,next)) →
      a < USER_STACK_END ∧ next < USER_STACK_END)
    (h : s.kMemMmapAllocateBlock info start size prot flags growth = .ok r) : InfoOk r.2.2 := by
  obtain ⟨block,s',info'⟩ := r
  cases block with
  | none =>
    obtain ⟨place,-,h⟩ := Result.bind_eq_ok.mp h
    cases place with
    | none =>
      obtain ⟨-,h⟩ := Prod.mk.inj (Except.ok.inj h)
      obtain ⟨-,rfl⟩ := Prod.mk.inj h
      exact hi
    | some place =>
      obtain ⟨s₁,-,h⟩ := Result.bind_eq_ok.mp h
      obtain ⟨s₂,-,h⟩ := Result.bind_eq_ok.mp h
      cases h
  | some block =>
    obtain ⟨next,hsome,-,hinfo⟩ := allocateBlock_some h
    obtain ⟨ha,hnext⟩ := hplace _ _ hsome
    obtain rfl : info' = ⟨next,info.mmapBlocks++[block]⟩ := hinfo
    refine ⟨hnext,fun a hin => ?_⟩
    rw [List.map_append] at hin
    rcases List.mem_append.mp hin with hold | hnew
    · exact hi.blocks a hold
    · rwa [List.mem_singleton.mp hnew]

theorem SettledMmap.infoOk {p p' : Vm × MmapInfo} (hi : InfoOk p.2) (h : SettledMmap p p') :
    InfoOk p'.2 := by
  cases h with
  | allocate hflags hsettles h =>
    refine hi.allocate (fun a next hret => ?_) h
    rcases placeBlock_settled hi.start hsettles hflags with ⟨hplace,-⟩ | ⟨o,hplace,hend,-⟩
    · cases hplace.symm.trans hret
    · obtain ⟨rfl,rfl⟩ := Prod.mk.inj (Option.some.inj (Except.ok.inj (hplace.symm.trans hret)))
      omega
  | fixed hflags hend h =>
    refine hi.allocate (fun a next hret => ?_) h
    rw [placeBlock,if_pos hflags,Nat.mod_eq_of_lt hend] at hret
    split at hret
    · cases hret
    split at hret
    · cases hret
    split at hret
    · cases hret
    split at hret
    · cases hret
    obtain ⟨rfl,rfl⟩ := Prod.mk.inj (Option.some.inj (Except.ok.inj hret))
    exact ⟨by omega,hi.start⟩
  | free h =>
    have hin := List.mem_map_of_mem (f:=MmapBlock.start) h
    exact ⟨hi.blocks _ hin,fun a ha => hi.blocks a (((List.erase_sublist).map _).subset ha)⟩
  | other hstart hblocks => exact ⟨hstart ▸ hi.start,hblocks ▸ hi.blocks⟩

/-- In a run whose searches are all settled by the first round, `k_mem_mmap_allocate_block` does
what it is for. -/
theorem allocates_right {p₀ p : Vm × MmapInfo} (h₀ : InfoOk p₀.2)
    (hrun : Relation.ReflTransGen SettledMmap p₀ p)
    {start size prot flags growth : ℕ} (hflags : flags &&& MAP_FIXED = 0)
    (hsettles : p.1.BlockSettles p.2 (pageCount size)) :
    p.1.AllocatesRight p.2 start size prot flags growth := by
  have hi : InfoOk p.2 :=
    reach_invariant (I:=fun p : Vm × MmapInfo => InfoOk p.2) (fun _ _ hi hstep =>
      SettledMmap.infoOk hi hstep) h₀ hrun
  exact allocatesRight_of_settles hi.start hflags hsettles

theorem searchBlock_stuck {start o i : ℕ} {loop : Bool}
    (hfind : s.firstMapped start o pages = some i)
    (hskip : s.skipTaken info start o 0x100001 i = .ok o)
    (hlow : (start+o*0x1000)%W32 < USER_STACK_END) (fuel : ℕ) :
    s.searchBlock info pages fuel start o loop = .error .loop := by
  induction fuel with
  | zero => rfl
  | succ fuel ih =>
    rw [searchBlock,hfind]
    simp only [hskip,bind,Except.bind]
    rw [if_neg hlow.not_ge]
    exact ih

def USER_MMAP_START : ℕ := 0x40000000

def noBlocks : Vm × MmapInfo := (kernelMachine,⟨USER_MMAP_START,[]⟩)

theorem allocates_right_first : noBlocks.1.AllocatesRight noBlocks.2 0 0x3000 3 MAP_ANONYMOUS 0 :=
  allocates_right ⟨by decide,fun a ha => absurd ha List.not_mem_nil⟩ .refl (by decide)
    ⟨0,.inl ⟨rfl,by decide⟩,by decide,
      .inr ⟨by decide,by decide,by decide,fun _ => by decide,fun h => absurd h (by decide)⟩⟩

def anonymousPage (p : Vm × MmapInfo) : Result (Vm × MmapInfo) := do
  let r ← p.1.kMemMmapAllocateBlock p.2 0 0x1000 3 MAP_ANONYMOUS 0
  pure r.2

theorem anonymousPage_call {p p' : Vm × MmapInfo} (h : anonymousPage p = .ok p') :
    BlockCall p p' := by
  obtain ⟨r,hr,h⟩ := Result.bind_eq_ok.mp h
  obtain rfl := Except.ok.inj h
  exact .allocate hr

def freeBlock (p : Vm × MmapInfo) (i : ℕ) : Vm × MmapInfo :=
  match p.2.mmapBlocks[i]? with
  | some block => p.1.kMemMmapFreeBlock (p.2.mmapBlocks.erase block) block
  | none => p

theorem freeBlock_calls (p : Vm × MmapInfo) (i : ℕ) :
    Relation.ReflTransGen BlockCall p (freeBlock p i) := by
  rw [freeBlock]
  cases h : p.2.mmapBlocks[i]? with
  | none => exact .refl
  | some block => exact .single (.free (List.mem_of_getElem? h))

def fourBlocks : Result (Vm × MmapInfo) := do
  let p ← anonymousPage noBlocks
  let p ← anonymousPage p
  let p ← anonymousPage p
  let p ← anonymousPage p
  pure (freeBlock (freeBlock p 2) 0)

theorem fourBlocks_reached {p : Vm × MmapInfo} (h : fourBlocks = .ok p) :
    Relation.ReflTransGen BlockCall noBlocks p := by
  obtain ⟨p₁,h₁,h⟩ := Result.bind_eq_ok.mp h
  obtain ⟨p₂,h₂,h⟩ := Result.bind_eq_ok.mp h
  obtain ⟨p₃,h₃,h⟩ := Result.bind_eq_ok.mp h
  obtain ⟨p₄,h₄,h⟩ := Result.bind_eq_ok.mp h
  obtain rfl := Except.ok.inj h
  have hblocks :=
    (((Relation.ReflTransGen.single (anonymousPage_call h₁)).tail (anonymousPage_call h₂)).tail
      (anonymousPage_call h₃)).tail
    (anonymousPage_call h₄)
  exact (hblocks.trans (freeBlock_calls _ 2)).trans (freeBlock_calls _ 0)

/-- The second page of the four is mapped, then the fourth; the search for two pages stays at the
third. -/
theorem two_page_block_not_found : ¬∀ p₀ p : Vm × MmapInfo, InfoOk p₀.2 →
    Relation.ReflTransGen BlockCall p₀ p →
    ∀ start size prot flags growth : ℕ, flags &&& MAP_FIXED = 0 →
    p.1.AllocatesRight p.2 start size prot flags growth := by
  intro hright
  have hrun :
    fourBlocks.toOption.any (fun p : Vm × MmapInfo => decide (p.2.start = USER_MMAP_START ∧
      p.1.firstMapped USER_MMAP_START 0 2 = some 1 ∧
      (p.1.skipTaken p.2 USER_MMAP_START 0 0x100001 1).toOption = some 2 ∧
      p.1.firstMapped USER_MMAP_START 2 2 = some 1 ∧
      (p.1.skipTaken p.2 USER_MMAP_START 2 0x100001 1).toOption = some 2)) = true := by
        decide +kernel
  obtain ⟨p,hp,hround⟩ := (Option.any_eq_true _ _).mp hrun
  obtain ⟨hstart,hfind,hskip,hfind₂,hskip₂⟩ := of_decide_eq_true hround
  obtain ⟨⟨r,hplace⟩,-,-⟩ := hright noBlocks p ⟨by decide,fun a ha => absurd ha List.not_mem_nil⟩
    (fourBlocks_reached (Result.eq_ok_of_toOption hp)) 0 0x2000 3 MAP_ANONYMOUS 0 (by decide)
  have hloop : p.1.searchBlock p.2 2 (2*W32-1+1) USER_MMAP_START 0 false = .error .loop := by
    rw [searchBlock,hfind]
    simp only [Result.eq_ok_of_toOption hskip,bind,Except.bind]
    rw [if_neg (by decide)]
    exact searchBlock_stuck hfind₂ (Result.eq_ok_of_toOption hskip₂) (by decide) _
  rw [placeBlock,if_neg (by decide),hstart,show 2*W32 = 2*W32-1+1 from rfl,
    show pageCount 0x2000 = 2 from rfl,hloop] at hplace
  cases hplace

end Vm
end ScalesOS
