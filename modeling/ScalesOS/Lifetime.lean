import ScalesOS.ForkExit

/-!
# Frame conservation

What the life of a forked process leaves of the frames that were taken for it.
-/

namespace ScalesOS

/-- The page that the heap returns for the new directory is one that nothing else uses. -/
def ForkHeap.Serves (heap : ForkHeap) (s : Vm) (d : ℕ) : Prop :=
  ∀ s₁ s₂, s.growHeap heap.before = .ok s₁ → s₁.growHeap heap.copy.growth = .ok s₂ →
    s₂.HeapPage d heap.copy.page

/-- All pages by which the heap grows during a fork. -/
def ForkHeap.pages (heap : ForkHeap) : ℕ := heap.before+heap.copy.growth+heap.after

namespace Vm

open Pmm

section Fork

variable {s s₁ s₂ s₃ s₄ : Vm} {d c : ℕ} {heap : ForkHeap}

theorem fork_heap (hr : s.CloneReady d) (hend : s.heapEnd+heap.pages*0x1000 ≤ HEAP_END)
    (hlow : s.pmm.bitmapSize ≤ 0x8000 ∨ heap.pages ≤ s.pmm.lowFree.card)
    (h₁ : s.growHeap heap.before = .ok s₁) :
    (HeapOnly s s₁ d heap.before ∧ s₁.CloneReady d) ∧ ∀ s₂, s₁.growHeap heap.copy.growth = .ok s₂ →
      HeapOnly s s₂ d (heap.before+heap.copy.growth) ∧ s₂.CloneReady d := by
  rw [ForkHeap.pages] at hend hlow
  have h := (HeapOnly.refl hr (le_trans (Nat.le_add_right _ _) hend)).grow hr
    (heap_within hend (by omega)) (hlow.imp id fun h => by omega) h₁
  rw [Nat.zero_add] at h
  exact ⟨h,fun s₂ => h.1.grow h.2 (heap_within hend (by omega)) (hlow.imp id fun h => by omega)⟩

theorem fork_plenty (ho : HeapOnly s s₂ d (heap.before+heap.copy.growth)) (hr : s₂.CloneReady d)
    (hpage : s₂.HeapPage d heap.copy.page)
    (hcard : heap.pages+(s.usedSlots d).card ≤ s.pmm.lowFree.card) :
    Plenty (s₂.cloneStart d heap.copy.page) d heap.copy.page 0x80000 := by
  refine plenty_of_card hr.source hpage ?_
  rw [ForkHeap.pages] at hcard
  rw [ho.user.usedSlots_eq,ho.card_eq]
  omega

theorem fork_forked (hr : s.CloneReady d) (hdir : s.directory = d) (hserves : heap.Serves s d)
    (hend : s.heapEnd+heap.pages*0x1000 ≤ HEAP_END)
    (hlow : s.pmm.bitmapSize ≤ 0x8000 ∨ heap.pages+(s.usedSlots d).card ≤ s.pmm.lowFree.card)
    (h₁ : s.growHeap heap.before = .ok s₁)
    (h₂ : s₁.kMemPagingClonePageDirectory d heap.copy = .ok (c,s₃))
    (h₃ : s₃.growHeap heap.after = .ok s₄) :
    c = heap.copy.page ∧ Forked s s₄ d c (heap.before+heap.copy.growth) heap.pages ∧
        s₄.directory = d := by
  obtain ⟨s₂,hgrow,-⟩ := Result.bind_eq_ok.mp h₂
  obtain ⟨-,h⟩ := fork_heap hr hend (hlow.imp id fun h => by omega) h₁
  obtain ⟨ho,hr₂⟩ := h s₂ hgrow
  have hpage := hserves s₁ s₂ h₁ hgrow
  obtain ⟨L,hL,hsup⟩ :
      ∃ L, L ≤ 0x100000 ∧ Supply (s₂.cloneStart d heap.copy.page) d heap.copy.page L := by
    rcases hlow with hsize | hcard
    · exact ⟨_,le_rfl,supply_of_small (by rw [ho.size_eq]; exact hsize)⟩
    · exact ⟨0x80000,by decide,(fork_plenty ho hr₂ hpage hcard).supply⟩
  obtain ⟨rfl,hc⟩ :=
    clone_cloned hL hr₂.source hr₂.zero_used hr₂.first_ok hr₂.window_start hpage hgrow hsup h₂
  obtain ⟨hf,hdir₄⟩ := (ho.forked hr₂ hpage hc).grow
    (hc.directory_eq.trans (ho.directory_eq.trans hdir)) hend hlow h₃
  exact ⟨rfl,hf,hdir₄⟩

/-- With frames below 2 GiB for everything, two windows and room behind the heap, the
address space can be forked. -/
theorem fork_returns (hr : s.CloneReady d) (hdir : s.directory = d) (hserves : heap.Serves s d)
    (hend : s.heapEnd+heap.pages*0x1000 ≤ HEAP_END)
    (hcard : heap.pages+(s.usedSlots d).card ≤ s.pmm.lowFree.card) (htwo : s.TwoWindows d)
    (hroom : s.HeapRoom d) :
    ∃ s₁ s₃ s₄, s.growHeap heap.before = .ok s₁ ∧
      s₁.kMemPagingClonePageDirectory d heap.copy = .ok (heap.copy.page,s₃) ∧
      s₃.growHeap heap.after = .ok s₄ := by
  have hpages : heap.pages = heap.before+heap.copy.growth+heap.after := rfl
  obtain ⟨s₁,h₁⟩ := (hdir ▸ hroom : s.HeapRoom s.directory).grow_returns hr.current hr.zero_used
    hr.first_ok hr.heap (n:=heap.before) (heap_within hend (by omega)) (by omega)
  obtain ⟨⟨ho₁,hr₁⟩,h⟩ := fork_heap hr hend (.inr (by omega)) h₁
  have hroom₁ : s₁.HeapRoom s₁.directory := by
    rw [ho₁.directory_eq,hdir]
    exact ho₁.accounts.room hroom
  obtain ⟨s₂,hgrow⟩ := hroom₁.grow_returns hr₁.current hr₁.zero_used hr₁.first_ok hr₁.heap
    (n:=heap.copy.growth)
    (by rw [ho₁.heapEnd_eq,Nat.add_assoc,← Nat.add_mul]; exact heap_within hend (by omega))
    (by rw [ho₁.card_eq]; omega)
  obtain ⟨ho,hr₂⟩ := h s₂ hgrow
  have hpage := hserves s₁ s₂ h₁ hgrow
  have hpl := fork_plenty ho hr₂ hpage hcard
  obtain ⟨s₃,h₂⟩ :=
    clone_returns hr₂.source hr₂.zero_used hr₂.first_ok hr₂.window_start hpage hgrow hpl
    (ho.twoWindows hr htwo)
  obtain ⟨-,hc⟩ :=
    clone_cloned (by decide) hr₂.source hr₂.zero_used hr₂.first_ok hr₂.window_start hpage
    hgrow hpl.supply h₂
  have hf := ho.forked hr₂ hpage hc
  have hleft := hf.low_left
  have hdir₃ : s₃.directory = d := hc.directory_eq.trans (ho.directory_eq.trans hdir)
  have hroom₃ : s₃.HeapRoom s₃.directory := by
    rw [hdir₃]
    exact hf.accounts.room hroom
  obtain ⟨s₄,h₃⟩ :=
    hroom₃.grow_returns (by rw [hdir₃]; exact hf.parent) hf.zero_used hf.first_ok hf.heap
    (n:=heap.after) (by rw [hf.heapEnd_eq,Nat.add_assoc,← Nat.add_mul]; exact hend) (by omega)
  exact ⟨s₁,s₃,s₄,h₁,h₂,h₃⟩

end Fork

end Vm

namespace Kernel

open Vm Pmm

/-- The running process `src` forks a child. The child runs in its own address space
until it exits, and its parent destroys it. -/
def lifetime (close : ℕ → Vm → Vm) (k : Kernel) (src : Process) (heap : ForkHeap) (growth : ℕ) :
    Result Kernel := do
  let (pid,k) ← k.kProcProcessFork src heap
  match k.processes pid with
  | none => pure k
  | some child =>
    let k ← (k.switchTo child.pageDirectory).kProcProcessExit close pid child growth
    (k.switchTo src.pageDirectory).kProcProcessDestroy pid child

/-- The record of the child of `src` with directory `c`. -/
def forkedProcess (k : Kernel) (src : Process) (c : ℕ) : Process :=
  { src with pageDirectory := c, mmapBlocks := k.nextName, fdNodes :=
  k.nextName+1, finished := false }

def forkDone (k : Kernel) (src : Process) (c : ℕ) (vm : Vm) : Kernel :=
  (copyFds src.fdNodes (k.nextName+1) src.fdSize
    { k.setBlocks k.nextName (k.blockLists src.mmapBlocks) with
      vm := vm, nextPid := k.nextPid+1, nextName := k.nextName+2 }).setProcess k.nextPid
    (some (k.forkedProcess src c))

theorem fork_eq (k : Kernel) (src : Process) (heap : ForkHeap) :
    k.kProcProcessFork src heap = (do
      let s₁ ← k.vm.growHeap heap.before
      let r ← s₁.kMemPagingClonePageDirectory src.pageDirectory heap.copy
      let s₂ ← r.2.growHeap heap.after
      pure (k.nextPid,k.forkDone src r.1 s₂)) := by
  rw [kProcProcessFork,kProcProcessClone]
  cases k.vm.growHeap heap.before with
  | error e => rfl
  | ok s₁ =>
    cases hc : s₁.kMemPagingClonePageDirectory src.pageDirectory heap.copy with
    | error e => simp [bind,Except.bind,cloneVm,hc]
    | ok r =>
      have hvm : ∀ k' : Kernel, k'.vm = s₁ → cloneVm k' { src with finished := false } 0 heap.copy =
          .ok ({ src with finished := false, pageDirectory := r.1, mmapBlocks := k'.nextName },
            { { k' with vm := r.2 }.setBlocks k'.nextName (k'.blockLists src.mmapBlocks) with
              nextName := k'.nextName+1 }) := by
        rintro k' rfl
        rw [cloneVm,if_pos (Nat.zero_and _),hc]
        rfl
      simp only [bind,Except.bind,hc]
      rw [hvm _ rfl]
      simp only [setBlocks]
      cases r.2.growHeap heap.after with
      | error e => rfl
      | ok s₂ => rfl

def Closable (k : Kernel) (array n : ℕ) : Prop :=
  (∀ node, 0 < k.slotCount array node n → k.slotCount array node n < k.nodeLinks node) ∧
    ∀ node, k.nodeLinks node < W32

theorem Closable.switch {k : Kernel} {array n : ℕ} (h : k.Closable array n) (e : ℕ) :
    (k.switchTo e).Closable array n := by
  have hcount :
      ∀ node, (k.switchTo e).slotCount array node n = k.slotCount array node n := fun node =>
    slotCount_congr fun _ _ => rfl
  refine ⟨fun node hpos => ?_,h.2⟩
  rw [hcount] at hpos ⊢
  exact h.1 node hpos

def exitDone (close : ℕ → Vm → Vm) (k : Kernel) (pid : ℕ) (p : Process) (start : ℕ)
    (vm : Vm) : Kernel :=
  { ((closeFds close p.fdNodes p.fdSize k).setProcess pid
      (some { p with mmapStart := start, finished := true })).setBlocks p.mmapBlocks [] with vm :=
  vm }

theorem popBlocks_list (blocks : List MmapBlock) : ∀ (s : Vm) (start : ℕ),
    (s.popBlocks ⟨start,blocks.reverse⟩ blocks).2.mmapBlocks = [] := by
  induction blocks with
  | nil => exact fun _ _ => rfl
  | cons block rest ih => exact fun s start => ih (s.unmapBlock block) block.start

theorem exit_eq (close : ℕ → Vm → Vm) {k : Kernel} {p : Process}
    (hc : k.Closable p.fdNodes p.fdSize) (pid growth : ℕ) :
    k.kProcProcessExit close pid p growth = (do
      let r :=
        k.vm.popBlocks ⟨p.mmapStart,k.blockLists p.mmapBlocks⟩ (k.blockLists p.mmapBlocks).reverse
      let vm ← r.1.growHeap growth
      pure (k.exitDone close pid p r.2.start vm)) := by
  have hclosed := closeFds_spec close hc.1 hc.2
  have hlist := popBlocks_list (k.blockLists p.mmapBlocks).reverse k.vm p.mmapStart
  rw [List.reverse_reverse] at hlist
  rw [kProcProcessExit]
  simp only [hclosed.vm_eq,hclosed.blocks_eq,exitDone]
  rw [hlist]

/-- The running process can fork: its address space can be cloned, its blocks lie in the
user half, and its open nodes have links left. -/
structure ForkReady (k : Kernel) (src : Process) : Prop where
  current : k.vm.directory = src.pageDirectory
  clone : k.vm.CloneReady src.pageDirectory
  blocks : ∀ block ∈ k.blockLists src.mmapBlocks, block.InUser
  fds_named : src.fdNodes < k.nextName
  slots_named : ∀ i f, k.fdArrays src.fdNodes i = some f → f < k.nextName
  open_links : ∀ node, 0 < k.slotCount src.fdNodes node src.fdSize → 0 < k.nodeLinks node
  links_lt : ∀ node, k.nodeLinks node+src.fdSize < W32

section Lifetime

variable {k : Kernel} {src : Process} {c : ℕ} {vm : Vm}

theorem ForkReady.forkDone (hr : ForkReady k src) (c : ℕ) (vm : Vm) :
    (k.forkDone src c vm).vm = vm ∧ (k.forkDone src c vm).processes k.nextPid =
    some (k.forkedProcess src c) ∧
      (k.forkDone src c vm).blockLists k.nextName = k.blockLists src.mmapBlocks ∧
      (k.forkDone src c vm).Closable (k.nextName+1) src.fdSize := by
  have hnamed := hr.fds_named
  have hcopied : Copied _ (copyFds src.fdNodes (k.nextName+1) src.fdSize
      { k.setBlocks k.nextName (k.blockLists src.mmapBlocks) with
        vm := vm, nextPid := k.nextPid+1, nextName :=
          k.nextName+2 }) src.fdNodes (k.nextName+1) src.fdSize :=
    copyFds_spec (by omega) (fun i f hf => Nat.lt_add_right 2 (hr.slots_named i f hf)) hr.links_lt
  have hcount : ∀ node, (k.forkDone src c vm).slotCount (k.nextName+1) node src.fdSize =
      k.slotCount src.fdNodes node src.fdSize := fun node =>
    slotCount_congr fun i hi => hcopied.slots i hi
  have hlinks : ∀ node, (k.forkDone src c vm).nodeLinks node =
      k.nodeLinks node+k.slotCount src.fdNodes node src.fdSize := fun node =>
    (hcopied.links node).trans (congrArg _ (slotCount_congr fun _ _ => rfl))
  refine ⟨hcopied.vm_eq,Function.update_self _ _ _,?_,fun node hpos => ?_,fun node => ?_⟩
  · show (copyFds _ _ _ _).blockLists k.nextName = _
    rw [hcopied.blocks_eq]
    exact Function.update_self _ _ _
  · rw [hcount] at hpos ⊢
    rw [hlinks]
    have := hr.open_links node hpos
    omega
  · rw [hlinks]
    exact lt_of_le_of_lt (Nat.add_le_add_left (slotCount_le _ _ _ _) _) (hr.links_lt node)

variable {heap : ForkHeap} {growth : ℕ} (close : ℕ → Vm → Vm)

theorem ForkReady.lifetime_eq (hr : ForkReady k src) :
    k.lifetime close src heap growth = (do
      let s₁ ← k.vm.growHeap heap.before
      let r ← s₁.kMemPagingClonePageDirectory src.pageDirectory heap.copy
      let s₂ ← r.2.growHeap heap.after
      let blocks := k.blockLists src.mmapBlocks
      let s₃ ← ((s₂.kMemPagingSetPageDirectory r.1).popBlocks ⟨src.mmapStart,
        blocks⟩ blocks.reverse).1.growHeap
        growth
      let k₁ :=
        ((k.forkDone src r.1 s₂).switchTo r.1).exitDone close k.nextPid (k.forkedProcess src r.1)
        ((s₂.kMemPagingSetPageDirectory r.1).popBlocks ⟨src.mmapStart,
          blocks⟩ blocks.reverse).2.start s₃
      (k₁.switchTo src.pageDirectory).kProcProcessDestroy k.nextPid (k.forkedProcess src r.1)) := by
  rw [lifetime,fork_eq]
  cases k.vm.growHeap heap.before with
  | error e => rfl
  | ok s₁ =>
    simp only [bind,Except.bind]
    cases s₁.kMemPagingClonePageDirectory src.pageDirectory heap.copy with
    | error e => rfl
    | ok r =>
      simp only
      cases r.2.growHeap heap.after with
      | error e => rfl
      | ok s₂ =>
        obtain ⟨hvm,hproc,hblocks,hclose⟩ := hr.forkDone r.1 s₂
        simp only [pure,Except.pure,hproc]
        have hclose :
          ((k.forkDone src r.1 s₂).switchTo (k.forkedProcess src r.1).pageDirectory).Closable
          (k.forkedProcess src r.1).fdNodes (k.forkedProcess src r.1).fdSize := hclose.switch _
        rw [exit_eq close hclose]
        simp only [forkedProcess,switchTo,hvm,hblocks,bind,Except.bind,pure,Except.pure]
        cases Vm.growHeap _ growth with
        | error e => rfl
        | ok s₃ => rfl

theorem destroy_eq (k : Kernel) (pid : ℕ) (p : Process) :
    k.kProcProcessDestroy pid p = (do
      let vm ← k.vm.kMemPagingReleaseDirectory p.pageDirectory
      pure { (k.setBlocks p.mmapBlocks []).setProcess pid none with vm := vm }) := rfl

theorem ForkReady.conserved_iff (hr : ForkReady k src)
    (hserves : heap.Serves k.vm src.pageDirectory)
    (hend : k.vm.heapEnd+(heap.pages+growth)*0x1000 ≤ HEAP_END)
    (hlow : k.vm.pmm.bitmapSize ≤ 0x8000 ∨
      heap.pages+growth+(k.vm.usedSlots src.pageDirectory).card ≤ k.vm.pmm.lowFree.card) {k' :
      Kernel}
    (hret : k.lifetime close src heap growth = .ok k') :
    Conserved k.vm k'.vm src.pageDirectory ↔ ∀ a, k.vm.UsedSlot src.pageDirectory a →
      Returned k.vm src.pageDirectory (heap.before+heap.copy.growth)
        (k.blockLists src.mmapBlocks).reverse a := by
  have huser : ∀ block ∈ (k.blockLists src.mmapBlocks).reverse, block.InUser := fun block hb =>
    hr.blocks block (List.mem_reverse.mp hb)
  have hend' : k.vm.heapEnd+heap.pages*0x1000 ≤ HEAP_END := heap_within hend (Nat.le_add_right _ _)
  rw [hr.lifetime_eq close] at hret
  obtain ⟨s₁,h₁,hret⟩ := Result.bind_eq_ok.mp hret
  obtain ⟨⟨c,s₃⟩,h₂,hret⟩ := Result.bind_eq_ok.mp hret
  obtain ⟨s₄,h₃,hret⟩ := Result.bind_eq_ok.mp hret
  obtain ⟨s₅,h₄,hret⟩ := Result.bind_eq_ok.mp hret
  obtain ⟨rfl,hf,-⟩ :=
    fork_forked hr.clone hr.current hserves hend' (hlow.imp id fun h => by omega) h₁ h₂ h₃
  -- the exit runs in the address space of the child, the release in that of its parent
  have hf := hf.switch heap.copy.page
  have hx := hf.exit_grown (hf.pop rfl huser _) hend hlow h₄
  rw [destroy_eq] at hret
  obtain ⟨v,hrel,hret⟩ := Result.bind_eq_ok.mp hret
  obtain rfl := Except.ok.inj hret
  exact (hx.switch src.pageDirectory).conserved_iff hrel

theorem ForkReady.lifetime_returns (hr : ForkReady k src)
    (hserves : heap.Serves k.vm src.pageDirectory)
    (hend : k.vm.heapEnd+(heap.pages+growth)*0x1000 ≤ HEAP_END)
    (hcard : heap.pages+growth+(k.vm.usedSlots src.pageDirectory).card ≤ k.vm.pmm.lowFree.card)
    (htwo : k.vm.TwoWindows src.pageDirectory) (hroom : k.vm.HeapRoom src.pageDirectory) :
    ∃ k', k.lifetime close src heap growth = .ok k' := by
  have huser : ∀ block ∈ (k.blockLists src.mmapBlocks).reverse, block.InUser := fun block hb =>
    hr.blocks block (List.mem_reverse.mp hb)
  have hend' : k.vm.heapEnd+heap.pages*0x1000 ≤ HEAP_END := heap_within hend (Nat.le_add_right _ _)
  obtain ⟨s₁,s₃,s₄,h₁,h₂,h₃⟩ := fork_returns hr.clone hr.current hserves hend' (by omega) htwo hroom
  obtain ⟨-,hf,-⟩ := fork_forked hr.clone hr.current hserves hend' (.inr (by omega)) h₁ h₂ h₃
  have hf := hf.switch heap.copy.page
  obtain ⟨s₅,h₄⟩ := hf.exit_returns (hf.pop rfl huser _) hend hcard hroom
  have hx := hf.exit_grown (hf.pop rfl huser _) hend (.inr hcard) h₄
  obtain ⟨v,hrel,-⟩ := release_spec (hx.switch src.pageDirectory).copy.dirOk.self
  rw [hr.lifetime_eq close]
  refine Exists.imp (fun k' h => Result.bind_eq_ok.mpr ⟨s₁,h₁,Result.bind_eq_ok.mpr
    ⟨(heap.copy.page,s₃),h₂,Result.bind_eq_ok.mpr ⟨s₄,h₃,Result.bind_eq_ok.mpr ⟨s₅,h₄,h⟩⟩⟩⟩) ?_
  exact ⟨_,Result.bind_eq_ok.mpr ⟨v,hrel,rfl⟩⟩

/-- The life of a child conserves the frames if and only if every copy is one that the
exit or the release gives back. With enough frames, windows and room it runs to its end. -/
theorem lifetime_conserves_iff (hr : ForkReady k src) (hserves : heap.Serves k.vm src.pageDirectory)
    (hend : k.vm.heapEnd+(heap.pages+growth)*0x1000 ≤ HEAP_END)
    (hlow : k.vm.pmm.bitmapSize ≤ 0x8000 ∨
      heap.pages+growth+(k.vm.usedSlots src.pageDirectory).card ≤ k.vm.pmm.lowFree.card) :
    (∀ k', k.lifetime close src heap growth = .ok k' →
      (Conserved k.vm k'.vm src.pageDirectory ↔ ∀ a, k.vm.UsedSlot src.pageDirectory a →
        Returned k.vm src.pageDirectory (heap.before+heap.copy.growth)
          (k.blockLists src.mmapBlocks).reverse a)) ∧
    (heap.pages+growth+(k.vm.usedSlots src.pageDirectory).card ≤ k.vm.pmm.lowFree.card →
      k.vm.TwoWindows src.pageDirectory → k.vm.HeapRoom src.pageDirectory →
      ∃ k', k.lifetime close src heap growth = .ok k') :=
  ⟨fun _ hret => hr.conserved_iff close hserves hend hlow hret,
    fun hcard htwo hroom => hr.lifetime_returns close hserves hend hcard htwo hroom⟩

end Lifetime

def mappingProcess : Process := ⟨1,0x40001000,0,1,1,false⟩

def mappingKernel (block : MmapBlock) : Kernel where
  vm := pageMachine 256 lowWord
  blockLists name := if name = 0 then [block] else []
  fdArrays _ _ := none
  fdts _ := ⟨0,0⟩
  nodeLinks _ := 0
  processes pid := if pid = 1 then some mappingProcess else none
  nextPid := 2
  nextName := 2

def pageBlock (flags : ℕ) : MmapBlock := ⟨0x40000000,0x40001000,0x1000,0,3,3,MAP_SHARED,flags⟩

def pageReply : ForkHeap := ⟨0,⟨0,4⟩,0⟩

theorem pageBlock_inUser (flags : ℕ) : (pageBlock flags).InUser :=
  ⟨(by decide : 0x40000000%0x1000 = 0),(by decide : 0x40000000+0x1000 ≤ VIRTUAL_BASE)⟩

theorem pageBlock_popped (flags : ℕ) :
    popped [pageBlock flags] (256*1024+0) = some (pageBlock flags) := by
  have hpage : (pageBlock flags).HasPage (256*1024+0) :=
    ⟨(by decide : 0x40000000/0x1000 ≤ 256*1024+0),
      (by decide : 256*1024+0 < 0x40000000/0x1000+0x1000/0x1000)⟩
  rw [popped_cons,if_pos hpage]

section Example

variable (block : MmapBlock)

theorem mappingKernel_ready (hblock : block.InUser) :
    ForkReady (mappingKernel block) mappingProcess := by
  obtain ⟨hready,-,-⟩ :=
    pageMachine_ready (e:=256) lowWord (by decide) lowWord_frames lowWord_firstFree
  refine ⟨rfl,hready,fun b hb => ?_,(by decide : 1 < 2),fun i f hf => (by cases hf),
    fun node hpos => ?_,fun node => (by decide : 0+1 < W32)⟩
  · have hb : b ∈ [block] := hb
    rw [List.mem_singleton.mp hb]
    exact hblock
  · exact absurd hpos (by simp [slotCount,slotNode,mappingKernel,mappingProcess])

theorem mappingKernel_serves : pageReply.Serves (mappingKernel block).vm 1 := by
  obtain ⟨-,hpage,hgrow⟩ :=
    pageMachine_ready (e:=256) lowWord (by decide) lowWord_frames lowWord_firstFree
  intro s₁ s₂ h₁ h₂
  obtain rfl := Except.ok.inj (hgrow.symm.trans h₁)
  obtain rfl := Except.ok.inj (hgrow.symm.trans h₂)
  exact hpage

theorem mappingKernel_slots : ((mappingKernel block).vm.usedSlots 1).card ≤
    (mappingKernel block).vm.pmm.lowFree.card :=
  le_trans (pageMachine_slots_le lowWord) lowWord_card

theorem mappingKernel_card : pageReply.pages+0+((mappingKernel block).vm.usedSlots 1).card ≤
    (mappingKernel block).vm.pmm.lowFree.card := by
  rw [show pageReply.pages+0 = 0 from rfl,Nat.zero_add]
  exact mappingKernel_slots block

theorem mappingKernel_end : (mappingKernel block).vm.heapEnd+(pageReply.pages+0)*0x1000 ≤
    HEAP_END :=
  (by decide : HEAP_START+0*0x1000 ≤ HEAP_END)

theorem mappingKernel_room : (mappingKernel block).vm.HeapRoom 1 := by
  intro m h1 h2
  obtain ⟨h3,h4⟩ := heap_page (m:=m) h1 h2
  exact pageMachine_unmapped lowWord (by decide) h3 h4

end Example

/-- With an anonymous or file-backed block all frames come back. -/
theorem lifetime_conserves_iff_page :
    ∃ k', (mappingKernel (pageBlock 0)).lifetime (fun _ vm =>
      vm) mappingProcess pageReply 0 = .ok k' ∧
      Conserved (mappingKernel (pageBlock 0)).vm k'.vm 1 := by
  have hcard := mappingKernel_card (pageBlock 0)
  obtain ⟨hiff,hreturns⟩ :=
    lifetime_conserves_iff (fun _ vm => vm) (mappingKernel_ready _ (pageBlock_inUser 0))
    (mappingKernel_serves _) (mappingKernel_end _) (.inr hcard)
  obtain ⟨k',hret⟩ :=
    hreturns hcard (pageMachine_windows lowWord (by decide)) (mappingKernel_room _)
  refine ⟨k',hret,(hiff k' hret).mpr fun a ha => ?_⟩
  rcases pageMachine_used lowWord ha with rfl | rfl
  · refine .inr ⟨id,?_⟩
    rw [show pageReply.before+pageReply.copy.growth = 0 from rfl,Nat.zero_add,slotRank]
    exact (Finset.card_filter_le _ _).trans (mappingKernel_slots _)
  · exact .inl ⟨pageBlock 0,pageBlock_popped 0,by decide⟩

/-- The copy of a page of shared memory is unmapped but not freed when the child exits. -/
theorem shared_page_copy_is_lost :
    ∃ k k' : Kernel, ForkReady k mappingProcess ∧ pageReply.Serves k.vm 1 ∧
      k.lifetime (fun _ vm => vm) mappingProcess pageReply 0 = .ok k' ∧
      ¬ Conserved k.vm k'.vm 1 := by
  have hcard := mappingKernel_card (pageBlock MMAP_FLAG_SHM)
  have hend := mappingKernel_end (pageBlock MMAP_FLAG_SHM)
  have hr := mappingKernel_ready _ (pageBlock_inUser MMAP_FLAG_SHM)
  have hserves := mappingKernel_serves (pageBlock MMAP_FLAG_SHM)
  obtain ⟨k',hret⟩ := hr.lifetime_returns (fun _ vm => vm) hserves hend hcard
    (pageMachine_windows lowWord (by decide)) (mappingKernel_room _)
  refine ⟨_,k',hr,hserves,hret,fun hc => ?_⟩
  have hback := (hr.conserved_iff _ hserves hend (.inr hcard) hret).mp hc (256,some 0) (by decide)
  have hpop := pageBlock_popped MMAP_FLAG_SHM
  rcases hback with ⟨block,hb,hshm⟩ | ⟨hgone,-⟩
  · obtain rfl := Option.some.inj (hpop.symm.trans hb)
    exact hshm (by decide)
  · exact hgone (by rw [Gone]; exact congrArg Option.isSome hpop)

end Kernel
end ScalesOS
