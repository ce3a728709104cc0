import ScalesOS.Pmm

/-!
# Page tables

`kernel/src/mem/paging.c` and the `k_map` windows of `kernel/src/mem/memory.c`.
Physical memory is a word array per 4 KiB frame; a frame is named by its number. The
kernel's pointer to a page directory and the register that holds its physical address
are both the frame of the directory, so the kernel's own mapping of that page is not
part of the model. Page tables are reached through the recursive slot, and every
access walks the tables: there is no TLB.
-/

namespace ScalesOS

namespace Entry

def present (w : ℕ) : Bool := w%2 == 1
/-- The `size` bit: the directory entry maps 4 MiB. -/
def large (w : ℕ) : Bool := w/0x80%2 == 1
def page (w : ℕ) : ℕ := w/0x1000%0x100000

end Entry

open Entry

def PAGE_PRESENT : ℕ := 1
def PAGE_WRITABLE : ℕ := 2
def PAGE_USER : ℕ := 4

def PDE (addr : ℕ) : ℕ := addr/0x400000
def PTE (addr : ℕ) : ℕ := addr/0x1000%0x400
def ADDR (pd pt : ℕ) : ℕ := pd*0x400000+pt*0x1000

/-- The `%.8x` conversion. -/
def fmtX8 (x : ℕ) : String :=
  let digits := Nat.toDigits 16 x
  String.ofList (List.replicate (8-digits.length) '0'++digits)

structure Vm where
  pmm : Pmm
  phys : ℕ → ℕ → ℕ
  directory : ℕ
  firstFreeAddress : ℕ
  heapEnd : ℕ

namespace Vm

open Pmm

def setWord (s : Vm) (frame i w : ℕ) : Vm :=
  { s with phys := fun f j => if f = frame ∧ j = i then w else s.phys f j }

def setPage (s : Vm) (frame : ℕ) (words : ℕ → ℕ) : Vm :=
  { s with phys := fun f => if f = frame then words else s.phys f }

def pde (s : Vm) (i : ℕ) : ℕ := s.phys s.directory i

/-- The frame behind `PT_PTR(i)`: the recursive slot makes the directory its own page
table, whose entry `i` is then the page. -/
def ptFrame (s : Vm) (i : ℕ) : ℕ := page (s.phys (page (s.phys s.directory 1023)) i)

def pte (s : Vm) (i j : ℕ) : ℕ := s.phys (s.ptFrame i) j

def kMemPagingVirt2phys (s : Vm) (vaddr : ℕ) : ℕ :=
  let pde := s.pde (PDE vaddr)
  if !present pde then 0
  else if large pde then
    ((((pde &&& 0xFFC00000) <<< 8)%W32 ||| (pde &&& 0x1FE000))+
      ((vaddr%0x400000) &&& 0xFFFFF000)+vaddr%0x1000)%W32
  else
    let pte := s.pte (PDE vaddr) (PTE vaddr)
    if present pte then page pte*0x1000+vaddr%0x1000 else 0

def kMemPagingSetPageDirectory (s : Vm) (directory : ℕ) : Vm := { s with directory := directory }

def kMemPagingUnmap (s : Vm) (vaddr : ℕ) : Vm :=
  if !present (s.pde (PDE vaddr)) then s
  else s.setWord (s.ptFrame (PDE vaddr)) (PTE vaddr) 0

def kMemPagingUnmapAndFree (s : Vm) (vaddr : ℕ) : Vm :=
  if !present (s.pde (PDE vaddr)) then s
  else
    let frame := page (s.pte (PDE vaddr) (PTE vaddr))*0x1000
    let s := s.setWord (s.ptFrame (PDE vaddr)) (PTE vaddr) 0
    if frame = 0 then s else { s with pmm := kMemPmmFree s.pmm frame 1 }

/-- The part of `k_mem_paging_map` that installs a page table where there is none and
clears it through the recursive slot. -/
def installTable (s : Vm) (pdIndex flags : ℕ) : Result Vm := do
  let r ← kMemPmmAllocFrames s.pmm 1
  if r.1 = 0 then throw (.panic "Out of memory. Failed to allocate page table.")
  let fl := if flags &&& PAGE_USER ≠ 0 then PAGE_PRESENT ||| PAGE_WRITABLE ||| PAGE_USER
    else PAGE_PRESENT ||| PAGE_WRITABLE
  let s := { s with pmm := r.2 }
  let s := s.setWord s.directory pdIndex ((r.1 ||| fl)%W32)
  pure (s.setPage (s.ptFrame pdIndex) fun _ => 0)

def kMemPagingMap (s : Vm) (vaddr paddr flags : ℕ) : Result Vm := do
  let flags := if flags = 0 then PAGE_PRESENT ||| PAGE_WRITABLE else flags
  let s ← if present (s.pde (PDE vaddr)) then pure s else installTable s (PDE vaddr) flags
  if present (s.pte (PDE vaddr) (PTE vaddr)) then throw (.panic ("Remapping 0x" ++ fmtX8 vaddr))
  let r ← if paddr = 0 then kMemPmmAllocFrames s.pmm 1 else pure (paddr,s.pmm)
  let s := { s with pmm := r.2 }
  pure (s.setWord (s.ptFrame (PDE vaddr)) (PTE vaddr) (r.1%W32 ||| flags))

/-- `if (!k_mem_pmm_is_allocated(frame)) k_mem_pmm_set_allocated(frame)`. -/
def claimFrame (s : Vm) (frame : ℕ) : Vm :=
  if kMemPmmIsAllocated s.pmm frame then s
  else { s with pmm := kMemPmmSetAllocated s.pmm frame }

/-- The loop of a contiguous `k_mem_paging_map_region`. -/
def mapContiguous (flags : ℕ) : ℕ → ℕ → ℕ → Vm → Result Vm
  | 0, _, _, s => pure s
  | n+1, vaddr, frame, s => do
    let s ← kMemPagingMap (s.claimFrame frame) vaddr frame flags
    mapContiguous flags n ((vaddr+0x1000)%W32) ((frame+0x1000)%W32) s

/-- The other loop: every page has a frame of its own, fresh ones where `paddr` is 0. -/
def mapScattered (paddr flags : ℕ) : ℕ → ℕ → ℕ → Vm → Result Vm
  | 0, _, _, s => pure s
  | n+1, i, vaddr, s => do
    let r ← if paddr = 0 then kMemPmmAllocFrames s.pmm 1 else pure ((paddr+0x1000*i)%W32,s.pmm)
    let frame := r.1%W32
    let s ← kMemPagingMap (claimFrame { s with pmm := r.2 } frame) vaddr frame flags
    mapScattered paddr flags n (i+1) ((vaddr+0x1000)%W32) s

def kMemPagingMapRegion (s : Vm) (vaddr paddr size flags : ℕ) (contigous : Bool) : Result Vm :=
  if contigous then do
    let r ← if paddr = 0 then kMemPmmAllocFrames s.pmm size else pure (paddr,s.pmm)
    mapContiguous flags size vaddr (r.1%W32) { s with pmm := r.2 }
  else mapScattered paddr flags size 0 vaddr s

def kMemPagingUnmapRegion (s : Vm) (vaddr : ℕ) : ℕ → Vm
  | 0 => s
  | n+1 => kMemPagingUnmap (kMemPagingUnmapRegion s vaddr n) ((vaddr+n*0x1000)%W32)

def kMemPagingUnmapAndFreeRegion (s : Vm) (vaddr : ℕ) : ℕ → Vm
  | 0 => s
  | n+1 => kMemPagingUnmapAndFree (kMemPagingUnmapAndFreeRegion s vaddr n) ((vaddr+n*0x1000)%W32)

/-- `while (k_mem_paging_virt2phys(start_addr + (i + offset) * 0x1000)) i++`. After as
many mapped pages as there are addresses, the loop has come round and never ends. -/
def skipMapped (s : Vm) (start offset : ℕ) : ℕ → ℕ → Result ℕ
  | 0, _ => throw .loop
  | fuel+1, i =>
    if kMemPagingVirt2phys s ((start+(i+offset)*0x1000)%W32) ≠ 0 then
      skipMapped s start offset fuel (i+1)
    else pure i

/-- The search loop of `k_map`. It keeps no state besides the offset. -/
def searchWindow (s : Vm) (start size : ℕ) : ℕ → ℕ → Result ℕ
  | 0, _ => throw .loop
  | fuel+1, offset =>
    match (List.range size).find? fun i =>
        kMemPagingVirt2phys s ((start+(i+offset)*0x1000)%W32) ≠ 0 with
    | none => pure offset
    | some i => do
      let offset ← skipMapped s start offset 0x100001 i
      if LOWMEM_END ≤ (start+offset*0x1000)%W32 then pure offset
      else searchWindow s start size fuel offset

def kMap (s : Vm) (frame size flags : ℕ) : Result (ℕ × Vm) := do
  let offset ← searchWindow s s.firstFreeAddress size W32 0
  if LOWMEM_END < (s.firstFreeAddress+(offset+size)*0x1000)%W32 then
    throw (.panic "k_map(): failed to find free address.")
  let start := (s.firstFreeAddress+0x1000*offset)%W32
  let s := { s with firstFreeAddress := (start+size*0x1000)%W32 }
  let s ← kMemPagingMapRegion s start frame size flags true
  pure (start,s)

def kUnmap (s : Vm) (addr size : ℕ) : Vm :=
  if LOWMEM_START ≤ addr ∧ (addr+size*0x1000)%W32 ≤ LOWMEM_END then
    let s := kMemPagingUnmapRegion s addr size
    { s with firstFreeAddress := if addr < s.firstFreeAddress then addr else s.firstFreeAddress }
  else s

/-- The first directory entry of the kernel half, `PDE(VIRTUAL_BASE)`. -/
def KERNEL_PD : ℕ := 768

/-- How the kernel heap answers a request for a page: the pages it has to grow by, and
the frame behind the page it returns. -/
structure HeapReply where
  growth : ℕ
  page : ℕ

/-- Any allocation from the kernel heap, as far as page tables and frames see it. -/
def growHeap (s : Vm) (pages : ℕ) : Result Vm := do
  let s ← kMemPagingMapRegion s s.heapEnd 0 pages (PAGE_PRESENT ||| PAGE_WRITABLE) false
  pure { s with heapEnd := s.heapEnd+pages*0x1000 }

def frameAt (s : Vm) (vaddr : ℕ) : ℕ := kMemPagingVirt2phys s vaddr/0x1000

/-- The body of the inner loop of the clone: page `j` of table `i`, where `copyPt` is
the window on the new table. -/
def copyPage (i copyPt j : ℕ) (s : Vm) : Result Vm :=
  if present (s.pte i j) then do
    let r ← kMemPmmAllocFrames s.pmm 1
    let frame := r.1%W32
    let (page,s) ← kMap { s with pmm := r.2 } frame 1 (PAGE_PRESENT ||| PAGE_WRITABLE)
    let s := s.setWord (s.frameAt copyPt) j (frame ||| (s.pte i j &&& 0xFFF))
    let s := s.setPage (s.frameAt page) (s.phys (s.frameAt (ADDR i j)))
    pure (s.kUnmap page 1)
  else pure s

/-- The loops of the clone and the release run over `n` indices from 0 on. -/
def forLoop (body : ℕ → Vm → Result Vm) : ℕ → Vm → Result Vm
  | 0, s => pure s
  | n+1, s => do
    let s ← forLoop body n s
    body n s

def copyTable (src copy i : ℕ) (s : Vm) : Result Vm :=
  if present (s.phys src i) then do
    let r ← kMemPmmAllocFrames s.pmm 1
    let frame := r.1%W32
    let (copyPt,s) ← kMap { s with pmm := r.2 } frame 1 (PAGE_PRESENT ||| PAGE_WRITABLE)
    let s := s.setWord copy i (frame ||| (s.phys src i &&& 0xFFF))
    let s := s.setPage (s.frameAt copyPt) fun _ => 0
    let s ← forLoop (copyPage i copyPt) 1024 s
    pure (s.kUnmap copyPt 1)
  else pure s

def kMemPagingClonePageDirectory (s : Vm) (src : ℕ) (reply : HeapReply) : Result (ℕ × Vm) := do
  let s ← growHeap s reply.growth
  let copy := reply.page
  let s := s.setPage copy (s.phys src)
  let s := s.setWord copy 1023 (copy*0x1000 ||| (PAGE_PRESENT ||| PAGE_WRITABLE))
  let prev := s.directory
  let s := s.kMemPagingSetPageDirectory src
  let s ← forLoop (copyTable src copy) KERNEL_PD s
  pure (copy,s.kMemPagingSetPageDirectory prev)

/-- `entry.data.page * 0x1000` as an argument of type `pmm_frame_t`: the bit-field is
promoted to a signed `int`, so a product from 2 GiB on is sign-extended. -/
def entryFrame (w : ℕ) : ℕ :=
  if page w*0x1000 < 0x80000000 then page w*0x1000 else W64-W32+page w*0x1000

def releasePage (i j : ℕ) (s : Vm) : Result Vm :=
  if present (s.pte i j) then pure { s with pmm := kMemPmmFree s.pmm (entryFrame (s.pte i j)) 1 }
  else pure s

def releaseTable (src i : ℕ) (s : Vm) : Result Vm :=
  if present (s.phys src i) then do
    let s ← forLoop (releasePage i) 1024 s
    pure { s with pmm := kMemPmmFree s.pmm (entryFrame (s.phys src i)) 1 }
  else pure s

def kMemPagingReleaseDirectory (s : Vm) (src : ℕ) : Result Vm := do
  let prev := s.directory
  let s ← forLoop (releaseTable src) KERNEL_PD (s.kMemPagingSetPageDirectory src)
  pure (s.kMemPagingSetPageDirectory prev)

end Vm
end ScalesOS
