import ScalesOS.ByteMemory
import ScalesOS.Machine

/-!
# The kernel heap

The `__LIBK` build of `libc/src/stdlib/alloc.c`. Headers are nine packed bytes in
the heap's own memory: size, flags and the address of the next block. The test for
a valid block is also the test for the end of the list. Walks that would visit more
headers than fit in the heap are reported as `Fault.loop`.
-/

namespace ScalesOS

open ByteMemory

/-- `k_mem_paging_map_region` as the heap uses it: it either returns, and then the
requested pages exist below the recursive page-table window, or it panics with the
given reason. -/
structure PageMapper where
  mapRegion : ℕ → ℕ → Except String Unit
  below : ∀ addr pages, mapRegion addr pages = .ok () → addr+pages*0x1000 ≤ USABLE_MEMORY_END

structure Heap where
  mem : Mem
  heapSize : ℕ
  allocated : ℕ
  freed : ℕ

namespace Heap

/-- `sizeof(mem_block_t)`. -/
def HEADER : ℕ := 9

def M_BLOCK_FREE : BitVec 8 := 1#8

def size (h : Heap) (block : ℕ) : ℕ := read32 h.mem block
def flags (h : Heap) (block : ℕ) : BitVec 8 := h.mem (block+4)
def next (h : Heap) (block : ℕ) : ℕ := read32 h.mem (block+5)
def isFree (h : Heap) (block : ℕ) : Bool := h.flags block &&& M_BLOCK_FREE != 0#8

def setSize (h : Heap) (block v : ℕ) : Heap := { h with mem := write32 h.mem block v }
def setFlags (h : Heap) (block : ℕ) (v : BitVec 8) : Heap :=
  { h with mem := Function.update h.mem (block+4) v }
def setNext (h : Heap) (block v : ℕ) : Heap := { h with mem := write32 h.mem (block+5) v }

def M_MEMORY (block : ℕ) : ℕ := (block+HEADER)%W32
def M_HEADER (addr : ℕ) : ℕ := (addr+W32-HEADER)%W32

def memHeapEnd (h : Heap) : ℕ := (HEAP_START+h.heapSize)%W32

def memHeapIsValidBlock (h : Heap) (block : ℕ) : Bool :=
  decide (HEAP_START ≤ block ∧ block ≤ h.memHeapEnd ∧ h.size block ≠ 0 ∧
    (block+HEADER+h.size block)%W32 ≤ h.memHeapEnd)

def memHeapInitBlock (h : Heap) (block size : ℕ) : Result Heap :=
  if size = 0 then throw (.panic "Tried to initialize zero-size block. Kmalloc failure.")
  else pure (((h.setSize block size).setFlags block M_BLOCK_FREE).setNext block 0)

/-- The state after boot: one free block over the initial pages. -/
def heapInit (memory : Mem) : Result Heap :=
  memHeapInitBlock ⟨memory,HEAP_INITIAL_SIZE,0,0⟩ HEAP_START (HEAP_INITIAL_SIZE-HEADER)

def memGrowHeap (pm : PageMapper) (h : Heap) (pages : ℕ) : Result ℕ :=
  if pages = 0 then pure HEAP_START
  else
    let addr := (HEAP_START+h.heapSize)%W32
    if HEAP_END < (addr+pages*0x1000)%W32 then pure 0
    else match pm.mapRegion addr pages with
      | .ok _ => pure addr
      | .error reason => throw (.panic reason)

/-- The return code of `__mem_split_block` and the heap it leaves. -/
def memSplitBlock (h : Heap) (src size : ℕ) : Result (ℕ × Heap) :=
  if !h.memHeapIsValidBlock src then pure (1,h)
  else if h.size src < size then pure (2,h)
  else if h.size src < (size+HEADER+1)%W32 then pure (0,h)
  else do
    let diff := h.size src-size
    let splitted := (M_MEMORY src+size)%W32
    let h ← h.memHeapInitBlock splitted ((diff+W32-HEADER)%W32)
    let h := h.setNext splitted (h.next src)
    let h := h.setNext src splitted
    pure (0,h.setSize src size)

/-- The loop of `__mem_merge` from block `src` on. -/
def memMergeLoop : ℕ → ℕ → Heap → Result Heap
  | 0, _, _ => throw .loop
  | fuel+1, src, h =>
    if h.memHeapIsValidBlock src then
      let next := h.next src
      let h :=
        if h.isFree src && h.memHeapIsValidBlock next && h.isFree next &&
            decide (next = (M_MEMORY src+h.size src)%W32) then
          let h := h.setSize src ((h.size src+(HEADER+h.size next))%W32)
          h.setNext src (h.next next)
        else h
      memMergeLoop fuel (h.next src) h
    else pure h

def memMerge (h : Heap) : Result Heap := memMergeLoop (h.heapSize+1) HEAP_START h

/-- The search loop of `malloc`: the block where it stops and the last valid one. -/
def mallocSearch (h : Heap) (size : ℕ) : ℕ → ℕ → ℕ → Result (ℕ × ℕ)
  | 0, _, _ => throw .loop
  | fuel+1, block, last =>
    if h.memHeapIsValidBlock block && (!h.isFree block || (decide (h.size block < size) ||
        decide (size < h.size block ∧ h.size block < (size+HEADER+1)%W32))) then
      mallocSearch h size fuel (h.next block) block
    else pure (block,last)

/-- The branch of `malloc` that appends fresh pages as one block. -/
def mallocGrow (pm : PageMapper) (h : Heap) (size last : ℕ) : Result (ℕ × Heap) := do
  let grow := (size+HEADER+1)%W32/0x1000+1
  let block ← memGrowHeap pm h grow
  if block = 0 then throw (.panic "alloc(): out of memory.")
  let h := { h with heapSize := (h.heapSize+grow*0x1000)%W32 }
  let h ← h.memHeapInitBlock block ((grow*0x1000+W32-HEADER)%W32)
  pure (block,h.setNext last block)

/-- The tail of `malloc`: split the chosen block where it is too long and take it. -/
def mallocTake (h : Heap) (size block : ℕ) : Result (ℕ × Heap) := do
  let r ← if h.size block ≠ size then h.memSplitBlock block size else pure (0,h)
  if r.1 ≠ 0 then throw (.panic "Block split failed. Kmalloc failure.")
  let h := r.2.setFlags block (r.2.flags block &&& ~~~M_BLOCK_FREE)
  pure (M_MEMORY block,{ h with allocated := (h.allocated+size)%W32 })

def malloc (pm : PageMapper) (h : Heap) (size : ℕ) : Result (ℕ × Heap) := do
  let found ← mallocSearch h size (h.heapSize+1) HEAP_START HEAP_START
  let r ← if h.memHeapIsValidBlock found.1 then pure (found.1,h)
    else mallocGrow pm h size found.2
  mallocTake r.2 size r.1

/-- Invalid pointers are only reported. -/
def free (h : Heap) (ptr : ℕ) : Result Heap :=
  let header := M_HEADER ptr
  if !h.memHeapIsValidBlock header || h.isFree header then pure h
  else
    let h := h.setFlags header (h.flags header ||| M_BLOCK_FREE)
    memMerge { h with freed := (h.freed+h.size header)%W32 }

def realloc (pm : PageMapper) (h : Heap) (old size : ℕ) : Result (ℕ × Heap) :=
  let hdr := M_HEADER old
  if h.size hdr = size then pure (old,h)
  else do
    let r ← malloc pm h size
    let copySize := if r.2.size hdr < size then r.2.size hdr else size
    let h ← free { r.2 with mem := copy r.2.mem r.1 old copySize } old
    pure (r.1,h)

end Heap
end ScalesOS
