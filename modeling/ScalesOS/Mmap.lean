import ScalesOS.Paging

/-!
# Memory mappings of a process

`kernel/src/mem/mmap.c` with the system calls `sys_mmap` and `sys_munmap` of
`kernel/src/int/syscall.c`. Pages of anonymous mappings get frames at once, pages of
file mappings only when they are touched. The list of shared mappings and the writing
back of dirty pages do not concern page tables and frames.
-/

namespace ScalesOS

def PROT_NONE : ℕ := 0
def PROT_READ : ℕ := 1
def PROT_WRITE : ℕ := 2

def MAP_SHARED : ℕ := 1
def MAP_PRIVATE : ℕ := 2
def MAP_FIXED : ℕ := 4
def MAP_ANONYMOUS : ℕ := 8

def MMAP_FLAG_SHM : ℕ := 1

def ENOENT : ℕ := 2
def ENOMEM : ℕ := 12
def EACCES : ℕ := 13
def EINVAL : ℕ := 22

def O_RDONLY : ℕ := 1
def O_WRONLY : ℕ := 2

/-- `end` is a word of Lean. -/
structure MmapBlock where
  start : ℕ
  stop : ℕ
  size : ℕ
  offset : ℕ
  fd : ℤ
  prot : ℕ
  type : ℕ
  flags : ℕ
  deriving DecidableEq, Repr

structure MmapInfo where
  start : ℕ
  mmapBlocks : List MmapBlock
  deriving DecidableEq, Repr

/-- What the memory manager sees of an open file: its mode and, if it is a shared memory
object, the frames of that object. -/
structure OpenFile where
  mode : ℕ
  shm : Option (List ℕ)

/-- The argument block of `sys_mmap`: its address and what is stored there. -/
structure FileArg where
  addr : ℕ
  fd : ℤ
  offset : ℕ

namespace Vm

def kMemMmapGetMapping (info : MmapInfo) (addr : ℕ) : Option MmapBlock :=
  info.mmapBlocks.find? fun block => block.start ≤ addr && addr < block.stop

def pageCount (size : ℕ) : ℕ := if size%0x1000 ≠ 0 then size/0x1000+1 else size/0x1000

/-- The first page of a range that is mapped, counted from `start + offset * 0x1000`. -/
def firstMapped (s : Vm) (start offset pages : ℕ) : Option ℕ :=
  (List.range pages).find? fun i => kMemPagingVirt2phys s ((start+(i+offset)*0x1000)%W32) ≠ 0

/-- The inner `while` of the search: on to a page that is neither mapped nor part of a
block. After as many pages as there are the loop has come round and never ends. -/
def skipTaken (s : Vm) (info : MmapInfo) (start offset : ℕ) : ℕ → ℕ → Result ℕ
  | 0, _ => throw .loop
  | fuel+1, i =>
    let addr := (start+(i+offset)*0x1000)%W32
    if kMemPagingVirt2phys s addr ≠ 0 ∨ (kMemMmapGetMapping info addr).isSome then
      skipTaken s info start offset fuel (i+1)
    else pure i

/-- The search of `k_mem_mmap_allocate_block` from `info->start`, and after `loop` from
`LOWMEM_START`. The result is `start_addr`; there are no more rounds than values of the
three variables. -/
def searchBlock (s : Vm) (info : MmapInfo) (pages : ℕ) : ℕ → ℕ → ℕ → Bool → Result ℕ
  | 0, _, _, _ => throw .loop
  | fuel+1, start, offset, loop =>
    match s.firstMapped start offset pages with
    | none => pure ((start+0x1000*offset)%W32)
    | some i => do
      let offset ← skipTaken s info start offset 0x100001 i
      if USER_STACK_END ≤ (start+offset*0x1000)%W32 then
        if loop then pure ((start+0x1000*offset)%W32)
        else searchBlock s info pages fuel LOWMEM_START 0 true
      else searchBlock s info pages fuel start offset loop

/-- The choice of the address and the new `info->start`; `none` is the `NULL` of the
source. -/
def placeBlock (s : Vm) (info : MmapInfo) (start pages flags : ℕ) : Result (Option (ℕ × ℕ)) :=
  if flags &&& MAP_FIXED ≠ 0 then
    if start = 0 then pure none
    else if start%0x1000 ≠ 0 then pure none
    else if USER_STACK_END ≤ (start+pages*0x1000)%W32 then pure none
    else if (s.firstMapped start 0 pages).isSome then pure none
    else pure (some (start,info.start))
  else do
    let start ← s.searchBlock info pages (2*W32) info.start 0 false
    if USER_STACK_END ≤ (start+pages*0x1000)%W32 then pure none
    else pure (some (start,(start+pages*0x1000)%W32))

def protFlags (prot : ℕ) : ℕ :=
  if prot &&& PROT_WRITE ≠ 0 then PAGE_PRESENT ||| PAGE_USER ||| PAGE_WRITABLE
  else PAGE_PRESENT ||| PAGE_USER

def mapAnonymous (s : Vm) (start pages prot flags : ℕ) : Result Vm :=
  if flags &&& MAP_ANONYMOUS ≠ 0 then kMemPagingMapRegion s start 0 pages (protFlags prot) false
  else pure s

def kMemMmapAllocateBlock (s : Vm) (info : MmapInfo) (start size prot flags growth : ℕ) :
    Result (Option MmapBlock × Vm × MmapInfo) := do
  let pages := pageCount size
  match ← s.placeBlock info start pages flags with
  | none => pure (none,s,info)
  | some (startAddr,next) =>
    let s ← mapAnonymous s startAddr pages prot flags
    let s ← growHeap s growth
    let block : MmapBlock := {
      start := startAddr
      stop := (startAddr+pages*0x1000)%W32
      size := pages*0x1000%W32
      offset := 0
      fd := 0
      prot := prot
      type := flags
      flags := 0 }
    pure (some block,s,⟨next,info.mmapBlocks++[block]⟩)

def unmapBlock (s : Vm) (block : MmapBlock) : Vm :=
  if block.flags &&& MMAP_FLAG_SHM ≠ 0 then
    kMemPagingUnmapRegion s block.start (block.size/0x1000)
  else kMemPagingUnmapAndFreeRegion s block.start (block.size/0x1000)

/-- `blocks` is the list without the block. -/
def kMemMmapFreeBlock (s : Vm) (blocks : List MmapBlock) (block : MmapBlock) : Vm × MmapInfo :=
  (s.unmapBlock block,⟨block.start,blocks⟩)

/-- The loop at the end of a process: `list_pop_back` and `k_mem_mmap_free_block` until the
list is empty. The blocks come in the order in which they are popped. -/
def popBlocks (s : Vm) (info : MmapInfo) : List MmapBlock → Vm × MmapInfo
  | [] => (s,info)
  | block::rest =>
    let (s,info) := s.kMemMmapFreeBlock rest.reverse block
    popBlocks s info rest

/-- `-error` as the result of a system call. -/
def failed (error : ℕ) : ℕ := W32-error

def mapShared (start flags : ℕ) : ℕ → List ℕ → Vm → Result Vm
  | _, [], s => pure s
  | i, frame::frames, s => do
    let s ← kMemPagingMap s ((start+i*0x1000)%W32) frame flags
    mapShared start flags (i+1) frames s

/-- `mode & O_RDWR` without brackets around the macro. -/
def modeAndRdwr (mode : ℕ) : ℕ := (mode &&& O_RDONLY) ||| O_WRONLY

def sysMmap (s : Vm) (info : MmapInfo) (start length prot flags : ℕ) (arg : FileArg)
    (fd2fdt : ℤ → Option OpenFile) (growth : ℕ) : Result (ℕ × Vm × MmapInfo) :=
  if flags = MAP_ANONYMOUS then do
    let (block,s,info) ← s.kMemMmapAllocateBlock info start length prot flags growth
    match block with
    | none => pure (failed ENOMEM,s,info)
    | some block => pure (block.start,s,info)
  else if kMemPagingVirt2phys s arg.addr = 0 then pure (failed EINVAL,s,info)
  else
    match fd2fdt arg.fd with
    | none => pure (failed ENOENT,s,info)
    | some file =>
      if flags &&& MAP_SHARED ≠ 0 ∧ modeAndRdwr file.mode = 0 then pure (failed EACCES,s,info)
      else do
        let (block,s,info) ← s.kMemMmapAllocateBlock info start length prot flags growth
        match block with
        | none => pure (failed ENOMEM,s,info)
        | some block =>
          let block := { block with offset := arg.offset, fd := arg.fd }
          match file.shm with
          | none => pure (block.start,s,⟨info.start,info.mmapBlocks.dropLast++[block]⟩)
          | some frames =>
            let block := { block with flags := block.flags ||| MMAP_FLAG_SHM }
            -- the size of the block is in bytes, the number of frames in pages
            let l := min block.size frames.length
            let s ← mapShared block.start (protFlags prot) 0 (frames.take l) s
            pure (block.start,s,⟨info.start,info.mmapBlocks.dropLast++[block]⟩)

def sysMunmap (s : Vm) (info : MmapInfo) (start : ℕ) : ℕ × Vm × MmapInfo :=
  match kMemMmapGetMapping info start with
  | none => (failed EINVAL,s,info)
  | some block => (0,s.kMemMmapFreeBlock (info.mmapBlocks.erase block) block)

/-- `read` is the page after a successful read of the file. -/
def kMemMmapHandlePagefault (s : Vm) (info : MmapInfo) (address code : ℕ)
    (fd2fdt : ℤ → Option OpenFile) (read : Option (ℕ → ℕ)) : Result (ℕ × Vm) :=
  match kMemMmapGetMapping info address with
  | none => pure (1,s)
  | some block =>
    if block.prot = PROT_NONE then pure (2,s)
    else if block.prot &&& PROT_READ = 0 ∧ code &&& 2 = 0 then pure (3,s)
    else if block.prot &&& PROT_WRITE = 0 ∧ code &&& 2 ≠ 0 then pure (4,s)
    else if block.type &&& (MAP_PRIVATE ||| MAP_SHARED) = 0 then pure (5,s)
    else if (fd2fdt block.fd).isNone then pure (6,s)
    else
      let page := address/0x1000*0x1000
      if kMemPagingVirt2phys s page ≠ 0 then pure (7,s)
      else do
        let s ← kMemPagingMap s page 0 (protFlags block.prot)
        pure (0,s.setPage (s.frameAt page) (read.getD fun _ => 0))

end Vm
end ScalesOS
