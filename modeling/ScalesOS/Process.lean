import ScalesOS.Mmap

/-!
# Processes

`k_proc_process_fork`, `k_proc_process_clone`, `k_proc_process_exit` and
`k_proc_process_destroy` of `kernel/src/proc/process.c`, as far as they deal with address
spaces, mappings and open files. Records in the kernel heap that processes share by
pointer (block lists, descriptor arrays, descriptors) are named by numbers; every new
record gets an unused one. What a file system does when its node is closed is a function
pointer in the source and a parameter here.
-/

namespace ScalesOS

def CLONE_FILES : ℕ := 16
def CLONE_VM : ℕ := 1024

structure Fdt where
  node : ℕ
  links : ℕ

structure Process where
  pageDirectory : ℕ
  mmapStart : ℕ
  /-- the list that `mmap_info.mmap_blocks` points to -/
  mmapBlocks : ℕ
  /-- the array that `fds.nodes` points to -/
  fdNodes : ℕ
  fdSize : ℕ
  finished : Bool

structure Kernel where
  vm : Vm
  blockLists : ℕ → List MmapBlock
  fdArrays : ℕ → ℕ → Option ℕ
  fdts : ℕ → Fdt
  nodeLinks : ℕ → ℕ
  processes : ℕ → Option Process
  nextPid : ℕ
  nextName : ℕ

/-- What the kernel heap answers during a fork or a clone: the growth for the records
before the directory is copied, the page of the new directory, the growth after it. -/
structure ForkHeap where
  before : ℕ
  copy : Vm.HeapReply
  after : ℕ

namespace Kernel

def switchTo (k : Kernel) (directory : ℕ) : Kernel :=
  { k with vm := k.vm.kMemPagingSetPageDirectory directory }

def setSlot (k : Kernel) (array i : ℕ) (fdt : Option ℕ) : Kernel :=
  { k with fdArrays := Function.update k.fdArrays array (Function.update (k.fdArrays array) i fdt) }

def setFdt (k : Kernel) (name : ℕ) (fdt : Fdt) : Kernel :=
  { k with fdts := Function.update k.fdts name fdt }

def setLinks (k : Kernel) (node links : ℕ) : Kernel :=
  { k with nodeLinks := Function.update k.nodeLinks node links }

def setProcess (k : Kernel) (pid : ℕ) (p : Option Process) : Kernel :=
  { k with processes := Function.update k.processes pid p }

def setBlocks (k : Kernel) (name : ℕ) (blocks : List MmapBlock) : Kernel :=
  { k with blockLists := Function.update k.blockLists name blocks }

def copyFd (src dst i : ℕ) (k : Kernel) : Kernel :=
  match k.fdArrays src i with
  | none => k.setSlot dst i none
  | some fdt =>
    let node := (k.fdts fdt).node
    let k := (k.setSlot dst i (some k.nextName)).setFdt k.nextName ⟨node,1⟩
    { k.setLinks node ((k.nodeLinks node+1)%W32) with nextName := k.nextName+1 }

def copyFds (src dst : ℕ) : ℕ → Kernel → Kernel
  | 0, k => k
  | n+1, k => copyFd src dst n (copyFds src dst n k)

def kFsVfsClose (close : ℕ → Vm → Vm) (k : Kernel) (node : ℕ) : Kernel :=
  let links := (k.nodeLinks node+W32-1)%W32
  let k := k.setLinks node links
  if links = 0 then { k with vm := close node k.vm } else k

/-- `k_proc_process_close_fd` on an open descriptor. -/
def kProcProcessCloseFd (close : ℕ → Vm → Vm) (k : Kernel) (array fd fdt : ℕ) : Kernel :=
  let k := kFsVfsClose close k (k.fdts fdt).node
  let k := k.setFdt fdt ⟨(k.fdts fdt).node,((k.fdts fdt).links+W32-1)%W32⟩
  k.setSlot array fd none

def closeFds (close : ℕ → Vm → Vm) (array : ℕ) : ℕ → Kernel → Kernel
  | 0, k => k
  | n+1, k =>
    let k := closeFds close array n k
    match k.fdArrays array n with
    | none => k
    | some fdt => kProcProcessCloseFd close k array n fdt

/-- The part for the address space: without `CLONE_VM` the new process gets a copy of the
directory and of the block list. -/
def cloneVm (k : Kernel) (new : Process) (flags : ℕ) (reply : Vm.HeapReply) :
    Result (Process × Kernel) :=
  if flags &&& CLONE_VM = 0 then do
    let (directory,vm) ← k.vm.kMemPagingClonePageDirectory new.pageDirectory reply
    let k := { k with vm := vm }
    pure ({ new with pageDirectory := directory, mmapBlocks := k.nextName },
      { k.setBlocks k.nextName (k.blockLists new.mmapBlocks) with nextName := k.nextName+1 })
  else pure (new,k)

/-- The part for open files: without `CLONE_FILES` the new process gets its own array. -/
def cloneFiles (k : Kernel) (new : Process) (flags : ℕ) : Process × Kernel :=
  if flags &&& CLONE_FILES = 0 then
    let array := k.nextName
    ({ new with fdNodes := array },
      copyFds new.fdNodes array new.fdSize { k with nextName := array+1 })
  else (new,k)

def kProcProcessClone (k : Kernel) (src : Process) (flags : ℕ) (heap : ForkHeap) :
    Result (ℕ × Kernel) := do
  let vm ← k.vm.growHeap heap.before
  let pid := k.nextPid
  let (new,k) ← cloneVm { k with vm := vm, nextPid := pid+1 }
    { src with finished := false } flags heap.copy
  let vm ← k.vm.growHeap heap.after
  let (new,k) := cloneFiles { k with vm := vm } new flags
  pure (pid,k.setProcess pid (some new))

def kProcProcessFork (k : Kernel) (src : Process) (heap : ForkHeap) : Result (ℕ × Kernel) :=
  kProcProcessClone k src 0 heap

/-- `k_proc_process_exit`, which runs in the address space of the process. Waking the
parent may need memory from the kernel heap. -/
def kProcProcessExit (close : ℕ → Vm → Vm) (k : Kernel) (pid : ℕ) (p : Process) (growth : ℕ) :
    Result Kernel := do
  let k := closeFds close p.fdNodes p.fdSize k
  let (vm,info) :=
    k.vm.popBlocks ⟨p.mmapStart,k.blockLists p.mmapBlocks⟩ (k.blockLists p.mmapBlocks).reverse
  let k := (k.setProcess pid (some { p with mmapStart := info.start, finished := true })).setBlocks
    p.mmapBlocks info.mmapBlocks
  let vm ← vm.growHeap growth
  pure { k with vm := vm }

def kProcProcessDestroy (k : Kernel) (pid : ℕ) (p : Process) : Result Kernel := do
  let k := (k.setBlocks p.mmapBlocks []).setProcess pid none
  let vm ← k.vm.kMemPagingReleaseDirectory p.pageDirectory
  pure { k with vm := vm }

end Kernel
end ScalesOS
