import ScalesOS.BlockRelease
import ScalesOS.DescriptorTable

/-!
# Shared memory objects

`kernel/src/mem/shm.c` under the calls that reach it: `k_fs_vfs_open`, `k_fs_vfs_close`,
`k_fs_vfs_truncate`, and `sys_mmap` and `sys_munmap` on such a file. Every open makes a node
with a size of its own, frames and links belong to the object. Next to every block stand
the frames that `sys_mmap` has mapped for it.
-/

namespace ScalesOS

/-- `shm_node_t`. -/
structure ShmNode where
  name : String
  frames : List ℕ
  links : ℤ

/-- An open descriptor and what its node says. -/
structure ShmFile where
  process : ℕ
  fd : ℤ
  /-- the `shm_node_t` that `node->device` points to -/
  device : ℕ
  size : BitVec 32
  mode : ℕ

structure SharedMemory where
  vm : Vm
  directories : ℕ → ℕ
  mmapStart : ℕ → ℕ
  blocks : ℕ → List (MmapBlock × List ℕ)
  nodes : ℕ → Option ShmNode
  /-- the list at `root->device`, whose members are those of `__shm_mappings` -/
  root : List ℕ
  files : List ShmFile
  nextNode : ℕ

namespace SharedMemory

open Pmm

def setNode (s : SharedMemory) (device : ℕ) (node : Option ShmNode) : SharedMemory :=
  { s with nodes := Function.update s.nodes device node }

def setVm (s : SharedMemory) (vm : Vm) : SharedMemory := { s with vm := vm }

def enter (s : SharedMemory) (p : ℕ) : SharedMemory :=
  s.setVm (s.vm.kMemPagingSetPageDirectory (s.directories p))

def mmapInfo (s : SharedMemory) (p : ℕ) : MmapInfo := ⟨s.mmapStart p,(s.blocks p).map Prod.fst⟩

/-- The list that `frames` of an object points to. -/
def framesAt (s : SharedMemory) (device : ℕ) : Option (List ℕ) :=
  (s.nodes device).map ShmNode.frames

def findFile (s : SharedMemory) (p : ℕ) (fd : ℤ) : Option ShmFile :=
  s.files.find? fun file => file.process == p && file.fd == fd

def kMemShmFinddir (s : SharedMemory) (path : String) : Option ℕ :=
  s.root.find? fun device => (s.nodes device).any fun node => node.name == path

def kMemShmCreate (s : SharedMemory) (path : String) : SharedMemory :=
  { s.setNode s.nextNode (some ⟨path,[],0⟩) with
    root := s.root++[s.nextNode], nextNode := s.nextNode+1 }

def kMemShmOpen (s : SharedMemory) (device : ℕ) : SharedMemory :=
  match s.nodes device with
  | none => s
  | some node => s.setNode device (some { node with links := node.links+1 })

def addFile (s : SharedMemory) (p : ℕ) (fd : ℤ) (device mode : ℕ) : SharedMemory :=
  { s.kMemShmOpen device with files := s.files++[⟨p,fd,device,0,mode⟩] }

/-- `k_fs_vfs_open` on a path below `/dev/shm`; the new node goes to descriptor `fd`. -/
def kFsVfsOpen (s : SharedMemory) (p : ℕ) (fd : ℤ) (path : String) (mode growth : ℕ) :
    Result SharedMemory := do
  let vm ← s.vm.growHeap growth
  let s := s.setVm vm
  match s.kMemShmFinddir path with
  | some device => pure (s.addFile p fd device mode)
  | none => pure (if mode &&& O_CREAT ≠ 0 then (s.kMemShmCreate path).addFile p fd s.nextNode mode
      else s)

/-- `(pmm_frame_t) data[i]`: a pointer of 32 bits becomes 64 bits wide and keeps its sign. -/
def pmmFrame (data : ℕ) : ℕ := if data < 0x80000000 then data else W64-W32+data

def freeFrames (p : Pmm) (frames : List ℕ) : Pmm :=
  frames.foldl (fun p frame => kMemPmmFree p (pmmFrame frame) 1) p

def kMemShmRemove (s : SharedMemory) (device : ℕ) (node : ShmNode) : SharedMemory :=
  { (s.setVm { s.vm with pmm := freeFrames s.vm.pmm node.frames }).setNode device none with
    root := s.root.erase device }

def kMemShmClose (s : SharedMemory) (device : ℕ) : SharedMemory :=
  match s.nodes device with
  | none => s
  | some node =>
    let node := { node with links := node.links-1 }
    if node.links ≤ 0 then s.kMemShmRemove device node else s.setNode device (some node)

/-- `k_fs_vfs_close` on a node that has no other descriptor. -/
def kFsVfsClose (s : SharedMemory) (p : ℕ) (fd : ℤ) : SharedMemory :=
  match s.findFile p fd with
  | none => s
  | some file =>
    { s.kMemShmClose file.device with
      files := s.files.eraseP fun file => file.process == p && file.fd == fd }

/-- `diff > 0`. -/
def grows (size sz : BitVec 32) : Bool := (0#32).slt (sz-size)

/-- `pages + (bytes > 0)`. -/
def pageChange (size sz : BitVec 32) : BitVec 32 :=
  let diff := if grows size sz then sz-size else -(sz-size)
  diff.sdiv 0x1000+if diff.srem 0x1000 = 0 then 0 else 1

/-- How often the loop from `pages + (bytes > 0) - 1` down to 0 runs, with a signed counter. -/
def shrinkCount (size sz : BitVec 32) : ℕ := ((pageChange size sz-1).toInt+1).toNat

def growFrames (growth : ℕ → ℕ) : ℕ → Vm → List ℕ → Result (Vm × List ℕ)
  | 0, vm, frames => pure (vm,frames)
  | n+1, vm, frames => do
    let r ← kMemPmmAllocFrames vm.pmm 1
    let vm ← Vm.growHeap { vm with pmm := r.2 } (growth n)
    growFrames growth n vm (frames++[r.1%W32])

/-- The loop that gives frames back, down from index `n-1`. What `data[i]` is outside the list
is in `beyond`. -/
def shrinkFrames (beyond : ℕ → BitVec 32) : ℕ → Pmm → List ℕ → Pmm × List ℕ
  | 0, p, frames => (p,frames)
  | i+1, p, frames =>
    let frame := frames.getD i (beyond i).toNat
    -- the list gets `(void*) frame` back, which is the pointer itself
    shrinkFrames beyond i (kMemPmmFree p (pmmFrame frame) 1) (frames.erase frame)

def resize (s : SharedMemory) (p : ℕ) (fd : ℤ) (sz : BitVec 32) : SharedMemory :=
  { s with files := s.files.map fun file =>
      if file.process = p ∧ file.fd = fd then { file with size := sz } else file }

def kMemShmTruncate (s : SharedMemory) (p : ℕ) (fd : ℤ) (sz : BitVec 32) (growth : ℕ → ℕ)
    (beyond : ℕ → BitVec 32) : Result SharedMemory :=
  match s.findFile p fd with
  | none => pure s
  | some file =>
    match s.nodes file.device with
    | none => pure s
    | some node =>
      let s := s.resize p fd sz
      if grows file.size sz then do
        let (vm,frames) ← growFrames growth (pageChange file.size sz).toNat s.vm node.frames
        pure ((s.setVm vm).setNode file.device (some { node with frames := frames }))
      else
        let (pmm,frames) := shrinkFrames beyond (shrinkCount file.size sz) s.vm.pmm node.frames
        pure ((s.setVm { s.vm with pmm := pmm }).setNode file.device
          (some { node with frames := frames }))

/-- The descriptors of a process as `sys_mmap` looks them up. -/
def openFile (s : SharedMemory) (p : ℕ) (fd : ℤ) : Option OpenFile :=
  (s.findFile p fd).map fun file => ⟨file.mode,s.framesAt file.device⟩

/-- The frames behind descriptor `fd`. -/
def framesOf (s : SharedMemory) (p : ℕ) (fd : ℤ) : List ℕ :=
  ((s.openFile p fd).bind OpenFile.shm).getD []

/-- A new block with what the loop of `sys_mmap` maps for it. -/
def mapped (s : SharedMemory) (p : ℕ) (fd : ℤ) (block : MmapBlock) : MmapBlock × List ℕ :=
  (block,if block.Shm then (s.framesOf p fd).take (min block.size (s.framesOf p fd).length) else [])

def sysMmap (s : SharedMemory) (p start length prot flags : ℕ) (arg : FileArg) (growth : ℕ) :
    Result SharedMemory := do
  let (_,vm,info) ← s.vm.sysMmap (s.mmapInfo p) start length prot flags arg (s.openFile p) growth
  let new := info.mmapBlocks.drop (s.blocks p).length
  pure { s.setVm vm with
    mmapStart := Function.update s.mmapStart p info.start
    blocks := Function.update s.blocks p (s.blocks p++new.map (s.mapped p arg.fd)) }

/-- The block at `start`, as `sys_munmap` finds it. -/
def blockAt (s : SharedMemory) (p start : ℕ) : Option MmapBlock :=
  Vm.kMemMmapGetMapping (s.mmapInfo p) start

def sysMunmap (s : SharedMemory) (p start : ℕ) : SharedMemory :=
  let (_,vm,info) := s.vm.sysMunmap (s.mmapInfo p) start
  { s.setVm vm with
    mmapStart := Function.update s.mmapStart p info.start
    blocks := Function.update s.blocks p
      ((s.blocks p).eraseP fun b => some b.1 = s.blockAt p start) }

inductive Event
  | openFile (p : ℕ) (fd : ℤ) (path : String) (mode growth : ℕ)
  | truncate (p : ℕ) (fd : ℤ) (sz : BitVec 32) (growth : ℕ → ℕ) (beyond : ℕ → BitVec 32)
  | mmap (p start length prot flags : ℕ) (arg : FileArg) (growth : ℕ)
  | munmap (p start : ℕ)
  | close (p : ℕ) (fd : ℤ)

/-- An open takes a descriptor that is not in use; the mappings are those of shared memory. -/
def Enabled (s : SharedMemory) : Event → Prop
  | .openFile p fd _ _ _ => s.findFile p fd = none
  | .mmap _ _ _ _ flags _ _ => flags ≠ MAP_ANONYMOUS
  | .munmap p start => (s.blockAt p start).all fun block => block.Shm
  | _ => True

instance (s : SharedMemory) (e : Event) : Decidable (s.Enabled e) := by
  induction e using Event.casesOn <;> dsimp only [Enabled] <;> infer_instance

def step (s : SharedMemory) : Event → Result SharedMemory
  | .openFile p fd path mode growth => (s.enter p).kFsVfsOpen p fd path mode growth
  | .truncate p fd sz growth beyond => (s.enter p).kMemShmTruncate p fd sz growth beyond
  | .mmap p start length prot flags arg growth =>
    (s.enter p).sysMmap p start length prot flags arg growth
  | .munmap p start => pure ((s.enter p).sysMunmap p start)
  | .close p fd => pure ((s.enter p).kFsVfsClose p fd)

/-- Every step that can be taken. -/
def Step (s t : SharedMemory) : Prop := ∃ e, s.Enabled e ∧ s.step e = .ok t

end SharedMemory
end ScalesOS
