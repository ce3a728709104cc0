import ScalesOS.Machine
import ScalesOS.Storage

/-! Files of `fs/tmpfs.c`. The bytes of a file are in pages of an address space of its own,
from one address on, and an array in the kernel heap has the addresses of the pages. -/
namespace ScalesOS
open ByteMemory Storage

def TMPFS_BLOCK_SIZE : ℕ := 4096

def TMPFS_MAP_START : ℕ := 0x10000000

/-- What the kernel heap and the free frames have to give while a call runs: the requests
that are served, the pages that can be mapped, and what is in fresh memory, as words of the
array and as bytes of a buffer. -/
structure Supply where
  heap : ℕ → Bool
  pages : ℕ → Bool
  words : ℕ → ℕ
  bytes : Mem

def Supply.malloc (supply : Supply) (size : ℕ) : Result Unit :=
  if supply.heap size then pure () else throw (.panic "alloc(): out of memory.")

/-- The fields of a `tmpfs_node_t` that reads and writes use. `blocks` has the words from
the address of the array on, also those behind its end. `mappings` is the memory of the
file's address space. -/
structure TmpfsNode where
  size : ℕ
  blocks_amount : ℕ
  block_array_size : ℕ
  blocks : Option (ℕ → ℕ)
  mappings : Mem
  last_map : ℕ

namespace TmpfsNode
variable (node : TmpfsNode)

/-- `__k_fs_tmpfs_create_node`; `memory` is what the frames hold that are not in use yet. -/
def create (memory : Mem) : TmpfsNode where
  size := 0
  blocks_amount := 0
  block_array_size := 0
  blocks := none
  mappings := memory
  last_map := TMPFS_MAP_START

/-- A word of the array. -/
def slot (i : ℕ) : Result ℕ :=
  match node.blocks with
  | none => throw (.panic "Page fault at 0x00000000")
  | some blocks => pure (blocks i)

/-- `n` bytes at the address are in the pages of the file. An access elsewhere, through a
word that is no block's address, is taken for a page fault. -/
def Mapped (address n : ℕ) : Prop := n = 0 ∨ TMPFS_MAP_START ≤ address ∧ address+n ≤ node.last_map

instance (address n : ℕ) : Decidable (node.Mapped address n) := by unfold Mapped; infer_instance

/-- `memcpy` from word `word` of a block. -/
def copyOut (block word n : ℕ) : Result (List (BitVec 8)) :=
  let address := (block+4*word)%W32
  if node.Mapped address n then pure (load node.mappings address n) else throw (.panic "Page fault")

/-- `memcpy` to word `word` of the block with this number. -/
def copyIn (block_number word : ℕ) (data : List (BitVec 8)) : Result TmpfsNode := do
  let block ← node.slot block_number
  let address := (block+4*word)%W32
  if node.Mapped address data.length then
    pure {node with mappings := store node.mappings address data}
  else throw (.panic "Page fault")

/-! ## Blocks -/

def firstArray (supply : Supply) : Result TmpfsNode :=
  if node.block_array_size = 0 then do
    supply.malloc 4
    pure {node with blocks_amount := 0, block_array_size := 1, blocks := some supply.words}
  else pure node

/-- `k_realloc` to twice the size, when the new blocks fit already. The words behind the end
of the shorter array are fresh. -/
def doubleArray (supply : Supply) (blocks : ℕ) : Result TmpfsNode :=
  if node.blocks_amount+blocks ≤ node.block_array_size then do
    let bytes := 4*node.block_array_size*2%W32
    supply.malloc bytes
    pure {node with
      block_array_size := node.block_array_size*2%W32
      blocks := node.blocks.map fun words i =>
        if 4*i < min (4*node.block_array_size) bytes then words i else supply.words i}
  else pure node

def mapBlocks (supply : Supply) : ℕ → TmpfsNode → Result TmpfsNode
  | 0,node => pure node
  | blocks+1,node =>
    if node.last_map+0x1000 = VIRTUAL_BASE then pure node
    else if supply.pages node.last_map then
      mapBlocks supply blocks {node with
        blocks_amount := node.blocks_amount+1
        blocks := node.blocks.map fun words =>
          Function.update words node.blocks_amount node.last_map
        mappings := store node.mappings node.last_map (List.replicate 0x1000 0)
        last_map := node.last_map+TMPFS_BLOCK_SIZE}
    else throw (.panic "Out of physical memory.")

def allocateBlocks (supply : Supply) (blocks : ℕ) : Result TmpfsNode := do
  let node ← node.firstArray supply
  let node ← node.doubleArray supply blocks
  mapBlocks supply blocks node

/-! ## Writing -/

/-- What of the last block a write needs, as `__k_fs_tmpfs_write` computes it. -/
def partBlockRequired (offset size : ℕ) : ℕ :=
  if offset%TMPFS_BLOCK_SIZE ≤ size%TMPFS_BLOCK_SIZE then
    size%TMPFS_BLOCK_SIZE-offset%TMPFS_BLOCK_SIZE else 0

/-- The blocks that the file is made to have. The block that `offset` is in does not count. -/
def requiredBlocks (offset size : ℕ) : ℕ :=
  size/TMPFS_BLOCK_SIZE+(if 0 < offset%TMPFS_BLOCK_SIZE then 1 else 0)+
    (if 0 < partBlockRequired offset size then 1 else 0)

def ensureBlocks (supply : Supply) (required_blocks : ℕ) : Result TmpfsNode :=
  if node.blocks_amount < required_blocks then
    node.allocateBlocks supply (required_blocks-node.blocks_amount)
  else pure node

def partSize (offset size : ℕ) : ℕ :=
  if offset%TMPFS_BLOCK_SIZE = 0 then 0 else min (TMPFS_BLOCK_SIZE-offset%TMPFS_BLOCK_SIZE) size

/-- The loop over `n` whole blocks from block `first` on, from a place of the buffer. -/
def writeBlocks (buffer : Mem) (first start : ℕ) : ℕ → TmpfsNode → Result TmpfsNode
  | 0,node => pure node
  | n+1,node => do
    let node ← writeBlocks buffer first start n node
    node.copyIn (first+n) 0 (load buffer (start+n*TMPFS_BLOCK_SIZE) TMPFS_BLOCK_SIZE)

/-- The copies from the buffer: into the block that `offset` is in when that is not written
from its start, into whole blocks, and into the last block. The offset inside the first
block is used as a number of words. -/
def storeData (buffer : Mem) (offset size : ℕ) : Result TmpfsNode := do
  let block_offset := offset/TMPFS_BLOCK_SIZE
  let part_offset := offset%TMPFS_BLOCK_SIZE
  let full_blocks_required := size/TMPFS_BLOCK_SIZE
  let part_block_required := partBlockRequired offset size
  let part_size := partSize offset size
  let first := block_offset+(if 0 < part_offset then 1 else 0)
  let node ← if part_offset ≠ 0 then node.copyIn block_offset part_offset (load buffer 0 part_size)
    else pure node
  let node ← writeBlocks buffer first part_size full_blocks_required node
  if part_block_required ≠ 0 then
    node.copyIn (first+full_blocks_required) 0
      (load buffer (part_size+full_blocks_required*TMPFS_BLOCK_SIZE) part_block_required)
  else pure node

def write (supply : Supply) (offset : ℕ) (data : List (BitVec 8)) : Result (ℕ × TmpfsNode) := do
  supply.malloc data.length
  let node ← node.ensureBlocks supply (requiredBlocks offset data.length)
  let node ← node.storeData (store supply.bytes 0 data) offset data.length
  let last := (offset+data.length)%W32
  pure (data.length,{node with size := if node.size < last then last else node.size})

/-! ## Reading -/

/-- What a read leaves: its value, the bytes stored in the caller's buffer, and whether the
caller's address space is the current one again. -/
structure ReadResult where
  value : ℕ
  stored : List (BitVec 8)
  restored : Bool
  deriving DecidableEq

/-- The loop over whole blocks: the bytes copied, or the value of the return at a missing
block. -/
def readBlocks (block_offset : ℕ) : (n i part_offset : ℕ) → List (BitVec 8) →
    Result (ℕ ⊕ List (BitVec 8))
  | 0,_,_,copied => pure (.inr copied)
  | n+1,i,part_offset,copied => do
    let block ← node.slot (block_offset+i)
    if block = 0 then pure (.inl (i*TMPFS_BLOCK_SIZE))
    else
      let bytes ← node.copyOut block part_offset TMPFS_BLOCK_SIZE
      readBlocks block_offset n (i+1) 0 (copied++bytes)

/-- The end of a read of `size` bytes, when the whole blocks have been copied. -/
def readPart (block_offset size part_offset : ℕ) (copied : List (BitVec 8)) :
    Result ReadResult := do
  let full_blocks := size/TMPFS_BLOCK_SIZE
  let block ← node.slot (block_offset+full_blocks)
  if block = 0 then pure ⟨full_blocks*TMPFS_BLOCK_SIZE,[],false⟩
  else
    let bytes ← node.copyOut block part_offset (size%TMPFS_BLOCK_SIZE)
    pure ⟨size,copied++bytes,true⟩

def readSize (node_size offset size : ℕ) : ℕ :=
  if node_size < (size+offset)%W32 then node_size-offset else size

/-- `__k_fs_tmpfs_read`. `node_size` is the size in the caller's node. -/
def read (supply : Supply) (node_size offset size : ℕ) : Result ReadResult :=
  if size = 0 then pure ⟨0,[],true⟩
  else if node_size < offset then pure ⟨0,[],true⟩
  else do
    let size := readSize node_size offset size
    let full_blocks := size/TMPFS_BLOCK_SIZE
    let block_offset := offset/TMPFS_BLOCK_SIZE
    let part_offset := offset%TMPFS_BLOCK_SIZE
    supply.malloc size
    match ← node.readBlocks block_offset full_blocks 0 part_offset [] with
    | .inl value => pure ⟨value,[],false⟩
    | .inr copied =>
      node.readPart block_offset size (if full_blocks = 0 then part_offset else 0) copied

/-! ## When the driver is right -/

def blockAddress (i : ℕ) : ℕ := TMPFS_MAP_START+i*TMPFS_BLOCK_SIZE

structure Arranged : Prop where
  last : node.last_map = blockAddress node.blocks_amount
  limit : node.last_map+0x1000 ≤ VIRTUAL_BASE
  array : node.blocks_amount ≤ node.block_array_size
  slots : ∀ words, node.blocks = some words → ∀ i < node.blocks_amount, words i = blockAddress i
  blocks : node.block_array_size ≠ 0 → ∃ words, node.blocks = some words

/-- The node has the contents of a file. -/
structure Holds (f : File) : Prop extends Arranged node where
  size : node.size = f.size
  backed : f.Backed node.mappings TMPFS_MAP_START (node.blocks_amount*TMPFS_BLOCK_SIZE)

/-- `blocks` more blocks fit the array as it is, and there is memory for them and for twice
the array. -/
structure CanAllocate (supply : Supply) (blocks : ℕ) : Prop where
  fits : node.blocks_amount+blocks ≤ max node.block_array_size 1
  word : 4*max node.block_array_size 1*2 < W32
  first : node.block_array_size = 0 → supply.heap 4 = true
  heap : supply.heap (4*max node.block_array_size 1*2) = true
  pages : ∀ i < blocks, supply.pages (node.last_map+i*TMPFS_BLOCK_SIZE) = true
  limit : node.last_map+blocks*TMPFS_BLOCK_SIZE+0x1000 ≤ VIRTUAL_BASE

/-- A write that starts with a block, to blocks that the file has or is made to have. -/
structure CanWrite (supply : Supply) (offset size : ℕ) : Prop where
  short : offset+size < W32
  heap : supply.heap size = true
  aligned : size = 0 ∨ offset%TMPFS_BLOCK_SIZE = 0
  inside : offset+size ≤ max node.blocks_amount (requiredBlocks offset size)*TMPFS_BLOCK_SIZE
  allocate : node.blocks_amount < requiredBlocks offset size →
    node.CanAllocate supply (requiredBlocks offset size-node.blocks_amount)

/-- A read that starts with a block, and after whose whole blocks the array does not have a
null word. Of a file that has never had a block nothing can be read where it ends. -/
structure CanRead (supply : Supply) (offset size : ℕ) : Prop where
  short : node.size < (offset+size)%W32 ∨ offset+size < W32
  heap : supply.heap (min size (node.size-offset)) = true
  blocks : node.block_array_size ≠ 0
  aligned : offset = node.size ∨ offset%TMPFS_BLOCK_SIZE = 0
  next : offset = node.size ∨
    node.slot (offset/TMPFS_BLOCK_SIZE+min size (node.size-offset)/TMPFS_BLOCK_SIZE) ≠ .ok 0

end TmpfsNode

namespace TmpfsNode
variable {node node' : TmpfsNode} {f : File} {supply : Supply}

theorem create_holds (memory : Mem) : (create memory).Holds .empty := by
  have hzero : (create memory).blocks_amount*TMPFS_BLOCK_SIZE = 0 := Nat.zero_mul _
  refine ⟨⟨?_,show TMPFS_MAP_START+0x1000 ≤ VIRTUAL_BASE by decide,le_rfl,fun _ h => (by cases h),
    fun h => absurd rfl h⟩,rfl,?_⟩
  · rw [blockAddress,hzero]
    rfl
  · rw [hzero]
    exact .empty _ _

theorem Supply.malloc_ok {size : ℕ} (h : supply.heap size = true) : supply.malloc size = .ok () :=
  if_pos h

/-! ## Blocks -/

theorem blocks_map {blocks : Option (ℕ → ℕ)} (h : ∃ words, blocks = some words)
    (f : (ℕ → ℕ) → ℕ → ℕ) :
    ∃ words, blocks.map f = some words := by
  obtain ⟨words,rfl⟩ := h
  exact ⟨f words,rfl⟩

theorem slots_map {blocks : Option (ℕ → ℕ)} {f : (ℕ → ℕ) → ℕ → ℕ} {n : ℕ}
    (h : ∀ words, blocks = some words → ∀ i < n, words i = blockAddress i)
    (hf : ∀ words, ∀ i < n, f words i = words i) : ∀ words, blocks.map f = some words →
    ∀ i < n, words i = blockAddress i := by
  intro words hwords i hi
  obtain ⟨old,hold,rfl⟩ := Option.map_eq_some_iff.mp hwords
  rw [hf old i hi]
  exact h old hold i hi

theorem slots_append {blocks : Option (ℕ → ℕ)} {n last : ℕ} (hlast : last = blockAddress n)
    (h : ∀ words, blocks = some words → ∀ i < n, words i = blockAddress i) :
    ∀ words, (blocks.map fun words => Function.update words n last) = some words →
        ∀ i < n+1, words i = blockAddress i := by
  intro words hwords i hi
  rcases Nat.lt_succ_iff_lt_or_eq.mp hi with hi | rfl
  · exact slots_map h (fun words i hi => Function.update_of_ne hi.ne last words) words hwords i hi
  · obtain ⟨old,-,rfl⟩ := Option.map_eq_some_iff.mp hwords
    rw [Function.update_self]
    exact hlast

theorem firstArray_ok (h : node.Holds f)
    (hheap : node.block_array_size = 0 → supply.heap 4 = true) :
    ∃ node', node.firstArray supply = .ok node' ∧ node'.Holds f ∧
      node'.blocks_amount = node.blocks_amount ∧
      node'.block_array_size = max node.block_array_size 1 ∧ node'.last_map = node.last_map := by
  rw [firstArray]
  split
  · rename_i hzero
    have hamount : node.blocks_amount = 0 := Nat.le_zero.mp (hzero ▸ h.array)
    have hlast := h.last
    have hbacked := h.backed
    rw [hamount] at hlast hbacked
    rw [Supply.malloc_ok (hheap hzero)]
    refine ⟨_,rfl,⟨⟨hlast,h.limit,Nat.zero_le _,?_,fun _ => ⟨_,rfl⟩⟩,h.size,hbacked⟩,
      hamount.symm,?_,rfl⟩
    · exact fun _ _ i hi => absurd hi (Nat.not_lt_zero i)
    · rw [hzero]
      rfl
  · rename_i hpos
    exact ⟨node,rfl,h,rfl,(Nat.max_eq_left (Nat.one_le_iff_ne_zero.mpr hpos)).symm,rfl⟩

/-- An array that the new blocks fit into is doubled, and keeps its words. -/
theorem doubleArray_ok (h : node.Holds f) {blocks : ℕ}
    (hfits : node.blocks_amount+blocks ≤ node.block_array_size)
    (hword : 4*node.block_array_size*2 < W32)
    (hheap : supply.heap (4*node.block_array_size*2) = true) :
    ∃ node', node.doubleArray supply blocks = .ok node' ∧ node'.Holds f ∧
      node'.blocks_amount = node.blocks_amount ∧
      node'.block_array_size = 2*node.block_array_size ∧ node'.last_map = node.last_map := by
  have hbytes : 4*node.block_array_size*2%W32 = 4*node.block_array_size*2 := Nat.mod_eq_of_lt hword
  have hsize : node.block_array_size*2%W32 = 2*node.block_array_size := by
    rw [Nat.mul_comm]
    exact Nat.mod_eq_of_lt (by omega)
  rw [doubleArray,if_pos hfits]
  dsimp only
  rw [hbytes,Supply.malloc_ok hheap]
  refine ⟨_,rfl,⟨⟨h.last,h.limit,?_,?_,?_⟩,h.size,h.backed⟩,rfl,hsize,rfl⟩
  · dsimp only
    rw [hsize]
    omega
  · exact slots_map (n:=node.blocks_amount) h.slots fun words i hi => if_pos (by omega)
  · intro hpos
    dsimp only at hpos
    exact blocks_map (h.blocks (by omega)) _

theorem mapBlock_holds (h : node.Holds f) (hroom : node.blocks_amount < node.block_array_size)
    (hlimit : node.last_map+0x1000+0x1000 ≤ VIRTUAL_BASE) :
    ({node with
      blocks_amount := node.blocks_amount+1
      blocks := node.blocks.map fun words => Function.update words node.blocks_amount node.last_map
      mappings := store node.mappings node.last_map (List.replicate 0x1000 0)
      last_map := node.last_map+TMPFS_BLOCK_SIZE} : TmpfsNode).Holds f := by
  have hlast := h.last
  rw [blockAddress] at hlast
  refine ⟨⟨?_,?_,hroom,?_,?_⟩,h.size,?_⟩
  · dsimp only
    rw [hlast,blockAddress,Nat.succ_mul,Nat.add_assoc]
  · dsimp only
    rw [TMPFS_BLOCK_SIZE]
    omega
  · exact slots_append h.last h.slots
  · exact fun hpos => blocks_map (h.blocks hpos) _
  · dsimp only
    rw [Nat.succ_mul]
    have hlength : (List.replicate 0x1000 (0 : BitVec 8)).length = 0x1000 := List.length_replicate
    apply h.backed.grow
    · intro x hx
      exact store_outside _ (Or.inl (by omega))
    · intro x hlow hhigh
      rw [TMPFS_BLOCK_SIZE] at hlow hhigh hlast
      obtain ⟨i,rfl⟩ := Nat.exists_eq_add_of_le hlow
      rw [← Nat.add_assoc,← hlast,store_inside _ _ (by rw [hlength]; omega),
        List.getD_eq_getElem?_getD,List.getElem?_replicate]
      split <;> rfl

theorem mapBlocks_ok (blocks : ℕ) : ∀ {node : TmpfsNode}, node.Holds f →
    node.blocks_amount+blocks ≤ node.block_array_size →
    (∀ i < blocks, supply.pages (node.last_map+i*TMPFS_BLOCK_SIZE) = true) →
    node.last_map+blocks*TMPFS_BLOCK_SIZE+0x1000 ≤ VIRTUAL_BASE →
    ∃ node', mapBlocks supply blocks node = .ok node' ∧ node'.Holds f ∧
      node'.blocks_amount = node.blocks_amount+blocks := by
  induction blocks with
  | zero => exact fun {node} h _ _ _ => ⟨node,rfl,h,rfl⟩
  | succ blocks ih =>
    intro node h hroom hpages hlimit
    rw [Nat.succ_mul] at hlimit
    have hblock : TMPFS_BLOCK_SIZE = 0x1000 := rfl
    have hfirst := hpages 0 (Nat.succ_pos _)
    rw [Nat.zero_mul,Nat.add_zero] at hfirst
    rw [mapBlocks,if_neg (by omega),if_pos hfirst]
    obtain ⟨node',hok,hholds,hamount⟩ :=
      ih (mapBlock_holds h (by omega) (by omega)) (by dsimp only; omega)
      (by
        intro i hi
        have hpage := hpages (i+1) (by omega)
        rwa [Nat.succ_mul,Nat.add_comm (i*_),← Nat.add_assoc] at hpage)
      (by dsimp only; omega)
    refine ⟨node',hok,hholds,?_⟩
    rw [hamount]
    dsimp only
    omega

theorem allocateBlocks_ok (h : node.Holds f) {blocks : ℕ} (hcan : node.CanAllocate supply blocks) :
    ∃ node', node.allocateBlocks supply blocks = .ok node' ∧ node'.Holds f ∧
      node'.blocks_amount = node.blocks_amount+blocks := by
  obtain ⟨one,hone,hone_holds,hone_amount,hone_array,hone_last⟩ := firstArray_ok h hcan.first
  have hfits : one.blocks_amount+blocks ≤ one.block_array_size := by
    rw [hone_amount,hone_array]
    exact hcan.fits
  obtain ⟨two,htwo,htwo_holds,htwo_amount,htwo_array,htwo_last⟩ := doubleArray_ok hone_holds hfits
    (by rw [hone_array]; exact hcan.word)
    (by rw [hone_array]; exact hcan.heap)
  have hpages : ∀ i < blocks, supply.pages (two.last_map+i*TMPFS_BLOCK_SIZE) = true := by
    rw [htwo_last,hone_last]
    exact hcan.pages
  obtain ⟨three,hthree,hholds,hamount⟩ := mapBlocks_ok blocks htwo_holds
    (by rw [htwo_amount,htwo_array]; omega) hpages (by rw [htwo_last,hone_last]; exact hcan.limit)
  refine ⟨three,?_,hholds,by rw [hamount,htwo_amount,hone_amount]⟩
  rw [allocateBlocks]
  exact Result.bind_eq_ok.mpr ⟨one,hone,Result.bind_eq_ok.mpr ⟨two,htwo,hthree⟩⟩

theorem ensureBlocks_ok (h : node.Holds f) {required_blocks : ℕ}
    (hcan : node.blocks_amount < required_blocks →
      node.CanAllocate supply (required_blocks-node.blocks_amount)) :
    ∃ node', node.ensureBlocks supply required_blocks = .ok node' ∧ node'.Holds f ∧
      node'.blocks_amount = max node.blocks_amount required_blocks := by
  rw [ensureBlocks]
  split
  · rename_i hfew
    obtain ⟨node',hok,hholds,hamount⟩ := allocateBlocks_ok h (hcan hfew)
    exact ⟨node',hok,hholds,by omega⟩
  · exact ⟨node,rfl,h,by omega⟩

/-! ## Writing -/

section
variable (h : node.Arranged)
include h

theorem Arranged.slot {i : ℕ} (hi : i < node.blocks_amount) :
    node.slot i = .ok (blockAddress i) := by
  have harray := h.array
  obtain ⟨words,hwords⟩ := h.blocks (by omega)
  rw [TmpfsNode.slot,hwords]
  exact congrArg Except.ok (h.slots words hwords i hi)

theorem Arranged.address {i n : ℕ} (hn : blockAddress i+n ≤ blockAddress node.blocks_amount) :
    (blockAddress i+4*0)%W32 = blockAddress i ∧ node.Mapped (blockAddress i) n := by
  have hlast := h.last
  have hlimit := h.limit
  have hbase : VIRTUAL_BASE < W32 := by decide
  refine ⟨Nat.mod_eq_of_lt (by omega),Or.inr ⟨Nat.le_add_right _ _,by omega⟩⟩

theorem Arranged.copyIn (i : ℕ) (data : List (BitVec 8)) (hi : i < node.blocks_amount)
    (hdata : data.length ≤ TMPFS_BLOCK_SIZE) :
    node.copyIn i 0 data = .ok
        {node with mappings := store node.mappings (blockAddress i) data} := by
  have hend : blockAddress i+data.length ≤ blockAddress node.blocks_amount := by
    have hle := Nat.mul_le_mul_right TMPFS_BLOCK_SIZE hi
    rw [Nat.succ_mul] at hle
    rw [blockAddress,blockAddress]
    omega
  obtain ⟨haddress,hmapped⟩ := h.address hend
  rw [TmpfsNode.copyIn,h.slot hi]
  change (if node.Mapped ((blockAddress i+4*0)%W32) data.length then _ else _) = _
  rw [haddress,if_pos hmapped]
  rfl

theorem Arranged.mappings (m : Mem) : ({node with mappings := m} : TmpfsNode).Arranged :=
  ⟨h.last,h.limit,h.array,h.slots,h.blocks⟩

theorem Arranged.writeBlocks (buffer : Mem) (first start n : ℕ)
    (hn : first+n ≤ node.blocks_amount) :
    writeBlocks buffer first start n node =
      .ok {node with mappings := store node.mappings (blockAddress first) (load buffer start
          (n*TMPFS_BLOCK_SIZE))} := by
  induction n with
  | zero =>
    rw [TmpfsNode.writeBlocks,Nat.zero_mul,load_zero,store_nil]
    rfl
  | succ n ih =>
    have hnext := (h.mappings (store node.mappings (blockAddress first)
      (load buffer start (n*TMPFS_BLOCK_SIZE)))).copyIn (first+n)
      (load buffer (start+n*TMPFS_BLOCK_SIZE) TMPFS_BLOCK_SIZE) (by dsimp only; omega)
      (by rw [length_load])
    have haddress : blockAddress (first+n) =
        blockAddress first+(load buffer start (n*TMPFS_BLOCK_SIZE)).length := by
      rw [length_load,blockAddress,blockAddress,Nat.add_mul,Nat.add_assoc]
    rw [TmpfsNode.writeBlocks,ih (by omega)]
    refine hnext.trans ?_
    dsimp only
    rw [haddress,← store_append,← load_add,← Nat.succ_mul]

end

theorem data_blocks (data : List (BitVec 8)) (bytes : Mem) :
    load (store bytes 0 data) 0 (data.length/TMPFS_BLOCK_SIZE*TMPFS_BLOCK_SIZE)++
      load (store bytes 0 data) (data.length/TMPFS_BLOCK_SIZE*TMPFS_BLOCK_SIZE)
          (data.length%TMPFS_BLOCK_SIZE) = data := by
  have hsum := Nat.div_add_mod data.length TMPFS_BLOCK_SIZE
  have happend := load_add (store bytes 0 data) 0 (data.length/TMPFS_BLOCK_SIZE*TMPFS_BLOCK_SIZE)
    (data.length%TMPFS_BLOCK_SIZE)
  rw [Nat.zero_add] at happend
  rw [← happend,Nat.mul_comm,hsum,load_store]

/-- A write that starts with a block, all of whose blocks are there, is one store. -/
theorem Arranged.storeData (h : node.Arranged) {offset : ℕ} {data : List (BitVec 8)} (bytes : Mem)
    (haligned : offset%TMPFS_BLOCK_SIZE = 0)
    (hin : offset+data.length ≤ node.blocks_amount*TMPFS_BLOCK_SIZE) :
    node.storeData (store bytes 0 data) offset data.length =
      .ok {node with mappings := store node.mappings (TMPFS_MAP_START+offset) data} := by
  have hpos : 0 < TMPFS_BLOCK_SIZE := by decide
  have hoffset := Nat.div_add_mod offset TMPFS_BLOCK_SIZE
  have hsum := Nat.div_add_mod data.length TMPFS_BLOCK_SIZE
  have hmod := Nat.mod_lt data.length hpos
  rw [haligned,Nat.add_zero,Nat.mul_comm] at hoffset
  rw [Nat.mul_comm] at hsum
  have haddress : blockAddress (offset/TMPFS_BLOCK_SIZE) = TMPFS_MAP_START+offset := by
    rw [blockAddress,hoffset]
  have hfull : offset/TMPFS_BLOCK_SIZE+data.length/TMPFS_BLOCK_SIZE ≤ node.blocks_amount := by
    apply Nat.le_of_mul_le_mul_right _ hpos
    rw [Nat.add_mul]
    omega
  have hpart : partBlockRequired offset data.length = data.length%TMPFS_BLOCK_SIZE := by
    rw [partBlockRequired,haligned,if_pos (Nat.zero_le _),Nat.sub_zero]
  have hsize : partSize offset data.length = 0 := if_pos haligned
  rw [TmpfsNode.storeData]
  dsimp only
  rw [hpart,hsize,haligned,if_neg (Nat.lt_irrefl 0),if_neg (fun h => h rfl),
    Nat.add_zero,Nat.zero_add]
  refine Result.bind_eq_ok.mpr ⟨node,rfl,Result.bind_eq_ok.mpr ⟨_,h.writeBlocks _ _ 0 _ hfull,?_⟩⟩
  have hdata := data_blocks data bytes
  split
  · rename_i hsome
    have hlast : offset/TMPFS_BLOCK_SIZE+data.length/TMPFS_BLOCK_SIZE < node.blocks_amount := by
      apply Nat.lt_of_mul_lt_mul_right (a := TMPFS_BLOCK_SIZE)
      rw [Nat.add_mul]
      omega
    have hcopy := (h.mappings (store node.mappings (blockAddress (offset/TMPFS_BLOCK_SIZE))
      (load (store bytes 0 data) 0 (data.length/TMPFS_BLOCK_SIZE*TMPFS_BLOCK_SIZE)))).copyIn
        (offset/TMPFS_BLOCK_SIZE+data.length/TMPFS_BLOCK_SIZE)
        (load (store bytes 0 data) (data.length/TMPFS_BLOCK_SIZE*TMPFS_BLOCK_SIZE)
          (data.length%TMPFS_BLOCK_SIZE))
        hlast (by rw [length_load]; omega)
    have hnext : blockAddress (offset/TMPFS_BLOCK_SIZE+data.length/TMPFS_BLOCK_SIZE) =
        TMPFS_MAP_START+offset+
          (load (store bytes 0 data) 0 (data.length/TMPFS_BLOCK_SIZE*TMPFS_BLOCK_SIZE)).length := by
      rw [length_load,← haddress,blockAddress,blockAddress,Nat.add_mul,Nat.add_assoc]
    dsimp only at hcopy
    rw [hnext,haddress,← store_append,hdata] at hcopy
    rw [haddress]
    exact hcopy
  · rename_i hnone
    rw [not_not.mp hnone,load_zero,List.append_nil] at hdata
    rw [haddress,hdata]
    rfl

theorem Arranged.storeNothing (h : node.Arranged) (bytes : Mem) (offset : ℕ)
    (hblock : 0 < offset%TMPFS_BLOCK_SIZE → node.blocks_amount ≠ 0) :
    node.storeData (store bytes 0 []) offset 0 = .ok node := by
  have hpart : partBlockRequired offset 0 = 0 := by
    rw [partBlockRequired,Nat.zero_mod,Nat.zero_sub,ite_self]
  have hsize : partSize offset 0 = 0 := by
    rw [partSize,Nat.min_zero,ite_self]
  rw [TmpfsNode.storeData]
  dsimp only
  rw [hpart,hsize,Nat.zero_div]
  split
  · rename_i hoff
    have harray := h.array
    obtain ⟨words,hwords⟩ := h.blocks (by have := hblock (Nat.pos_of_ne_zero hoff); omega)
    have hcopy :
      node.copyIn (offset/TMPFS_BLOCK_SIZE) (offset%TMPFS_BLOCK_SIZE)
        (load (store bytes 0 []) 0 0) =
        .ok node := by
      have hslot : node.slot (offset/TMPFS_BLOCK_SIZE) = .ok (words (offset/TMPFS_BLOCK_SIZE)) := by
        rw [TmpfsNode.slot,hwords]
        rfl
      rw [TmpfsNode.copyIn,load_zero]
      refine Result.bind_eq_ok.mpr ⟨_,hslot,?_⟩
      dsimp only
      rw [List.length_nil,if_pos (show node.Mapped _ 0 from Or.inl rfl),store_nil]
      rfl
    exact Result.bind_eq_ok.mpr ⟨node,hcopy,rfl⟩
  · rfl

theorem write_ok (h : node.Holds f) {offset : ℕ} {data : List (BitVec 8)}
    (hcan : node.CanWrite supply offset data.length) :
    ∃ node', node.write supply offset data = .ok (data.length,node') ∧
        node'.Holds (f.write offset data) := by
  obtain ⟨one,hone,hholds,hamount⟩ := ensureBlocks_ok h hcan.allocate
  have hin : offset+data.length ≤ one.blocks_amount*TMPFS_BLOCK_SIZE := by
    rw [hamount]
    exact hcan.inside
  have hstored : one.storeData (store supply.bytes 0 data) offset data.length =
      .ok {one with mappings := store one.mappings (TMPFS_MAP_START+offset) data} := by
    rcases hcan.aligned with hnothing | haligned
    · obtain rfl := List.length_eq_zero_iff.mp hnothing
      rw [store_nil one.mappings]
      apply hholds.storeNothing
      intro hblock
      have hrequired : 0 < requiredBlocks offset ([] : List (BitVec 8)).length := by
        rw [requiredBlocks,if_pos hblock]
        exact Nat.add_pos_left (Nat.add_pos_right _ Nat.one_pos) _
      omega
    · exact hholds.storeData _ haligned hin
  have hlast : (offset+data.length)%W32 = offset+data.length := Nat.mod_eq_of_lt hcan.short
  refine ⟨{one with
    mappings := store one.mappings (TMPFS_MAP_START+offset) data
    size := if one.size < (offset+data.length)%W32 then (offset+data.length)%W32 else one.size},?_,
    ⟨hholds.last,hholds.limit,hholds.array,hholds.slots,hholds.blocks⟩,?_,hholds.backed.write hin⟩
  · rw [TmpfsNode.write,Supply.malloc_ok hcan.heap]
    exact Result.bind_eq_ok.mpr ⟨(),rfl,
      Result.bind_eq_ok.mpr ⟨one,hone,Result.bind_eq_ok.mpr ⟨_,hstored,rfl⟩⟩⟩
  · have hsize := hholds.size
    dsimp only
    rw [hlast,File.write]
    dsimp only
    split <;> omega

/-! ## Reading -/

section
variable (h : node.Arranged)
include h

theorem Arranged.readBlocks (block_offset : ℕ) (n : ℕ) : ∀ (i : ℕ) (copied : List (BitVec 8)),
    block_offset+i+n ≤ node.blocks_amount →
    node.readBlocks block_offset n i 0 copied =
      .ok (.inr (copied++load node.mappings (blockAddress (block_offset+i))
          (n*TMPFS_BLOCK_SIZE))) := by
  have hlast := h.last
  induction n with
  | zero =>
    intro i copied _
    rw [TmpfsNode.readBlocks,Nat.zero_mul,load_zero,List.append_nil]
    rfl
  | succ n ih =>
    intro i copied hn
    have hend :
        blockAddress (block_offset+i)+TMPFS_BLOCK_SIZE ≤ blockAddress node.blocks_amount := by
      have hle :=
        Nat.mul_le_mul_right TMPFS_BLOCK_SIZE (show block_offset+i+1 ≤ node.blocks_amount by omega)
      rw [Nat.succ_mul] at hle
      rw [blockAddress,blockAddress]
      omega
    obtain ⟨haddress,hmapped⟩ := h.address hend
    have hne : blockAddress (block_offset+i) ≠ 0 := by
      rw [blockAddress,TMPFS_MAP_START]
      omega
    have hnext :
        blockAddress (block_offset+(i+1)) = blockAddress (block_offset+i)+TMPFS_BLOCK_SIZE := by
      rw [blockAddress,blockAddress,← Nat.add_assoc block_offset,Nat.succ_mul,Nat.add_assoc]
    have hrest :=
      ih (i+1) (copied++load node.mappings (blockAddress (block_offset+i)) TMPFS_BLOCK_SIZE) (by
        omega)
    rw [hnext,List.append_assoc,← load_add,Nat.add_comm TMPFS_BLOCK_SIZE,← Nat.succ_mul] at hrest
    rw [TmpfsNode.readBlocks,h.slot (by omega)]
    refine (if_neg hne).trans ?_
    rw [copyOut,haddress,if_pos hmapped]
    exact hrest

end

theorem Arranged.slot_eq (h : node.Arranged) (harray : node.block_array_size ≠ 0) (i : ℕ) :
    ∃ word, node.slot i = .ok word := by
  obtain ⟨words,hwords⟩ := h.blocks harray
  exact ⟨words i,by rw [TmpfsNode.slot,hwords]; rfl⟩

/-- The last block of a read, whose part is empty if the array is read behind the blocks. -/
theorem Arranged.readPart (h : node.Arranged) {offset n : ℕ} (copied : List (BitVec 8))
    (haligned : offset%TMPFS_BLOCK_SIZE = 0) (hin : offset+n ≤ node.blocks_amount*TMPFS_BLOCK_SIZE)
    (harray : node.block_array_size ≠ 0)
    (hnext : node.slot (offset/TMPFS_BLOCK_SIZE+n/TMPFS_BLOCK_SIZE) ≠ .ok 0) :
    node.readPart (offset/TMPFS_BLOCK_SIZE) n 0 copied =
      .ok ⟨n,copied++load node.mappings (TMPFS_MAP_START+offset+n/TMPFS_BLOCK_SIZE*TMPFS_BLOCK_SIZE)
        (n%TMPFS_BLOCK_SIZE),true⟩ := by
  have hpos : 0 < TMPFS_BLOCK_SIZE := by decide
  have hoffset := Nat.div_add_mod offset TMPFS_BLOCK_SIZE
  have hsum := Nat.div_add_mod n TMPFS_BLOCK_SIZE
  rw [haligned,Nat.add_zero,Nat.mul_comm] at hoffset
  rw [Nat.mul_comm] at hsum
  obtain ⟨word,hword⟩ := h.slot_eq harray (offset/TMPFS_BLOCK_SIZE+n/TMPFS_BLOCK_SIZE)
  have hne : word ≠ 0 := by
    rintro rfl
    exact hnext hword
  have hcopy : node.copyOut word 0 (n%TMPFS_BLOCK_SIZE) =
      .ok (load node.mappings (TMPFS_MAP_START+offset+n/TMPFS_BLOCK_SIZE*TMPFS_BLOCK_SIZE)
          (n%TMPFS_BLOCK_SIZE)) := by
    rw [copyOut]
    by_cases hpart : n%TMPFS_BLOCK_SIZE = 0
    · rw [hpart,if_pos (show node.Mapped _ 0 from Or.inl rfl),load_zero]
      rfl
    · have hlast : offset/TMPFS_BLOCK_SIZE+n/TMPFS_BLOCK_SIZE < node.blocks_amount := by
        apply Nat.lt_of_mul_lt_mul_right (a := TMPFS_BLOCK_SIZE)
        rw [Nat.add_mul]
        omega
      have hblock := h.slot hlast
      rw [hword] at hblock
      obtain rfl := Except.ok.inj hblock
      have haddress : blockAddress (offset/TMPFS_BLOCK_SIZE+n/TMPFS_BLOCK_SIZE) =
          TMPFS_MAP_START+offset+n/TMPFS_BLOCK_SIZE*TMPFS_BLOCK_SIZE := by
        rw [blockAddress,Nat.add_mul,hoffset,Nat.add_assoc]
      have hend : blockAddress (offset/TMPFS_BLOCK_SIZE+n/TMPFS_BLOCK_SIZE)+n%TMPFS_BLOCK_SIZE ≤
          blockAddress node.blocks_amount := by
        rw [haddress,blockAddress]
        omega
      obtain ⟨hmod,hmapped⟩ := h.address hend
      rw [hmod,if_pos hmapped,haddress]
      rfl
  rw [TmpfsNode.readPart]
  refine Result.bind_eq_ok.mpr ⟨word,hword,?_⟩
  rw [if_neg hne]
  exact Result.bind_eq_ok.mpr ⟨_,hcopy,rfl⟩

theorem readSize_eq {offset size : ℕ} (hoffset : offset ≤ node.size)
    (h : node.size < (offset+size)%W32 ∨ offset+size < W32) :
    readSize node.size offset size = min size (node.size-offset) := by
  rw [readSize,Nat.add_comm]
  rcases h with h | h
  · have hle := Nat.mod_le (offset+size) W32
    rw [if_pos h]
    omega
  · rw [Nat.mod_eq_of_lt h]
    split <;> omega

/-- A read of a node that has the contents of a file is a read of the file, and restores the
caller's address space where no null word is met. -/
theorem read_ok (h : node.Holds f) {offset size : ℕ}
    (hcan : size ≠ 0 → offset ≤ node.size → node.CanRead supply offset size) :
    ∃ restored, node.read supply node.size offset size =
      .ok ⟨(f.read offset size).length,f.read offset size,restored⟩ ∧
        ((size ≠ 0 → offset ≤ node.size →
          node.slot (offset/TMPFS_BLOCK_SIZE+min size (node.size-offset)/TMPFS_BLOCK_SIZE) ≠
          .ok 0) → restored = true) := by
  have hsize := h.size
  rw [File.read,length_load,← hsize]
  rw [TmpfsNode.read]
  split
  · rename_i hzero
    rw [hzero,Nat.zero_min,load_zero]
    exact ⟨true,rfl,fun _ => rfl⟩
  · rename_i hpos
    split
    · rename_i hbehind
      rw [Nat.sub_eq_zero_of_le hbehind.le,Nat.min_zero,load_zero]
      exact ⟨true,rfl,fun _ => rfl⟩
    · rename_i hinside
      have hc := hcan hpos (by omega)
      dsimp only
      rw [readSize_eq (by omega) hc.short]
      have hheap := Supply.malloc_ok hc.heap
      by_cases hend : offset = node.size
      · -- Nothing is left of the file, but the array is still read.
        obtain ⟨word,hword⟩ := h.slot_eq hc.blocks (offset/TMPFS_BLOCK_SIZE+0)
        have hzero : min size (node.size-offset) = 0 := by omega
        rw [hzero] at hheap ⊢
        rw [hheap,load_zero,Nat.zero_div,if_pos rfl]
        by_cases hnull : word = 0
        · refine ⟨false,Result.bind_eq_ok.mpr ⟨(),rfl,Result.bind_eq_ok.mpr ⟨.inr [],rfl,?_⟩⟩,
            fun hslot => absurd (hnull ▸ hword) (hslot hpos hend.le)⟩
          refine Result.bind_eq_ok.mpr ⟨word,hword,?_⟩
          rw [if_pos hnull]
          rfl
        · refine ⟨true,Result.bind_eq_ok.mpr ⟨(),rfl,Result.bind_eq_ok.mpr ⟨.inr [],rfl,?_⟩⟩,
            fun _ => rfl⟩
          refine Result.bind_eq_ok.mpr ⟨word,hword,?_⟩
          rw [if_neg hnull]
          refine Result.bind_eq_ok.mpr ⟨[],?_,rfl⟩
          rw [copyOut,Nat.zero_mod,if_pos (show node.Mapped _ 0 from Or.inl rfl),load_zero]
          rfl
      · have haligned := hc.aligned.resolve_left hend
        have hnext := hc.next.resolve_left hend
        have hheld := h.backed.size_le
        generalize hn : min size (node.size-offset) = n at hheap hnext ⊢
        have hin : offset+n ≤ node.blocks_amount*TMPFS_BLOCK_SIZE := by omega
        have hfile := h.backed.read offset size
        rw [File.read,← hsize,hn] at hfile
        have hpos : 0 < TMPFS_BLOCK_SIZE := by decide
        have hoffset := Nat.div_add_mod offset TMPFS_BLOCK_SIZE
        have hsum := Nat.div_add_mod n TMPFS_BLOCK_SIZE
        rw [haligned,Nat.add_zero,Nat.mul_comm] at hoffset
        rw [Nat.mul_comm] at hsum
        have hfull : offset/TMPFS_BLOCK_SIZE+0+n/TMPFS_BLOCK_SIZE ≤ node.blocks_amount := by
          apply Nat.le_of_mul_le_mul_right _ hpos
          rw [Nat.add_zero,Nat.add_mul]
          omega
        have hblocks := h.readBlocks (offset/TMPFS_BLOCK_SIZE) (n/TMPFS_BLOCK_SIZE) 0 [] hfull
        have hpart :=
          h.readPart (load node.mappings (TMPFS_MAP_START+offset)
            (n/TMPFS_BLOCK_SIZE*TMPFS_BLOCK_SIZE))
          haligned hin hc.blocks hnext
        rw [Nat.add_zero,blockAddress,hoffset,List.nil_append] at hblocks
        rw [← load_add,hsum,← hfile] at hpart
        rw [hheap,haligned,ite_self]
        refine ⟨true,Result.bind_eq_ok.mpr ⟨(),rfl,Result.bind_eq_ok.mpr ⟨_,hblocks,hpart⟩⟩,
          fun _ => rfl⟩

/-! ## Sequences of writes -/

/-- A write to the file, through whatever node. -/
structure FileWrite where
  supply : Supply
  offset : ℕ
  data : List (BitVec 8)

/-- The node after some writes. -/
def writes : List FileWrite → TmpfsNode → Result TmpfsNode
  | [],node => pure node
  | w::ws,node => do writes ws (← node.write w.supply w.offset w.data).2

/-- The file that they should make. -/
def written (ws : List FileWrite) (f : File) : File :=
  ws.foldl (fun f w => f.write w.offset w.data) f

/-- Each write can be made when its turn comes. -/
def CanWriteAll : List FileWrite → TmpfsNode → Prop
  | [],_ => True
  | w::ws,node => node.CanWrite w.supply w.offset w.data.length ∧
      ∀ r node', node.write w.supply w.offset w.data = .ok (r,node') → CanWriteAll ws node'

theorem writes_ok (ws : List FileWrite) : ∀ {node : TmpfsNode} {f : File}, node.Holds f →
    CanWriteAll ws node → ∃ node', writes ws node = .ok node' ∧ node'.Holds (written ws f) := by
  induction ws with
  | nil => exact fun {node _} h _ => ⟨node,rfl,h⟩
  | cons w ws ih =>
    intro node f h hcan
    obtain ⟨one,hone,hholds⟩ := write_ok h hcan.1
    obtain ⟨node',hok,hnode⟩ := ih hholds (hcan.2 _ one hone)
    refine ⟨node',?_,hnode⟩
    rw [writes]
    exact Result.bind_eq_ok.mpr ⟨_,hone,hok⟩

/-- After writes that can be made, reads through a fresh node return the file. -/
theorem reads_written (memory : Mem) (ws : List FileWrite) (hcan : CanWriteAll ws (create memory)) :
    ∃ node, writes ws (create memory) = .ok node ∧ node.size = (written ws .empty).size ∧
      ∀ supply offset size, (size ≠ 0 → offset ≤ node.size → node.CanRead supply offset size) →
        ∃ restored, node.read supply node.size offset size =
          .ok ⟨((written ws .empty).read offset size).length,
              (written ws .empty).read offset size,restored⟩ := by
  obtain ⟨node,hok,hholds⟩ := writes_ok ws (create_holds memory) hcan
  exact ⟨node,hok,hholds.size,fun _ _ _ h => (read_ok hholds h).imp fun _ hread => hread.1⟩

def plenty : Supply where
  heap := fun _ => true
  pages := fun _ => true
  words := fun _ => 1
  bytes := fun _ => 0

theorem reads_written_three :
    ∃ node, writes [⟨plenty,0,[1,2,3]⟩] (create fun _ => 0) = .ok node ∧
      node.size = (written [⟨plenty,0,[1,2,3]⟩] .empty).size ∧
        ∀ supply offset size, (size ≠ 0 → offset ≤ node.size → node.CanRead supply offset size) →
          ∃ restored, node.read supply node.size offset size =
            .ok ⟨((written [⟨plenty,0,[1,2,3]⟩] .empty).read offset size).length,
              (written [⟨plenty,0,[1,2,3]⟩] .empty).read offset size,restored⟩ := by
  apply reads_written (fun _ => 0) [⟨plenty,0,[1,2,3]⟩]
  refine ⟨⟨by decide,rfl,Or.inr (by decide),by decide,fun _ =>
    ⟨by decide,by decide,fun _ => rfl,rfl,fun _ _ => rfl,by decide⟩⟩,fun _ _ _ => trivial⟩

/-- A byte written at offset 1 is not read there, and an empty file cannot be read. -/
theorem byte_misplaced :
    (∃ node, writes [⟨plenty,1,[1]⟩] (create fun _ => 0) = .ok node ∧
        node.read plenty node.size 0 2 = .ok ⟨2,[0,0],true⟩ ∧
          (written [⟨plenty,1,[1]⟩] .empty).read 0 2 = [0,1]) ∧
      (create fun _ => 0).read plenty 0 0 1 = .error (.panic "Page fault at 0x00000000") := by
  refine ⟨?_,rfl⟩
  have h : ((writes [⟨plenty,1,[1]⟩] (create fun _ => 0)).toOption.any fun node =>
      decide ((node.read plenty node.size 0 2).toOption = some ⟨2,[0,0],true⟩)) = true := by
    decide +kernel
  obtain ⟨node,hwrites,h⟩ := (Option.any_eq_true _ _).mp h
  exact ⟨node,Result.eq_ok_of_toOption hwrites,
    Result.eq_ok_of_toOption (of_decide_eq_true h),by decide⟩

end TmpfsNode
end ScalesOS
