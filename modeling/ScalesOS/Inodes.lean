import ScalesOS.BlockCache
import ScalesOS.RecordTables

/-! Inodes of the ext2 driver: reading and writing them, their cache, and reading the
contents of a file through its block pointers. -/
namespace ScalesOS
open ByteMemory Storage

def INODES_PER_CACHE : ℕ := 256
def DIRECT_BLOCK_CAPACITY : ℕ := 12

namespace Inode

def sizeLow (ino : Mem) : ℕ := read32 ino 4
def setAccessTime (ino : Mem) (time : ℕ) : Mem := write32 ino 8 time
def blockPointer (ino : Mem) (i : ℕ) : ℕ := read32 ino (40+4*i)
def setBlockPointer (ino : Mem) (i block : ℕ) : Mem := write32 ino (40+4*i) block
def singlePointer (ino : Mem) : ℕ := read32 ino 88
def doublePointer (ino : Mem) : ℕ := read32 ino 92
def triplePointer (ino : Mem) : ℕ := read32 ino 96

def Kept (x : ℕ) : Prop := x < 8 ∨ 12 ≤ x

instance (x : ℕ) : Decidable (Kept x) := by unfold Kept; infer_instance

end Inode

namespace Ext2Fs
variable (fs : Ext2Fs)

def groupFromInode (inode : ℕ) : ℕ := (inode-1)/fs.superblock.inodes_per_group
def indexFromInode (inode : ℕ) : ℕ := (inode-1)%fs.superblock.inodes_per_group
def blockFromIndex (index : ℕ) : ℕ := index*fs.superblock.inode_size/fs.blockSize

/-- `target_block`. -/
def inodeBlock (inode : ℕ) : ℕ :=
  (fs.bgds (fs.groupFromInode inode)).inode_table+fs.blockFromIndex (fs.indexFromInode inode)

def innerOffset (inode : ℕ) : ℕ :=
  let index := fs.indexFromInode inode
  index-fs.blockFromIndex index*(fs.blockSize/fs.superblock.inode_size)

def tryGetCachedInode (inode now : ℕ) : Option Mem × Ext2Fs :=
  match MoveToFront.lookup (fun c_ino : CachedInode =>
      c_ino.inode_number = inode) fs.inode_cache with
  | none => (none,fs)
  | some (c_ino,cache) =>
    let ino := Inode.setAccessTime c_ino.inode now
    (some ino,{fs with inode_cache := ⟨c_ino.inode_number,ino⟩::cache.tail})

def cacheInode (inode : ℕ) (ino : Mem) (now : ℕ) : Ext2Fs :=
  {fs with inode_cache :=
    MoveToFront.push INODES_PER_CACHE ⟨inode,Inode.setAccessTime ino now⟩ fs.inode_cache}

def invalidateInode (inode : ℕ) : Ext2Fs :=
  {fs with inode_cache := fs.inode_cache.eraseP fun c_ino => c_ino.inode_number = inode}

/-- A buffer of its own that a block is read into. `heap` is what is in fresh memory. -/
def readBuffer (heap : Mem) (block readahead : ℕ) : Mem × Ext2Fs :=
  let r := fs.readBlock block readahead
  (store heap 0 r.1.2,r.2)

def readInode (heap : Mem) (inode now : ℕ) : Option Mem × Ext2Fs :=
  if inode = 0 then (none,fs)
  else
    match fs.tryGetCachedInode inode now with
    | (some ino,fs) => (some ino,fs)
    | (none,fs) =>
      let r := fs.readBuffer heap (fs.inodeBlock inode) 0
      let ino : Mem := fun x => r.1 (fs.innerOffset inode*fs.superblock.inode_size+x)
      (some ino,r.2.cacheInode inode ino now)

/-- `k_fs_vfs_write` of the device. The caches are left as they are. -/
def writeDevice (offset : ℕ) (data : List (BitVec 8)) : Ext2Fs :=
  {fs with device := fs.device.write offset data}

def writeInode (inode : ℕ) (inode_data : Mem) : Ext2Fs :=
  let offset := (fs.inodeBlock inode*fs.blockSize+fs.innerOffset inode*fs.superblock.inode_size)%W32
  (fs.writeDevice offset (load inode_data 0 fs.superblock.inode_size)).invalidateInode inode

def singleCapacity : ℕ := fs.blockSize/4
def doubleCapacity : ℕ := fs.blockSize/4*fs.singleCapacity%W32
def tripleCapacity : ℕ := fs.blockSize/4*fs.doubleCapacity%W32

/-- The word with index `i` of a buffer; the index is unsigned. -/
def bufferWord (buffer : Mem) (i : ℕ) : ℕ := read32 buffer (4*i%W32)

/-- `__ext2_resolve_single_indirect_block`. -/
def resolveSingle (heap : Mem) (pointer block_offset : ℕ) : ℕ × Ext2Fs :=
  if pointer = 0 then (0,fs)
  else
    let r := fs.readBuffer heap pointer 0
    (bufferWord r.1 (sub32 block_offset DIRECT_BLOCK_CAPACITY),r.2)

/-- `__ext2_resolve_double_indirect_block`. -/
def resolveDouble (heap : Mem) (pointer block_offset : ℕ) : ℕ × Ext2Fs :=
  if pointer = 0 then (0,fs)
  else
    let extra_offset := sub32 block_offset fs.singleCapacity
    let r := fs.readBuffer heap pointer 0
    r.2.resolveSingle heap (bufferWord r.1 (extra_offset/fs.singleCapacity))
      (extra_offset%fs.singleCapacity)

/-- `__ext2_resolve_triple_indirect_block`. The macro for the capacity of a double indirect
block has no parentheses around it, so the quotient and the remainder are taken by the
first of its factors and multiplied by the second. -/
def resolveTriple (heap : Mem) (pointer block_offset : ℕ) : ℕ × Ext2Fs :=
  if pointer = 0 then (0,fs)
  else
    let extra_offset := sub32 block_offset fs.doubleCapacity
    let r := fs.readBuffer heap pointer 0
    r.2.resolveDouble heap (bufferWord r.1 (extra_offset/fs.singleCapacity*fs.singleCapacity))
      (extra_offset%fs.singleCapacity*fs.singleCapacity%W32)

def blockFromOffset (heap : Mem) (ino : Mem) (block_offset : ℕ) : ℕ × Ext2Fs :=
  if block_offset < DIRECT_BLOCK_CAPACITY then (Inode.blockPointer ino block_offset,fs)
  else if block_offset < fs.singleCapacity ∧ Inode.singlePointer ino ≠ 0 then
    fs.resolveSingle heap (Inode.singlePointer ino) block_offset
  else if block_offset < fs.doubleCapacity ∧ Inode.doublePointer ino ≠ 0 then
    fs.resolveDouble heap (Inode.doublePointer ino) block_offset
  else if block_offset < fs.tripleCapacity ∧ Inode.triplePointer ino ≠ 0 then
    fs.resolveTriple heap (Inode.triplePointer ino) block_offset
  else (0,fs)

/-- The loop of `__ext2_read_inode_contents`. It has what was copied before as its last
argument, and each turn copies something, so `size` turns are enough. -/
def contentsLoop (heap ino : Mem) : (turns size block_offset part_offset : ℕ) → Mem → Ext2Fs →
    List (BitVec 8) → List (BitVec 8) × Ext2Fs
  | 0,_,_,_,_,fs,copied => (copied,fs)
  | turns+1,size,block_offset,part_offset,block_buffer,fs,copied =>
    if size = 0 then (copied,fs)
    else
      let target := fs.blockFromOffset heap ino block_offset
      if target.1 = 0 then (copied,target.2)
      else
        let ahead := (sub32 (Inode.sizeLow ino/fs.blockSize) block_offset+1)*fs.blockSize%W32
        let r := target.2.readBuffer block_buffer target.1 ahead
        if size ≤ fs.blockSize-part_offset then (copied++load r.1 part_offset size,r.2)
        else
          contentsLoop heap ino turns (size-(fs.blockSize-part_offset)) (block_offset+1) 0 r.1 r.2
            (copied++load r.1 part_offset (fs.blockSize-part_offset))

/-- `__ext2_read_inode_contents`: what it stores in the caller's buffer, as many bytes as
its value says. -/
def readInodeContents (heap ino : Mem) (offset size : ℕ) : List (BitVec 8) × Ext2Fs :=
  if Inode.sizeLow ino ≤ offset then ([],fs)
  else
    let size := if Inode.sizeLow ino ≤ (offset+size)%W32 then Inode.sizeLow ino-offset else size
    contentsLoop heap ino size size (offset/fs.blockSize) (offset%fs.blockSize) heap fs []

/-- `__ext2_read`; `none` stands for its value -1. -/
def read (heap : Mem) (inode offset size now : ℕ) : Option (List (BitVec 8)) × Ext2Fs :=
  if size = 0 then (some [],fs)
  else
    match fs.readInode heap inode now with
    | (none,fs) => (none,fs)
    | (some ino,fs) =>
      let r := fs.readInodeContents heap ino offset size
      (some r.1,r.2)

/-- A volume whose blocks fit the readahead buffer, with a whole number of inodes in each. -/
structure Volume : Prop where
  image : fs.Image
  small : fs.blockSize ≤ MAX_READAHEAD
  inode_size : 128 ≤ fs.superblock.inode_size
  inodes_fit : fs.superblock.inode_size ∣ fs.blockSize

/-- An inode of the volume. -/
structure HasInode (inode : ℕ) : Prop where
  ne_zero : inode ≠ 0
  lt_total : fs.inodeBlock inode < fs.superblock.total_blocks

def inodeAddress (inode : ℕ) : ℕ :=
  fs.inodeBlock inode*fs.blockSize+fs.innerOffset inode*fs.superblock.inode_size

/-- `ino` is what the device holds of an inode, up to its access time. -/
def DeviceInode (inode : ℕ) (ino : Mem) : Prop :=
  ∀ x < fs.superblock.inode_size, Inode.Kept x → ino x = fs.device.byte (fs.inodeAddress inode+x)

/-- Every cached block and every cached inode is what the device holds. -/
structure Coherent : Prop where
  blocks : fs.BlocksOk
  inodes : ∀ c_ino ∈ fs.inode_cache, fs.DeviceInode c_ino.inode_number c_ino.inode
  distinct : (fs.inode_cache.map CachedInode.inode_number).Nodup

end Ext2Fs

namespace Ext2Fs
variable {fs gs hs : Ext2Fs} {heap ino : Mem} {block readahead inode now : ℕ}

theorem SameLayout.inodeBlock (h : SameLayout fs gs) (inode : ℕ) :
    gs.inodeBlock inode = fs.inodeBlock inode := by
  simp only [Ext2Fs.inodeBlock,groupFromInode,indexFromInode,blockFromIndex,h.superblock,
    h.blockSize,h.bgds]

theorem SameLayout.innerOffset (h : SameLayout fs gs) (inode : ℕ) :
    gs.innerOffset inode = fs.innerOffset inode := by
  simp only [Ext2Fs.innerOffset,indexFromInode,blockFromIndex,h.superblock,h.blockSize]

theorem SameLayout.inodeAddress (h : SameLayout fs gs) (inode : ℕ) :
    gs.inodeAddress inode = fs.inodeAddress inode := by
  rw [Ext2Fs.inodeAddress,h.inodeBlock,h.innerOffset,h.blockSize,h.superblock,Ext2Fs.inodeAddress]

theorem SameVolume.deviceInode (h : SameVolume fs gs) : gs.DeviceInode inode ino ↔
    fs.DeviceInode inode ino := by
  rw [DeviceInode,DeviceInode,h.superblock,h.device,h.layout.inodeAddress]

theorem SameLayout.isVolume (h : SameLayout fs gs) (hv : fs.Volume) : gs.Volume := by
  refine ⟨h.image hv.image,?_,?_,?_⟩
  · rw [h.blockSize]
    exact hv.small
  · rw [h.superblock]
    exact hv.inode_size
  · rw [h.superblock,h.blockSize]
    exact hv.inodes_fit

theorem SameLayout.hasInode (h : SameLayout fs gs) : gs.HasInode inode ↔ fs.HasInode inode := by
  constructor <;> intro hi <;> refine ⟨hi.ne_zero,?_⟩
  · have := hi.lt_total
    rwa [h.inodeBlock,h.superblock] at this
  · rw [h.inodeBlock,h.superblock]
    exact hi.lt_total

theorem Volume.ahead (hv : fs.Volume) (h : fs.blockSize ∣ readahead) : fs.Ahead readahead :=
  ⟨h,Or.inr hv.small⟩

theorem Volume.innerOffset_le (hv : fs.Volume) (inode : ℕ) :
    fs.innerOffset inode*fs.superblock.inode_size+fs.superblock.inode_size ≤ fs.blockSize :=
  RecordTables.inner_le blockSize_pos hv.inodes_fit

/-- `gs` is `fs` after reads of blocks. -/
structure ReadsOnly (fs gs : Ext2Fs) : Prop where
  same : SameButBlocks fs gs
  blocksOk : fs.Volume → fs.BlocksOk → gs.BlocksOk

theorem ReadsOnly.refl : ReadsOnly fs fs := ⟨.refl,fun _ h => h⟩

theorem ReadsOnly.trans (h : ReadsOnly fs gs) (h' : ReadsOnly gs hs) : ReadsOnly fs hs :=
  ⟨h.same.trans h'.same,fun hv hok => h'.blocksOk (h.same.layout.isVolume hv) (h.blocksOk hv hok)⟩

theorem ReadsOnly.coherent (h : ReadsOnly fs gs) (hv : fs.Volume) (hc : fs.Coherent) :
    gs.Coherent := by
  refine ⟨h.blocksOk hv hc.blocks,?_,?_⟩
  · rw [h.same.inodes]
    intro c_ino hmem
    exact h.same.deviceInode.mpr (hc.inodes c_ino hmem)
  · rw [h.same.inodes]
    exact hc.distinct

theorem readBuffer_reads (fs : Ext2Fs) (heap : Mem) (block : ℕ)
    (hahead : fs.Volume → fs.blockSize ∣ readahead) :
    ReadsOnly fs (fs.readBuffer heap block readahead).2 :=
  ⟨readBlock_same fs block readahead,fun hv hok =>
    (readBlock_ok hv.image hok (hv.ahead (hahead hv))).1⟩

theorem readBuffer_apply (hv : fs.Volume) (hok : fs.BlocksOk) (heap : Mem)
    (hblock : block < fs.superblock.total_blocks) (hahead : fs.blockSize ∣ readahead) :
    ∀ x < fs.blockSize, (fs.readBuffer heap block readahead).1 x =
        fs.device.byte (block*fs.blockSize+x) := by
  intro x hx
  rw [readBuffer,(readBlock_ok hv.image hok (hv.ahead hahead)).2 hblock]
  dsimp only
  rw [deviceBlock,store_load,if_pos (by omega),Nat.sub_zero]

theorem setAccessTime_kept (ino : Mem) (time : ℕ) {x : ℕ} (h : Inode.Kept x) :
    Inode.setAccessTime ino time x = ino x :=
  write32_outside ino h

theorem DeviceInode.setAccessTime (h : fs.DeviceInode inode ino) (time : ℕ) :
    fs.DeviceInode inode (Inode.setAccessTime ino time) := by
  intro x hx hkept
  rw [setAccessTime_kept ino time hkept]
  exact h x hx hkept

theorem tryGetCachedInode_same (fs : Ext2Fs) (inode now : ℕ) :
    SameVolume fs (fs.tryGetCachedInode inode now).2 := by
  rw [tryGetCachedInode]
  split <;> exact ⟨rfl,rfl,rfl⟩

theorem tryGetCachedInode_none (h : (fs.tryGetCachedInode inode now).1 = none) :
    (fs.tryGetCachedInode inode now).2 = fs ∧ inode ∉
    fs.inode_cache.map CachedInode.inode_number := by
  rw [tryGetCachedInode] at h ⊢
  split at h
  · rename_i hlookup
    refine ⟨rfl,?_⟩
    intro hin
    obtain ⟨c_ino,hmem,hnumber⟩ := List.mem_map.mp hin
    exact MoveToFront.lookup_eq_none hlookup c_ino hmem (decide_eq_true hnumber)
  · cases h

/-- A cached inode is the device's, and the cache stays right when it is moved to the
front. -/
theorem tryGetCachedInode_ok (hc : fs.Coherent) (inode now : ℕ) :
    (fs.tryGetCachedInode inode now).2.Coherent ∧
      ∀ ino, (fs.tryGetCachedInode inode now).1 = some ino → fs.DeviceInode inode ino := by
  rw [tryGetCachedInode]
  split
  · exact ⟨hc,fun ino h => by cases h⟩
  · rename_i c_ino cache hlookup
    obtain ⟨hkey,hmem,hperm⟩ := MoveToFront.lookup_eq_some hlookup
    have hnumber : c_ino.inode_number = inode := of_decide_eq_true hkey
    have hfirst : cache = c_ino::cache.tail := by
      obtain ⟨a,_,heq⟩ := Option.map_eq_some_iff.mp hlookup
      obtain ⟨rfl,rfl⟩ := Prod.mk.inj heq
      rfl
    have hdevice := (hc.inodes c_ino hmem).setAccessTime now
    refine ⟨⟨hc.blocks,?_,?_⟩,?_⟩
    · intro c hcmem
      rcases List.mem_cons.mp hcmem with rfl | hcmem
      · exact hdevice
      · apply hc.inodes c
        apply hperm.subset
        rw [hfirst]
        exact List.mem_cons_of_mem _ hcmem
    · have hdistinct := (hperm.map CachedInode.inode_number).nodup_iff.mpr hc.distinct
      rw [hfirst] at hdistinct
      exact hdistinct
    · intro ino hino
      rw [← Option.some.inj hino,← hnumber]
      exact hdevice

theorem Coherent.cacheInode (hc : fs.Coherent) (hino : fs.DeviceInode inode ino)
    (hnew : inode ∉ fs.inode_cache.map CachedInode.inode_number) (now : ℕ) :
    (fs.cacheInode inode ino now).Coherent := by
  refine ⟨hc.blocks,?_,?_⟩
  · intro c hmem
    rcases MoveToFront.mem_push hmem with rfl | hmem
    · exact hino.setAccessTime now
    · exact hc.inodes c hmem
  · apply ((MoveToFront.push_sublist).map CachedInode.inode_number).nodup
    exact List.nodup_cons.mpr ⟨hnew,hc.distinct⟩

/-- Reading an inode gives what the device holds of it, up to the access time, and leaves
the caches right. -/
theorem readInode_ok (hv : fs.Volume) (hc : fs.Coherent) (hi : fs.HasInode inode)
    (heap : Mem) (now : ℕ) :
    SameVolume fs (fs.readInode heap inode now).2 ∧ (fs.readInode heap inode now).2.Coherent ∧
      ∃ ino, (fs.readInode heap inode now).1 = some ino ∧ fs.DeviceInode inode ino := by
  have hsame := tryGetCachedInode_same fs inode now
  obtain ⟨hc',hcached⟩ := tryGetCachedInode_ok hc inode now
  rw [readInode,if_neg hi.ne_zero]
  split
  · rename_i ino gs hget
    rw [hget] at hsame hc'
    exact ⟨hsame,hc',ino,rfl,hcached ino (congrArg Prod.fst hget)⟩
  · rename_i gs hget
    obtain ⟨hgs,hnew⟩ := tryGetCachedInode_none (congrArg Prod.fst hget)
    rw [hget] at hgs
    obtain rfl : gs = fs := hgs
    have hreads := readBuffer_reads gs heap (gs.inodeBlock inode) (fun _ => dvd_zero gs.blockSize)
    have hbuffer := readBuffer_apply hv hc.blocks heap hi.lt_total (dvd_zero gs.blockSize)
    have hinner := hv.innerOffset_le inode
    have hino : gs.DeviceInode inode
        fun x => (gs.readBuffer heap (gs.inodeBlock inode) 0).1
            (gs.innerOffset inode*gs.superblock.inode_size+x) := by
      intro x hx _
      dsimp only
      rw [hbuffer _ (by omega),inodeAddress,Nat.add_assoc]
    refine ⟨hreads.same.toSameVolume.trans ⟨rfl,rfl,rfl⟩,?_,_,rfl,hino⟩
    apply (hreads.coherent hv hc).cacheInode (hreads.same.deviceInode.mpr hino)
    rw [hreads.same.inodes]
    exact hnew

theorem resolveSingle_reads (fs : Ext2Fs) (heap : Mem) (pointer block_offset : ℕ) :
    ReadsOnly fs (fs.resolveSingle heap pointer block_offset).2 := by
  rw [resolveSingle]
  split
  · exact .refl
  · exact readBuffer_reads fs heap pointer fun _ => dvd_zero _

theorem resolveDouble_reads (fs : Ext2Fs) (heap : Mem) (pointer block_offset : ℕ) :
    ReadsOnly fs (fs.resolveDouble heap pointer block_offset).2 := by
  rw [resolveDouble]
  split
  · exact .refl
  · exact (readBuffer_reads fs heap pointer fun _ => dvd_zero _).trans (resolveSingle_reads _ _ _ _)

theorem resolveTriple_reads (fs : Ext2Fs) (heap : Mem) (pointer block_offset : ℕ) :
    ReadsOnly fs (fs.resolveTriple heap pointer block_offset).2 := by
  rw [resolveTriple]
  split
  · exact .refl
  · exact (readBuffer_reads fs heap pointer fun _ => dvd_zero _).trans (resolveDouble_reads _ _ _ _)

theorem blockFromOffset_reads (fs : Ext2Fs) (heap ino : Mem) (block_offset : ℕ) :
    ReadsOnly fs (fs.blockFromOffset heap ino block_offset).2 := by
  rw [blockFromOffset]
  split_ifs
  · exact .refl
  · exact resolveSingle_reads _ _ _ _
  · exact resolveDouble_reads _ _ _ _
  · exact resolveTriple_reads _ _ _ _
  · exact .refl

/-- Block sizes are powers of two, so a product of 32 bits is still a whole number of
blocks. -/
theorem Volume.dvd_ahead (hv : fs.Volume) (n : ℕ) : fs.blockSize ∣ n*fs.blockSize%W32 := by
  have hword : fs.blockSize ∣ W32 := (blockSize_dvd_readahead hv.small).trans (by decide)
  exact (Nat.dvd_mod_iff hword).mpr (Nat.dvd_mul_left _ _)

theorem contentsLoop_reads (heap ino : Mem) (turns : ℕ) : ∀ (size block_offset part_offset : ℕ)
    (block_buffer : Mem) (fs : Ext2Fs) (copied : List (BitVec 8)),
    ReadsOnly fs (contentsLoop heap ino turns size block_offset part_offset block_buffer
      fs copied).2 := by
  induction turns with
  | zero => exact fun _ _ _ _ _ _ => .refl
  | succ turns ih =>
    intro size block_offset part_offset block_buffer fs copied
    rw [contentsLoop]
    dsimp only
    have htarget := blockFromOffset_reads fs heap ino block_offset
    have hahead : (fs.blockFromOffset heap ino block_offset).2.Volume →
        (fs.blockFromOffset heap ino block_offset).2.blockSize ∣
          (sub32 (Inode.sizeLow ino/fs.blockSize) block_offset+1)*fs.blockSize%W32 := by
      rw [← htarget.same.layout.blockSize]
      exact fun hv => hv.dvd_ahead _
    have hread :=
      htarget.trans (readBuffer_reads _ block_buffer
        (fs.blockFromOffset heap ino block_offset).1 hahead)
    split_ifs
    · exact .refl
    · exact htarget
    · exact hread
    · exact hread.trans (ih _ _ _ _ _ _)

theorem readInodeContents_reads (fs : Ext2Fs) (heap ino : Mem) (offset size : ℕ) :
    ReadsOnly fs (fs.readInodeContents heap ino offset size).2 := by
  rw [readInodeContents]
  split
  · exact .refl
  · exact contentsLoop_reads _ _ _ _ _ _ _ _ _

end Ext2Fs
end ScalesOS
