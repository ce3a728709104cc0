import ScalesOS.BlockAllocation

/-! `__ext2_write`, and the calls into the driver. An inode is taken out of the cache of inodes
when it is written, but no write takes a block out of the cache of blocks. -/
namespace ScalesOS
open ByteMemory Storage

section
variable (block_size offset size : ℕ)

def partNeededBefore : ℕ :=
  let part := block_size-offset%block_size
  if part = block_size then 0 else part

def partNeededAfter : ℕ := sub32 (sub32 size (size/block_size)) (partNeededBefore block_size offset)

def totalBlocks : ℕ :=
  size/block_size+(if 0 < partNeededAfter block_size offset size then 1 else 0)+
    (if 0 < partNeededBefore block_size offset then 1 else 0)

def totalOffset : ℕ := sub32 (offset/block_size) (if 0 < offset%block_size then 1 else 0)

end

def countAllocatedBlocks (ino : Mem) : ℕ :=
  ((List.range DIRECT_BLOCK_CAPACITY).takeWhile fun i => Inode.blockPointer ino i ≠ 0).length

/-- The inode and the size that a node of a file has. -/
structure FileNode where
  inode : ℕ
  size : ℕ

namespace Ext2Fs
variable (fs : Ext2Fs)

def allocateFor (heap : Mem) (inode : ℕ) (ino : Mem) (blocks_needed : ℕ) : Result (Mem × Ext2Fs) :=
  let allocated_blocks := countAllocatedBlocks ino
  if allocated_blocks < blocks_needed then do
    let r ← fs.allocateBlocksForInode heap inode ino (blocks_needed-allocated_blocks)
    pure (r.1.ino,r.2)
  else pure (ino,fs)

/-- What `__ext2_write` does with the inode. The blocks of the file are read into a buffer,
the data are put over them, and the buffer goes to the address that the blocks have in the
file. The buffer is `internal_buffer` when it is fresh. -/
def writeContents (heap internal_buffer : Mem) (inode : ℕ) (ino : Mem) (offset : ℕ)
    (data : List (BitVec 8)) :
    ℕ × Ext2Fs :=
  let start := totalOffset fs.blockSize offset*fs.blockSize%W32
  let n := totalBlocks fs.blockSize offset data.length*fs.blockSize%W32
  let r := fs.readInodeContents heap ino start n
  let buffer := store (store internal_buffer 0 r.1) (offset%fs.blockSize) data
  (r.2.device.available start n,(r.2.writeDevice start (load buffer 0 n)).writeInode inode ino)

def write (heap internal_buffer : Mem) (node : FileNode) (offset : ℕ)
    (data : List (BitVec 8)) (now : ℕ) :
    Result (ℕ × Ext2Fs) :=
  if node.size ≤ offset then pure (0,fs)
  else
    match fs.readInode heap node.inode now with
    | (none,fs) => pure (0,fs)
    | (some ino,fs) => do
      let r ← fs.allocateFor heap node.inode ino (data.length/fs.blockSize)
      pure (r.2.writeContents heap internal_buffer node.inode r.1 offset data)

end Ext2Fs

namespace Ext2Fs
variable (fs : Ext2Fs)

/-- The calls into the driver. A call brings what is in fresh memory and the time. -/
inductive Ext2Call
  | readBlock (block readahead : ℕ)
  | readInode (heap : Mem) (inode now : ℕ)
  | writeInode (inode : ℕ) (inode_data : Mem)
  | allocate (call : AllocationCall)
  | read (heap : Mem) (inode offset size now : ℕ)
  | write (heap internal_buffer : Mem) (node : FileNode) (offset : ℕ)
      (data : List (BitVec 8)) (now : ℕ)

/-- Inodes are those of the volume, and readahead is a whole number of blocks. -/
def May : Ext2Call → Prop
  | .readBlock _ readahead => fs.Ahead readahead
  | .readInode _ inode _ => fs.HasInode inode
  | .writeInode inode _ => fs.HasInode inode
  | .allocate _ => True
  | .read _ inode _ _ _ => fs.HasInode inode
  | .write _ _ node _ _ _ => fs.HasInode node.inode

def call : Ext2Call → Result Ext2Fs
  | .readBlock block readahead => pure (fs.readBlock block readahead).2
  | .readInode heap inode now => pure (fs.readInode heap inode now).2
  | .writeInode inode inode_data => pure (fs.writeInode inode inode_data)
  | .allocate c => do pure (← fs.allocate c).2
  | .read heap inode offset size now => pure (fs.read heap inode offset size now).2
  | .write heap internal_buffer node offset data now => do
    pure (← fs.write heap internal_buffer node offset data now).2

/-- `t` is `s` after a call. -/
def Called (s t : Ext2Fs) : Prop := ∃ c, s.May c ∧ s.call c = .ok t

/-- Blocks and inodes are read as they are on the device, and nothing else is cached. -/
structure ReadsDevice (fs : Ext2Fs) : Prop where
  coherent : fs.Coherent
  block : ∀ block < fs.superblock.total_blocks, ∀ readahead, fs.Ahead readahead →
    (fs.readBlock block readahead).1 = (fs.blockSize,fs.deviceBlock block)
  inode : ∀ inode, fs.HasInode inode → ∀ heap now, ∃ ino,
    (fs.readInode heap inode now).1 = some ino ∧ fs.DeviceInode inode ino

/-- What is written to an inode is what is read of it next, up to the access time. -/
def ReadsWritten (fs : Ext2Fs) (inode : ℕ) (inode_data : Mem) : Prop :=
  ∀ heap now, ∃ ino, ((fs.writeInode inode inode_data).readInode heap inode now).1 = some ino ∧
    ∀ x < fs.superblock.inode_size, Inode.Kept x → ino x = inode_data x

end Ext2Fs

namespace Ext2Fs
variable {fs gs hs : Ext2Fs} {heap ino : Mem} {block readahead inode now : ℕ}

theorem SameLayout.refl : SameLayout fs fs := ⟨rfl,rfl,rfl⟩

theorem SameLayout.trans (h : SameLayout fs gs) (h' : SameLayout gs hs) : SameLayout fs hs :=
  ⟨h'.superblock.trans h.superblock,h'.bgds.trans h.bgds,h'.size.trans h.size⟩

theorem readInode_same (fs : Ext2Fs) (heap : Mem) (inode now : ℕ) :
    SameVolume fs (fs.readInode heap inode now).2 := by
  have htry := tryGetCachedInode_same fs inode now
  rw [readInode]
  split
  · exact .refl
  · split
    · rename_i hget
      rwa [hget] at htry
    · rename_i gs hget
      rw [hget] at htry
      exact htry.trans ((readBlock_same gs _ 0).toSameVolume.trans ⟨rfl,rfl,rfl⟩)

theorem writeDevice_layout (fs : Ext2Fs) (offset : ℕ) (data : List (BitVec 8)) :
    SameLayout fs (fs.writeDevice offset data) := ⟨rfl,rfl,rfl⟩

theorem writeInode_layout (fs : Ext2Fs) (inode : ℕ) (inode_data : Mem) :
    SameLayout fs (fs.writeInode inode inode_data) :=
  ⟨rfl,rfl,rfl⟩

theorem allocate_layout {call : AllocationCall} {s : Allocation}
    (h : fs.allocate call = .ok (s,gs)) :
    SameLayout fs gs := by
  rcases allocate_cases h with ⟨-,rfl⟩ | ⟨-,hs,hreads,rfl⟩
  · exact .refl
  · exact hreads.same.layout.trans (writeDevice_layout _ _ _)

theorem allocateFor_layout {ino' : Mem} {blocks_needed : ℕ}
    (h : fs.allocateFor heap inode ino blocks_needed = .ok (ino',gs)) :
    SameLayout fs gs := by
  rw [allocateFor] at h
  split at h
  · obtain ⟨⟨s,t⟩,hok,hpure⟩ := Result.bind_eq_ok.mp h
    obtain ⟨-,rfl⟩ := Prod.mk.inj (Except.ok.inj hpure)
    exact allocate_layout (show fs.allocate ⟨heap,inode,ino,_⟩ = .ok (s,t) from hok)
  · obtain ⟨-,rfl⟩ := Prod.mk.inj (Except.ok.inj h)
    exact .refl

theorem writeContents_layout (fs : Ext2Fs) (heap internal_buffer : Mem) (inode : ℕ)
    (ino : Mem) (offset : ℕ) (data : List (BitVec 8)) :
    SameLayout fs (fs.writeContents heap internal_buffer inode ino offset data).2 := by
  rw [writeContents]
  exact ((readInodeContents_reads _ _ _ _ _).same.layout.trans (writeDevice_layout _ _ _)).trans
    (writeInode_layout _ _ _)

theorem Volume.inodeAddress_le (hv : fs.Volume) (hi : fs.HasInode inode) :
    fs.inodeAddress inode+fs.superblock.inode_size ≤ fs.device.size := by
  have hblock := hv.image.block_le hi.lt_total
  have hinner := hv.innerOffset_le inode
  rw [inodeAddress]
  omega

theorem Volume.inodeAddress_mod (hv : fs.Volume) (hi : fs.HasInode inode) :
    (fs.inodeBlock inode*fs.blockSize+fs.innerOffset inode*fs.superblock.inode_size)%W32 =
    fs.inodeAddress inode := by
  apply Nat.mod_eq_of_lt
  have hle := hv.inodeAddress_le hi
  have hlt := hv.image.size_lt
  rw [inodeAddress] at hle
  omega

theorem writeInode_device (hv : fs.Volume) (hi : fs.HasInode inode) (inode_data : Mem) {x : ℕ}
    (hx : x < fs.superblock.inode_size) :
    (fs.writeInode inode inode_data).device.byte (fs.inodeAddress inode+x) = inode_data x := by
  have hle := hv.inodeAddress_le hi
  rw [writeInode,invalidateInode,writeDevice,hv.inodeAddress_mod hi]
  dsimp only
  rw [Device.byte_write_eq,length_load,if_pos ⟨by omega,by omega,by omega⟩,Nat.add_sub_cancel_left,
    getD_load _ _ hx,Nat.zero_add]

theorem read_same (fs : Ext2Fs) (heap : Mem) (inode offset size now : ℕ) :
    SameVolume fs (fs.read heap inode offset size now).2 := by
  have hread := readInode_same fs heap inode now
  rw [read]
  split
  · exact .refl
  · split
    · rename_i hget
      rwa [hget] at hread
    · rename_i hget
      rw [hget] at hread
      exact hread.trans (readInodeContents_reads _ _ _ _ _).same.toSameVolume

theorem read_coherent (hv : fs.Volume) (hc : fs.Coherent) (hi : fs.HasInode inode) (heap : Mem)
    (offset size now : ℕ) :
    (fs.read heap inode offset size now).2.Coherent := by
  obtain ⟨hsame,hc',ino,hread,-⟩ := readInode_ok hv hc hi heap now
  rcases hget : fs.readInode heap inode now with ⟨found,gs⟩
  rw [hget] at hsame hc' hread
  obtain rfl : found = some ino := hread
  rw [read]
  split
  · exact hc
  · rw [hget]
    exact (readInodeContents_reads _ _ _ _ _).coherent (hsame.layout.isVolume hv) hc'

theorem write_cases {internal_buffer : Mem} {node : FileNode} {offset r : ℕ}
    {data : List (BitVec 8)} (h : fs.write heap internal_buffer node offset data now = .ok (r,gs)) :
    r = 0 ∧ gs = fs ∨ r = 0 ∧ gs = (fs.readInode heap node.inode now).2 ∨
      offset < node.size ∧ ∃ ino s, fs.readInode heap node.inode now = (some ino,s) ∧
        ∃ ino' t, s.allocateFor heap node.inode ino (data.length/s.blockSize) = .ok (ino',t) ∧
          t.writeContents heap internal_buffer node.inode ino' offset data = (r,gs) := by
  rw [write] at h
  split at h
  · obtain ⟨rfl,rfl⟩ := Prod.mk.inj (Except.ok.inj h)
    exact .inl ⟨rfl,rfl⟩
  · rename_i hin
    split at h
    · rename_i s hget
      obtain ⟨rfl,rfl⟩ := Prod.mk.inj (Except.ok.inj h)
      exact .inr (.inl ⟨rfl,by rw [hget]⟩)
    · rename_i ino s hget
      obtain ⟨⟨ino',t⟩,hallocate,hpure⟩ := Result.bind_eq_ok.mp h
      exact .inr (.inr ⟨Nat.lt_of_not_le hin,ino,s,hget,ino',t,hallocate,Except.ok.inj hpure⟩)

theorem write_layout {internal_buffer : Mem} {node : FileNode} {offset r : ℕ}
    {data : List (BitVec 8)}
    (h : fs.write heap internal_buffer node offset data now = .ok (r,gs)) : SameLayout fs gs := by
  rcases write_cases h with ⟨-,rfl⟩ | ⟨-,rfl⟩ | ⟨-,ino,s,hread,ino',t,hallocate,hcontents⟩
  · exact .refl
  · exact (readInode_same fs heap node.inode now).layout
  · have hsame := (readInode_same fs heap node.inode now).layout
    have hwritten := writeContents_layout t heap internal_buffer node.inode ino' offset data
    rw [hread] at hsame
    rw [hcontents] at hwritten
    exact (hsame.trans (allocateFor_layout hallocate)).trans hwritten

theorem Coherent.readsDevice (hv : fs.Volume) (hc : fs.Coherent) : fs.ReadsDevice where
  coherent := hc
  block := fun _ hblock _ hahead => (readBlock_ok hv.image hc.blocks hahead).2 hblock
  inode := fun _ hi heap now => (readInode_ok hv hc hi heap now).2.2

theorem readsWritten (hv : fs.Volume) (hi : fs.HasInode inode) {inode_data : Mem}
    (hc : (fs.writeInode inode inode_data).Coherent) : fs.ReadsWritten inode inode_data := by
  have hlayout := writeInode_layout fs inode inode_data
  intro heap now
  obtain ⟨-,-,ino,hread,hdevice⟩ :=
    readInode_ok (hlayout.isVolume hv) hc (hlayout.hasInode.mpr hi) heap now
  refine ⟨ino,hread,?_⟩
  intro x hx hkept
  rw [hdevice x (by rwa [hlayout.superblock]) hkept,hlayout.inodeAddress,
    writeInode_device hv hi _ hx]

end Ext2Fs
end ScalesOS
