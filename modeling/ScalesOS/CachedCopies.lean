import ScalesOS.FileContents

/-!
# Cached copies of what is written

A write of the driver goes to the device and leaves the cached blocks as they are, so it is seen
only where no block is cached. Which blocks are cached when a call writes depends on those that
were cached before it, and on those that it reads itself.
-/

namespace ScalesOS
open ByteMemory Storage

namespace Ext2Fs
variable (fs : Ext2Fs)

def HasCached (block : ℕ) : Prop := ∃ c_bl ∈ fs.block_cache, c_bl.block_number = block

def HasCachedInode (inode : ℕ) : Prop := inode ∈ fs.inode_cache.map CachedInode.inode_number

/-! ## The blocks that reads bring into the cache -/

/-- `b` can come into the cache by a read of `block` with this readahead. -/
def Brings (block readahead b : ℕ) : Prop :=
  b = block ∨ block ≤ b ∧ (b-block)*fs.blockSize < min readahead MAX_READAHEAD

/-- The readahead for block `k` of a file. -/
def fileAhead (ino : Mem) (k : ℕ) : ℕ :=
  (sub32 (Inode.sizeLow ino/fs.blockSize) k+1)*fs.blockSize%W32

/-- A read of a file comes to its block `k`. It ends at the first block that is missing. -/
structure Comes (ino : Mem) (offset size k : ℕ) : Prop where
  inside : offset < Inode.sizeLow ino
  low : offset/fs.blockSize ≤ k
  high : k*fs.blockSize < offset+clampedSize ino offset size
  mapped : ∀ j, offset/fs.blockSize ≤ j → j < k →
    ∃ p blocks, fs.mapBlock ino j = some (p,blocks) ∧ p ≠ 0

def Followed (ino : Mem) (offset size : ℕ) : Prop :=
  ∀ k, fs.Comes ino offset size k → ∃ p blocks, fs.mapBlock ino k = some (p,blocks)

/-- `b` can come into the cache by a read of a file. -/
def FileBrings (ino : Mem) (offset size b : ℕ) : Prop :=
  ∃ k p blocks, fs.Comes ino offset size k ∧ fs.mapBlock ino k = some (p,blocks) ∧
    (b ∈ blocks ∨ p ≠ 0 ∧ fs.Brings p (fs.fileAhead ino k) b)

/-! ## Calls that write where nothing is cached -/

/-- A block has bytes among the `n` from `start` on. -/
def Lies (block start n : ℕ) : Prop :=
  start < block*fs.blockSize+fs.blockSize ∧ block*fs.blockSize < start+n

def InodeLies (inode start n : ℕ) : Prop :=
  start < fs.inodeAddress inode+fs.superblock.inode_size ∧ fs.inodeAddress inode < start+n

/-- If the block of an inode is cached, then with this inode in it. No other inode that is cached
has its place. -/
structure ClearInode (inode : ℕ) (inode_data : Mem) : Prop where
  block : ∀ c_bl ∈ fs.block_cache, c_bl.block_number = fs.inodeBlock inode →
    ∀ x < fs.superblock.inode_size,
    c_bl.block.getD (fs.innerOffset inode*fs.superblock.inode_size+x) 0 = inode_data x
  others : ∀ other, fs.HasCachedInode other → other ≠ inode →
    fs.inodeAddress other ≠ fs.inodeAddress inode

/-- The bitmap of the inode's group goes to an address where nothing is cached, and where it is not
itself. -/
structure ClearBitmap (inode : ℕ) : Prop where
  blocks : ∀ b, fs.HasCached b ∨ b = (fs.descriptor inode).blocks_bitmap →
    ¬fs.Lies b (fs.descriptor inode).blocks_bitmap fs.blockSize
  inodes : ∀ other, fs.HasCachedInode other →
    ¬fs.InodeLies other (fs.descriptor inode).blocks_bitmap fs.blockSize

/-- A write of `size` bytes asks for blocks, and the group has as many. -/
def Allocates (inode size : ℕ) : Prop :=
  countAllocatedBlocks (fs.inodeMem inode) < size/fs.blockSize ∧
    size/fs.blockSize-countAllocatedBlocks (fs.inodeMem inode) ≤ (fs.descriptor inode).free_blocks

/-- A block that the search in the group's bitmap can find: one that is free on the device, a block
for a bit behind the bitmap, or the first one of the group. -/
def MayGive (inode p : ℕ) : Prop :=
  ∃ k < 32768, p = (fs.groupStart inode+k)%W32 ∧
    (k = 0 ∨ ((fs.descriptor inode).blocks_bitmap < fs.superblock.total_blocks →
      k < 8*fs.blockSize → ¬fs.Used inode k))

structure MayBecome (inode size : ℕ) (ino : Mem) : Prop where
  same : ∀ x < fs.superblock.inode_size, x < 40 ∨ 88 ≤ x → Inode.Kept x →
    ino x = fs.inodeMem inode x
  pointers : ∀ i < DIRECT_BLOCK_CAPACITY,
    Inode.blockPointer ino i = Inode.blockPointer (fs.inodeMem inode) i ∨
    fs.Allocates inode size ∧ Inode.blockPointer (fs.inodeMem inode) i = 0 ∧
    fs.MayGive inode (Inode.blockPointer ino i)

/-- Where `__ext2_write` puts the buffer, and how much of it. -/
def contentsStart (offset : ℕ) : ℕ := totalOffset fs.blockSize offset*fs.blockSize%W32
def contentsSize (offset size : ℕ) : ℕ := totalBlocks fs.blockSize offset size*fs.blockSize%W32

/-- The blocks that `__ext2_write` reads: that of the inode, unless the inode is cached, the bitmap
if it allocates blocks, and those of the file. -/
inductive WriteReads (inode offset size : ℕ) (ino : Mem) (b : ℕ) : Prop
  | inode : ¬fs.HasCachedInode inode → b = fs.inodeBlock inode → WriteReads inode offset size ino b
  | bitmap : fs.Allocates inode size → b = (fs.descriptor inode).blocks_bitmap →
      WriteReads inode offset size ino b
  | file : fs.FileBrings ino (fs.contentsStart offset) (fs.contentsSize offset size) b →
      WriteReads inode offset size ino b

/-- A write whose data, and whose bitmap, go where nothing is cached and nothing is read before. The
inode is cached without its block, or it is not cached and stays as it is. -/
structure ClearWrite (inode offset size : ℕ) : Prop where
  followed : ∀ ino, fs.MayBecome inode size ino →
    fs.Followed ino (fs.contentsStart offset) (fs.contentsSize offset size)
  blocks : ∀ ino, fs.MayBecome inode size ino → ∀ b, fs.HasCached b ∨
    fs.WriteReads inode offset size ino b →
    ¬fs.Lies b (fs.contentsStart offset) (fs.contentsSize offset size) ∧
      (fs.Allocates inode size → ¬fs.Lies b (fs.descriptor inode).blocks_bitmap fs.blockSize)
  inodes : ∀ other, fs.HasCachedInode other ∨ other = inode →
    ¬fs.InodeLies other (fs.contentsStart offset) (fs.contentsSize offset size) ∧
      (fs.Allocates inode size →
        ¬fs.InodeLies other (fs.descriptor inode).blocks_bitmap fs.blockSize)
  own : ¬fs.HasCachedInode inode ∧ ¬fs.Allocates inode size ∨
    fs.HasCachedInode inode ∧ ¬fs.HasCached (fs.inodeBlock inode) ∧ ∀ ino,
    fs.MayBecome inode size ino → ¬fs.WriteReads inode offset size ino (fs.inodeBlock inode)
  others : ∀ other, fs.HasCachedInode other → other ≠ inode →
    fs.inodeAddress other ≠ fs.inodeAddress inode

/-- The call writes to the device only where the caches, as they are before it, hold no copy, and
where it reads no block itself. -/
def Clear : Ext2Call → Prop
  | .writeInode inode inode_data => fs.ClearInode inode inode_data
  | .allocate call => call.blocks ≤ (fs.descriptor call.inode).free_blocks →
      fs.ClearBitmap call.inode
  | .write _ _ node offset data _ => offset < node.size →
      fs.ClearWrite node.inode offset data.length
  | .readBlock _ _ => True
  | .readInode _ _ _ => True
  | .read _ _ _ _ _ => True

/-- `t` is `s` after such a call. -/
def CalledClear (s t : Ext2Fs) : Prop := ∃ c, s.May c ∧ s.Clear c ∧ s.call c = .ok t

end Ext2Fs

namespace Ext2Fs
variable {fs gs hs : Ext2Fs} {heap ino : Mem} {block readahead inode now b : ℕ}

/-! ## What reads bring in -/

theorem HasCached.of_perm (hperm : gs.block_cache.Perm fs.block_cache) (h : gs.HasCached b) :
    fs.HasCached b := by
  obtain ⟨c_bl,hmem,hnumber⟩ := h
  exact ⟨c_bl,hperm.subset hmem,hnumber⟩

theorem HasCached.of_cacheBlock {data : List (BitVec 8)}
    (h : (fs.cacheBlock block data).HasCached b) :
    b = block ∨ fs.HasCached b := by
  obtain ⟨c_bl,hmem,rfl⟩ := h
  rcases MoveToFront.mem_push hmem with rfl | hmem
  · exact .inl rfl
  · exact .inr ⟨c_bl,hmem,rfl⟩

theorem HasCached.of_cacheReadahead {start_block n : ℕ}
    (h : (fs.cacheReadahead start_block n).HasCached b) :
    fs.HasCached b ∨ start_block ≤ b ∧ b < start_block+n := by
  induction n with
  | zero => exact .inl h
  | succ n ih =>
    rcases h.of_cacheBlock with rfl | h
    · exact .inr ⟨by omega,by omega⟩
    · rcases ih h with h | h
      · exact .inl h
      · exact .inr ⟨h.1,by omega⟩

theorem lt_of_lt_readaheadBlocks {k n : ℕ} (h : k < fs.readaheadBlocks n) : k*fs.blockSize < n := by
  have hpos := @blockSize_pos fs
  by_contra hle
  have hlast : fs.readaheadBlocks n < k+1 := by
    rw [readaheadBlocks,Nat.div_lt_iff_lt_mul hpos,Nat.succ_mul]
    omega
  omega

theorem HasCached.of_readBlock (h : (fs.readBlock block readahead).2.HasCached b) :
    fs.HasCached b ∨ fs.Brings block readahead b := by
  have hperm := tryGetCachedBlock_perm fs block
  rw [readBlock] at h
  split at h
  · exact .inl h
  split at h
  · rename_i hget
    rw [hget] at hperm
    exact .inl (h.of_perm hperm)
  rename_i gs hget
  rw [hget] at hperm
  have hbs : gs.blockSize = fs.blockSize := by
    have hsame := (tryGetCachedBlock_same fs block).layout.blockSize
    rwa [hget] at hsame
  split at h
  · rw [readAhead] at h
    rcases h.of_cacheReadahead with h | ⟨hlow,hhigh⟩
    · exact .inl (HasCached.of_perm hperm h)
    · refine .inr (.inr ⟨hlow,?_⟩)
      have hlt := lt_of_lt_readaheadBlocks (Nat.sub_lt_left_of_lt_add hlow hhigh)
      rw [Device.length_read] at hlt
      have hle :=
        Device.available_le gs.device (block*gs.blockSize%W32) (min readahead MAX_READAHEAD)
      rw [← hbs]
      exact hlt.trans_le hle
  · rw [readAlone] at h
    dsimp only at h
    split at h
    · rcases h.of_cacheBlock with rfl | h
      · exact .inr (.inl rfl)
      · exact .inl (h.of_perm hperm)
    · exact .inl (h.of_perm hperm)

theorem HasCached.of_readBuffer (h : (fs.readBuffer heap block 0).2.HasCached b) :
    fs.HasCached b ∨ b = block := by
  rcases HasCached.of_readBlock h with h | h | ⟨-,hlt⟩
  · exact .inl h
  · exact .inr h
  · rw [Nat.zero_min] at hlt
    omega

section
variable {p pointer block_offset : ℕ} {blocks : List ℕ}

theorem HasCached.of_resolveSingle (hmap : fs.mapSingle pointer block_offset = some (p,blocks))
    (h : (fs.resolveSingle heap pointer block_offset).2.HasCached b) :
    fs.HasCached b ∨ b ∈ blocks := by
  rw [resolveSingle] at h
  rcases mapThrough_cases hmap with ⟨hzero,-⟩ | ⟨hpos,-,-,rest,-,rfl⟩
  · rw [if_pos hzero] at h
    exact .inl h
  · rw [if_neg hpos] at h
    dsimp only at h
    exact h.of_readBuffer.imp_right fun heq => List.mem_cons.mpr (.inl heq)

variable (hv : fs.Volume) (hok : fs.BlocksOk)
include hv hok

theorem HasCached.of_resolveDouble (hmap : fs.mapDouble pointer block_offset = some (p,blocks))
    (h : (fs.resolveDouble heap pointer block_offset).2.HasCached b) :
    fs.HasCached b ∨ b ∈ blocks := by
  simp only [mapDouble] at hmap
  rw [resolveDouble] at h
  rcases mapThrough_cases hmap with ⟨hzero,-⟩ | ⟨hpos,hblock,hin,rest,hrest,rfl⟩
  · rw [if_pos hzero] at h
    exact .inl h
  · obtain ⟨-,-,hsame⟩ := readBuffer_after hv hok heap pointer
    rw [if_neg hpos] at h
    dsimp only at h
    rw [bufferWord_eq hv hok heap hblock hin] at h
    rcases HasCached.of_resolveSingle ((hsame rest).mapSingle hrest) h with h | h
    · exact h.of_readBuffer.imp_right fun heq => List.mem_cons.mpr (.inl heq)
    · exact .inr (List.mem_cons_of_mem _ h)

theorem HasCached.of_resolveTriple (hmap : fs.mapTriple pointer block_offset = some (p,blocks))
    (h : (fs.resolveTriple heap pointer block_offset).2.HasCached b) :
    fs.HasCached b ∨ b ∈ blocks := by
  simp only [mapTriple] at hmap
  rw [resolveTriple] at h
  rcases mapThrough_cases hmap with ⟨hzero,-⟩ | ⟨hpos,hblock,hin,rest,hrest,rfl⟩
  · rw [if_pos hzero] at h
    exact .inl h
  · obtain ⟨hv',hok',hsame⟩ := readBuffer_after hv hok heap pointer
    rw [if_neg hpos] at h
    dsimp only at h
    rw [bufferWord_eq hv hok heap hblock hin] at h
    rcases HasCached.of_resolveDouble hv' hok' ((hsame rest).mapDouble hrest) h with h | h
    · exact h.of_readBuffer.imp_right fun heq => List.mem_cons.mpr (.inl heq)
    · exact .inr (List.mem_cons_of_mem _ h)

theorem HasCached.of_blockFromOffset (hmap : fs.mapBlock ino block_offset = some (p,blocks))
    (h : (fs.blockFromOffset heap ino block_offset).2.HasCached b) :
    fs.HasCached b ∨ b ∈ blocks := by
  rw [mapBlock] at hmap
  rw [blockFromOffset] at h
  split_ifs at hmap h with hdirect hsingle hdouble htriple
  · exact .inl h
  · exact h.of_resolveSingle hmap
  · exact h.of_resolveDouble hv hok hmap
  · exact h.of_resolveTriple hv hok hmap
  · exact .inl h

end

/-- The loop that reads a file, in a volume whose map of the file is that of `fs`. The induction is
on the turns, with the blocks before all there. -/
theorem HasCached.of_contentsLoop {offset n : ℕ} (hv : fs.Volume)
    (hfollowed : fs.Followed ino offset n)
    (hinside : offset < Inode.sizeLow ino) (turns : ℕ) : ∀ (size k part_offset : ℕ)
    (block_buffer : Mem) (gs : Ext2Fs) (copied : List (BitVec 8)), SameLayout fs gs → gs.BlocksOk →
    (∀ j, fs.Comes ino offset n j → ∀ p blocks, fs.mapBlock ino j = some (p,blocks) →
      gs.mapBlock ino j = some (p,blocks)) →
    k*fs.blockSize+part_offset+size = offset+clampedSize ino offset n →
    part_offset ≤ fs.blockSize → offset/fs.blockSize ≤ k → (∀ j, offset/fs.blockSize ≤ j → j < k →
      ∃ p blocks, fs.mapBlock ino j = some (p,blocks) ∧ p ≠ 0) →
    (contentsLoop heap ino turns size k part_offset block_buffer gs copied).2.HasCached b →
      gs.HasCached b ∨ fs.FileBrings ino offset n b := by
  induction turns with
  | zero => exact fun _ _ _ _ _ _ _ _ _ _ _ _ _ h => .inl h
  | succ turns ih =>
    intro size k part_offset block_buffer gs copied hlayout hok hmap hend hpart hlow hbefore h
    have hv' := hlayout.isVolume hv
    rw [contentsLoop] at h
    split at h
    · exact .inl h
    rename_i hpos
    have hcomes : fs.Comes ino offset n k := ⟨hinside,hlow,by omega,hbefore⟩
    obtain ⟨p,blocks,hblock⟩ := hfollowed k hcomes
    have hblock' := hmap k hcomes p blocks hblock
    have htarget := blockFromOffset_eq hv' hok heap hblock'
    have hreads := blockFromOffset_reads gs heap ino k
    have hlooked : (gs.blockFromOffset heap ino k).2.HasCached b → gs.HasCached b ∨
        fs.FileBrings ino offset n b :=
      fun h => (h.of_blockFromOffset hv' hok hblock').imp_right fun hmem =>
        ⟨k,p,blocks,hcomes,hblock,.inl hmem⟩
    dsimp only at h
    rw [htarget] at h
    split at h
    · exact hlooked h
    rename_i hp
    generalize hhs : (gs.blockFromOffset heap ino k).2 = hs at h hlooked hreads
    have hahead :
        (sub32 (Inode.sizeLow ino/gs.blockSize) k+1)*gs.blockSize%W32 = fs.fileAhead ino k := by
      rw [hlayout.blockSize,fileAhead]
    rw [hahead] at h
    have hdvd : hs.blockSize ∣ fs.fileAhead ino k := by
      rw [fileAhead,← hlayout.blockSize,← hreads.same.layout.blockSize]
      exact (hreads.same.layout.isVolume hv').dvd_ahead _
    have hread := readBuffer_reads hs block_buffer p fun _ => hdvd
    have hbrought : (hs.readBuffer block_buffer p (fs.fileAhead ino k)).2.HasCached b →
        gs.HasCached b ∨ fs.FileBrings ino offset n b := by
      intro h
      rcases HasCached.of_readBlock h with h | h
      · exact hlooked h
      · refine .inr ⟨k,p,blocks,hcomes,hblock,.inr ⟨hp,?_⟩⟩
        rwa [Brings,hreads.same.layout.blockSize,hlayout.blockSize] at h
    split at h
    · exact hbrought h
    rename_i hmore
    rw [hlayout.blockSize] at h hmore
    have hsame := hreads.trans hread
    have hrest :=
      ih (size-(fs.blockSize-part_offset)) (k+1) 0 _ _ _ (hlayout.trans hsame.same.layout)
      (hsame.blocksOk hv' hok) (fun j hj p blocks hmapped =>
        (hsame.same.toSameVolume.sameIn blocks).mapBlock (fun _ _ _ =>
          rfl) (hmap j hj p blocks hmapped))
      (by rw [Nat.succ_mul]; omega) (Nat.zero_le _) (by omega) (by
        intro j hj hlt
        rcases Nat.lt_succ_iff_lt_or_eq.mp hlt with hlt | rfl
        · exact hbefore j hj hlt
        · exact ⟨p,blocks,hblock,hp⟩) h
    exact hrest.elim hbrought .inr

theorem HasCached.of_readInodeContents {offset n : ℕ} (hv : fs.Volume)
    (hfollowed : fs.Followed ino offset n) (hlayout : SameLayout fs gs) (hok : gs.BlocksOk)
    (hmap : ∀ j, fs.Comes ino offset n j → ∀ p blocks, fs.mapBlock ino j = some (p,blocks) →
      gs.mapBlock ino j = some (p,blocks))
    (h : (gs.readInodeContents heap ino offset n).2.HasCached b) :
    gs.HasCached b ∨ fs.FileBrings ino offset n b := by
  rw [readInodeContents] at h
  split at h
  · exact .inl h
  · rename_i hinside
    dsimp only at h
    rw [hlayout.blockSize] at h
    refine HasCached.of_contentsLoop hv hfollowed (Nat.lt_of_not_le hinside) _ _ _ _ _ _ _
      hlayout hok hmap ?_
      (Nat.mod_lt _ blockSize_pos).le le_rfl
      (fun j hj hlt => by omega) h
    rw [Nat.mul_comm,Nat.div_add_mod]
    rfl

theorem HasCached.of_readInode (h : (fs.readInode heap inode now).2.HasCached b) :
    fs.HasCached b ∨ ¬fs.HasCachedInode inode ∧ b = fs.inodeBlock inode := by
  rw [readInode] at h
  split at h
  · exact .inl h
  split at h
  · rename_i hget
    have hblocks := congrArg (fun r => r.2.block_cache) hget
    dsimp only at hblocks
    rw [tryGetCachedInode] at hblocks
    left
    rw [HasCached,← hblocks] at h
    split at h <;> exact h
  · rename_i gs hget
    obtain ⟨hgs,hnew⟩ := tryGetCachedInode_none (congrArg Prod.fst hget)
    rw [hget] at hgs
    obtain rfl : gs = fs := hgs
    exact (HasCached.of_readBuffer h).imp_right fun heq => ⟨hnew,heq⟩

theorem HasCachedInode.of_tryGetCachedInode {other : ℕ}
    (h : (fs.tryGetCachedInode inode now).2.HasCachedInode other) :
    fs.HasCachedInode other := by
  rw [tryGetCachedInode] at h
  split at h
  · exact h
  · rename_i c_ino cache hlookup
    obtain ⟨-,hmem,hperm⟩ := MoveToFront.lookup_eq_some hlookup
    rcases List.mem_cons.mp h with rfl | h
    · exact List.mem_map.mpr ⟨c_ino,hmem,rfl⟩
    · have hin := ((List.tail_sublist cache).map CachedInode.inode_number).subset h
      exact (hperm.map CachedInode.inode_number).subset hin

theorem HasCachedInode.of_readInode {other : ℕ}
    (h : (fs.readInode heap inode now).2.HasCachedInode other) :
    fs.HasCachedInode other ∨ other = inode := by
  rw [readInode] at h
  split at h
  · exact .inl h
  split at h
  · rename_i hget
    have hafter := congrArg Prod.snd hget
    dsimp only at hafter
    rw [← hafter] at h
    exact .inl h.of_tryGetCachedInode
  · rename_i gs hget
    obtain ⟨hgs,-⟩ := tryGetCachedInode_none (congrArg Prod.fst hget)
    rw [hget] at hgs
    obtain rfl : gs = fs := hgs
    obtain ⟨c_ino,hmem,rfl⟩ := List.mem_map.mp h
    rcases MoveToFront.mem_push hmem with rfl | hmem
    · exact .inr rfl
    · have hsame := (readBlock_same gs (gs.inodeBlock inode) 0).inodes
      rw [readBuffer,hsame] at hmem
      exact .inl (List.mem_map_of_mem hmem)

/-! ## Writes and the caches -/

section
variable {offset : ℕ} {data : List (BitVec 8)}

/-- A byte of which there is a right copy, with the value that is written if it is written. -/
theorem writeDevice_byte {x : ℕ} {value : BitVec 8} (hold : value = fs.device.byte x)
    (hcopy : offset ≤ x → x < offset+data.length → value = data.getD (x-offset) 0) :
    (fs.writeDevice offset data).device.byte x = value := by
  rw [writeDevice]
  dsimp only
  rw [Device.byte_write_eq]
  split
  · rename_i hin
    exact (hcopy hin.1 hin.2.1).symm
  · exact hold.symm

theorem writeDevice_blocks (hok : fs.BlocksOk)
    (hcopy : ∀ c_bl ∈ fs.block_cache, ∀ i < fs.blockSize,
      offset ≤ c_bl.block_number*fs.blockSize+i →
      c_bl.block_number*fs.blockSize+i < offset+data.length →
      c_bl.block.getD i 0 = data.getD (c_bl.block_number*fs.blockSize+i-offset) 0) :
    (fs.writeDevice offset data).BlocksOk := by
  intro c_bl hmem
  have hold := hok c_bl hmem
  have hsize : (fs.writeDevice offset data).blockSize = fs.blockSize := rfl
  rw [deviceBlock] at hold ⊢
  rw [hsize,hold]
  symm
  apply load_congr
  intro x hlow hhigh
  obtain ⟨i,rfl⟩ := Nat.exists_eq_add_of_le hlow
  have hi : i < fs.blockSize := by omega
  apply writeDevice_byte rfl
  intro hin hin'
  have hbyte := hcopy c_bl hmem i hi hin hin'
  rwa [hold,getD_load _ _ hi] at hbyte

theorem writeDevice_inode {other : ℕ} (hdevice : fs.DeviceInode other ino)
    (hcopy : ∀ x < fs.superblock.inode_size, offset ≤ fs.inodeAddress other+x →
      fs.inodeAddress other+x < offset+data.length →
      ino x = data.getD (fs.inodeAddress other+x-offset) 0) :
    (fs.writeDevice offset data).DeviceInode other ino := by
  intro x hx hkept
  symm
  exact writeDevice_byte (hdevice x hx hkept) (hcopy x hx)

theorem writeDevice_coherent (hc : fs.Coherent)
    (hblocks : ∀ b, fs.HasCached b → ¬fs.Lies b offset data.length)
    (hinodes : ∀ other, fs.HasCachedInode other → ¬fs.InodeLies other offset data.length) :
    (fs.writeDevice offset data).Coherent := by
  refine ⟨writeDevice_blocks hc.blocks ?_,?_,hc.distinct⟩
  · intro c_bl hmem i hi hlow hhigh
    exact absurd ⟨by omega,by omega⟩ (hblocks _ ⟨c_bl,hmem,rfl⟩)
  · intro c_ino hmem
    refine writeDevice_inode (hc.inodes c_ino hmem) ?_
    intro x hx hlow hhigh
    exact absurd ⟨by omega,by omega⟩ (hinodes _ (List.mem_map_of_mem hmem))

end

theorem Volume.inodeByte_block (hv : fs.Volume) {x : ℕ} (hlow : fs.inodeAddress inode ≤ x)
    (hhigh : x < fs.inodeAddress inode+fs.superblock.inode_size) :
    x/fs.blockSize = fs.inodeBlock inode := by
  have hinner := hv.innerOffset_le inode
  rw [inodeAddress] at hlow hhigh
  apply Nat.div_eq_of_lt_le
  · omega
  · rw [Nat.succ_mul]
    omega

theorem Volume.inode_places (hv : fs.Volume) {other : ℕ}
    (hne : fs.inodeAddress other ≠ fs.inodeAddress inode) :
    fs.inodeAddress other+fs.superblock.inode_size ≤ fs.inodeAddress inode ∨
      fs.inodeAddress inode+fs.superblock.inode_size ≤ fs.inodeAddress other := by
  have hplace : ∀ i, fs.superblock.inode_size ∣ fs.inodeAddress i := fun i =>
    Nat.dvd_add ((hv.inodes_fit).mul_left _) (Nat.dvd_mul_left _ _)
  obtain ⟨a,ha⟩ := hplace other
  obtain ⟨b,hb⟩ := hplace inode
  rw [ha,hb] at hne ⊢
  rcases Nat.lt_or_gt_of_ne (fun h => hne (congrArg _ h) : a ≠ b) with hlt | hlt
  · exact .inl (by rw [← Nat.mul_succ]; exact Nat.mul_le_mul_left _ hlt)
  · exact .inr (by rw [← Nat.mul_succ]; exact Nat.mul_le_mul_left _ hlt)

theorem writeInode_coherent (hv : fs.Volume) (hc : fs.Coherent) (hi : fs.HasInode inode)
    {inode_data : Mem}
    (hclear : fs.ClearInode inode inode_data) : (fs.writeInode inode inode_data).Coherent := by
  rw [writeInode,hv.inodeAddress_mod hi]
  refine ⟨writeDevice_blocks hc.blocks ?_,?_,
    (List.eraseP_sublist.map CachedInode.inode_number).nodup hc.distinct⟩
  · intro c_bl hmem i hin hlow hhigh
    rw [length_load] at hhigh
    have hown : c_bl.block_number = fs.inodeBlock inode := by
      rw [← hv.inodeByte_block hlow hhigh,Nat.mul_comm,Nat.mul_add_div blockSize_pos,
        Nat.div_eq_of_lt hin,Nat.add_zero]
    rw [inodeAddress,hown] at hlow hhigh ⊢
    obtain ⟨x,rfl⟩ := Nat.exists_eq_add_of_le (Nat.le_of_add_le_add_left hlow)
    have hx : x < fs.superblock.inode_size := by omega
    rw [hclear.block c_bl hmem hown x hx,← Nat.add_assoc,Nat.add_sub_cancel_left,
      getD_load _ _ hx,Nat.zero_add]
  · intro c_ino hmem
    have hin := List.mem_of_mem_eraseP hmem
    have hne := MoveToFront.key_ne_of_mem_eraseP hc.distinct hmem
    refine writeDevice_inode (hc.inodes c_ino hin) ?_
    intro x hx hlow hhigh
    rw [length_load] at hhigh
    have hplaces := hv.inode_places (hclear.others _ (List.mem_map_of_mem hin) hne)
    omega

/-! ## Allocations -/

theorem SameLayout.lies (h : SameLayout fs gs) {start n : ℕ} : gs.Lies b start n ↔
    fs.Lies b start n := by
  rw [Lies,h.blockSize,Lies]

theorem SameLayout.inodeLies (h : SameLayout fs gs) {start n : ℕ} : gs.InodeLies inode start n ↔
    fs.InodeLies inode start n := by
  rw [InodeLies,h.inodeAddress,h.superblock,InodeLies]

/-- An allocation that goes ahead reads the bitmap, and writes it to the address of its number. -/
theorem allocateBlocksForInode_cases {blocks : ℕ} {s : Allocation}
    (h : fs.allocateBlocksForInode heap inode ino blocks = .ok (s,gs)) :
    (fs.descriptor inode).free_blocks < blocks ∧ s.ino = ino ∧ gs = fs ∨
      blocks ≤ (fs.descriptor inode).free_blocks ∧
        allocateLoop (fs.groupStart inode) blocks
          ⟨ino,(fs.readBuffer heap (fs.descriptor inode).blocks_bitmap 0).1,[],[]⟩ = .ok s ∧
        gs = (fs.readBuffer heap (fs.descriptor inode).blocks_bitmap 0).2.writeDevice
        (fs.descriptor inode).blocks_bitmap
          (load s.bitmap 0 fs.blockSize) := by
  rw [allocateBlocksForInode] at h
  dsimp only at h
  split at h
  · rename_i hblocks
    obtain ⟨t,hloop,hpure⟩ := Result.bind_eq_ok.mp h
    obtain ⟨rfl,rfl⟩ := Prod.mk.inj (Except.ok.inj hpure)
    exact .inr ⟨hblocks,hloop,rfl⟩
  · rename_i hblocks
    obtain ⟨rfl,rfl⟩ := Prod.mk.inj (Except.ok.inj h)
    exact .inl ⟨Nat.lt_of_not_le hblocks,rfl,rfl⟩

theorem writeBitmap_coherent (hv : fs.Volume) (hc : fs.Coherent) (hclear : fs.ClearBitmap inode)
    (heap bitmap : Mem) :
    ((fs.readBuffer heap (fs.descriptor inode).blocks_bitmap 0).2.writeDevice
      (fs.descriptor inode).blocks_bitmap
      (load bitmap 0 fs.blockSize)).Coherent := by
  have hreads := readBuffer_reads fs heap (fs.descriptor inode).blocks_bitmap fun _ => dvd_zero _
  apply writeDevice_coherent (hreads.coherent hv hc)
  · intro b hcached
    rw [length_load,hreads.same.layout.lies]
    exact hclear.blocks b hcached.of_readBuffer
  · intro other hcached
    rw [HasCachedInode,hreads.same.inodes] at hcached
    rw [length_load,hreads.same.layout.inodeLies]
    exact hclear.inodes other hcached

theorem allocate_coherent (hv : fs.Volume) (hc : fs.Coherent) {call : AllocationCall}
    {s : Allocation}
    (hclear : call.blocks ≤ (fs.descriptor call.inode).free_blocks → fs.ClearBitmap call.inode)
    (h : fs.allocate call = .ok (s,gs)) : gs.Coherent := by
  rcases allocateBlocksForInode_cases h with ⟨-,-,rfl⟩ | ⟨hblocks,-,rfl⟩
  · exact hc
  · exact writeBitmap_coherent hv hc (hclear hblocks) call.heap s.bitmap

end Ext2Fs

/-! ## The pointers that an allocation stores -/

theorem blockPointer_setBlockPointer (ino : Mem) {i j block : ℕ} :
    Inode.blockPointer (Inode.setBlockPointer ino i (block%W32)) j =
      if j = i then block%W32 else Inode.blockPointer ino j := by
  rw [Inode.blockPointer,Inode.setBlockPointer]
  split
  · rename_i heq
    rw [heq,read32_write32]
    exact Nat.mod_mod _ _
  · rename_i hne
    exact read32_congr fun x hlow hhigh => write32_outside _ (by omega)

/-- Nothing but direct pointers that are 0 is stored into. A pointer that is stored is for a bit
that was free, or for the first bit. -/
theorem allocateLoop_pointers {block_offset blocks : ℕ} {s t : Allocation}
    (h : allocateLoop block_offset blocks s = .ok t) :
    (∀ x, x < 40 ∨ 88 ≤ x → t.ino x = s.ino x) ∧
      ∀ i, Inode.blockPointer t.ino i = Inode.blockPointer s.ino i ∨
        Inode.blockPointer s.ino i = 0 ∧ ∃ k < 32768,
        Inode.blockPointer t.ino i = (block_offset+k)%W32 ∧
          (k = 0 ∨ bitmapBit s.bitmap k = false) := by
  induction blocks generalizing s with
  | zero =>
    obtain rfl := Except.ok.inj h
    exact ⟨fun _ _ => rfl,fun _ => .inl rfl⟩
  | succ blocks ih =>
    obtain ⟨u,hone,hrest⟩ := Result.bind_eq_ok.mp h
    obtain ⟨hsame,hpointers⟩ := ih hrest
    have hbits : ∀ k, bitmapBit u.bitmap k = false → bitmapBit s.bitmap k = false := by
      intro k hfree
      by_contra hset
      rw [allocateOne_bits hone (Bool.not_eq_false _ |>.mp hset)] at hfree
      cases hfree
    obtain ⟨i,hslot,hstored⟩ := allocateOne_cases hone
    have hi : i < DIRECT_BLOCK_CAPACITY := List.mem_range.mp (List.mem_of_find?_eq_some hslot)
    have hzero : Inode.blockPointer s.ino i = 0 := by
      rw [freeBlockSlot] at hslot
      simpa using List.find?_some hslot
    obtain ⟨k,hk,hino,hfree⟩ :
      ∃ k < 32768, u.ino = Inode.setBlockPointer s.ino i ((block_offset+k)%W32) ∧
        (k = 0 ∨ bitmapBit s.bitmap k = false) := by
      rcases hstored with ⟨k,hk,hfree,rfl⟩ | ⟨-,rfl⟩
      · exact ⟨k,hk,rfl,.inr hfree⟩
      · exact ⟨0,by decide,rfl,.inl rfl⟩
    constructor
    · intro x hx
      rw [hsame x hx,hino,Inode.setBlockPointer]
      rw [DIRECT_BLOCK_CAPACITY] at hi
      exact write32_outside _ (by omega)
    · intro j
      have hfirst : Inode.blockPointer u.ino j = if j = i then (block_offset+k)%W32
          else Inode.blockPointer s.ino j := by
        rw [hino,blockPointer_setBlockPointer]
      rcases hpointers j with heq | ⟨hempty,l,hl,heq,hlfree⟩
      · rw [heq,hfirst]
        split
        · rename_i hj
          exact .inr ⟨hj ▸ hzero,k,hk,rfl,hfree⟩
        · exact .inl rfl
      · right
        refine ⟨?_,l,hl,heq,hlfree.imp_right (hbits l)⟩
        by_cases hj : j = i
        · rw [hj,hzero]
        · rwa [hfirst,if_neg hj] at hempty

theorem takeWhile_congr {α : Type} {l : List α} {f g : α → Bool} (h : ∀ a ∈ l, f a = g a) :
    l.takeWhile f = l.takeWhile g := by
  induction l with
  | nil => rfl
  | cons a l ih =>
    rw [List.takeWhile_cons,List.takeWhile_cons,h a List.mem_cons_self,ih fun b hb =>
      h b (List.mem_cons_of_mem _ hb)]

theorem countAllocatedBlocks_congr {ino ino' : Mem} (h : SamePointers ino ino') :
    countAllocatedBlocks ino' = countAllocatedBlocks ino := by
  rw [countAllocatedBlocks,countAllocatedBlocks]
  congr 1
  apply takeWhile_congr
  intro i hi
  rw [h.blockPointer (List.mem_range.mp hi)]

namespace Ext2Fs
variable {fs gs hs : Ext2Fs} {heap internal_buffer ino : Mem} {node : FileNode}
    {inode offset now r b : ℕ}
  {data : List (BitVec 8)}

/-- What the bitmap in memory says of a block is what the device says, as far as the bitmap goes. -/
theorem bitmapBit_readBuffer (hv : fs.Volume) (hok : fs.BlocksOk) (heap : Mem) {k : ℕ}
    (htotal : (fs.descriptor inode).blocks_bitmap < fs.superblock.total_blocks)
    (hk : k < 8*fs.blockSize) :
    bitmapBit (fs.readBuffer heap (fs.descriptor inode).blocks_bitmap 0).1 k = true ↔
        fs.Used inode k := by
  have hword : 4 ∣ fs.blockSize := Nat.dvd_mul_right_of_dvd (by decide) _
  have hin : 4*(k/32)+4 ≤ fs.blockSize := by omega
  have hread : read32 (fs.readBuffer heap (fs.descriptor inode).blocks_bitmap 0).1 (4*(k/32)) =
      read32 (fun x => fs.device.byte ((fs.descriptor inode).blocks_bitmap*fs.blockSize+x))
          (4*(k/32)) :=
    read32_congr fun x _ hx => readBuffer_apply hv hok heap htotal (dvd_zero _) x (by omega)
  rw [Used,bitmapBit,bitmapBit,hread]

section
variable (h : SameVolume fs gs)
include h

theorem SameVolume.inodeMem (inode : ℕ) : gs.inodeMem inode = fs.inodeMem inode := by
  funext x
  rw [Ext2Fs.inodeMem,h.device,h.layout.inodeAddress,Ext2Fs.inodeMem]

theorem SameVolume.used (k : ℕ) : gs.Used inode k ↔ fs.Used inode k := by
  rw [Used,h.layout.descriptor,h.layout.blockSize,h.device,Used]

theorem SameVolume.allocates (size : ℕ) : gs.Allocates inode size ↔ fs.Allocates inode size := by
  rw [Allocates,h.layout.blockSize,h.layout.descriptor,h.inodeMem,Allocates]

theorem SameVolume.mayGive {p : ℕ} (hgive : gs.MayGive inode p) : fs.MayGive inode p := by
  have hstart : gs.groupStart inode = fs.groupStart inode := by
    rw [groupStart,groupFromInode,h.superblock,groupStart,groupFromInode]
  obtain ⟨k,hk,heq,hfree⟩ := hgive
  rw [hstart] at heq
  rw [h.layout.descriptor,h.layout.blockSize,h.superblock,h.used] at hfree
  exact ⟨k,hk,heq,hfree⟩

theorem SameVolume.mayBecome {size : ℕ} (hbecome : gs.MayBecome inode size ino) :
    fs.MayBecome inode size ino := by
  obtain ⟨hsame,hpointers⟩ := hbecome
  rw [h.superblock] at hsame
  simp only [h.inodeMem,h.allocates] at hsame hpointers
  exact ⟨hsame,fun i hi => (hpointers i hi).imp_right fun hgiven =>
    ⟨hgiven.1,hgiven.2.1,h.mayGive hgiven.2.2⟩⟩

end

theorem countAllocatedBlocks_device (hv : fs.Volume) (hdevice : fs.DeviceInode inode ino) :
    countAllocatedBlocks ino = countAllocatedBlocks (fs.inodeMem inode) :=
  countAllocatedBlocks_congr (hdevice.samePointers hv)

/-- The inode after its blocks have been allocated, and what that has done to the volume. -/
theorem allocateFor_cases (hv : fs.Volume) (hok : fs.BlocksOk) (hdevice : fs.DeviceInode inode ino)
    {size : ℕ} {ino' : Mem}
    (h : fs.allocateFor heap inode ino (size/fs.blockSize) = .ok (ino',gs)) :
    fs.MayBecome inode size ino' ∧ (¬fs.Allocates inode size ∧ ino' = ino ∧ gs = fs ∨
      fs.Allocates inode size ∧ ∃ bitmap,
      gs = (fs.readBuffer heap (fs.descriptor inode).blocks_bitmap 0).2.writeDevice
        (fs.descriptor inode).blocks_bitmap (load bitmap 0 fs.blockSize)) := by
  have hcount := countAllocatedBlocks_device hv hdevice
  have hpointer : ∀ i < DIRECT_BLOCK_CAPACITY,
      Inode.blockPointer ino i = Inode.blockPointer (fs.inodeMem inode) i :=
    fun i hi => (hdevice.samePointers hv).blockPointer hi
  have hunchanged : fs.MayBecome inode size ino :=
    ⟨fun x hx _ hkept => hdevice x hx hkept,fun i hi => .inl (hpointer i hi)⟩
  rw [allocateFor] at h
  split at h
  · rename_i hneeded
    obtain ⟨⟨s,t⟩,hrun,hpure⟩ := Result.bind_eq_ok.mp h
    obtain ⟨rfl,rfl⟩ := Prod.mk.inj (Except.ok.inj hpure)
    dsimp only
    rw [hcount] at hneeded hrun
    rcases allocateBlocksForInode_cases hrun with ⟨hfew,hino,rfl⟩ | ⟨hblocks,hloop,rfl⟩
    · rw [hino]
      exact ⟨hunchanged,.inl ⟨fun hall => absurd hall.2 (by omega),rfl,rfl⟩⟩
    · have hall : fs.Allocates inode size := ⟨hneeded,hblocks⟩
      obtain ⟨hsame,hpointers⟩ := allocateLoop_pointers hloop
      dsimp only at hsame hpointers
      refine ⟨⟨?_,?_⟩,.inr ⟨hall,s.bitmap,rfl⟩⟩
      · intro x hx hout hkept
        rw [hsame x hout]
        exact hdevice x hx hkept
      · intro i hi
        rw [← hpointer i hi]
        refine (hpointers i).imp_right ?_
        rintro ⟨hzero,k,hk,heq,hfree⟩
        refine ⟨hall,hzero,k,hk,heq,hfree.imp_right fun hbit htotal hin hused => ?_⟩
        rw [(bitmapBit_readBuffer hv hok heap htotal hin).mpr hused] at hbit
        cases hbit
  · rename_i henough
    obtain ⟨rfl,rfl⟩ := Prod.mk.inj (Except.ok.inj h)
    rw [hcount] at henough
    exact ⟨hunchanged,.inl ⟨fun hall => henough hall.1,rfl,rfl⟩⟩

/-- An inode that is not cached is read from its block, with its access time. -/
theorem readInode_uncached (hv : fs.Volume) (hc : fs.Coherent) (hi : fs.HasInode inode)
    (hnew : ¬fs.HasCachedInode inode) (h : fs.readInode heap inode now = (some ino,gs)) :
    ∀ x < fs.superblock.inode_size, ino x = fs.device.byte (fs.inodeAddress inode+x) := by
  intro x hx
  have hnone : fs.tryGetCachedInode inode now = (none,fs) := by
    rw [tryGetCachedInode,MoveToFront.lookup_none]
    intro c_ino hmem hnumber
    exact hnew (List.mem_map.mpr ⟨c_ino,hmem,of_decide_eq_true hnumber⟩)
  have hinner := hv.innerOffset_le inode
  rw [readInode,if_neg hi.ne_zero,hnone] at h
  obtain rfl := Option.some.inj (Prod.mk.inj h).1
  dsimp only
  rw [readBuffer_apply hv hc.blocks heap hi.lt_total (dvd_zero _) _ (by omega),
    inodeAddress,Nat.add_assoc]

/-! ## The calls -/

/-- `gs` is `fs` in a call of `__ext2_write` that has got to the contents of the file: what is
cached was cached before, or the call has read it. -/
structure Ready (fs gs : Ext2Fs) (inode offset size : ℕ) (ino : Mem) : Prop where
  layout : SameLayout fs gs
  coherent : gs.Coherent
  become : fs.MayBecome inode size ino
  blocks : ∀ b, gs.HasCached b → fs.HasCached b ∨ fs.WriteReads inode offset size ino b
  inodes : ∀ other, gs.HasCachedInode other → fs.HasCachedInode other ∨ other = inode
  device : ∀ x, gs.device.byte x = fs.device.byte x ∨ fs.Allocates inode size ∧
    (fs.descriptor inode).blocks_bitmap ≤ x ∧ x < (fs.descriptor inode).blocks_bitmap+fs.blockSize
  own : ¬fs.HasCachedInode inode → ¬fs.Allocates inode size →
    ∀ x < fs.superblock.inode_size, ino x = fs.device.byte (fs.inodeAddress inode+x)

theorem ready_of_allocateFor (hv : fs.Volume) (hc : fs.Coherent) (hi : fs.HasInode inode)
    {size : ℕ} {ino' : Mem}
    (hclear : fs.ClearWrite inode offset size) (hread : fs.readInode heap inode now = (some ino,gs))
    (h : gs.allocateFor heap inode ino (size/gs.blockSize) = .ok (ino',hs)) :
    fs.Ready hs inode offset size ino' := by
  obtain ⟨hsame,hc',ino'',hread',hdevice⟩ := readInode_ok hv hc hi heap now
  rw [hread] at hsame hc' hread'
  obtain rfl := Option.some.inj hread'
  dsimp only at hsame hc'
  have hblocks : ∀ b, gs.HasCached b → fs.HasCached b ∨ fs.WriteReads inode offset size ino' b := by
    intro b hcached
    have hfrom : (fs.readInode heap inode now).2.HasCached b := by rwa [hread]
    exact hfrom.of_readInode.imp_right fun hnew => .inode hnew.1 hnew.2
  have hinodes : ∀ other, gs.HasCachedInode other → fs.HasCachedInode other ∨ other = inode := by
    intro other hcached
    have hfrom : (fs.readInode heap inode now).2.HasCachedInode other := by rwa [hread]
    exact hfrom.of_readInode
  have hv' := hsame.layout.isVolume hv
  obtain ⟨hbecome,hcases⟩ := allocateFor_cases hv' hc'.blocks (hsame.deviceInode.mpr hdevice) h
  have hbecome' := hsame.mayBecome hbecome
  rw [hsame.allocates] at hcases
  rcases hcases with ⟨hnone,rfl,rfl⟩ | ⟨hall,bitmap,rfl⟩
  · exact ⟨hsame.layout,hc',hbecome',hblocks,hinodes,fun x => .inl (by rw [hsame.device]),
      fun hnew _ => readInode_uncached hv hc hi hnew hread⟩
  · have hreads := readBuffer_reads gs heap (gs.descriptor inode).blocks_bitmap fun _ => dvd_zero _
    have hdescriptor := hsame.layout.descriptor inode
    have hbitmap : gs.ClearBitmap inode := by
      constructor
      · intro b hcached
        rw [hsame.layout.lies,hdescriptor,hsame.layout.blockSize]
        rw [hdescriptor] at hcached
        exact (hclear.blocks ino' hbecome' b (hcached.elim (hblocks b) fun heq =>
          .inr (.bitmap hall heq))).2 hall
      · intro other hcached
        rw [hsame.layout.inodeLies,hdescriptor,hsame.layout.blockSize]
        exact (hclear.inodes other (hinodes other hcached)).2 hall
    refine ⟨hsame.layout.trans (hreads.same.layout.trans (writeDevice_layout _ _ _)),
      writeBitmap_coherent hv' hc' hbitmap heap bitmap,hbecome',?_,?_,?_,fun _ hnot =>
      absurd hall hnot⟩
    · intro b hcached
      rcases hcached.of_readBuffer with hcached | heq
      · exact hblocks b hcached
      · rw [hdescriptor] at heq
        exact .inr (.bitmap hall heq)
    · intro other hcached
      apply hinodes
      rw [HasCachedInode,← hreads.same.inodes]
      exact hcached
    · intro x
      rw [writeDevice]
      dsimp only
      rw [Device.byte_write_eq,length_load,hreads.same.device,hsame.device,hdescriptor,
        hsame.layout.blockSize]
      split
      · rename_i hin
        exact .inr ⟨hall,hin.1,hin.2.1⟩
      · exact .inl rfl

theorem Ready.mapBlock {size : ℕ} (h : fs.Ready gs inode offset size ino)
    (hclear : fs.ClearWrite inode offset size) {k : ℕ}
    (hcomes : fs.Comes ino (fs.contentsStart offset) (fs.contentsSize offset size) k) {p : ℕ}
    {blocks : List ℕ}
    (hmap : fs.mapBlock ino k = some (p,blocks)) : gs.mapBlock ino k = some (p,blocks) := by
  refine SameIn.mapBlock ⟨h.layout.superblock,?_⟩ (fun _ _ _ => rfl) hmap
  intro b hb x hx
  refine (h.device (b*fs.blockSize+x)).resolve_right ?_
  rintro ⟨hall,hlow,hhigh⟩
  have hreads : fs.WriteReads inode offset size ino b := .file ⟨k,p,blocks,hcomes,hmap,.inl hb⟩
  exact (hclear.blocks ino h.become b (.inr hreads)).2 hall ⟨by omega,by omega⟩

theorem Ready.readContents {size : ℕ} (hv : fs.Volume) (h : fs.Ready gs inode offset size ino)
    (hclear : fs.ClearWrite inode offset size) (heap : Mem) :
    fs.Ready (gs.readInodeContents heap ino (fs.contentsStart offset)
        (fs.contentsSize offset size)).2 inode offset size ino := by
  have hreads :=
    readInodeContents_reads gs heap ino (fs.contentsStart offset) (fs.contentsSize offset size)
  refine ⟨h.layout.trans hreads.same.layout,hreads.coherent (h.layout.isVolume hv) h.coherent,
    h.become,?_,?_,?_,h.own⟩
  · intro b hcached
    rcases hcached.of_readInodeContents hv (hclear.followed ino h.become) h.layout h.coherent.blocks
      (fun k hcomes p blocks => h.mapBlock hclear hcomes) with hcached | hbrought
    · exact h.blocks b hcached
    · exact .inr (.file hbrought)
  · intro other hcached
    apply h.inodes
    rw [HasCachedInode,← hreads.same.inodes]
    exact hcached
  · intro x
    rw [hreads.same.device]
    exact h.device x

theorem Ready.writeContents {size : ℕ} (h : fs.Ready gs inode offset size ino)
    (hclear : fs.ClearWrite inode offset size)
    {data : List (BitVec 8)} (hdata : data.length = fs.contentsSize offset size) :
    (gs.writeDevice (fs.contentsStart offset) data).Coherent := by
  apply writeDevice_coherent h.coherent
  · intro b hcached
    rw [h.layout.lies,hdata]
    exact (hclear.blocks ino h.become b (h.blocks b hcached)).1
  · intro other hcached
    rw [h.layout.inodeLies,hdata]
    exact (hclear.inodes other (h.inodes other hcached)).1

theorem Ready.clearInode {size : ℕ} (hv : fs.Volume) (h : fs.Ready gs inode offset size ino)
    (hclear : fs.ClearWrite inode offset size) {data : List (BitVec 8)}
    (hdata : data.length = fs.contentsSize offset size) :
    (gs.writeDevice (fs.contentsStart offset) data).ClearInode inode ino := by
  have hlayout := h.layout.trans (writeDevice_layout gs (fs.contentsStart offset) data)
  constructor
  · intro c_bl hmem hnumber x hx
    rw [hlayout.inodeBlock] at hnumber
    rw [hlayout.superblock] at hx ⊢
    rw [hlayout.innerOffset]
    have hcached := h.blocks _ ⟨c_bl,hmem,hnumber⟩
    rcases hclear.own with ⟨hnew,hnone⟩ | ⟨hold,hblock,hreads⟩
    · have hcopy := (h.writeContents hclear hdata).blocks c_bl hmem
      have hinner := hv.innerOffset_le inode
      have hout := (hclear.inodes inode (.inr rfl)).1
      rw [InodeLies] at hout
      rw [hcopy,deviceBlock,hlayout.blockSize,getD_load _ _ (by omega),hnumber,← Nat.add_assoc,
        ← inodeAddress,h.own hnew hnone x hx]
      refine writeDevice_byte ?_ (fun hlow hhigh => absurd ⟨by omega,by omega⟩ hout)
      exact ((h.device _).resolve_right fun hall => hnone hall.1).symm
    · exact absurd hcached (not_or.mpr ⟨hblock,hreads ino h.become⟩)
  · intro other hcached hne
    rw [hlayout.inodeAddress,hlayout.inodeAddress]
    rcases h.inodes other hcached with hcached | heq
    · exact hclear.others other hcached hne
    · exact absurd heq hne

theorem write_coherent (hv : fs.Volume) (hc : fs.Coherent) (hi : fs.HasInode node.inode)
    (hclear : offset < node.size → fs.ClearWrite node.inode offset data.length)
    (h : fs.write heap internal_buffer node offset data now = .ok (r,gs)) : gs.Coherent := by
  rcases write_cases h with ⟨-,rfl⟩ | ⟨-,rfl⟩ | ⟨hin,ino,s,hread,ino',t,hallocate,hcontents⟩
  · exact hc
  · exact (readInode_ok hv hc hi heap now).2.1
  have hclear := hclear hin
  have hready := ready_of_allocateFor hv hc hi hclear hread hallocate
  have hready' := hready.readContents hv hclear heap
  obtain rfl := (congrArg Prod.snd hcontents).symm
  rw [writeContents,hready.layout.blockSize]
  dsimp only
  have hlayout := fun data =>
    hready'.layout.trans (writeDevice_layout _ (fs.contentsStart offset) data)
  exact writeInode_coherent ((hlayout _).isVolume hv)
    (hready'.writeContents hclear (length_load _ _ _))
    ((hlayout _).hasInode.mpr hi) (hready'.clearInode hv hclear (length_load _ _ _))

theorem call_layout {c : Ext2Call} (h : fs.call c = .ok gs) : SameLayout fs gs := by
  cases c with
  | readBlock block readahead =>
    obtain rfl := Except.ok.inj h
    exact (readBlock_same fs block readahead).layout
  | readInode heap inode now =>
    obtain rfl := Except.ok.inj h
    exact (readInode_same fs heap inode now).layout
  | writeInode inode inode_data =>
    obtain rfl := Except.ok.inj h
    exact writeInode_layout fs inode inode_data
  | allocate call =>
    obtain ⟨⟨s,t⟩,hok,hpure⟩ := Result.bind_eq_ok.mp h
    obtain rfl := Except.ok.inj hpure
    exact allocate_layout hok
  | read heap inode offset size now =>
    obtain rfl := Except.ok.inj h
    exact (read_same fs heap inode offset size now).layout
  | write heap internal_buffer node offset data now =>
    obtain ⟨⟨r,t⟩,hok,hpure⟩ := Result.bind_eq_ok.mp h
    obtain rfl := Except.ok.inj hpure
    exact write_layout hok

theorem call_coherent (hv : fs.Volume) (hc : fs.Coherent) {c : Ext2Call} (hmay : fs.May c)
    (hclear : fs.Clear c) (h : fs.call c = .ok gs) : gs.Coherent := by
  cases c with
  | readBlock block readahead =>
    obtain rfl := Except.ok.inj h
    exact ReadsOnly.coherent ⟨readBlock_same fs block readahead,fun hv hok =>
      (readBlock_ok hv.image hok hmay).1⟩ hv hc
  | readInode heap inode now =>
    obtain rfl := Except.ok.inj h
    exact (readInode_ok hv hc hmay heap now).2.1
  | writeInode inode inode_data =>
    obtain rfl := Except.ok.inj h
    exact writeInode_coherent hv hc hmay hclear
  | allocate call =>
    obtain ⟨⟨s,t⟩,hok,hpure⟩ := Result.bind_eq_ok.mp h
    obtain rfl := Except.ok.inj hpure
    exact allocate_coherent hv hc hclear hok
  | read heap inode offset size now =>
    obtain rfl := Except.ok.inj h
    exact read_coherent hv hc hmay heap offset size now
  | write heap internal_buffer node offset data now =>
    obtain ⟨⟨r,t⟩,hok,hpure⟩ := Result.bind_eq_ok.mp h
    obtain rfl := Except.ok.inj hpure
    exact write_coherent hv hc hmay hclear hok

theorem coherent_of_run (hv : fs.Volume) (hc : fs.Coherent)
    (h : Relation.ReflTransGen CalledClear fs gs) :
    gs.Volume ∧ gs.Coherent := by
  induction h with
  | refl => exact ⟨hv,hc⟩
  | tail _ hstep ih =>
    obtain ⟨c,hmay,hclear,hcall⟩ := hstep
    exact ⟨(call_layout hcall).isVolume ih.1,call_coherent ih.1 ih.2 hmay hclear hcall⟩

/-- In a run whose calls write only where nothing is cached when they are made, every state reads
what is on the device, and reads the inode that it writes in this way. -/
theorem readsDevice_of_clear (hv : fs.Volume) (hblocks : fs.block_cache = [])
    (hinodes : fs.inode_cache = []) (hrun : Relation.ReflTransGen CalledClear fs gs) :
    gs.ReadsDevice ∧ ∀ inode inode_data, gs.HasInode inode → gs.ClearInode inode inode_data →
      gs.ReadsWritten inode inode_data := by
  have hempty : fs.Coherent := by
    refine ⟨?_,?_,?_⟩
    · intro c_bl hmem
      rw [hblocks] at hmem
      cases hmem
    · intro c_ino hmem
      rw [hinodes] at hmem
      cases hmem
    · rw [hinodes]
      exact List.nodup_nil
  obtain ⟨hv',hc⟩ := coherent_of_run hv hempty hrun
  exact ⟨hc.readsDevice hv',fun inode inode_data hi hclear =>
    readsWritten hv' hi (writeInode_coherent hv' hc hi hclear)⟩

def zeroVolume : Ext2Fs where
  superblock := ⟨16,0,8192,16,128,Ext2Superblock.kib_le⟩
  device := ⟨16*1024,fun _ => 0⟩
  bgds := fun _ => ⟨2,3,8⟩
  inode_cache := []
  block_cache := []
  readahead_buffer := fun _ => 0

theorem zeroVolume_volume : zeroVolume.Volume :=
  ⟨⟨by decide,by decide,by decide⟩,by decide,by decide,by decide⟩

/-- A run of a read and a write to an inode whose block is not cached. -/
theorem readsDevice_of_written :
    ((zeroVolume.readBlock 5 0).2.writeInode 2 fun _ => 1).ReadsDevice ∧ ∀ inode inode_data,
      ((zeroVolume.readBlock 5 0).2.writeInode 2 fun _ => 1).HasInode inode →
        ((zeroVolume.readBlock 5 0).2.writeInode 2 fun _ => 1).ClearInode inode inode_data →
          ((zeroVolume.readBlock 5 0).2.writeInode 2 fun _ => 1).ReadsWritten inode inode_data := by
  apply readsDevice_of_clear zeroVolume_volume rfl rfl
  have hlayout := (readBlock_same zeroVolume 5 0).layout
  have hi : (zeroVolume.readBlock 5 0).2.HasInode 2 := hlayout.hasInode.mpr ⟨by decide,by decide⟩
  have hcached : (zeroVolume.readBlock 5 0).2.block_cache.map CachedBlock.block_number = [5] := by
    decide +kernel
  have hinodes : (zeroVolume.readBlock 5 0).2.inode_cache = [] :=
    (readBlock_same zeroVolume 5 0).inodes
  have hclear : (zeroVolume.readBlock 5 0).2.ClearInode 2 fun _ => 1 := by
    constructor
    · intro c_bl hmem hnumber
      have hfive := List.mem_map_of_mem (f := CachedBlock.block_number) hmem
      rw [hcached,hnumber,hlayout.inodeBlock] at hfive
      exact absurd hfive (by decide)
    · intro other hother
      rw [HasCachedInode,hinodes] at hother
      cases hother
  exact .tail (.single ⟨.readBlock 5 0,show zeroVolume.Ahead 0 by decide,trivial,rfl⟩)
    ⟨.writeInode 2 fun _ => 1,hi,hclear,rfl⟩

/-- An inode that has been read before is read from its cached block after it is written. -/
theorem old_inode_read : zeroVolume.Volume ∧ zeroVolume.block_cache = [] ∧
    zeroVolume.inode_cache = [] ∧ ∃ gs, Relation.ReflTransGen Called zeroVolume gs ∧ gs.HasInode 2 ∧
    ¬gs.ReadsWritten 2 fun _ => 1 := by
  have hi : zeroVolume.HasInode 2 := ⟨by decide,by decide⟩
  have hcalled : Called zeroVolume (zeroVolume.readInode (fun _ => 0) 2 0).2 :=
    ⟨.readInode (fun _ => 0) 2 0,hi,rfl⟩
  refine ⟨zeroVolume_volume,rfl,rfl,_,.single hcalled,
    (readInode_same zeroVolume _ 2 0).layout.hasInode.mpr hi,?_⟩
  intro h
  obtain ⟨ino,hread,hino⟩ := h (fun _ => 0) 0
  have hold :
    (((zeroVolume.readInode (fun _ => 0) 2 0).2.writeInode 2 fun _ =>
      1).readInode (fun _ => 0) 2 0).1.map
      (fun ino => ino 0) = some 0 := by decide +kernel
  have hsize : 0 < (zeroVolume.readInode (fun _ => 0) 2 0).2.superblock.inode_size := by
    rw [(readInode_same zeroVolume (fun _ => 0) 2 0).superblock]
    decide
  rw [hread,Option.map_some,hino 0 hsize (by decide)] at hold
  exact absurd (Option.some.inj hold) (by decide)

end Ext2Fs
end ScalesOS
