import ScalesOS.Machine
import ScalesOS.Storage
import ScalesOS.MoveToFront

/-! The mounted volume of `modules/ext2/main.c`, and `__ext2_read_block` with its cache of
blocks. A read with readahead goes through one buffer of the volume, from which every
block that was read enters the cache. -/
namespace ScalesOS
open ByteMemory Storage

def BLOCKS_PER_CACHE : ℕ := 2048
def MAX_READAHEAD : ℕ := 8*1024*1024

/-- The fields of the superblock that the driver computes with. `block_size` is the binary
logarithm of the size in KiB; from 22 on `1024 << block_size` has no bit left in 32. -/
structure Ext2Superblock where
  total_blocks : ℕ
  block_size : ℕ
  blocks_per_group : ℕ
  inodes_per_group : ℕ
  inode_size : ℕ
  block_size_le : block_size ≤ 21
  deriving DecidableEq

theorem Ext2Superblock.kib_le : 0 ≤ 21 := Nat.zero_le 21

structure Ext2BlockGroupDescriptor where
  blocks_bitmap : ℕ
  inode_table : ℕ
  free_blocks : ℕ

structure CachedInode where
  inode_number : ℕ
  inode : Mem

structure CachedBlock where
  block_number : ℕ
  block : List (BitVec 8)

/-- A mounted volume. -/
structure Ext2Fs where
  superblock : Ext2Superblock
  device : Device
  bgds : ℕ → Ext2BlockGroupDescriptor
  inode_cache : List CachedInode
  block_cache : List CachedBlock
  readahead_buffer : Mem

namespace Ext2Fs
variable (fs : Ext2Fs)

def blockSize : ℕ := 1024*2^fs.superblock.block_size

def tryGetCachedBlock (block : ℕ) : Option (List (BitVec 8)) × Ext2Fs :=
  match MoveToFront.lookup (fun c_bl : CachedBlock => c_bl.block_number = block) fs.block_cache with
  | none => (none,fs)
  | some (c_bl,cache) => (some c_bl.block,{fs with block_cache := cache})

def cacheBlock (block : ℕ) (data : List (BitVec 8)) : Ext2Fs :=
  {fs with block_cache := MoveToFront.push BLOCKS_PER_CACHE ⟨block,data⟩ fs.block_cache}

/-- The first `n` turns of the loop that caches what is in the readahead buffer. -/
def cacheReadahead (start_block : ℕ) : ℕ → Ext2Fs
  | 0 => fs
  | n+1 => (cacheReadahead start_block n).cacheBlock (start_block+n)
      (load fs.readahead_buffer (n*fs.blockSize) fs.blockSize)

def fillReadahead (data : List (BitVec 8)) : Ext2Fs :=
  {fs with readahead_buffer := store fs.readahead_buffer 0 data}

/-- The turns of the loop that `read` bytes take. -/
def readaheadBlocks (read : ℕ) : ℕ := (read+fs.blockSize-1)/fs.blockSize

/-- A miss with readahead: the value, the bytes stored from the start of the caller's
buffer on, and the volume. -/
def readAhead (start_block readahead : ℕ) : (ℕ × List (BitVec 8)) × Ext2Fs :=
  let data := fs.device.read (start_block*fs.blockSize%W32) (min readahead MAX_READAHEAD)
  let fs := (fs.fillReadahead data).cacheReadahead start_block (fs.readaheadBlocks data.length)
  ((fs.blockSize,load fs.readahead_buffer 0 fs.blockSize),fs)

def readAlone (start_block : ℕ) : (ℕ × List (BitVec 8)) × Ext2Fs :=
  let data := fs.device.read (start_block*fs.blockSize%W32) fs.blockSize
  ((data.length,data),if data.length = fs.blockSize then fs.cacheBlock start_block data else fs)

def readBlock (start_block readahead : ℕ) : (ℕ × List (BitVec 8)) × Ext2Fs :=
  if fs.superblock.total_blocks < start_block then ((0,[]),fs)
  else
    match fs.tryGetCachedBlock start_block with
    | (some bl,fs) => ((fs.blockSize,bl),fs)
    | (none,fs) => if readahead ≠ 0 then fs.readAhead start_block readahead
        else fs.readAlone start_block

/-- What the device holds of a block. -/
def deviceBlock (block : ℕ) : List (BitVec 8) :=
  load fs.device.byte (block*fs.blockSize) fs.blockSize

def BlocksOk : Prop := ∀ c_bl ∈ fs.block_cache, c_bl.block = fs.deviceBlock c_bl.block_number

/-- The device holds the volume's blocks, whole blocks in all, and less than 4 GiB. -/
structure Image : Prop where
  aligned : fs.blockSize ∣ fs.device.size
  size_lt : fs.device.size < W32
  total_le : fs.superblock.total_blocks*fs.blockSize ≤ fs.device.size

/-- `t` is `s` with other caches and another readahead buffer. -/
structure SameVolume (s t : Ext2Fs) : Prop where
  superblock : t.superblock = s.superblock
  device : t.device = s.device
  bgds : t.bgds = s.bgds

/-- `t` keeps its structures where `s` does, on a device of the same size. -/
structure SameLayout (s t : Ext2Fs) : Prop where
  superblock : t.superblock = s.superblock
  bgds : t.bgds = s.bgds
  size : t.device.size = s.device.size

/-- `t` is `s` with another block cache and another readahead buffer. -/
structure SameButBlocks (s t : Ext2Fs) : Prop extends SameVolume s t where
  inodes : t.inode_cache = s.inode_cache

end Ext2Fs

namespace Ext2Fs
variable {fs gs hs : Ext2Fs} {block start_block readahead : ℕ}

theorem blockSize_pos : 0 < fs.blockSize := by
  rw [blockSize]
  positivity

theorem SameVolume.refl : SameVolume fs fs := ⟨rfl,rfl,rfl⟩

theorem SameVolume.trans (h : SameVolume fs gs) (h' : SameVolume gs hs) : SameVolume fs hs :=
  ⟨h'.superblock.trans h.superblock,h'.device.trans h.device,h'.bgds.trans h.bgds⟩

theorem SameButBlocks.refl : SameButBlocks fs fs := ⟨.refl,rfl⟩

theorem SameButBlocks.trans (h : SameButBlocks fs gs) (h' : SameButBlocks gs hs) :
    SameButBlocks fs hs :=
  ⟨h.toSameVolume.trans h'.toSameVolume,h'.inodes.trans h.inodes⟩

theorem SameVolume.layout (h : SameVolume fs gs) : SameLayout fs gs :=
  ⟨h.superblock,h.bgds,by rw [h.device]⟩

theorem SameLayout.blockSize (h : SameLayout fs gs) : gs.blockSize = fs.blockSize := by
  rw [Ext2Fs.blockSize,h.superblock,Ext2Fs.blockSize]

theorem SameVolume.deviceBlock (h : SameVolume fs gs) (block : ℕ) :
    gs.deviceBlock block = fs.deviceBlock block := by
  rw [Ext2Fs.deviceBlock,h.device,h.layout.blockSize,Ext2Fs.deviceBlock]

theorem SameLayout.image (h : SameLayout fs gs) (himage : fs.Image) : gs.Image := by
  refine ⟨?_,?_,?_⟩
  · rw [h.blockSize,h.size]
    exact himage.aligned
  · rw [h.size]
    exact himage.size_lt
  · rw [h.superblock,h.blockSize,h.size]
    exact himage.total_le

theorem tryGetCachedBlock_same (fs : Ext2Fs) (block : ℕ) :
    SameButBlocks fs (fs.tryGetCachedBlock block).2 := by
  rw [tryGetCachedBlock]
  split <;> exact ⟨⟨rfl,rfl,rfl⟩,rfl⟩

theorem tryGetCachedBlock_perm (fs : Ext2Fs) (block : ℕ) :
    (fs.tryGetCachedBlock block).2.block_cache.Perm fs.block_cache := by
  rw [tryGetCachedBlock]
  split
  · exact .refl _
  · rename_i hlookup
    exact (MoveToFront.lookup_eq_some hlookup).2.2

theorem tryGetCachedBlock_buffer (fs : Ext2Fs) (block : ℕ) :
    (fs.tryGetCachedBlock block).2.readahead_buffer = fs.readahead_buffer := by
  rw [tryGetCachedBlock]
  split <;> rfl

theorem tryGetCachedBlock_some {bl : List (BitVec 8)}
    (h : (fs.tryGetCachedBlock block).1 = some bl) :
    ∃ c_bl ∈ fs.block_cache, c_bl.block_number = block ∧ c_bl.block = bl := by
  rw [tryGetCachedBlock] at h
  split at h
  · cases h
  · rename_i c_bl cache hlookup
    obtain ⟨hkey,hmem,-⟩ := MoveToFront.lookup_eq_some hlookup
    exact ⟨c_bl,hmem,of_decide_eq_true hkey,Option.some.inj h⟩

theorem BlocksOk.of_perm (hok : fs.BlocksOk) (hsame : SameButBlocks fs gs)
    (hperm : gs.block_cache.Perm fs.block_cache) : gs.BlocksOk := by
  intro c_bl hc
  rw [hsame.deviceBlock]
  exact hok c_bl (hperm.subset hc)

theorem cacheBlock_same (fs : Ext2Fs) (block : ℕ) (data : List (BitVec 8)) :
    SameButBlocks fs (fs.cacheBlock block data) := ⟨⟨rfl,rfl,rfl⟩,rfl⟩

theorem BlocksOk.cacheBlock (hok : fs.BlocksOk) :
    (fs.cacheBlock block (fs.deviceBlock block)).BlocksOk := by
  intro c_bl hc
  rw [(cacheBlock_same fs block _).deviceBlock]
  rcases MoveToFront.mem_push hc with rfl | hc
  · rfl
  · exact hok c_bl hc

theorem cacheReadahead_same (fs : Ext2Fs) (start_block n : ℕ) :
    SameButBlocks fs (fs.cacheReadahead start_block n) := by
  induction n with
  | zero => exact .refl
  | succ n ih => exact ih.trans (cacheBlock_same _ _ _)

theorem cacheReadahead_buffer (fs : Ext2Fs) (start_block n : ℕ) :
    (fs.cacheReadahead start_block n).readahead_buffer = fs.readahead_buffer := by
  induction n with
  | zero => rfl
  | succ n ih => exact ih

/-- The readahead buffer holds `n` blocks of the device from `start_block` on. -/
def Holds (fs : Ext2Fs) (start_block n : ℕ) : Prop :=
  ∀ k < n, load fs.readahead_buffer (k*fs.blockSize) fs.blockSize = fs.deviceBlock (start_block+k)

/-- What is cached from a buffer that holds the device's blocks are the device's blocks. -/
theorem BlocksOk.cacheReadahead (hok : fs.BlocksOk) {n : ℕ} (hbuffer : fs.Holds start_block n) :
    (fs.cacheReadahead start_block n).BlocksOk := by
  induction n with
  | zero => exact hok
  | succ n ih =>
    have hprevious := ih fun k hk => hbuffer k (hk.trans (Nat.lt_succ_self n))
    have hsame := cacheReadahead_same fs start_block n
    rw [Ext2Fs.cacheReadahead,hbuffer n (Nat.lt_succ_self n),← hsame.deviceBlock]
    exact hprevious.cacheBlock

/-- The cache does not outgrow its bound. -/
def Bounded (fs : Ext2Fs) : Prop := fs.block_cache.length ≤ BLOCKS_PER_CACHE

theorem Bounded.cacheBlock (h : fs.Bounded) (block : ℕ) (data : List (BitVec 8)) :
    (fs.cacheBlock block data).Bounded :=
  MoveToFront.length_push h

theorem Bounded.tryGetCachedBlock (h : fs.Bounded) (block : ℕ) :
    (fs.tryGetCachedBlock block).2.Bounded :=
  (tryGetCachedBlock_perm fs block).length_eq.le.trans h

theorem Bounded.cacheReadahead (h : fs.Bounded) (start_block n : ℕ) :
    (fs.cacheReadahead start_block n).Bounded := by
  induction n with
  | zero => exact h
  | succ n ih => exact ih.cacheBlock _ _

theorem blockSize_dvd_readahead (hsmall : fs.blockSize ≤ MAX_READAHEAD) :
    fs.blockSize ∣ MAX_READAHEAD := by
  have hpow : fs.blockSize = 2^(10+fs.superblock.block_size) := by
    rw [blockSize,pow_add]
    rfl
  have hmax : MAX_READAHEAD = 2^23 := by decide
  rw [hpow,hmax] at hsmall ⊢
  exact pow_dvd_pow 2 ((Nat.pow_le_pow_iff_right (by decide)).mp hsmall)

/-- A readahead that the driver can serve: whole blocks, and no block larger than the
readahead buffer. -/
def Ahead (fs : Ext2Fs) (readahead : ℕ) : Prop :=
  fs.blockSize ∣ readahead ∧ (readahead = 0 ∨ fs.blockSize ≤ MAX_READAHEAD)

instance (fs : Ext2Fs) (readahead : ℕ) : Decidable (fs.Ahead readahead) := by
  unfold Ahead; infer_instance

theorem Ahead.capped (h : fs.Ahead readahead) (hpos : readahead ≠ 0) :
    fs.blockSize ∣ min readahead MAX_READAHEAD ∧ fs.blockSize ≤ min readahead MAX_READAHEAD := by
  have hsmall := h.2.resolve_left hpos
  have hle := Nat.le_of_dvd (Nat.pos_of_ne_zero hpos) h.1
  rcases Nat.le_total readahead MAX_READAHEAD with hcap | hcap
  · rw [min_eq_left hcap]
    exact ⟨h.1,hle⟩
  · rw [min_eq_right hcap]
    exact ⟨blockSize_dvd_readahead hsmall,hsmall⟩

theorem Image.offset_lt (himage : fs.Image) (hblock : block ≤ fs.superblock.total_blocks) :
    block*fs.blockSize%W32 = block*fs.blockSize :=
  Nat.mod_eq_of_lt (((Nat.mul_le_mul_right _ hblock).trans himage.total_le).trans_lt himage.size_lt)

theorem Image.available_dvd (himage : fs.Image) (block : ℕ) {n : ℕ} (hn : fs.blockSize ∣ n) :
    fs.blockSize ∣ fs.device.available (block*fs.blockSize) n := by
  rw [Device.available]
  rcases Nat.le_total n (fs.device.size-block*fs.blockSize) with h | h
  · rwa [min_eq_left h]
  · rw [min_eq_right h]
    exact Nat.dvd_sub himage.aligned (Nat.dvd_mul_left _ _)

theorem Image.block_le (himage : fs.Image) (hblock : block < fs.superblock.total_blocks) :
    block*fs.blockSize+fs.blockSize ≤ fs.device.size := by
  rw [← Nat.succ_mul]
  exact (Nat.mul_le_mul_right _ hblock).trans himage.total_le

theorem readaheadBlocks_eq {n : ℕ} (h : fs.blockSize ∣ n) :
    fs.readaheadBlocks n*fs.blockSize = n := by
  obtain ⟨k,rfl⟩ := h
  have hpos := @blockSize_pos fs
  have hblocks : fs.readaheadBlocks (fs.blockSize*k) = k := by
    rw [readaheadBlocks,Nat.add_sub_assoc hpos,Nat.mul_add_div hpos,
      Nat.div_eq_of_lt (by omega),Nat.add_zero]
  rw [hblocks,Nat.mul_comm]

theorem fillReadahead_holds (fs : Ext2Fs) (start_block : ℕ) {n : ℕ}
    (hn : fs.blockSize ∣ fs.device.available (start_block*fs.blockSize) n) :
    (fs.fillReadahead (fs.device.read (start_block*fs.blockSize) n)).Holds start_block
      (fs.readaheadBlocks (fs.device.available (start_block*fs.blockSize) n)) := by
  intro k hk
  have hblocks := readaheadBlocks_eq hn
  have hend : k*fs.blockSize+fs.blockSize ≤ fs.device.available (start_block*fs.blockSize) n := by
    rw [← hblocks,← Nat.succ_mul]
    exact Nat.mul_le_mul_right _ hk
  have hpart := load_store_load fs.readahead_buffer fs.device.byte (start_block*fs.blockSize) 0 hend
  rw [Nat.zero_add] at hpart
  have hblock : fs.deviceBlock (start_block+k) =
      load fs.device.byte (start_block*fs.blockSize+k*fs.blockSize) fs.blockSize := by
    rw [deviceBlock,Nat.add_mul]
  exact hpart.trans hblock.symm

theorem fillReadahead_same (fs : Ext2Fs) (data : List (BitVec 8)) :
    SameButBlocks fs (fs.fillReadahead data) :=
  ⟨⟨rfl,rfl,rfl⟩,rfl⟩

theorem readAhead_same (fs : Ext2Fs) (start_block readahead : ℕ) :
    SameButBlocks fs (fs.readAhead start_block readahead).2 := by
  rw [readAhead]
  exact (fillReadahead_same fs _).trans (cacheReadahead_same _ _ _)

theorem readAlone_same (fs : Ext2Fs) (start_block : ℕ) :
    SameButBlocks fs (fs.readAlone start_block).2 := by
  rw [readAlone]
  dsimp only
  split
  · exact cacheBlock_same _ _ _
  · exact .refl

/-- With readahead the cache stays right, and a block of the volume is delivered. -/
theorem readAhead_ok (himage : fs.Image) (hok : fs.BlocksOk) (hahead : fs.Ahead readahead)
    (hpos : readahead ≠ 0) (hblock : start_block ≤ fs.superblock.total_blocks) :
    (fs.readAhead start_block readahead).2.BlocksOk ∧
      (start_block < fs.superblock.total_blocks →
        (fs.readAhead start_block readahead).1 = (fs.blockSize,fs.deviceBlock start_block)) := by
  obtain ⟨hdvd,hle⟩ := hahead.capped hpos
  have havailable := himage.available_dvd start_block hdvd
  have hholds := fillReadahead_holds fs start_block havailable
  rw [readAhead,himage.offset_lt hblock,Device.length_read]
  generalize hgs : fs.fillReadahead
    (fs.device.read (start_block*fs.blockSize) (min readahead MAX_READAHEAD)) = gs
    at hholds ⊢
  have hsame : SameButBlocks fs gs := by
    rw [← hgs]
    exact fillReadahead_same fs _
  have hok' : gs.BlocksOk := hok.of_perm hsame (by rw [← hgs]; exact .refl _)
  refine ⟨hok'.cacheReadahead hholds,?_⟩
  intro hlt
  have hend := himage.block_le hlt
  have hread :
      fs.blockSize ≤ fs.device.available (start_block*fs.blockSize)
          (min readahead MAX_READAHEAD) := by
    rw [Device.available]
    omega
  have hfirst :
      0 < fs.readaheadBlocks (fs.device.available (start_block*fs.blockSize)
          (min readahead MAX_READAHEAD)) := by
    rw [← readaheadBlocks_eq havailable] at hread
    exact Nat.pos_of_mul_pos_right (blockSize_pos.trans_le hread)
  have hcached := (cacheReadahead_same gs start_block
    (fs.readaheadBlocks (fs.device.available (start_block*fs.blockSize)
      (min readahead MAX_READAHEAD)))).layout.blockSize
  have hload := hholds 0 hfirst
  rw [Nat.zero_mul,hsame.deviceBlock,Nat.add_zero,hsame.layout.blockSize] at hload
  dsimp only
  rw [hcached,hsame.layout.blockSize,cacheReadahead_buffer,hload]

theorem readAlone_ok (himage : fs.Image) (hok : fs.BlocksOk)
    (hblock : start_block ≤ fs.superblock.total_blocks) :
    (fs.readAlone start_block).2.BlocksOk ∧
      (start_block < fs.superblock.total_blocks →
        (fs.readAlone start_block).1 = (fs.blockSize,fs.deviceBlock start_block)) := by
  rw [readAlone,himage.offset_lt hblock,Device.length_read]
  dsimp only
  constructor
  · split
    · rename_i hwhole
      have hread :
          fs.device.read (start_block*fs.blockSize) fs.blockSize = fs.deviceBlock start_block := by
        rw [Device.read,hwhole,deviceBlock]
      rw [hread]
      exact hok.cacheBlock
    · exact hok
  · intro hlt
    have hend := himage.block_le hlt
    rw [fs.device.available_eq hend,fs.device.read_eq hend,deviceBlock]

theorem readBlock_same (fs : Ext2Fs) (start_block readahead : ℕ) :
    SameButBlocks fs (fs.readBlock start_block readahead).2 := by
  have htry := tryGetCachedBlock_same fs start_block
  rw [readBlock]
  split
  · exact .refl
  · split
    · rename_i hget
      rwa [hget] at htry
    · rename_i hget
      rw [hget] at htry
      split
      · exact htry.trans (readAhead_same _ _ _)
      · exact htry.trans (readAlone_same _ _)

theorem Bounded.readBlock (h : fs.Bounded) (start_block readahead : ℕ) :
    (fs.readBlock start_block readahead).2.Bounded := by
  have htry := h.tryGetCachedBlock start_block
  rw [Ext2Fs.readBlock]
  split
  · exact h
  · split
    · rename_i hget
      rwa [hget] at htry
    · rename_i hget
      rw [hget] at htry
      split
      · exact @Bounded.cacheReadahead (fillReadahead _ _) htry _ _
      · rw [readAlone]
        dsimp only
        split
        · exact Bounded.cacheBlock htry _ _
        · exact htry

theorem readBlock_ok (himage : fs.Image) (hok : fs.BlocksOk) (hahead : fs.Ahead readahead) :
    (fs.readBlock start_block readahead).2.BlocksOk ∧
      (start_block < fs.superblock.total_blocks →
        (fs.readBlock start_block readahead).1 = (fs.blockSize,fs.deviceBlock start_block)) := by
  have hsame := tryGetCachedBlock_same fs start_block
  have hok' := hok.of_perm hsame (tryGetCachedBlock_perm fs start_block)
  rw [readBlock]
  split
  · rename_i hlarge
    exact ⟨hok,fun hlt => absurd hlt (by omega)⟩
  · rename_i hsmall
    split
    · rename_i bl gs hget
      rw [hget] at hsame hok'
      obtain ⟨c_bl,hmem,hnumber,hblock⟩ := tryGetCachedBlock_some (congrArg Prod.fst hget)
      refine ⟨hok',fun _ => ?_⟩
      have hbl := hok c_bl hmem
      rw [hnumber,hblock] at hbl
      rw [hsame.layout.blockSize,hbl]
    · rename_i gs hget
      rw [hget] at hsame hok'
      have hblock : start_block ≤ gs.superblock.total_blocks := by
        rw [hsame.superblock]
        omega
      have hahead' : gs.Ahead readahead := by
        rwa [Ahead,hsame.layout.blockSize]
      split
      · rename_i hpos
        have h := readAhead_ok (hsame.layout.image himage) hok' hahead' hpos hblock
        rwa [hsame.superblock,hsame.layout.blockSize,hsame.deviceBlock] at h
      · have h := readAlone_ok (hsame.layout.image himage) hok' hblock
        rwa [hsame.superblock,hsame.layout.blockSize,hsame.deviceBlock] at h

/-- Reads one after the other, each with its block and its readahead: what they deliver,
and the volume after them. -/
def readBlocks (fs : Ext2Fs) : List (ℕ × ℕ) → List (ℕ × List (BitVec 8)) × Ext2Fs
  | [] => ([],fs)
  | call::calls =>
    let r := fs.readBlock call.1 call.2
    let rest := readBlocks r.2 calls
    (r.1::rest.1,rest.2)

/-- The volume in the middle of a read, when `n` blocks of its readahead are cached. -/
def during (fs : Ext2Fs) (start_block readahead n : ℕ) : Ext2Fs :=
  match fs.tryGetCachedBlock start_block with
  | (some _,fs) => fs
  | (none,fs) =>
    (fs.fillReadahead (fs.device.read (start_block*fs.blockSize%W32)
      (min readahead MAX_READAHEAD))).cacheReadahead
      start_block n

theorem Bounded.during (h : fs.Bounded) (start_block readahead n : ℕ) :
    (fs.during start_block readahead n).Bounded := by
  have htry := h.tryGetCachedBlock start_block
  rw [Ext2Fs.during]
  split
  · rename_i hget
    rwa [hget] at htry
  · rename_i hget
    rw [hget] at htry
    exact @Bounded.cacheReadahead (fillReadahead _ _) htry _ _

theorem Bounded.readBlocks (h : fs.Bounded) (calls : List (ℕ × ℕ)) :
    (fs.readBlocks calls).2.Bounded := by
  induction calls generalizing fs with
  | nil => exact h
  | cons call calls ih => exact ih (h.readBlock call.1 call.2)

theorem readBlocks_ok (himage : fs.Image) (hok : fs.BlocksOk) (calls : List (ℕ × ℕ))
    (hcalls : ∀ call ∈ calls, call.1 < fs.superblock.total_blocks ∧ fs.Ahead call.2) :
    (fs.readBlocks calls).1 = calls.map fun call => (fs.blockSize,fs.deviceBlock call.1) := by
  induction calls generalizing fs with
  | nil => rfl
  | cons call calls ih =>
    obtain ⟨hblock,hahead⟩ := hcalls call List.mem_cons_self
    obtain ⟨hok',hread⟩ := readBlock_ok himage hok hahead
    have hsame := readBlock_same fs call.1 call.2
    have hrest := ih (hsame.layout.image himage) hok' (by
      intro c hc
      rw [hsame.superblock,Ahead,hsame.layout.blockSize]
      exact hcalls c (List.mem_cons_of_mem _ hc))
    rw [hsame.layout.blockSize] at hrest
    simp only [hsame.deviceBlock] at hrest
    rw [readBlocks,List.map_cons,hread hblock]
    dsimp only
    rw [hrest]

/-- Reads through the cache deliver the blocks of the device, and the cache keeps its
bound, also while a readahead is being cached. -/
theorem cache_transparent (himage : fs.Image) (hempty : fs.block_cache = []) (calls : List (ℕ × ℕ))
    (hcalls : ∀ call ∈ calls, call.1 < fs.superblock.total_blocks ∧ fs.Ahead call.2) :
    (fs.readBlocks calls).1 = (calls.map fun call => (fs.blockSize,fs.deviceBlock call.1)) ∧
      ∀ before call after, calls = before++call::after → (fs.readBlocks before).2.Bounded ∧
        ∀ n, ((fs.readBlocks before).2.during call.1 call.2 n).Bounded := by
  have hbounded : fs.Bounded := by
    rw [Bounded,hempty]
    exact Nat.zero_le _
  constructor
  · apply readBlocks_ok himage _ calls hcalls
    intro c_bl hc
    rw [hempty] at hc
    cases hc
  · intro before call after _
    exact ⟨hbounded.readBlocks before,fun n => (hbounded.readBlocks before).during call.1 call.2 n⟩

def smallBlocks : Ext2Fs where
  superblock := ⟨2,0,8192,8,128,Ext2Superblock.kib_le⟩
  device := ⟨2048,fun _ => 1⟩
  bgds := fun _ => ⟨0,0,0⟩
  inode_cache := []
  block_cache := []
  readahead_buffer := fun _ => 0

theorem cache_transparent_small :
    (smallBlocks.readBlocks [(0,2048),(1,0)]).1 =
        ([(0,2048),(1,0)].map fun call : ℕ × ℕ =>
          (smallBlocks.blockSize,smallBlocks.deviceBlock call.1)) ∧
      ∀ before call after, [(0,2048),(1,0)] = before++call::after →
      (smallBlocks.readBlocks before).2.Bounded ∧
        ∀ n, ((smallBlocks.readBlocks before).2.during call.1 call.2 n).Bounded :=
  cache_transparent ⟨by decide,by decide,by decide⟩ rfl [(0,2048),(1,0)] (by decide)

def largeBlocks : Ext2Fs where
  superblock := ⟨1,14,8192,8,128,Nat.le_add_right 14 7⟩
  device := ⟨2*MAX_READAHEAD,fun _ => 1⟩
  bgds := fun _ => ⟨0,0,0⟩
  inode_cache := []
  block_cache := []
  readahead_buffer := fun _ => 0

/-- Of a block that is larger than the readahead buffer a read with readahead delivers only
the beginning. -/
theorem large_block_cut :
    largeBlocks.Image ∧ largeBlocks.block_cache = [] ∧ largeBlocks.blockSize ∣ 2*MAX_READAHEAD ∧
      (largeBlocks.readBlock 0 (2*MAX_READAHEAD)).1 ≠ (largeBlocks.blockSize,
        largeBlocks.deviceBlock 0) := by
  have hsize : largeBlocks.blockSize = 2*MAX_READAHEAD := by decide
  refine ⟨⟨by decide,by decide,by decide⟩,rfl,by decide,?_⟩
  intro h
  have hin : MAX_READAHEAD < largeBlocks.blockSize := by decide
  have hget : largeBlocks.tryGetCachedBlock 0 = (none,largeBlocks) := rfl
  have hread : (largeBlocks.readBlock 0 (2*MAX_READAHEAD)).1.2 =
      load (store (fun _ => 0) 0 (largeBlocks.device.read 0 MAX_READAHEAD)) 0
          largeBlocks.blockSize := by
    rw [readBlock,if_neg (by decide),hget]
    dsimp only
    rw [if_pos (by decide),readAhead]
    dsimp only
    rw [cacheReadahead_buffer,(cacheReadahead_same _ _ _).layout.blockSize,
      (fillReadahead_same _ _).layout.blockSize,
      Nat.zero_mul,Nat.zero_mod,min_eq_right (by decide),fillReadahead]
    dsimp only [largeBlocks]
  have hdata := congrArg (fun r : ℕ × List (BitVec 8) => r.2[MAX_READAHEAD]?) h
  dsimp only at hdata
  rw [hread,deviceBlock,getElem?_load _ _ hin,getElem?_load _ _ hin,store_outside] at hdata
  · exact absurd (Option.some.inj hdata) (by decide)
  · right
    rw [Device.length_read,Nat.zero_add,Nat.zero_add]
    exact largeBlocks.device.available_le 0 MAX_READAHEAD

end Ext2Fs
end ScalesOS
