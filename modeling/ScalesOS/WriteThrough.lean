import ScalesOS.CachedCopies

/-! `__ext2_write` puts the blocks of a file at the address that they have in the file, so
what it does is right where the file's blocks happen to lie there. -/
namespace ScalesOS
open ByteMemory Storage

namespace Ext2Fs
variable (fs : Ext2Fs)

/-- The bytes of the device that a write to a file may change: the blocks of the file, its
inode, and the block bitmap of its group. -/
inductive FileByte (inode x : ℕ) : Prop
  | data (k p : ℕ) (blocks : List ℕ) : fs.mapBlock (fs.inodeMem inode) k = some (p,blocks) → p ≠ 0 →
      x/fs.blockSize = p → FileByte inode x
  | inode : fs.inodeAddress inode ≤ x → x < fs.inodeAddress inode+fs.superblock.inode_size →
      FileByte inode x
  | bitmap : x/fs.blockSize = (fs.descriptor inode).blocks_bitmap → FileByte inode x

/-- A write that succeeds is followed by reads that return its data, up to the size of the
file, and changes nothing but the file. -/
def WriteRight (heap internal_buffer : Mem) (node : FileNode) (offset : ℕ) (data : List (BitVec 8))
    (now : ℕ) : Prop :=
  ∀ r gs, fs.write heap internal_buffer node offset data now = .ok (r,gs) → r ≠ 0 →
    (∀ heap' now', (gs.read heap' node.inode offset data.length now').1 =
        some (data.take (Inode.sizeLow (fs.inodeMem node.inode)-offset))) ∧
      ∀ x, gs.device.byte x ≠ fs.device.byte x → fs.FileByte node.inode x ∨ gs.FileByte node.inode x

/-- The blocks that a write of `size` bytes at `offset` goes to. -/
def Written (offset size block : ℕ) : Prop :=
  totalOffset fs.blockSize offset ≤ block ∧
    block < totalOffset fs.blockSize offset+totalBlocks fs.blockSize offset size

instance (offset size block : ℕ) : Decidable (fs.Written offset size block) := by
  unfold Written; infer_instance

/-- The blocks that are written are blocks of the file, and the ones that the data go to are
those that the file has there. -/
structure InPlace (inode : ℕ) (offset size : ℕ) : Prop where
  short : offset+size < W32
  allocated : size/fs.blockSize ≤ countAllocatedBlocks (fs.inodeMem inode) ∨
    (fs.descriptor inode).free_blocks < size/fs.blockSize-countAllocatedBlocks (fs.inodeMem inode)
  own : ∀ block, fs.Written offset size block → block ≠ 0 ∧ block < fs.superblock.total_blocks ∧
    block ≠ fs.inodeBlock inode ∧ ∃ k blocks,
    fs.mapBlock (fs.inodeMem inode) k = some (block,blocks)
  placed : ∀ k, offset/fs.blockSize ≤ k →
    k*fs.blockSize < offset+min size (Inode.sizeLow (fs.inodeMem inode)-offset) →
      ∃ blocks, fs.mapBlock (fs.inodeMem inode) k =
          some (totalOffset fs.blockSize offset+(k-offset/fs.blockSize),blocks) ∧
        ∀ b ∈ blocks, b ≠ fs.inodeBlock inode ∧ ¬fs.Written offset size b

end Ext2Fs

theorem partNeededBefore_cases {block_size : ℕ} (hbs : 0 < block_size) (offset : ℕ) :
    offset%block_size = 0 ∧ partNeededBefore block_size offset = 0 ∨
      0 < offset%block_size ∧ partNeededBefore block_size offset =
      block_size-offset%block_size := by
  have hpart := Nat.mod_lt offset hbs
  rw [partNeededBefore]
  split <;> omega

theorem sub32_eq_zero {a b : ℕ} (hb : b < W32) (h : sub32 a b = 0) : a = b := by
  have hword : W32 = 2^32 := rfl
  rw [sub32] at h
  split at h <;> omega

theorem totalBlocks_room {block_size : ℕ} (hbs : 1 < block_size) (offset : ℕ) {size : ℕ}
    (hsize : size < W32) (hsmall : block_size < W32) :
    offset%block_size+size ≤ totalBlocks block_size offset size*block_size := by
  have hpart := Nat.mod_lt offset (Nat.zero_lt_of_lt hbs)
  have hsum := Nat.div_add_mod size block_size
  have hmod := Nat.mod_lt size (Nat.zero_lt_of_lt hbs)
  have hle : size/block_size ≤ size := Nat.div_le_self _ _
  have hbefore := partNeededBefore_cases (Nat.zero_lt_of_lt hbs) offset
  have hafter : partNeededAfter block_size offset size = 0 →
      size-size/block_size = partNeededBefore block_size offset := by
    intro h
    rw [partNeededAfter,sub32_eq hle] at h
    exact sub32_eq_zero (by omega) h
  have hblocks : size/block_size ≤ block_size*(size/block_size) :=
    Nat.le_mul_of_pos_left _ (by omega)
  rw [Nat.mul_comm,totalBlocks]
  rcases hbefore with ⟨haligned,hzero⟩ | ⟨hpos,hcut⟩
  · rw [hzero] at hafter ⊢
    by_cases hempty : size = 0
    · subst hempty
      simp [haligned]
    · have hlt : size/block_size < size := Nat.div_lt_self (by omega) hbs
      rw [if_pos (by omega),if_neg (by omega),Nat.add_zero,Nat.mul_succ]
      omega
  · rw [if_pos (show 0 < partNeededBefore block_size offset by omega),Nat.mul_succ]
    split
    · rw [Nat.mul_succ]
      omega
    · rename_i hnone
      have heq := hafter (by omega)
      rw [Nat.add_zero]
      omega

namespace Ext2Fs
variable {fs gs : Ext2Fs} {heap internal_buffer : Mem} {node : FileNode} {offset now r inode : ℕ}
  {data : List (BitVec 8)}

/-- Nothing is allocated if the inode has enough blocks, or its group has too few. -/
theorem allocateFor_none {ino : Mem} {blocks_needed : ℕ}
    (h : blocks_needed ≤ countAllocatedBlocks ino ∨
      (fs.descriptor inode).free_blocks < blocks_needed-countAllocatedBlocks ino) :
    fs.allocateFor heap inode ino blocks_needed = .ok (ino,fs) := by
  rw [allocateFor]
  split
  · rename_i hneeded
    have hfew := h.resolve_left (by omega)
    rw [allocateBlocksForInode]
    dsimp only
    rw [if_neg (by omega)]
    rfl
  · rfl

theorem written_iff {size x : ℕ} : fs.Written offset size (x/fs.blockSize) ↔
    totalOffset fs.blockSize offset*fs.blockSize ≤ x ∧
      x < (totalOffset fs.blockSize offset+totalBlocks fs.blockSize offset size)*fs.blockSize := by
  rw [Written,Nat.le_div_iff_mul_le blockSize_pos,Nat.div_lt_iff_lt_mul blockSize_pos]

/-- The device after the contents have been written, and then the inode. -/
theorem writeContents_byte (hv : fs.Volume) (hi : fs.HasInode inode)
    (heap internal_buffer ino : Mem) (offset : ℕ) (data : List (BitVec 8))
    (hroom : (totalOffset fs.blockSize offset+totalBlocks fs.blockSize offset
      data.length)*fs.blockSize ≤ fs.device.size) :
    ∃ buffer : Mem, (∀ i < data.length, buffer (offset%fs.blockSize+i) = data.getD i 0) ∧
      ∀ x, (fs.writeContents heap internal_buffer inode ino offset data).2.device.byte x =
        if fs.inodeAddress inode ≤ x ∧ x < fs.inodeAddress inode+fs.superblock.inode_size then
          ino (x-fs.inodeAddress inode)
        else if fs.Written offset data.length (x/fs.blockSize) then
          buffer (x-totalOffset fs.blockSize offset*fs.blockSize)
        else fs.device.byte x := by
  have hlt := hv.image.size_lt
  rw [Nat.add_mul] at hroom
  have hstart :
      totalOffset fs.blockSize offset*fs.blockSize%W32 =
          totalOffset fs.blockSize offset*fs.blockSize :=
    Nat.mod_eq_of_lt (by omega)
  have hn : totalBlocks fs.blockSize offset data.length*fs.blockSize%W32 =
      totalBlocks fs.blockSize offset data.length*fs.blockSize := Nat.mod_eq_of_lt (by omega)
  rw [writeContents,hstart,hn]
  dsimp only
  have hreads := readInodeContents_reads fs heap ino (totalOffset fs.blockSize offset*fs.blockSize)
    (totalBlocks fs.blockSize offset data.length*fs.blockSize)
  generalize fs.readInodeContents heap ino (totalOffset fs.blockSize offset*fs.blockSize)
    (totalBlocks fs.blockSize offset data.length*fs.blockSize) = contents at hreads
  refine ⟨store (store internal_buffer 0 contents.1) (offset%fs.blockSize) data,
    fun i hin => store_inside _ _ hin,?_⟩
  intro x
  generalize store (store internal_buffer 0 contents.1) (offset%fs.blockSize) data = buffer
  have hsame : SameVolume fs contents.2 := hreads.same.toSameVolume
  have hinode := hv.inodeAddress_le hi
  have hlayout := writeDevice_layout contents.2 (totalOffset fs.blockSize offset*fs.blockSize)
    (load buffer 0 (totalBlocks fs.blockSize offset data.length*fs.blockSize))
  have hv' := hlayout.isVolume (hsame.layout.isVolume hv)
  have hi' := hlayout.hasInode.mpr (hsame.layout.hasInode.mpr hi)
  rw [writeInode,invalidateInode,writeDevice,hv'.inodeAddress_mod hi',hlayout.inodeAddress,
    hsame.layout.inodeAddress]
  dsimp only
  rw [Device.byte_write_eq,length_load,hlayout.superblock,hsame.superblock,
    hlayout.size,hsame.device]
  by_cases hin : fs.inodeAddress inode ≤ x ∧ x < fs.inodeAddress inode+fs.superblock.inode_size
  · rw [if_pos hin,if_pos ⟨hin.1,hin.2,by omega⟩,getD_load _ _ (by omega),Nat.zero_add]
  · rw [if_neg hin,if_neg fun h => hin ⟨h.1,h.2.1⟩,writeDevice]
    dsimp only
    rw [Device.byte_write_eq,length_load,hsame.device]
    by_cases hrange : fs.Written offset data.length (x/fs.blockSize)
    · have hx := written_iff.mp hrange
      rw [Nat.add_mul] at hx
      rw [if_pos ⟨hx.1,hx.2,by omega⟩,if_pos hrange,getD_load _ _ (by omega),Nat.zero_add]
    · have hx := mt written_iff.mpr hrange
      rw [Nat.add_mul] at hx
      rw [if_neg fun h => hx ⟨h.1,h.2.1⟩,if_neg hrange]

section
variable {size : ℕ}

theorem Volume.one_lt_blockSize (hv : fs.Volume) : 1 < fs.blockSize ∧ fs.blockSize < W32 := by
  have hsmall := hv.small
  have hmax : MAX_READAHEAD < W32 := by decide
  have hpow := Nat.one_le_two_pow (n := fs.superblock.block_size)
  refine ⟨?_,by omega⟩
  rw [blockSize]
  omega

theorem Volume.written_data (hv : fs.Volume) (hshort : offset+size < W32) {k : ℕ}
    (hlow : offset/fs.blockSize ≤ k) (hhigh : k*fs.blockSize < offset+size) :
    fs.Written offset size (totalOffset fs.blockSize offset+(k-offset/fs.blockSize)) := by
  obtain ⟨hone,hword⟩ := hv.one_lt_blockSize
  have hroom := totalBlocks_room hone offset (show size < W32 by omega) hword
  have hsum := Nat.div_add_mod offset fs.blockSize
  rw [Nat.mul_comm] at hsum
  have hlt : k < offset/fs.blockSize+totalBlocks fs.blockSize offset size := by
    apply Nat.lt_of_mul_lt_mul_right (a := fs.blockSize)
    rw [Nat.add_mul]
    omega
  exact ⟨Nat.le_add_right _ _,by omega⟩

theorem InPlace.room (hv : fs.Volume) (h : fs.InPlace inode offset size)
    (hblocks : totalBlocks fs.blockSize offset size ≠ 0) :
    (totalOffset fs.blockSize offset+totalBlocks fs.blockSize offset size)*fs.blockSize ≤
    fs.device.size := by
  have hlast :=
    (h.own (totalOffset fs.blockSize offset+(totalBlocks fs.blockSize offset size-1)) ⟨by
      omega,by omega⟩).2.1
  have hle := hv.image.block_le hlast
  rw [← Nat.succ_mul] at hle
  have hsum : totalOffset fs.blockSize offset+(totalBlocks fs.blockSize offset size-1)+1 =
      totalOffset fs.blockSize offset+totalBlocks fs.blockSize offset size := by omega
  rwa [Nat.succ_eq_add_one,hsum] at hle

end

/-- What is left of a write to the blocks of a file themselves: the device has changed in
these blocks and in the inode, which is still what it was. -/
theorem write_inPlace (hv : fs.Volume) (hc : fs.Coherent) (hi : fs.HasInode node.inode)
    (hplace : fs.InPlace node.inode offset data.length)
    (hwrite : fs.write heap internal_buffer node offset data now = .ok (r,gs)) (hr : r ≠ 0) :
    ∃ ino, fs.DeviceInode node.inode ino ∧ ∃ buffer : Mem,
      (∀ i < data.length, buffer (offset%fs.blockSize+i) = data.getD i 0) ∧
        ∀ x, gs.device.byte x =
          if fs.inodeAddress node.inode ≤ x ∧
            x < fs.inodeAddress node.inode+fs.superblock.inode_size then
            ino (x-fs.inodeAddress node.inode)
          else if fs.Written offset data.length (x/fs.blockSize) then
            buffer (x-totalOffset fs.blockSize offset*fs.blockSize)
          else fs.device.byte x := by
  obtain ⟨-,ino,s,hread,ino',t,hallocate,hcontents⟩ :=
    ((write_cases hwrite).resolve_left fun h => hr h.1).resolve_left fun h => hr h.1
  obtain ⟨hsame,-,ino'',hread',hdevice⟩ := readInode_ok hv hc hi heap now
  rw [hread] at hsame hread'
  obtain rfl := Option.some.inj hread'
  dsimp only at hsame
  have hcount := countAllocatedBlocks_congr (hdevice.samePointers hv)
  have hnone : s.allocateFor heap node.inode ino (data.length/s.blockSize) = .ok (ino,s) := by
    apply allocateFor_none
    rw [hsame.layout.blockSize,hcount,hsame.layout.descriptor]
    exact hplace.allocated
  rw [hnone] at hallocate
  obtain ⟨rfl,rfl⟩ := Prod.mk.inj (Except.ok.inj hallocate)
  have hblocks : totalBlocks fs.blockSize offset data.length ≠ 0 := by
    intro hzero
    apply hr
    have hvalue : (s.writeContents heap internal_buffer node.inode ino offset data).1 = r :=
      congrArg Prod.fst hcontents
    rw [← hvalue,writeContents,hsame.layout.blockSize,hzero]
    dsimp only
    rw [Nat.zero_mul,Nat.zero_mod]
    exact Nat.le_zero.mp (Device.available_le _ _ _)
  have hroom := hplace.room hv hblocks
  have hi' : s.HasInode node.inode := hsame.layout.hasInode.mpr hi
  obtain ⟨buffer,hbuffer,hbyte⟩ :=
    writeContents_byte (hsame.layout.isVolume hv) hi' heap internal_buffer ino offset data
    (by rwa [hsame.layout.blockSize,hsame.device])
  rw [hcontents] at hbyte
  simp only [Written,hsame.layout.blockSize,hsame.device,hsame.superblock,
    hsame.layout.inodeAddress] at hbuffer hbyte
  exact ⟨ino,hdevice,buffer,hbuffer,hbyte⟩

/-- Data whose first block is put at the block `first` stay in one piece. -/
theorem block_address (fs : Ext2Fs) (offset first i : ℕ) :
    (first+((offset+i)/fs.blockSize-offset/fs.blockSize))*fs.blockSize+(offset+i)%fs.blockSize =
        first*fs.blockSize+(offset%fs.blockSize+i) ∧
      (first*fs.blockSize+(offset%fs.blockSize+i))/fs.blockSize =
        first+((offset+i)/fs.blockSize-offset/fs.blockSize) := by
  have hpos := @blockSize_pos fs
  have hsum : offset+i = fs.blockSize*(offset/fs.blockSize)+(offset%fs.blockSize+i) := by
    rw [← Nat.add_assoc,Nat.div_add_mod]
  have hdiv :
      (offset+i)/fs.blockSize-offset/fs.blockSize = (offset%fs.blockSize+i)/fs.blockSize := by
    rw [hsum,Nat.mul_add_div hpos,Nat.add_sub_cancel_left]
  have hmod : (offset+i)%fs.blockSize = (offset%fs.blockSize+i)%fs.blockSize := by
    rw [hsum,Nat.mul_add_mod]
  rw [hdiv,hmod]
  constructor
  · have := Nat.div_add_mod (offset%fs.blockSize+i) fs.blockSize
    rw [Nat.add_mul,Nat.mul_comm (_/_) fs.blockSize]
    omega
  · rw [Nat.mul_comm,Nat.mul_add_div hpos]

theorem load_eq_take {m : Mem} {a n : ℕ} {data : List (BitVec 8)}
    (h : ∀ i < data.length, m (a+i) = data.getD i 0) :
    load m a (min data.length n) = data.take n := by
  apply List.ext_getElem?
  intro i
  by_cases hi : i < min data.length n
  · have hdata : i < data.length := by omega
    rw [getElem?_load _ _ hi,List.getElem?_take_of_lt (by omega),h i hdata,
      List.getD_eq_getElem?_getD,List.getElem?_eq_getElem hdata,Option.getD_some]
  · rw [List.getElem?_eq_none (by rw [length_load]; omega),
      List.getElem?_eq_none (by rw [List.length_take]; omega)]

/-- A write is right if it goes to the blocks of the file themselves, and nothing of them is
cached. -/
theorem writeRight_of_inPlace (hv : fs.Volume) (hc : fs.Coherent) (hi : fs.HasInode node.inode)
    (hoffset : offset < Inode.sizeLow (fs.inodeMem node.inode))
    (hplace : fs.InPlace node.inode offset data.length)
    (hclear : offset < node.size → fs.ClearWrite node.inode offset data.length) :
    fs.WriteRight heap internal_buffer node offset data now := by
  intro r gs hwrite hr
  obtain ⟨ino,hdevice,buffer,hbuffer,hbyte⟩ := write_inPlace hv hc hi hplace hwrite hr
  have hlayout := write_layout hwrite
  have hbs : gs.blockSize = fs.blockSize := hlayout.blockSize
  constructor
  · intro heap' now'
    by_cases hempty : data.length = 0
    · rw [List.length_eq_zero_iff.mp hempty,List.take_nil]
      rfl
    · have hv' := hlayout.isVolume hv
      have hc' := write_coherent hv hc hi hclear hwrite
      have hinode : ∀ x < fs.superblock.inode_size, gs.inodeMem node.inode x = ino x := by
        intro x hx
        rw [inodeMem,hlayout.inodeAddress,hbyte,if_pos ⟨by omega,by omega⟩,Nat.add_sub_cancel_left]
      have hsize := hv.inode_size
      have hlow :
          Inode.sizeLow (gs.inodeMem node.inode) = Inode.sizeLow (fs.inodeMem node.inode) := by
        rw [← hdevice.sizeLow hv]
        exact read32_congr fun x _ hx => hinode x (by omega)
      have hpointers : SamePointers (fs.inodeMem node.inode) (gs.inodeMem node.inode) := by
        intro x hx hx'
        rw [hinode x (by omega),hdevice.samePointers hv x hx hx']
      -- The indirect blocks on the way to the data are not written.
      have hmaps : gs.Maps (gs.inodeMem node.inode)
          (fun k => totalOffset fs.blockSize offset+(k-offset/fs.blockSize)) offset
          (min data.length (Inode.sizeLow (gs.inodeMem node.inode)-offset)) := by
        rw [hlow,Maps,hbs,hlayout.superblock]
        intro k hklow hkhigh
        obtain ⟨blocks,hmap,hblocks⟩ := hplace.placed k hklow hkhigh
        obtain ⟨hne,hlt,-⟩ := hplace.own _ (hv.written_data hplace.short hklow (by omega))
        have hsame : SameIn blocks fs gs := by
          refine ⟨hlayout.superblock,?_⟩
          intro b hb x hx
          obtain ⟨hninode,hnwritten⟩ := hblocks b hb
          have hdiv : (b*fs.blockSize+x)/fs.blockSize = b := by
            rw [Nat.mul_comm,Nat.mul_add_div blockSize_pos,Nat.div_eq_of_lt hx,Nat.add_zero]
          rw [hbyte,if_neg,if_neg]
          · rwa [hdiv]
          · rintro ⟨h,h'⟩
            exact hninode (hdiv.symm.trans (hv.inodeByte_block h h'))
        exact ⟨blocks,hsame.mapBlock hpointers hmap,hne,hlt⟩
      have hread :=
        read_eq hv' hc' (hlayout.hasInode.mpr hi) heap' now' hempty (by
          rwa [hlow]) hplace.short hmaps
      rw [hread,hlow]
      congr 1
      apply load_eq_take
      intro i hi
      have hwritten :=
        hv.written_data hplace.short (Nat.div_le_div_right (Nat.le_add_right offset i))
        ((Nat.div_mul_le_self (offset+i) fs.blockSize).trans_lt (by omega))
      have hninode := (hplace.own _ hwritten).2.2.1
      obtain ⟨haddress,hblock⟩ := fs.block_address offset (totalOffset fs.blockSize offset) i
      rw [← hblock] at hwritten hninode
      rw [fileMem,hbs,haddress,hbyte,if_neg,if_pos hwritten,Nat.add_sub_cancel_left,hbuffer i hi]
      rintro ⟨h,h'⟩
      exact hninode (hv.inodeByte_block h h')
  · intro x hx
    left
    rw [hbyte] at hx
    split at hx
    · rename_i hin
      exact .inode hin.1 hin.2
    · split at hx
      · rename_i hwritten
        obtain ⟨hne,-,-,k,blocks,hmap⟩ := hplace.own _ hwritten
        exact .data k _ blocks hmap hne rfl
      · exact absurd rfl hx

/-- A volume with a file of 10 KiB, whose only block is the last one. It is block 8 of the
volume. -/
def lastBlockVolume : Ext2Fs where
  superblock := ⟨16,0,8192,16,128,Ext2Superblock.kib_le⟩
  device := ⟨16*1024,fun x => if x = 3205 then 0x28 else if x = 3276 then 8 else 0⟩
  bgds := fun _ => ⟨2,3,8⟩
  inode_cache := []
  block_cache := []
  readahead_buffer := fun _ => 0

/-- The write of the last byte reads block 3, which has the inode, and no block of the file, since
the file has no block 8. -/
theorem lastBlockVolume_clear : lastBlockVolume.ClearWrite 2 10239 1 := by
  have hstart : lastBlockVolume.contentsStart 10239 = 8192 := by decide
  have hsize : lastBlockVolume.contentsSize 10239 1 = 1024 := by decide
  have hnone : ¬lastBlockVolume.Allocates 2 1 := fun hall => absurd hall.1 (by decide)
  have hinodes : ∀ other, ¬lastBlockVolume.HasCachedInode other := fun _ => List.not_mem_nil
  have hblocks : ∀ b, ¬lastBlockVolume.HasCached b := fun b ⟨_,hmem,_⟩ =>
    absurd hmem List.not_mem_nil
  have hbs : lastBlockVolume.blockSize = 1024 := by decide
  have hmissing : ∀ ino, lastBlockVolume.MayBecome 2 1 ino →
      lastBlockVolume.mapBlock ino 8 = some (0,[]) := by
    intro ino hbecome
    have hpointer := (hbecome.pointers 8 (by decide)).resolve_right fun hgiven => hnone hgiven.1
    rw [mapBlock,if_pos (by decide),hpointer]
    decide
  have hcomes : ∀ ino, lastBlockVolume.MayBecome 2 1 ino →
      ∀ k, lastBlockVolume.Comes ino 8192 1024 k → k = 8 := by
    rintro ino hbecome k ⟨-,hlow,-,hmapped⟩
    rw [hbs] at hlow hmapped
    by_contra hne
    obtain ⟨p,blocks,hmap,hp⟩ := hmapped 8 (by decide) (by omega)
    rw [hmissing ino hbecome] at hmap
    exact hp (Prod.mk.inj (Option.some.inj hmap)).1.symm
  have hreads : ∀ ino, lastBlockVolume.MayBecome 2 1 ino →
      ∀ b, lastBlockVolume.WriteReads 2 10239 1 ino b → b = 3 := by
    intro ino hbecome b hreads
    cases hreads with
    | inode _ heq => exact heq.trans (by decide)
    | bitmap hall => exact absurd hall hnone
    | file hbrought =>
      rw [hstart,hsize] at hbrought
      obtain ⟨k,p,blocks,hk,hmap,hb⟩ := hbrought
      rw [hcomes ino hbecome k hk,hmissing ino hbecome] at hmap
      obtain ⟨rfl,rfl⟩ := Prod.mk.inj (Option.some.inj hmap)
      exact hb.elim (fun hmem => absurd hmem List.not_mem_nil) (fun h => absurd rfl h.1)
  refine ⟨?_,?_,?_,.inl ⟨hinodes 2,hnone⟩,fun other hother => absurd hother (hinodes other)⟩
  · intro ino hbecome k hk
    rw [hstart,hsize] at hk
    rw [hcomes ino hbecome k hk]
    exact ⟨0,[],hmissing ino hbecome⟩
  · intro ino hbecome b hb
    obtain rfl := hreads ino hbecome b (hb.resolve_left (hblocks b))
    rw [hstart,hsize]
    exact ⟨by rw [Lies,hbs]; decide,fun hall => absurd hall hnone⟩
  · intro other hother
    obtain rfl := hother.resolve_left (hinodes other)
    rw [hstart,hsize]
    exact ⟨by rw [InodeLies]; decide,fun hall => absurd hall hnone⟩

/-- The last byte of the file is written to the byte that it has on the device. -/
theorem writeRight_lastByte :
    lastBlockVolume.WriteRight (fun _ => 0) (fun _ => 0) ⟨2,10240⟩ 10239 [1] 0 := by
  have hinode : lastBlockVolume.inodeBlock 2 = 3 := by decide
  have hlow : Inode.sizeLow (lastBlockVolume.inodeMem 2) = 10240 := by decide
  have hnine : lastBlockVolume.mapBlock (lastBlockVolume.inodeMem 2) 9 = some (8,[]) := by decide
  have hbs : lastBlockVolume.blockSize = 1024 := by decide
  refine writeRight_of_inPlace ⟨⟨by decide,by decide,by decide⟩,by decide,by decide,
    by decide⟩ ⟨?_,?_,?_⟩
    ⟨by decide,by decide⟩ (by rw [hlow]; decide) ⟨by decide,Or.inl (by decide),?_,?_⟩ ?_
  · exact fun _ h => absurd h List.not_mem_nil
  · exact fun _ h => absurd h List.not_mem_nil
  · exact List.nodup_nil
  · intro block hwritten
    have hblock : block = 8 := by
      obtain ⟨h,h'⟩ := hwritten
      have htotal : totalOffset lastBlockVolume.blockSize 10239 = 8 ∧
          totalBlocks lastBlockVolume.blockSize 10239 1 = 1 := by
        decide
      dsimp only [List.length_cons,List.length_nil] at h'
      rw [htotal.1] at h h'
      rw [htotal.2] at h'
      omega
    subst hblock
    exact ⟨by decide,by decide,by decide,9,[],hnine⟩
  · intro k hlow' hhigh
    rw [hlow] at hhigh
    rw [hbs] at hlow' hhigh
    have hk : k = 9 := by
      dsimp only [List.length_cons,List.length_nil] at hhigh
      omega
    subst hk
    exact ⟨[],hnine,fun b h => absurd h List.not_mem_nil⟩
  · exact fun _ => lastBlockVolume_clear

def oneBlockVolume : Ext2Fs where
  superblock := ⟨16,0,8192,16,128,Ext2Superblock.kib_le⟩
  device := ⟨16*1024,fun x => if x = 3205 then 4 else if x = 3240 then 8 else 0⟩
  bgds := fun _ => ⟨2,3,8⟩
  inode_cache := []
  block_cache := []
  readahead_buffer := fun _ => 0

/-- A byte written to the file lands in the first byte of the volume, and is not read. -/
theorem byte_lands_in_front :
    (∃ gs, oneBlockVolume.write (fun _ => 0) (fun _ => 0) ⟨2,1024⟩ 0 [1] 0 = .ok (1024,gs) ∧
        gs.device.byte 0 = 1 ∧ (gs.read (fun _ => 0) 2 0 1 0).1 = some [0]) ∧
      0 < Inode.sizeLow (oneBlockVolume.inodeMem 2) ∧
      ¬oneBlockVolume.WriteRight (fun _ => 0) (fun _ => 0) ⟨2,1024⟩ 0 [1] 0 := by
  have hrun :
    ∃ gs, oneBlockVolume.write (fun _ => 0) (fun _ => 0) ⟨2,1024⟩ 0 [1] 0 = .ok (1024,gs) ∧
      gs.device.byte 0 = 1 ∧ (gs.read (fun _ => 0) 2 0 1 0).1 = some [0] := by
    have h :
        ((oneBlockVolume.write (fun _ => 0) (fun _ => 0) ⟨2,1024⟩ 0 [1] 0).toOption.any fun q =>
        decide (q.1 = 1024 ∧ q.2.device.byte 0 = 1 ∧ (q.2.read (fun _ => 0) 2 0 1 0).1 =
            some [0])) = true := by
      decide +kernel
    obtain ⟨⟨r,gs⟩,hwrite,h⟩ := (Option.any_eq_true _ _).mp h
    obtain ⟨rfl,hbyte,hread⟩ := of_decide_eq_true h
    exact ⟨gs,Result.eq_ok_of_toOption hwrite,hbyte,hread⟩
  refine ⟨hrun,by decide,?_⟩
  obtain ⟨gs,hwrite,-,hread⟩ := hrun
  intro h
  have hdata := (h 1024 gs hwrite (by decide)).1 (fun _ => 0) 0
  rw [show [(1 : BitVec 8)].length = 1 from rfl,hread] at hdata
  have hlow : Inode.sizeLow (oneBlockVolume.inodeMem 2) = 1024 := by decide
  rw [hlow] at hdata
  exact absurd (Option.some.inj hdata) (by decide)

end Ext2Fs
end ScalesOS
