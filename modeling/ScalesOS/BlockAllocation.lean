import ScalesOS.Inodes

/-! `__ext2_allocate_blocks_for_inode`: blocks for an inode from the bitmap of its group.
The bitmap is read by the number of its block and written to the address of that number. -/
namespace ScalesOS
open ByteMemory Storage

/-- Bit `k` of a bitmap. -/
def bitmapBit (bitmap : Mem) (k : ℕ) : Bool := (read32 bitmap (4*(k/32))).testBit (k%32)

/-- The bitmap with bit `k` set. -/
def setBitmapBit (bitmap : Mem) (k : ℕ) : Mem :=
  write32 bitmap (4*(k/32)) (read32 bitmap (4*(k/32)) ||| 2^(k%32))

/-- The search of `__ext2_get_free_block_from_bitmap` from word `i` on, over `n` words: the
bit that it finds, and the words up to which it has looked. -/
def freeBit (bitmap : Mem) : (n i : ℕ) → Option ℕ × ℕ
  | 0,i => (none,i)
  | n+1,i =>
    if read32 bitmap (4*i) = 0xFFFFFFFF then freeBit bitmap n (i+1)
    else
      match (List.range 32).find? fun j => !(read32 bitmap (4*i)).testBit j with
      | some j => (some (i*32+j),i+1)
      | none => freeBit bitmap n (i+1)

/-- `__ext2_get_free_block_from_bitmap`: its value, the words it has looked at, and the
bitmap. The number of words does not depend on the size of a block. -/
def getFreeBlockFromBitmap (bitmap : Mem) : (ℕ × ℕ) × Mem :=
  match freeBit bitmap 1024 0 with
  | (some k,words) => ((k,words),setBitmapBit bitmap k)
  | (none,words) => ((0,words),bitmap)

/-- `__ext2_free_block_slot_from_inode`; the indirect blocks are not searched. -/
def freeBlockSlot (ino : Mem) : Option ℕ :=
  (List.range DIRECT_BLOCK_CAPACITY).find? fun i => Inode.blockPointer ino i = 0

/-- An inode and a bitmap, with the block numbers that have been stored into the inode, and
for each of them how many words of the bitmap were looked at. -/
structure Allocation where
  ino : Mem
  bitmap : Mem
  stored : List ℕ
  words : List ℕ

/-- One turn of the loop. Without a slot the block number is stored through a null pointer. -/
def allocateOne (block_offset : ℕ) (s : Allocation) : Result Allocation :=
  match freeBlockSlot s.ino with
  | none => throw (.panic "Page fault at 0x00000000")
  | some i =>
    let r := getFreeBlockFromBitmap s.bitmap
    let block := (block_offset+r.1.1)%W32
    pure ⟨Inode.setBlockPointer s.ino i block,r.2,block::s.stored,r.1.2::s.words⟩

def allocateLoop (block_offset : ℕ) : (blocks : ℕ) → Allocation → Result Allocation
  | 0,s => pure s
  | blocks+1,s => do allocateLoop block_offset blocks (← allocateOne block_offset s)

namespace Ext2Fs
variable (fs : Ext2Fs)

/-- The descriptor of an inode's group. -/
def descriptor (inode : ℕ) : Ext2BlockGroupDescriptor := fs.bgds (fs.groupFromInode inode)

def groupStart (inode : ℕ) : ℕ := fs.groupFromInode inode*fs.superblock.blocks_per_group%W32

def allocateBlocksForInode (heap : Mem) (inode : ℕ) (inode_data : Mem) (blocks : ℕ) :
    Result (Allocation × Ext2Fs) :=
  let desc := fs.descriptor inode
  if blocks ≤ desc.free_blocks then do
    let r := fs.readBuffer heap desc.blocks_bitmap 0
    let s ← allocateLoop (fs.groupStart inode) blocks ⟨inode_data,r.1,[],[]⟩
    pure (s,r.2.writeDevice desc.blocks_bitmap (load s.bitmap 0 fs.blockSize))
  else pure (⟨inode_data,heap,[],[]⟩,fs)

/-- A call, with what is in fresh memory when it is made. -/
structure AllocationCall where
  heap : Mem
  inode : ℕ
  inode_data : Mem
  blocks : ℕ

def allocate (call : AllocationCall) : Result (Allocation × Ext2Fs) :=
  fs.allocateBlocksForInode call.heap call.inode call.inode_data call.blocks

/-- Block `k` of an inode's group is marked used in the bitmap that is on the device. -/
def Used (inode k : ℕ) : Prop :=
  bitmapBit (fun x => fs.device.byte ((fs.descriptor inode).blocks_bitmap*fs.blockSize+x)) k = true

/-- What a call that returns has to have done. It has no value to report a full group or a
full inode with, so it must have stored as many blocks as it was asked for. -/
structure GivesFree (call : AllocationCall) (s : Allocation) (gs : Ext2Fs) : Prop where
  all : s.stored.length = call.blocks
  distinct : s.stored.Nodup
  inside : ∀ n ∈ s.words, 4*n ≤ fs.blockSize
  free : ∀ block ∈ s.stored, ∃ k < fs.superblock.blocks_per_group,
    block = (fs.groupStart call.inode+k)%W32 ∧ ¬fs.Used call.inode k ∧ gs.Used call.inode k

/-- Calls one after the other all return with free blocks, none of which is in `given` or
given out twice. -/
def AllocatesFree (fs : Ext2Fs) : List AllocationCall → (given : List ℕ) → Prop
  | [],_ => True
  | call::calls,given => ∃ s gs, fs.allocate call = .ok (s,gs) ∧ fs.GivesFree call s gs ∧
      (∀ block ∈ s.stored, block ∉ given) ∧ AllocatesFree gs calls (s.stored++given)

end Ext2Fs

theorem bitmapBit_setBitmapBit (bitmap : Mem) (k l : ℕ) :
    bitmapBit (setBitmapBit bitmap k) l = (decide (l = k) || bitmapBit bitmap l) := by
  rw [bitmapBit,bitmapBit,setBitmapBit]
  by_cases hword : l/32 = k/32
  · have hbit : l%32 < 32 := Nat.mod_lt _ (by decide)
    have hmod : (0x100000000 : ℕ) = 2^32 := by decide
    have hsame : decide (k%32 = l%32) = decide (l = k) := by
      apply decide_eq_decide.mpr
      omega
    rw [hword,read32_write32,hmod,Nat.testBit_mod_two_pow,decide_eq_true hbit,
      Bool.true_and,Nat.testBit_or,Nat.testBit_two_pow,hsame,Bool.or_comm]
  · have hne : l ≠ k := by
      rintro rfl
      exact hword rfl
    rw [decide_eq_false hne,Bool.false_or]
    congr 1
    apply read32_congr
    intro x hlow hhigh
    exact write32_outside _ (by omega)

theorem bitmapBit_full {bitmap : Mem} {k : ℕ} (h : read32 bitmap (4*(k/32)) = 0xFFFFFFFF) :
    bitmapBit bitmap k = true := by
  have hbit : k%32 < 32 := Nat.mod_lt _ (by decide)
  have hall : (0xFFFFFFFF : ℕ) = 2^32-1 := by decide
  rw [bitmapBit,h,hall,Nat.testBit_two_pow_sub_one,decide_eq_true hbit]

/-- The search stops at a free bit, or has looked at all words and found none. -/
theorem freeBit_spec (bitmap : Mem) (n : ℕ) : ∀ i,
    (∃ k, freeBit bitmap n i = (some k,k/32+1) ∧ bitmapBit bitmap k = false ∧ k/32 < i+n) ∨
      freeBit bitmap n i = (none,i+n) ∧ ∀ k, i ≤ k/32 → k/32 < i+n → bitmapBit bitmap k = true := by
  induction n with
  | zero => exact fun i => Or.inr ⟨rfl,fun k hlow hhigh => absurd hhigh (by omega)⟩
  | succ n ih =>
    intro i
    -- A word without a free bit is passed over, and the search goes on after it.
    have hnext (hfull : ∀ k, k/32 = i → bitmapBit bitmap k = true) :
        (∃ k, freeBit bitmap n (i+1) = (some k,k/32+1) ∧ bitmapBit bitmap k = false ∧
          k/32 < i+(n+1)) ∨ freeBit bitmap n (i+1) = (none,i+(n+1)) ∧
            ∀ k, i ≤ k/32 → k/32 < i+(n+1) → bitmapBit bitmap k = true := by
      rcases ih (i+1) with ⟨k,hfound,hfree,hlt⟩ | ⟨hnone,hset⟩
      · exact Or.inl ⟨k,hfound,hfree,by omega⟩
      · refine Or.inr ⟨by rw [hnone]; congr 1; omega,?_⟩
        intro k hlow hhigh
        by_cases hk : k/32 = i
        · exact hfull k hk
        · exact hset k (by omega) (by omega)
    rw [freeBit]
    split
    · rename_i hword
      exact hnext fun k hk => bitmapBit_full (by rw [hk]; exact hword)
    · split
      · rename_i j hfind
        have hj := List.mem_range.mp (List.mem_of_find?_eq_some hfind)
        have hfree := List.find?_some hfind
        have hdiv : (i*32+j)/32 = i := by omega
        have hmod : (i*32+j)%32 = j := by omega
        refine Or.inl ⟨i*32+j,by rw [hdiv],?_,by omega⟩
        rw [bitmapBit,hdiv,hmod]
        exact Bool.not_eq_true' _ |>.mp hfree
      · rename_i hnone
        apply hnext
        rintro k rfl
        have hbit :=
          List.find?_eq_none.mp hnone (k%32) (List.mem_range.mpr (Nat.mod_lt _ (by decide)))
        rw [bitmapBit]
        simpa using hbit

/-- What one turn does: it finds a free bit and sets it, or the bitmap is full and it stores
the number of the group's first block. -/
theorem allocateOne_cases {block_offset : ℕ} {s t : Allocation}
    (h : allocateOne block_offset s = .ok t) :
    ∃ i, freeBlockSlot s.ino = some i ∧
      ((∃ k < 32768, bitmapBit s.bitmap k = false ∧
          t = ⟨Inode.setBlockPointer s.ino i ((block_offset+k)%W32),setBitmapBit s.bitmap k,
            (block_offset+k)%W32::s.stored,(k/32+1)::s.words⟩) ∨
        (∀ k < 32768, bitmapBit s.bitmap k = true) ∧
          t = ⟨Inode.setBlockPointer s.ino i (block_offset%W32),s.bitmap,
            block_offset%W32::s.stored,1024::s.words⟩) := by
  rw [allocateOne] at h
  split at h
  · cases h
  · rename_i i hslot
    refine ⟨i,hslot,?_⟩
    rcases freeBit_spec s.bitmap 1024 0 with ⟨k,hfound,hfree,hlt⟩ | ⟨hnone,hset⟩
    · left
      rw [getFreeBlockFromBitmap,hfound] at h
      exact ⟨k,by omega,hfree,(Except.ok.inj h).symm⟩
    · right
      rw [getFreeBlockFromBitmap,hnone] at h
      exact ⟨fun k hk => hset k (by omega) (by omega),(Except.ok.inj h).symm⟩

theorem allocateLoop_length {block_offset blocks : ℕ} {s t : Allocation}
    (h : allocateLoop block_offset blocks s = .ok t) :
    t.stored.length = s.stored.length+blocks := by
  induction blocks generalizing s with
  | zero =>
    obtain rfl := Except.ok.inj h
    rfl
  | succ blocks ih =>
    obtain ⟨u,hone,hrest⟩ := Result.bind_eq_ok.mp h
    have hlength : u.stored.length = s.stored.length+1 := by
      obtain ⟨i,-,⟨k,-,-,rfl⟩ | ⟨-,rfl⟩⟩ := allocateOne_cases hone <;> rfl
    rw [ih hrest,hlength]
    omega

theorem allocateOne_bits {block_offset : ℕ} {s t : Allocation}
    (h : allocateOne block_offset s = .ok t) {k : ℕ}
    (hset : bitmapBit s.bitmap k = true) : bitmapBit t.bitmap k = true := by
  obtain ⟨i,-,⟨l,-,-,rfl⟩ | ⟨-,rfl⟩⟩ := allocateOne_cases h
  · dsimp only
    rw [bitmapBit_setBitmapBit,hset,Bool.or_true]
  · exact hset

theorem allocateLoop_bits {block_offset blocks : ℕ} {s t : Allocation}
    (h : allocateLoop block_offset blocks s = .ok t)
    {k : ℕ} (hset : bitmapBit s.bitmap k = true) : bitmapBit t.bitmap k = true := by
  induction blocks generalizing s with
  | zero =>
    obtain rfl := Except.ok.inj h
    exact hset
  | succ blocks ih =>
    obtain ⟨u,hone,hrest⟩ := Result.bind_eq_ok.mp h
    exact ih hrest (allocateOne_bits hone hset)

/-- As long as a bit stays free, the loop gives out different blocks that were free in the
buffer, and marks them in the buffer. -/
theorem allocateLoop_marks {block_offset blocks : ℕ} {s t : Allocation}
    (h : allocateLoop block_offset blocks s = .ok t)
    {left : ℕ} (hlt : left < 32768) (hleft : bitmapBit t.bitmap left = false) :
    ∃ ks : List ℕ, t.stored = (ks.map fun k => (block_offset+k)%W32)++s.stored ∧ ks.Nodup ∧
      ∀ k ∈ ks, k < 32768 ∧ bitmapBit s.bitmap k = false ∧ bitmapBit t.bitmap k = true := by
  induction blocks generalizing s with
  | zero =>
    obtain rfl := Except.ok.inj h
    exact ⟨[],rfl,List.nodup_nil,fun k hk => by cases hk⟩
  | succ blocks ih =>
    obtain ⟨u,hone,hrest⟩ := Result.bind_eq_ok.mp h
    obtain ⟨ks,hstored,hdistinct,hks⟩ := ih hrest
    obtain ⟨i,-,⟨k,hk,hfree,rfl⟩ | ⟨hfull,-⟩⟩ := allocateOne_cases hone
    · dsimp only at hstored hks
      simp only [bitmapBit_setBitmapBit,Bool.or_eq_false_iff,decide_eq_false_iff_not] at hks
      refine ⟨ks++[k],?_,?_,?_⟩
      · rw [hstored,List.map_append,List.append_assoc]
        rfl
      · apply hdistinct.append (List.nodup_singleton k)
        intro l hl hlk
        exact (hks l hl).2.1.1 (List.mem_singleton.mp hlk)
      · intro l hl
        rcases List.mem_append.mp hl with hl | hl
        · exact ⟨(hks l hl).1,(hks l hl).2.1.2,(hks l hl).2.2⟩
        · obtain rfl := List.mem_singleton.mp hl
          refine ⟨hk,hfree,allocateLoop_bits hrest ?_⟩
          dsimp only
          rw [bitmapBit_setBitmapBit,decide_eq_true rfl,Bool.true_or]
    · have hset := allocateLoop_bits h (hfull left hlt)
      rw [hleft] at hset
      cases hset

namespace Ext2Fs
variable {fs gs : Ext2Fs} {call : AllocationCall} {s : Allocation}

theorem SameLayout.descriptor (h : SameLayout fs gs) (inode : ℕ) :
    gs.descriptor inode = fs.descriptor inode := by
  rw [Ext2Fs.descriptor,groupFromInode,h.bgds,h.superblock,Ext2Fs.descriptor,groupFromInode]

/-- A call that goes ahead writes as much as a block to the address that is the number of
the bitmap's block. -/
theorem allocate_cases (h : fs.allocate call = .ok (s,gs)) :
    s.stored = [] ∧ gs = fs ∨
      s.stored.length = call.blocks ∧ ∃ hs, ReadsOnly fs hs ∧
        gs = hs.writeDevice (fs.descriptor call.inode).blocks_bitmap
        (load s.bitmap 0 fs.blockSize) := by
  rw [allocate,allocateBlocksForInode] at h
  dsimp only at h
  split at h
  · obtain ⟨t,hloop,hpure⟩ := Result.bind_eq_ok.mp h
    obtain ⟨rfl,rfl⟩ := Prod.mk.inj (Except.ok.inj hpure)
    have hlength := allocateLoop_length hloop
    rw [List.length_nil,Nat.zero_add] at hlength
    exact Or.inr ⟨hlength,_,readBuffer_reads fs call.heap _ fun _ => dvd_zero _,rfl⟩
  · obtain ⟨rfl,rfl⟩ := Prod.mk.inj (Except.ok.inj h)
    exact Or.inl ⟨rfl,rfl⟩

theorem allocate_same (h : fs.allocate call = .ok (s,gs)) :
    gs.superblock = fs.superblock ∧ gs.bgds = fs.bgds := by
  rcases allocate_cases h with ⟨-,rfl⟩ | ⟨-,hs,hreads,rfl⟩
  · exact ⟨rfl,rfl⟩
  · exact ⟨hreads.same.superblock,hreads.same.bgds⟩

/-- A bitmap behind the first two blocks is not where the call writes. -/
theorem allocate_used (h : fs.allocate call = .ok (s,gs))
    (hbitmap : 2 ≤ (fs.descriptor call.inode).blocks_bitmap) (k : ℕ) :
    gs.Used call.inode k ↔ fs.Used call.inode k := by
  rcases allocate_cases h with ⟨-,rfl⟩ | ⟨-,hs,hreads,rfl⟩
  · exact Iff.rfl
  · have hsame : SameVolume fs hs := hreads.same.toSameVolume
    have hblock : 2 ≤ fs.blockSize := by
      have := Nat.one_le_two_pow (n := fs.superblock.block_size)
      rw [blockSize]
      omega
    -- The write ends before twice the block size, and the bitmap begins there at the earliest.
    have hbehind : (fs.descriptor call.inode).blocks_bitmap+fs.blockSize ≤
        (fs.descriptor call.inode).blocks_bitmap*fs.blockSize := by
      nlinarith
    have hdescriptor : (hs.writeDevice (fs.descriptor call.inode).blocks_bitmap
        (load s.bitmap 0 fs.blockSize)).descriptor call.inode = fs.descriptor call.inode :=
  hsame.layout.descriptor call.inode
    have hsize : (hs.writeDevice (fs.descriptor call.inode).blocks_bitmap
        (load s.bitmap 0 fs.blockSize)).blockSize = fs.blockSize := hsame.layout.blockSize
    have hbytes (x : ℕ) : (hs.writeDevice (fs.descriptor call.inode).blocks_bitmap
        (load s.bitmap 0 fs.blockSize)).device.byte
        ((fs.descriptor call.inode).blocks_bitmap*fs.blockSize+x) =
          fs.device.byte ((fs.descriptor call.inode).blocks_bitmap*fs.blockSize+x) := by
      rw [writeDevice]
      dsimp only
      rw [Device.byte_write_outside _ (by rw [length_load]; omega),hsame.device]
    rw [Used,Used,hdescriptor,hsize]
    simp only [hbytes]

/-- No call that is asked for a block does what it should: what it stores is not marked, and
when it stores nothing the caller does not learn of it. -/
theorem allocate_wrong (h : fs.allocate call = .ok (s,gs))
    (hbitmap : 2 ≤ (fs.descriptor call.inode).blocks_bitmap)
    (hblocks : call.blocks ≠ 0) : ¬fs.GivesFree call s gs := by
  intro hgives
  have hlength := hgives.all
  obtain ⟨block,hblock⟩ := List.exists_mem_of_ne_nil s.stored fun hnil => by
    rw [hnil,List.length_nil] at hlength
    exact hblocks hlength.symm
  obtain ⟨k,-,-,hfree,hused⟩ := hgives.free block hblock
  exact hfree ((allocate_used h hbitmap k).mp hused)

theorem allocate_zero (fs : Ext2Fs) (hblocks : call.blocks = 0) :
    ∃ s gs, fs.allocate call = .ok (s,gs) ∧ s.stored = [] ∧ s.words = [] := by
  rw [allocate,allocateBlocksForInode,hblocks,if_pos (Nat.zero_le _)]
  exact ⟨_,_,rfl,rfl,rfl⟩

/-- With the bitmaps behind the first two blocks, where the superblock and the descriptors
are, calls do what they should only if none of them is asked for a block. -/
theorem allocatesFree_iff (fs : Ext2Fs) (calls : List AllocationCall)
    (hbitmaps : ∀ call ∈ calls, 2 ≤ (fs.descriptor call.inode).blocks_bitmap) (given : List ℕ) :
    fs.AllocatesFree calls given ↔ ∀ call ∈ calls, call.blocks = 0 := by
  induction calls generalizing fs given with
  | nil => exact iff_of_true trivial fun call h => by cases h
  | cons call calls ih =>
    have hrest {s : Allocation} {gs : Ext2Fs} (h : fs.allocate call = .ok (s,gs)) :
        ∀ c ∈ calls, 2 ≤ (gs.descriptor c.inode).blocks_bitmap := by
      obtain ⟨hsuper,hbgds⟩ := allocate_same h
      intro c hc
      rw [descriptor,groupFromInode,hsuper,hbgds]
      exact hbitmaps c (List.mem_cons_of_mem _ hc)
    constructor
    · rintro ⟨s,gs,hok,hgives,-,hcalls⟩ c hc
      rcases List.mem_cons.mp hc with rfl | hc
      · by_contra hblocks
        exact allocate_wrong hok (hbitmaps c List.mem_cons_self) hblocks hgives
      · exact (ih gs (hrest hok) (s.stored++given)).mp hcalls c hc
    · intro hzero
      obtain ⟨s,gs,hok,hstored,hwords⟩ := allocate_zero fs (hzero call List.mem_cons_self)
      refine ⟨s,gs,hok,⟨?_,?_,?_,?_⟩,?_,(ih gs (hrest hok) _).mpr fun c hc =>
        hzero c (List.mem_cons_of_mem _ hc)⟩
      · rw [hstored,hzero call List.mem_cons_self,List.length_nil]
      · rw [hstored]
        exact List.nodup_nil
      · simp [hwords]
      · simp [hstored]
      · simp [hstored]

/-- A volume with the bitmap of its group in block 2, where block 0 is the only used one. -/
def bitmapVolume : Ext2Fs where
  superblock := ⟨16,0,8192,16,128,Ext2Superblock.kib_le⟩
  device := ⟨16*1024,fun x => if x = 2048 then 1 else 0⟩
  bgds := fun _ => ⟨2,3,8⟩
  inode_cache := []
  block_cache := []
  readahead_buffer := fun _ => 0

def blocksFor (inode blocks : ℕ) : AllocationCall := ⟨fun _ => 0,inode,fun _ => 0,blocks⟩

theorem allocatesFree_nothing : bitmapVolume.AllocatesFree [blocksFor 11 0] [] :=
  (allocatesFree_iff bitmapVolume [blocksFor 11 0] (by decide) []).mpr (by decide)

/-- Two inodes get the same block. -/
theorem block_given_twice :
    (∃ s gs t hs, bitmapVolume.allocate (blocksFor 11 1) = .ok (s,gs) ∧
      gs.allocate (blocksFor 12 1) = .ok (t,hs) ∧ s.stored = [1] ∧ t.stored = [1]) ∧
      ¬bitmapVolume.AllocatesFree [blocksFor 11 1,blocksFor 12 1] [] := by
  have hrun : ∃ s gs t hs, bitmapVolume.allocate (blocksFor 11 1) = .ok (s,gs) ∧
      gs.allocate (blocksFor 12 1) = .ok (t,hs) ∧ s.stored = [1] ∧ t.stored = [1] := by
    have h : ((bitmapVolume.allocate (blocksFor 11 1)).toOption.any fun r =>
        (r.2.allocate (blocksFor 12 1)).toOption.any fun q =>
        decide (r.1.stored = [1] ∧ q.1.stored = [1])) = true := by
      decide +kernel
    obtain ⟨⟨s,gs⟩,hfirst,h⟩ := (Option.any_eq_true _ _).mp h
    obtain ⟨⟨t,hs⟩,hsecond,h⟩ := (Option.any_eq_true _ _).mp h
    exact ⟨s,gs,t,hs,Result.eq_ok_of_toOption hfirst,Result.eq_ok_of_toOption hsecond,
      of_decide_eq_true h⟩
  refine ⟨hrun,?_⟩
  obtain ⟨s,gs,t,hs,hfirst,hsecond,hs1,ht1⟩ := hrun
  rintro ⟨s',gs',hfirst',-,-,t',hs',hsecond',-,hnew,-⟩
  rw [hfirst] at hfirst'
  obtain ⟨rfl,rfl⟩ := Prod.mk.inj (Except.ok.inj hfirst')
  rw [hsecond] at hsecond'
  obtain ⟨rfl,rfl⟩ := Prod.mk.inj (Except.ok.inj hsecond')
  exact hnew 1 (by simp [ht1]) (by simp [hs1])

end Ext2Fs
end ScalesOS
