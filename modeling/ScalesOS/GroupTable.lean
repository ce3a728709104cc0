import ScalesOS.Inodes

/-!
# Mounting a volume

`__ext2_mount` counts the groups of blocks by going up until they hold all the blocks, and loads the
table of their descriptors. The number of blocks that it loads is not computed from their size.
-/

namespace ScalesOS
open ByteMemory Storage

/-- `sizeof(ext2_block_group_descriptor_t)`. -/
def BGD_SIZE : ℕ := 32

namespace Ext2Superblock

/-- The superblock in a buffer, if its `BLOCK_SIZE` is not 0. The processor takes the count of
`1024 << block_size` modulo 32. -/
def parse (m : Mem) : Option Ext2Superblock :=
  if h : read32 m 24%32 ≤ 21 then
    some {
      total_blocks := read32 m 4
      block_size := read32 m 24%32
      blocks_per_group := read32 m 32
      inodes_per_group := read32 m 40
      inode_size := read16 m 88
      block_size_le := h }
  else none

def signature (m : Mem) : ℕ := read16 m 56

theorem parse_lt {m : Mem} {sb : Ext2Superblock} (h : parse m = some sb) :
    sb.total_blocks < W32 ∧ sb.blocks_per_group < W32 := by
  rw [parse] at h
  split at h
  · obtain rfl := Option.some.inj h
    exact ⟨read32_lt _ _,read32_lt _ _⟩
  · cases h

variable (superblock : Ext2Superblock)

def blockSize : ℕ := 1024*2^superblock.block_size

/-- The loop that counts the groups, unless it takes more turns. The product is cut to 32 bits. -/
def bgdsAmountLoop : (turns bgds_amount : ℕ) → Option ℕ
  | 0,_ => none
  | turns+1,bgds_amount =>
    if bgds_amount*superblock.blocks_per_group%W32 < superblock.total_blocks then
      bgdsAmountLoop turns ((bgds_amount+1)%W32)
    else some bgds_amount

def bgdsAmount (turns : ℕ) : Option ℕ :=
  superblock.bgdsAmountLoop turns (superblock.total_blocks/superblock.blocks_per_group)

def blockAmount (bgds_amount : ℕ) : ℕ := (BGD_SIZE*bgds_amount%W32/superblock.total_blocks+1)%W32

/-- Where the table is looked for; `BLOCK_SIZE` is compared as a signed number. -/
def tableStart : ℕ := if (1024#32).slt (BitVec.ofNat 32 superblock.blockSize) then 1 else 2

def groups : ℕ :=
  (superblock.total_blocks+superblock.blocks_per_group-1)/superblock.blocks_per_group

end Ext2Superblock

/-- The fields of a descriptor in the table that are used. -/
def Ext2BlockGroupDescriptor.parse (table : Mem) (group : ℕ) : Ext2BlockGroupDescriptor where
  blocks_bitmap := read32 table (group*BGD_SIZE)
  inode_table := read32 table (group*BGD_SIZE+8)
  free_blocks := read16 table (group*BGD_SIZE+12)

namespace Ext2Fs

def tableLoop (fs : Ext2Fs) (table : Mem) (start : ℕ) : (turns : ℕ) → Mem × Ext2Fs
  | 0 => (table,fs)
  | i+1 =>
    let r := tableLoop fs table start i
    let block := r.2.readBlock (start+i) 0
    (store r.1 (fs.blockSize*i) block.1.2,block.2)

/-- A volume that has been mounted, with the memory that its table has been loaded into. -/
structure Mounted where
  bgds_amount : ℕ
  block_amount : ℕ
  table : Mem
  fs : Ext2Fs

/-- How `__ext2_mount` ends. -/
inductive MountResult
  /-- the loop that counts the groups takes more turns -/
  | unfinished
  | notExt2
  /-- `BLOCK_SIZE` is 0, and blocks of that size make up the table -/
  | sizeless
  | mounted (m : Mounted)

/-- `__ext2_mount`. `heap` and `fresh` are what is in fresh memory, the latter in that of the
table. -/
def mount (device : Device) (heap fresh : Mem) (turns : ℕ) : MountResult :=
  let buffer := store heap 0 (device.read 1024 1024)
  if Ext2Superblock.signature buffer ≠ 0xef53 then .notExt2
  else
    match Ext2Superblock.parse buffer with
    | none => .sizeless
    | some superblock =>
      match superblock.bgdsAmount turns with
      | none => .unfinished
      | some bgds_amount =>
        let block_amount := superblock.blockAmount bgds_amount
        let fs : Ext2Fs := ⟨superblock,device,fun _ => ⟨0,0,0⟩,[],[],heap⟩
        let r := fs.tableLoop fresh superblock.tableStart block_amount
        .mounted ⟨bgds_amount,block_amount,r.1,
          { r.2 with bgds := Ext2BlockGroupDescriptor.parse r.1 }⟩

/-- All groups are counted, the memory for the table is as large as the blocks that go into it, it
holds the descriptors of all groups as they are on the device, and those of the groups of valid
blocks and inodes are among them. -/
structure Mounted.Complete (m : Mounted) : Prop where
  amount : m.bgds_amount = m.fs.superblock.groups
  room : m.block_amount*m.fs.blockSize < W32
  loaded : m.bgds_amount*BGD_SIZE ≤ m.block_amount*m.fs.blockSize
  table : ∀ x < m.fs.superblock.groups*BGD_SIZE,
    m.fs.device.read (m.fs.superblock.tableStart*m.fs.blockSize+x) 1 = [m.table x]
  blocks : ∀ block < m.fs.superblock.total_blocks,
    (block/m.fs.superblock.blocks_per_group+1)*BGD_SIZE ≤ m.block_amount*m.fs.blockSize
  inodes : ∀ inode, 0 < inode → inode ≤ m.fs.superblock.groups*m.fs.superblock.inodes_per_group →
    (m.fs.groupFromInode inode+1)*BGD_SIZE ≤ m.block_amount*m.fs.blockSize

end Ext2Fs

namespace Ext2Superblock
variable {sb : Ext2Superblock} {n : ℕ}

theorem bgdsAmountLoop_spec (turns : ℕ) :
    ∀ bgds_amount, sb.bgdsAmountLoop turns bgds_amount = some n →
    sb.total_blocks ≤ n*sb.blocks_per_group%W32 := by
  induction turns with
  | zero => exact fun _ h => by cases h
  | succ turns ih =>
    intro bgds_amount h
    rw [bgdsAmountLoop] at h
    split at h
    · exact ih _ h
    · obtain rfl := Option.some.inj h
      omega

theorem groups_eq (hgroup : 0 < sb.blocks_per_group) : sb.groups =
    if sb.total_blocks%sb.blocks_per_group = 0 then sb.total_blocks/sb.blocks_per_group
    else sb.total_blocks/sb.blocks_per_group+1 := by
  have hdiv := Nat.div_add_mod sb.total_blocks sb.blocks_per_group
  have hlt := Nat.mod_lt sb.total_blocks hgroup
  rw [groups]
  generalize sb.total_blocks/sb.blocks_per_group = q at hdiv ⊢
  split
  · rename_i hzero
    rw [hzero,Nat.add_zero] at hdiv
    rw [← hdiv,Nat.add_sub_assoc hgroup,Nat.mul_add_div hgroup,
      Nat.div_eq_of_lt (by omega),Nat.add_zero]
  · have hsum :
        sb.total_blocks+sb.blocks_per_group-1 =
            sb.blocks_per_group*(q+1)+(sb.total_blocks%sb.blocks_per_group-1) := by
      rw [Nat.mul_succ]
      omega
    rw [hsum,Nat.mul_add_div hgroup,Nat.div_eq_of_lt (by omega),Nat.add_zero]

theorem groups_mul (hgroup : 0 < sb.blocks_per_group) :
    sb.total_blocks ≤ sb.groups*sb.blocks_per_group ∧
    sb.groups*sb.blocks_per_group < sb.total_blocks+sb.blocks_per_group := by
  have hdiv := Nat.div_add_mod (sb.total_blocks+sb.blocks_per_group-1) sb.blocks_per_group
  have hlt := Nat.mod_lt (sb.total_blocks+sb.blocks_per_group-1) hgroup
  rw [Nat.mul_comm,groups]
  omega

theorem groups_le (hgroup : 0 < sb.blocks_per_group) : sb.groups ≤ sb.total_blocks := by
  rw [groups]
  rcases Nat.eq_zero_or_pos sb.total_blocks with hzero | hpos
  · rw [hzero,Nat.div_eq_of_lt (by omega)]
  · obtain ⟨t,ht⟩ := Nat.exists_eq_add_of_le' hpos
    obtain ⟨k,hk⟩ := Nat.exists_eq_add_of_le' hgroup
    rw [ht,hk]
    refine Nat.div_le_of_le_mul ?_
    have hmul := Nat.zero_le (k*t)
    rw [Nat.mul_succ,Nat.succ_mul]
    omega

/-- The loop finds the number of groups if it is there before the products wrap. -/
theorem bgdsAmount_eq (hgroup : 0 < sb.blocks_per_group) (htotal : sb.total_blocks < W32)
    (hfit : sb.groups*sb.blocks_per_group < W32) : sb.bgdsAmount 2 = some sb.groups := by
  have hdiv := Nat.div_add_mod sb.total_blocks sb.blocks_per_group
  have hlt := Nat.mod_lt sb.total_blocks hgroup
  have hgroups := groups_eq hgroup
  have hle := groups_le hgroup
  have hall := (groups_mul hgroup).1
  rw [Nat.mul_comm] at hdiv
  rw [bgdsAmount]
  generalize sb.total_blocks/sb.blocks_per_group = q at hdiv hgroups ⊢
  split at hgroups
  · rename_i hzero
    rw [hgroups] at hfit ⊢
    rw [bgdsAmountLoop,Nat.mod_eq_of_lt hfit,if_neg (by omega)]
  · rename_i hrest
    have hmod : q*sb.blocks_per_group%W32 = q*sb.blocks_per_group := Nat.mod_eq_of_lt (by omega)
    have hnext : (q+1)%W32 = q+1 := Nat.mod_eq_of_lt (by omega)
    rw [bgdsAmountLoop,hmod,if_pos (by omega),hnext,bgdsAmountLoop,← hgroups,Nat.mod_eq_of_lt hfit,
      if_neg (by omega)]

theorem fit_of_bgdsAmount {turns : ℕ} (hgroup : 0 < sb.blocks_per_group)
    (htotal : sb.total_blocks < W32)
    (hgroups : sb.blocks_per_group < W32) (h : sb.bgdsAmount turns = some sb.groups) :
    sb.groups*sb.blocks_per_group < W32 := by
  have hend := bgdsAmountLoop_spec turns _ h
  have hlast := (groups_mul hgroup).2
  by_contra hwrap
  have hmod : sb.groups*sb.blocks_per_group%W32 = sb.groups*sb.blocks_per_group-W32 := by
    rw [Nat.mod_eq_sub_mod (by omega),Nat.mod_eq_of_lt (by omega)]
  omega

theorem blockAmount_eq (hgroup : 0 < sb.blocks_per_group) (hpos : 0 < sb.total_blocks) :
    sb.blockAmount sb.groups = BGD_SIZE*sb.groups%W32/sb.total_blocks+1 := by
  have hle := groups_le hgroup
  have hmod : BGD_SIZE*sb.groups%W32 < W32 := Nat.mod_lt _ (by decide)
  have hword : W32 = 0x100000000 := rfl
  have hlt : BGD_SIZE*sb.groups%W32/sb.total_blocks+1 < W32 := by
    by_cases hone : sb.total_blocks = 1
    · have hsmall : BGD_SIZE*sb.groups ≤ 32*1 := Nat.mul_le_mul_left 32 (by omega)
      have hcut := Nat.mod_le (BGD_SIZE*sb.groups) W32
      rw [hone,Nat.div_one]
      omega
    · have hhalf : BGD_SIZE*sb.groups%W32/sb.total_blocks ≤ BGD_SIZE*sb.groups%W32/2 :=
        Nat.div_le_div_left (by omega) (by decide)
      omega
  exact Nat.mod_eq_of_lt hlt

/-- With groups of more than 32 blocks one block is loaded, up to 32 groups apart. -/
theorem one_block (hgroup : 32 < sb.blocks_per_group) (h : sb.total_blocks ≤ BGD_SIZE*sb.groups) :
    sb.groups ≤ 32 := by
  have hlast := (@groups_mul sb (by omega)).2
  rw [show BGD_SIZE = 32 from rfl] at h
  obtain ⟨d,hd⟩ : ∃ d, sb.blocks_per_group = 33+d := Nat.exists_eq_add_of_le hgroup
  by_contra hmany
  have hmul := Nat.mul_le_mul_right d (show 33 ≤ sb.groups by omega)
  rw [hd,Nat.mul_add] at hlast
  omega

/-- When the blocks that are loaded hold the descriptors of all groups. -/
theorem loaded_iff (hgroup : 0 < sb.blocks_per_group) (hpos : 0 < sb.total_blocks) :
    sb.groups*BGD_SIZE ≤ sb.blockAmount sb.groups*sb.blockSize ↔
      BGD_SIZE*sb.groups ≤ sb.blockSize ∨ sb.blocks_per_group ≤ 32 ∧
        BGD_SIZE*sb.groups ≤ (BGD_SIZE*sb.groups%W32/sb.total_blocks+1)*sb.blockSize := by
  have hsize : 1024 ≤ sb.blockSize := Nat.le_mul_of_pos_right _ (Nat.two_pow_pos _)
  rw [blockAmount_eq hgroup hpos,Nat.mul_comm sb.groups]
  generalize hq : BGD_SIZE*sb.groups%W32/sb.total_blocks = q
  have hone : sb.blockSize ≤ (q+1)*sb.blockSize := Nat.le_mul_of_pos_left _ (Nat.succ_pos _)
  constructor
  · intro h
    by_cases hsmall : sb.blocks_per_group ≤ 32
    · exact .inr ⟨hsmall,h⟩
    rcases Nat.eq_zero_or_pos q with rfl | hq0
    · exact .inl (by simpa using h)
    · have hle : sb.total_blocks ≤ BGD_SIZE*sb.groups := by
        by_contra hlt
        have hcut := Nat.mod_le (BGD_SIZE*sb.groups) W32
        rw [Nat.div_eq_of_lt (by omega)] at hq
        omega
      have hfew := one_block (by omega) hle
      exact .inl ((Nat.mul_le_mul_left 32 hfew).trans hsize)
  · rintro (h | ⟨-,h⟩)
    · exact h.trans hone
    · exact h

end Ext2Superblock

namespace Ext2Fs
variable {fs : Ext2Fs} {device : Device} {heap fresh table : Mem} {start turns n : ℕ} {m : Mounted}

theorem tableLoop_same (fs : Ext2Fs) (table : Mem) (start n : ℕ) :
    SameButBlocks fs (fs.tableLoop table start n).2 := by
  induction n with
  | zero => exact .refl
  | succ n ih => exact ih.trans (readBlock_same _ _ _)

/-- A block that is not in the cache is read alone, unless it is not a block of the volume. -/
theorem readBlock_missing {block : ℕ} (h : ∀ c_bl ∈ fs.block_cache, c_bl.block_number ≠ block) :
    (fs.readBlock block 0).1.2 =
        (if fs.superblock.total_blocks < block then []
          else fs.device.read (block*fs.blockSize%W32) fs.blockSize) ∧
      ∀ c_bl ∈ (fs.readBlock block 0).2.block_cache, c_bl ∈ fs.block_cache ∨
      c_bl.block_number = block := by
  rw [readBlock]
  split
  · exact ⟨rfl,fun c_bl hc => .inl hc⟩
  · have hnone : fs.tryGetCachedBlock block = (none,fs) := by
      rw [tryGetCachedBlock,MoveToFront.lookup_none fun c_bl hc => by simpa using h c_bl hc]
    rw [hnone]
    refine ⟨rfl,fun c_bl hc => ?_⟩
    dsimp only at hc
    rw [if_neg (not_not_intro rfl),readAlone] at hc
    dsimp only at hc
    split at hc
    · rcases MoveToFront.mem_push hc with rfl | hc
      · exact .inr rfl
      · exact .inl hc
    · exact .inl hc

/-- What the loop leaves in the table: byte `x` belongs to block `start+x/blockSize`, and is read
if that is a block of the volume and the device has the byte. -/
theorem tableLoop_byte (hempty : fs.block_cache = []) (n : ℕ) :
    (∀ c_bl ∈ (fs.tableLoop fresh start n).2.block_cache, c_bl.block_number < start+n) ∧
      ∀ x, (fs.tableLoop fresh start n).1 x =
        if x < fs.blockSize*n ∧ start+x/fs.blockSize ≤ fs.superblock.total_blocks ∧
            (start+x/fs.blockSize)*fs.blockSize%W32+x%fs.blockSize < fs.device.size then
          fs.device.byte ((start+x/fs.blockSize)*fs.blockSize%W32+x%fs.blockSize)
        else fresh x := by
  have hsize := fs.blockSize_pos
  induction n with
  | zero =>
    refine ⟨fun c_bl hc => ?_,fun x => ?_⟩
    · rw [tableLoop,hempty] at hc
      cases hc
    · rw [if_neg (fun hc => by omega)]
      rfl
  | succ n ih =>
    obtain ⟨hcache,hbytes⟩ := ih
    have hsame := tableLoop_same fs fresh start n
    obtain ⟨hread,hnext⟩ := @readBlock_missing (fs.tableLoop fresh start n).2 (start+n)
      fun c_bl hc => (hcache c_bl hc).ne
    rw [hsame.superblock,hsame.device,hsame.layout.blockSize] at hread
    refine ⟨fun c_bl hc => ?_,fun x => ?_⟩
    · rcases hnext c_bl hc with hc | hc
      · have := hcache c_bl hc
        omega
      · omega
    rw [tableLoop]
    dsimp only
    rw [hread]
    -- the turn stores into block `n` of the table only
    by_cases hblock : x/fs.blockSize = n
    · have hx : fs.blockSize*n+x%fs.blockSize = x := by
        rw [← hblock]
        exact Nat.div_add_mod x fs.blockSize
      have hlt := Nat.mod_lt x hsize
      have hold : (fs.tableLoop fresh start n).1 x = fresh x := by
        rw [hbytes,if_neg (fun hc => by omega)]
      have hin : x < fs.blockSize*(n+1) := by
        rw [Nat.mul_succ]
        omega
      rw [hblock]
      by_cases htotal : fs.superblock.total_blocks < start+n
      · rw [if_pos htotal,store_nil,hold,if_neg (fun hc => by omega)]
      · rw [if_neg htotal,Device.read,store_load,Device.available]
        simp only [hin,show start+n ≤ fs.superblock.total_blocks by omega,true_and]
        by_cases hdevice : (start+n)*fs.blockSize%W32+x%fs.blockSize < fs.device.size
        · rw [if_pos (by omega),if_pos hdevice]
          exact congrArg fs.device.byte (by omega)
        · rw [if_neg (by omega),if_neg hdevice,hold]
    · have hout : x < fs.blockSize*n ∨ fs.blockSize*n+fs.blockSize ≤ x := by
        by_contra hc
        push Not at hc
        exact hblock (Nat.div_eq_of_lt_le (by rw [Nat.mul_comm]; exact hc.1)
          (by rw [Nat.mul_comm,Nat.mul_succ]; exact hc.2))
      rw [store_outside,hbytes]
      · refine if_congr (and_congr_left' ?_) rfl rfl
        rw [Nat.mul_succ]
        omega
      · have hle := fs.device.available_le ((start+n)*fs.blockSize%W32) fs.blockSize
        split
        · simp
          omega
        · rw [Device.length_read]
          omega

theorem mount_eq (hmount : mount device heap fresh turns = .mounted m) :
    Ext2Superblock.parse (store heap 0 (device.read 1024 1024)) = some m.fs.superblock ∧
      m.fs.superblock.bgdsAmount turns = some m.bgds_amount ∧
      m.block_amount = m.fs.superblock.blockAmount m.bgds_amount ∧ m.fs.device = device ∧
      ∀ x, m.table x = if x < m.fs.blockSize*m.block_amount ∧
          m.fs.superblock.tableStart+x/m.fs.blockSize ≤ m.fs.superblock.total_blocks ∧
          (m.fs.superblock.tableStart+x/m.fs.blockSize)*m.fs.blockSize%W32+x%m.fs.blockSize <
          device.size then
        device.byte
          ((m.fs.superblock.tableStart+x/m.fs.blockSize)*m.fs.blockSize%W32+x%m.fs.blockSize)
      else fresh x := by
  rw [mount] at hmount
  dsimp only at hmount
  split at hmount
  · cases hmount
  · split at hmount
    · cases hmount
    · rename_i superblock hparse
      split at hmount
      · cases hmount
      · rename_i bgds_amount hamount
        obtain rfl := MountResult.mounted.inj hmount
        have hsame :=
          tableLoop_same ⟨superblock,device,fun _ => ⟨0,0,0⟩,[],[],heap⟩ fresh superblock.tableStart
          (superblock.blockAmount bgds_amount)
        have hbytes :=
          (@tableLoop_byte ⟨superblock,device,fun _ => ⟨0,0,0⟩,[],[],
            heap⟩ fresh superblock.tableStart rfl
          (superblock.blockAmount bgds_amount)).2
        simp only [blockSize,hsame.superblock,hsame.device]
        exact ⟨hparse,hamount,trivial,trivial,hbytes⟩

theorem mount_of_amount (hsignature : Ext2Superblock.signature
    (store heap 0 (device.read 1024 1024)) = 0xef53)
    {sb : Ext2Superblock} (hparse : Ext2Superblock.parse (store heap 0 (device.read 1024 1024)) =
      some sb)
    (h : sb.bgdsAmount turns = some n) (fresh : Mem) :
    ∃ m, mount device heap fresh turns = .mounted m ∧ m.bgds_amount = n := by
  rw [mount]
  dsimp only
  rw [if_neg (not_not_intro hsignature),hparse]
  dsimp only
  rw [h]
  exact ⟨_,rfl,rfl⟩

/-- With the number of groups and enough blocks for it, all valid groups are in the table. -/
theorem complete_of_loaded (hgroup : 0 < m.fs.superblock.blocks_per_group)
    (hamount : m.bgds_amount = m.fs.superblock.groups) (hroom : m.block_amount*m.fs.blockSize < W32)
    (hloaded : m.bgds_amount*BGD_SIZE ≤ m.block_amount*m.fs.blockSize)
    (htable : ∀ x < m.fs.superblock.groups*BGD_SIZE,
      m.fs.device.read (m.fs.superblock.tableStart*m.fs.blockSize+x) 1 = [m.table x]) :
      m.Complete := by
  have hin : ∀ g < m.fs.superblock.groups, (g+1)*BGD_SIZE ≤ m.block_amount*m.fs.blockSize := by
    intro g hg
    rw [← hamount] at hg
    exact (Nat.mul_le_mul_right _ hg).trans hloaded
  refine ⟨hamount,hroom,hloaded,htable,fun block hblock => hin _ ?_,fun inode hpos hle => hin _ ?_⟩
  · rw [Nat.div_lt_iff_lt_mul hgroup]
    exact hblock.trans_le (Ext2Superblock.groups_mul hgroup).1
  · have hinodes : 0 < m.fs.superblock.inodes_per_group := by
      by_contra hnone
      rw [Nat.eq_zero_of_not_pos hnone,Nat.mul_zero] at hle
      omega
    rw [groupFromInode,Nat.div_lt_iff_lt_mul hinodes]
    omega

theorem read_one {device : Device} {x : ℕ} {b : BitVec 8} :
    device.read x 1 = [b] ↔ x < device.size ∧ device.byte x = b := by
  rw [Device.read,Device.available]
  by_cases hx : x < device.size
  · rw [show min 1 (device.size-x) = 1 by omega]
    simp [load,hx]
  · rw [show min 1 (device.size-x) = 0 by omega]
    simp [hx]

/-- The bytes of the descriptors come from the device, whatever was in the memory of the table
before, exactly if the volume has their blocks and the device has them. -/
theorem table_loaded_iff {sb : Ext2Superblock} {bs count : ℕ} (hsize : device.size < W32)
    (hcount : 0 < count) {tables : Mem → Mem} (hroom : count ≤ bs*n)
    (htables : ∀ fresh x, tables fresh x = if x < bs*n ∧ start+x/bs ≤ sb.total_blocks ∧
        (start+x/bs)*bs%W32+x%bs < device.size then
        device.byte ((start+x/bs)*bs%W32+x%bs) else fresh x) :
    (∀ fresh, ∀ x < count, device.read (start*bs+x) 1 = [tables fresh x]) ↔
      start+(count-1)/bs ≤ sb.total_blocks ∧ start*bs+count ≤ device.size := by
  constructor
  · intro h
    have hlast := fun fresh => read_one.mp (h fresh (count-1) (by omega))
    refine ⟨?_,by have := (hlast fun _ => 0).1; omega⟩
    by_contra hfew
    have hbyte := (hlast fun x => device.byte (start*bs+x)+1).2
    rw [htables,if_neg (fun hc => hfew hc.2.1)] at hbyte
    have hchange : ∀ b : BitVec 8, b ≠ b+1 := by decide
    exact hchange _ hbyte
  · rintro ⟨htotal,hdevice⟩ fresh x hx
    have hblock : x/bs ≤ (count-1)/bs := Nat.div_le_div_right (by omega)
    have haddress : (start+x/bs)*bs+x%bs = start*bs+x := by
      rw [Nat.add_mul,Nat.add_assoc,Nat.mul_comm (x/bs),Nat.div_add_mod]
    have hwhole : (start+x/bs)*bs%W32 = (start+x/bs)*bs := Nat.mod_eq_of_lt (by omega)
    rw [htables,hwhole,haddress,if_pos (by omega)]
    exact read_one.mpr ⟨by omega,rfl⟩

end Ext2Fs

/-- When the whole table of a volume is loaded from its device: the number of blocks rounded up to
whole groups and the size of the table have 32 bits, the descriptors fit one block, or the groups
are so small that more blocks are loaded and they fit these, and the volume and the device have the
blocks that they are in. -/
structure Ext2Superblock.Loads (sb : Ext2Superblock) (device : Device) : Prop where
  counted : sb.groups*sb.blocks_per_group < W32
  room : (BGD_SIZE*sb.groups%W32/sb.total_blocks+1)*sb.blockSize < W32
  fits : BGD_SIZE*sb.groups ≤ sb.blockSize ∨ sb.blocks_per_group ≤ 32 ∧
    BGD_SIZE*sb.groups ≤ (BGD_SIZE*sb.groups%W32/sb.total_blocks+1)*sb.blockSize
  blocks : sb.tableStart+(sb.groups*BGD_SIZE-1)/sb.blockSize ≤ sb.total_blocks
  bytes : sb.tableStart*sb.blockSize+sb.groups*BGD_SIZE ≤ device.size

namespace Ext2Fs
variable {device : Device} {heap fresh : Mem} {turns : ℕ} {m : Mounted} {sb : Ext2Superblock}

theorem mount_volume (hparse : Ext2Superblock.parse (store heap 0 (device.read 1024 1024)) =
    some sb)
    (hmount : mount device heap fresh turns = .mounted m) :
    m.fs.superblock = sb ∧ m.fs.blockSize = sb.blockSize ∧ m.fs.device = device := by
  obtain ⟨hsame,-,-,hdevice,-⟩ := mount_eq hmount
  have hsb : m.fs.superblock = sb := Option.some.inj (hsame.symm.trans hparse)
  exact ⟨hsb,by rw [blockSize,hsb]; rfl,hdevice⟩

/-- A volume whose groups have been counted is complete if the blocks that are loaded hold their
descriptors and these come from the device. -/
theorem complete_iff (hparse : Ext2Superblock.parse (store heap 0 (device.read 1024 1024)) =
    some sb)
    (hblocks : 0 < sb.total_blocks) (hgroup : 0 < sb.blocks_per_group)
    (hmount : mount device heap fresh turns = .mounted m) (hamount : m.bgds_amount = sb.groups) :
    m.Complete ↔ (BGD_SIZE*sb.groups%W32/sb.total_blocks+1)*sb.blockSize < W32 ∧
      sb.groups*BGD_SIZE ≤ sb.blockAmount sb.groups*sb.blockSize ∧
      ∀ x < sb.groups*BGD_SIZE, device.read (sb.tableStart*sb.blockSize+x) 1 = [m.table x] := by
  obtain ⟨hsb,hbs,hdevice⟩ := mount_volume hparse hmount
  have hnumber : m.block_amount = sb.blockAmount sb.groups := by
    rw [(mount_eq hmount).2.2.1,hsb,hamount]
  have hfound := Ext2Superblock.blockAmount_eq hgroup hblocks
  constructor
  · intro h
    have hroom := h.room
    have hloaded := h.loaded
    have htable := h.table
    rw [hnumber,hbs] at hroom hloaded
    rw [hamount] at hloaded
    rw [hsb,hbs,hdevice] at htable
    exact ⟨hfound ▸ hroom,hloaded,htable⟩
  · rintro ⟨hroom,hloaded,htable⟩
    apply complete_of_loaded
    · rwa [hsb]
    · rw [hsb,hamount]
    · rwa [hnumber,hbs,hfound]
    · rwa [hnumber,hbs,hamount]
    · rwa [hsb,hbs,hdevice]

/-- For all devices with a superblock that has blocks and groups, mounting counts the groups and
loads the descriptors of all of them, whatever is in fresh memory, exactly if there is a
`BLOCK_SIZE` that is not 0 and `Loads` holds. -/
theorem mount_complete_iff (device : Device) (hsize : device.size < W32) (heap : Mem)
    (hsignature : Ext2Superblock.signature (store heap 0 (device.read 1024 1024)) = 0xef53)
    (hpos : ∀ sb, Ext2Superblock.parse (store heap 0 (device.read 1024 1024)) = some sb →
      0 < sb.total_blocks ∧ 0 < sb.blocks_per_group) :
    (∃ turns, ∀ fresh, ∃ m, mount device heap fresh turns = .mounted m ∧ m.Complete) ↔
      ∃ sb, Ext2Superblock.parse (store heap 0 (device.read 1024 1024)) = some sb ∧
      sb.Loads device := by
  cases hparse : Ext2Superblock.parse (store heap 0 (device.read 1024 1024)) with
  | none =>
    refine iff_of_false ?_ (by rintro ⟨sb,hsb,-⟩; cases hsb)
    rintro ⟨turns,h⟩
    obtain ⟨m,hmount,-⟩ := h heap
    rw [(mount_eq hmount).1] at hparse
    cases hparse
  | some sb =>
    obtain ⟨hblocks,hgroup⟩ := hpos sb hparse
    obtain ⟨htotal,hper⟩ := Ext2Superblock.parse_lt hparse
    have hgroups : 0 < sb.groups := by
      have hall := (Ext2Superblock.groups_mul hgroup).1
      by_contra hnone
      rw [Nat.eq_zero_of_not_pos hnone,Nat.zero_mul] at hall
      omega
    have hcount : 0 < sb.groups*BGD_SIZE := Nat.mul_pos hgroups (by decide)
    have htables : ∀ turns fresh m, mount device heap fresh turns = .mounted m →
      m.bgds_amount = sb.groups → ∀ x, m.table x = if x < sb.blockSize*sb.blockAmount sb.groups ∧
        sb.tableStart+x/sb.blockSize ≤ sb.total_blocks ∧
            (sb.tableStart+x/sb.blockSize)*sb.blockSize%W32+x%sb.blockSize < device.size then
          device.byte ((sb.tableStart+x/sb.blockSize)*sb.blockSize%W32+x%sb.blockSize)
              else fresh x := by
      intro turns fresh m hmount hamount
      obtain ⟨hsb,hbs,-⟩ := mount_volume hparse hmount
      obtain ⟨-,-,hnumber,-,hbytes⟩ := mount_eq hmount
      rwa [hnumber,hbs,hsb,hamount] at hbytes
    constructor
    · rintro ⟨turns,h⟩
      obtain ⟨m,hmount,hm⟩ := h heap
      obtain ⟨hsb,-⟩ := mount_volume hparse hmount
      have hamount : m.bgds_amount = sb.groups := hsb ▸ hm.amount
      obtain ⟨hroom,hloaded,-⟩ := (complete_iff hparse hblocks hgroup hmount hamount).mp hm
      have hcounted := (mount_eq hmount).2.1
      rw [hsb,hamount] at hcounted
      have htable :=
        (@table_loaded_iff device sb.tableStart (sb.blockAmount sb.groups) sb sb.blockSize
        (sb.groups*BGD_SIZE) hsize hcount _ (by rwa [Nat.mul_comm sb.blockSize]) fun fresh x =>
        rfl).mp (by
        intro fresh x hx
        obtain ⟨m',hmount',hm'⟩ := h fresh
        have hamount' : m'.bgds_amount = sb.groups := (mount_volume hparse hmount').1 ▸ hm'.amount
        have hread := ((complete_iff hparse hblocks hgroup hmount' hamount').mp hm').2.2 x hx
        rwa [htables _ _ _ hmount' hamount'] at hread)
      exact ⟨sb,rfl,Ext2Superblock.fit_of_bgdsAmount hgroup htotal hper hcounted,hroom,
        (Ext2Superblock.loaded_iff hgroup hblocks).mp hloaded,htable.1,htable.2⟩
    · rintro ⟨_,hsb,h⟩
      obtain rfl := Option.some.inj hsb
      have hloaded := (Ext2Superblock.loaded_iff hgroup hblocks).mpr h.fits
      refine ⟨2,fun fresh => ?_⟩
      obtain ⟨m,hmount,hamount⟩ := mount_of_amount hsignature hparse
        (Ext2Superblock.bgdsAmount_eq hgroup htotal h.counted) fresh
      refine ⟨m,hmount,(complete_iff hparse hblocks hgroup hmount hamount).mpr ⟨h.room,hloaded,
        fun x hx => ?_⟩⟩
      rw [htables _ _ _ hmount hamount]
      exact (@table_loaded_iff device sb.tableStart (sb.blockAmount sb.groups) sb sb.blockSize
        (sb.groups*BGD_SIZE) hsize hcount _ (by rwa [Nat.mul_comm sb.blockSize]) fun fresh x =>
        rfl).mpr
          ⟨h.blocks,h.bytes⟩ fresh x hx

def deviceWith (total_blocks blocks_per_group : ℕ) : Device where
  size := 1024*1024
  byte := store (write32 (write32 (fun _ => 0) 1028 total_blocks) 1056 blocks_per_group) 1080 [0x53,
    0xef]

theorem parse_deviceWith : Ext2Superblock.parse (store (fun _ =>
    0) 0 ((deviceWith 1000 300).read 1024 1024)) =
    some ⟨1000,0,300,0,0,by decide⟩ := by decide +kernel

theorem mount_complete_small :
    ∃ turns, ∀ fresh, ∃ m, mount (deviceWith 1000 300) (fun _ => 0) fresh turns =
    .mounted m ∧ m.Complete :=
  (mount_complete_iff (deviceWith 1000 300) (by decide) (fun _ => 0) (by decide +kernel) (by
    intro sb hsb
    obtain rfl := Option.some.inj (parse_deviceWith.symm.trans hsb)
    decide)).mpr
    ⟨_,parse_deviceWith,by decide,by decide,by decide,by decide,by decide⟩

/-- Of 33 groups of the usual size, the descriptors of 32 are loaded. -/
theorem mount_incomplete : (match mount (deviceWith (33*8192) 8192) (fun _ => 0) (fun _ => 0) 2 with
      | .mounted m => (m.bgds_amount,m.block_amount,m.fs.blockSize)
      | _ => (0,0,0)) = (33,1,1024) ∧ ¬ 33*BGD_SIZE ≤ 1*1024 :=
  ⟨by decide +kernel,by decide⟩

end Ext2Fs
end ScalesOS
