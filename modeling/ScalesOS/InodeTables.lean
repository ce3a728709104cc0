import ScalesOS.Inodes

/-!
# The bytes of an inode

Where `__ext2_read_inode` and `__ext2_write_inode` find an inode, and that each inode has bytes of
its own.
-/

namespace ScalesOS
open ByteMemory Storage RecordTables

namespace Ext2Fs
variable (fs : Ext2Fs)

def tableStart (group : ℕ) : ℕ := (fs.bgds group).inode_table*fs.blockSize

def inodeTable (group : ℕ) : Set ℕ :=
  table (fs.tableStart group) fs.superblock.inode_size fs.superblock.inodes_per_group

/-- `inode_table*block_size+index*inode_size`. -/
def inodeStart (inode : ℕ) : ℕ :=
  fs.tableStart (fs.groupFromInode inode)+fs.indexFromInode inode*fs.superblock.inode_size

/-- The bytes of an inode. -/
def inodeBytes (inode : ℕ) : Set ℕ :=
  Set.Ico (fs.inodeStart inode) (fs.inodeStart inode+fs.superblock.inode_size)

/-- The tables of the groups are apart, on the blocks of the volume, and have 32-bit addresses. -/
structure InodeTables (groups : ℕ) : Prop where
  divides : fs.superblock.inode_size ∣ fs.blockSize
  disjoint : ∀ g < groups, ∀ g' < groups, g ≠ g' → Disjoint (fs.inodeTable g) (fs.inodeTable g')
  inside : ∀ g < groups, fs.tableStart g+fs.superblock.inodes_per_group*fs.superblock.inode_size ≤
    fs.superblock.total_blocks*fs.blockSize
  held : ∀ g < groups, fs.tableStart g+fs.superblock.inodes_per_group*fs.superblock.inode_size ≤
    fs.device.size
  short : ∀ g < groups, fs.tableStart g+fs.superblock.inodes_per_group*fs.superblock.inode_size ≤
    W32

/-- An inode of one of the groups. The numbers start with one. -/
def ValidInode (groups inode : ℕ) : Prop :=
  0 < inode ∧ inode ≤ groups*fs.superblock.inodes_per_group

instance (groups inode : ℕ) : Decidable (fs.ValidInode groups inode) := by
  unfold ValidInode; infer_instance

/-- Neither the inode nor its block is cached. -/
structure Cold (inode : ℕ) : Prop where
  inodes : ∀ c_ino ∈ fs.inode_cache, c_ino.inode_number ≠ inode
  blocks : ∀ c_bl ∈ fs.block_cache, c_bl.block_number ≠ fs.inodeBlock inode

end Ext2Fs

namespace Ext2Fs
variable {fs : Ext2Fs} {heap : Mem} {groups inode i j now block : ℕ}

theorem ValidInode.group_lt (h : fs.ValidInode groups inode) :
    fs.groupFromInode inode < groups := by
  obtain ⟨hpos,hle⟩ := h
  exact Nat.div_lt_of_lt_mul (by rw [Nat.mul_comm]; omega)

theorem ValidInode.index_lt (h : fs.ValidInode groups inode) :
    fs.indexFromInode inode < fs.superblock.inodes_per_group := by
  obtain ⟨hpos,hle⟩ := h
  have hinodes : 0 < fs.superblock.inodes_per_group := by
    apply Nat.pos_of_ne_zero
    intro hzero
    rw [hzero,Nat.mul_zero] at hle
    omega
  exact Nat.mod_lt _ hinodes

theorem ValidInode.eq (hi : fs.ValidInode groups i) (hj : fs.ValidInode groups j)
    (hgroup : fs.groupFromInode i = fs.groupFromInode j)
    (hindex : fs.indexFromInode i = fs.indexFromInode j) : i = j := by
  have hi_split := Nat.div_add_mod (i-1) fs.superblock.inodes_per_group
  have hj_split := Nat.div_add_mod (j-1) fs.superblock.inodes_per_group
  rw [groupFromInode,groupFromInode] at hgroup
  rw [indexFromInode,indexFromInode] at hindex
  rw [hgroup,hindex] at hi_split
  have hi_pos := hi.1
  have hj_pos := hj.1
  omega

theorem inodeBytes_disjoint (ht : fs.InodeTables groups) (hi : fs.ValidInode groups i)
    (hj : fs.ValidInode groups j) (hne : i ≠ j) : Disjoint (fs.inodeBytes i) (fs.inodeBytes j) := by
  by_cases hgroup : fs.groupFromInode i = fs.groupFromInode j
  · have hindex : fs.indexFromInode i ≠ fs.indexFromInode j := fun hindex =>
      hne (hi.eq hj hgroup hindex)
    rw [inodeBytes,inodeBytes,inodeStart,inodeStart,hgroup]
    exact record_disjoint hindex
  · exact (ht.disjoint _ hi.group_lt _ hj.group_lt hgroup).mono (record_subset hi.index_lt)
      (record_subset hj.index_lt)

/-- The block and the offset inside it, which both functions compute, are those of the inode. -/
theorem inodeAddress_eq (hdvd : fs.superblock.inode_size ∣ fs.blockSize) (inode : ℕ) :
    fs.inodeAddress inode = fs.inodeStart inode := by
  have hplace := place_eq (i := fs.indexFromInode inode) (@blockSize_pos fs) hdvd
  rw [inodeStart,← hplace,tableStart,← Nat.add_assoc,← Nat.add_mul]
  rfl

theorem InodeTables.start_le (ht : fs.InodeTables groups)
    (hi : fs.ValidInode groups inode) {limit : ℕ} (hlimit : fs.tableStart (fs.groupFromInode inode)+
      fs.superblock.inodes_per_group*fs.superblock.inode_size ≤ limit) :
    fs.inodeAddress inode+fs.superblock.inode_size ≤ limit := by
  have hend := record_end fs.superblock.inode_size hi.index_lt
  rw [inodeAddress_eq ht.divides,inodeStart]
  omega

theorem readBlock_cold (hblock : block ≤ fs.superblock.total_blocks)
    (hcold : ∀ c_bl ∈ fs.block_cache, c_bl.block_number ≠ block) :
    fs.readBlock block 0 = fs.readAlone block := by
  have hlookup :
      MoveToFront.lookup (fun c_bl : CachedBlock => c_bl.block_number = block) fs.block_cache =
          none :=
    MoveToFront.lookup_none fun c_bl hmem => by simpa using hcold c_bl hmem
  rw [readBlock,if_neg (Nat.not_lt.mpr hblock),tryGetCachedBlock,hlookup]
  rfl

theorem readInode_cold (ht : fs.InodeTables groups) (hi : fs.ValidInode groups inode)
    (hcold : fs.Cold inode) (heap : Mem)
    (now : ℕ) : ∃ ino, (fs.readInode heap inode now).1 = some ino ∧
      ∀ x < fs.superblock.inode_size, ino x = fs.device.byte (fs.inodeStart inode+x) := by
  have hlookup :
      MoveToFront.lookup (fun c_ino : CachedInode => c_ino.inode_number = inode) fs.inode_cache =
          none :=
    MoveToFront.lookup_none fun c_ino hmem => by simpa using hcold.inodes c_ino hmem
  have hget : fs.tryGetCachedInode inode now = (none,fs) := by rw [tryGetCachedInode,hlookup]
  have hsize : 0 < fs.superblock.inode_size := Nat.pos_of_dvd_of_pos ht.divides blockSize_pos
  have hinside := ht.start_le hi (ht.inside _ hi.group_lt)
  have hheld := ht.start_le hi (ht.held _ hi.group_lt)
  have hshort := ht.start_le hi (ht.short _ hi.group_lt)
  rw [inodeAddress] at hinside hheld hshort
  have hblock : fs.inodeBlock inode < fs.superblock.total_blocks :=
    Nat.lt_of_mul_lt_mul_right (show fs.inodeBlock inode*fs.blockSize <
      fs.superblock.total_blocks*fs.blockSize by omega)
  have hinner :
      fs.innerOffset inode*fs.superblock.inode_size+fs.superblock.inode_size ≤ fs.blockSize :=
    inner_le blockSize_pos ht.divides
  have haddress : fs.inodeBlock inode*fs.blockSize%W32 = fs.inodeBlock inode*fs.blockSize :=
    Nat.mod_eq_of_lt (by omega)
  rw [readInode,if_neg (Nat.pos_iff_ne_zero.mp hi.1),hget]
  refine ⟨_,rfl,?_⟩
  intro x hx
  rw [readBuffer,readBlock_cold hblock.le hcold.blocks,readAlone,haddress,Device.read]
  dsimp only
  rw [store_load,if_pos ⟨Nat.zero_le _,by rw [Device.available]; omega⟩,Nat.sub_zero,
    ← inodeAddress_eq ht.divides,inodeAddress,Nat.add_assoc]

theorem writeInode_start (ht : fs.InodeTables groups) (hi : fs.ValidInode groups inode)
    (inode_data : Mem) :
    (fs.writeInode inode inode_data).device =
      fs.device.write (fs.inodeStart inode) (load inode_data 0 fs.superblock.inode_size) := by
  have hsize : 0 < fs.superblock.inode_size := Nat.pos_of_dvd_of_pos ht.divides blockSize_pos
  have hshort := ht.start_le hi (ht.short _ hi.group_lt)
  rw [inodeAddress] at hshort
  have haddress :
    (fs.inodeBlock inode*fs.blockSize+fs.innerOffset inode*fs.superblock.inode_size)%W32 =
      fs.inodeBlock inode*fs.blockSize+fs.innerOffset inode*fs.superblock.inode_size :=
        Nat.mod_eq_of_lt (by omega)
  rw [writeInode,invalidateInode,writeDevice,haddress,← inodeAddress_eq ht.divides]
  rfl

/-- For all volumes whose inode tables are apart, both functions access an inode at the same bytes,
and two inodes have no byte in common. -/
theorem inode_ranges (fs : Ext2Fs) (groups : ℕ) (ht : fs.InodeTables groups) :
    (∀ inode, fs.ValidInode groups inode →
      (∀ heap now, fs.Cold inode → ∃ ino, (fs.readInode heap inode now).1 = some ino ∧
        ∀ x < fs.superblock.inode_size, ino x = fs.device.byte (fs.inodeStart inode+x)) ∧
      ∀ inode_data, (fs.writeInode inode inode_data).device =
        fs.device.write (fs.inodeStart inode) (load inode_data 0 fs.superblock.inode_size)) ∧
    ∀ i j, fs.ValidInode groups i → fs.ValidInode groups j → i ≠ j →
    Disjoint (fs.inodeBytes i) (fs.inodeBytes j) :=
  ⟨fun _ hi => ⟨fun heap now hcold => readInode_cold ht hi hcold heap now,writeInode_start ht hi⟩,
    fun _ _ hi hj hne => inodeBytes_disjoint ht hi hj hne⟩

def twoGroups : Ext2Fs where
  superblock := ⟨4,0,8192,8,128,Ext2Superblock.kib_le⟩
  device := ⟨4096,fun x => BitVec.ofNat 8 (x/128)⟩
  bgds := fun group => ⟨0,1+2*group,0⟩
  inode_cache := []
  block_cache := []
  readahead_buffer := fun _ => 0

theorem inode_ranges_two :
    (∃ ino, (twoGroups.readInode (fun _ => 0) 12 0).1 = some ino ∧ ino 0 = 27) ∧
      (twoGroups.writeInode 12 fun _ => 0).device =
      twoGroups.device.write 3456 (List.replicate 128 0) ∧
        Disjoint (twoGroups.inodeBytes 4) (twoGroups.inodeBytes 12) := by
  have htables : twoGroups.InodeTables 2 := by
    refine ⟨by decide,?_,by decide,by decide,by decide⟩
    intro g _ g' _ hne
    apply Set.disjoint_left.mpr
    rintro x ⟨hlow,hhigh⟩ ⟨hlow',hhigh'⟩
    change (1+2*g)*1024 ≤ x at hlow
    change x < (1+2*g)*1024+8*128 at hhigh
    change (1+2*g')*1024 ≤ x at hlow'
    change x < (1+2*g')*1024+8*128 at hhigh'
    omega
  obtain ⟨haccess,hdisjoint⟩ := inode_ranges twoGroups 2 htables
  have hvalid : twoGroups.ValidInode 2 12 := by decide
  obtain ⟨hread,hwrite⟩ := haccess 12 hvalid
  obtain ⟨ino,hino,hbytes⟩ :=
    hread (fun _ => 0) 0 ⟨fun _ h => absurd h List.not_mem_nil,fun _ h => absurd h List.not_mem_nil⟩
  exact ⟨⟨ino,hino,hbytes 0 (by decide)⟩,hwrite _,hdisjoint 4 12 (by decide) hvalid (by decide)⟩

end Ext2Fs
end ScalesOS
