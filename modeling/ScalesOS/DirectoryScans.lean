import ScalesOS.Directories

/-!
# Does a scan of a directory end?

`__ext2_readdir` adds the length that every record gives for itself. It gets away from a record that
is not in use only if that length is not 0 and does not reach to the end of all offsets.
-/

namespace ScalesOS
open ByteMemory Storage SparseFile Relation

namespace Ext2Fs
variable {fs gs hs : Ext2Fs} {heap ino dirent : Mem} {block size offset index : ℕ}

/-- `hs` is `gs` after reads of records of the directory. -/
def Scanned (ino : Mem) (gs hs : Ext2Fs) : Prop :=
  ReflTransGen (fun fs hs => ∃ heap offset,
    hs = (fs.readInodeContents heap ino offset DIRENT_SIZE).2) gs hs

/-- The bytes that a read of a record can deliver, after others. -/
def Delivered (ino : Mem) (gs : Ext2Fs) (offset : ℕ) : Set (List (BitVec 8)) :=
  {data | ∃ hs heap, Scanned ino gs hs ∧
    (hs.readInodeContents heap ino offset DIRENT_SIZE).1 = data}

/-- What a read can deliver it can deliver again, whatever was read between. -/
def Steady (ino : Mem) (gs : Ext2Fs) : Prop :=
  ∀ hs, Scanned ino gs hs → ∀ offset, ∀ data ∈ Delivered ino gs offset,
    ∃ heap, (hs.readInodeContents heap ino offset DIRENT_SIZE).1 = data

/-- Among the records of a directory of this size, from this place up to the entry with the index,
is one that is not in use and whose length is 0 or leads past the last offset. `dirent` holds the
record before. -/
inductive Stuck (deliver : ℕ → Set (List (BitVec 8))) (size : ℕ) : (index offset : ℕ) →
    (dirent : Mem) → Prop
  | here {index offset : ℕ} {dirent : Mem} {data : List (BitVec 8)} :
      offset < size → data ∈ deliver offset → Ext2Dirent.inode (store dirent 0 data) = 0 →
      Ext2Dirent.size (store dirent 0 data) = 0 ∨
      W32 ≤ offset+Ext2Dirent.size (store dirent 0 data) → Stuck deliver size index offset dirent
  | free {index offset : ℕ} {dirent : Mem} {data : List (BitVec 8)} :
      offset < size → data ∈ deliver offset → Ext2Dirent.inode (store dirent 0 data) = 0 →
      Stuck deliver size index ((offset+Ext2Dirent.size (store dirent 0 data))%W32)
      (store dirent 0 data) → Stuck deliver size index offset dirent
  | used {index offset : ℕ} {dirent : Mem} {data : List (BitVec 8)} :
      offset < size → data ∈ deliver offset → Ext2Dirent.inode (store dirent 0 data) ≠ 0 →
      Stuck deliver size index ((offset+Ext2Dirent.size (store dirent 0 data))%W32)
      (store dirent 0 data) → Stuck deliver size (index+1) offset dirent

theorem Stuck.lt {deliver : ℕ → Set (List (BitVec 8))}
    (h : Stuck deliver size index offset dirent) : offset < size := by
  cases h <;> assumption

theorem Scanned.read (h : Scanned ino gs hs) (heap : Mem) (offset : ℕ) :
    Scanned ino gs (hs.readInodeContents heap ino offset DIRENT_SIZE).2 := .tail h ⟨heap,offset,rfl⟩

theorem Scanned.delivered (h : Scanned ino gs hs) (heap : Mem) (offset : ℕ) :
    (hs.readInodeContents heap ino offset DIRENT_SIZE).1 ∈ Delivered ino gs offset :=
  ⟨hs,heap,h,rfl⟩

theorem Scanned.reads (h : Scanned ino gs hs) : ReadsOnly gs hs := by
  induction h with
  | refl => exact .refl
  | tail _ hread ih =>
    obtain ⟨heap,offset,rfl⟩ := hread
    exact ih.trans (readInodeContents_reads _ heap ino offset _)

namespace ReaddirPlace
variable {a b : ReaddirPlace}

theorem look_passed (h : look ino heap a = .passed b) :
    a.offset < Inode.sizeLow ino ∧ b = a.readRecord ino heap ∧ Ext2Dirent.inode b.dirent = 0 := by
  rw [look] at h
  split_ifs at h with hend hfree
  obtain rfl := Scans.Turn.passed.inj h
  exact ⟨Nat.lt_of_not_le hend,rfl,hfree⟩

theorem look_listed {r : Option Dirent × Ext2Fs} (h : look ino heap a = .listed r b) :
    a.offset < Inode.sizeLow ino ∧ b = a.readRecord ino heap ∧ Ext2Dirent.inode b.dirent ≠ 0 := by
  rw [look] at h
  split_ifs at h with hend hused
  obtain ⟨-,rfl⟩ := Scans.Turn.listed.inj h
  exact ⟨Nat.lt_of_not_le hend,rfl,hused⟩

theorem look_free (hin : a.offset < Inode.sizeLow ino)
    (hfree : Ext2Dirent.inode (a.readRecord ino heap).dirent = 0) :
    look ino heap a = .passed (a.readRecord ino heap) := by
  rw [look,if_neg (Nat.not_le.mpr hin),if_pos hfree]

theorem look_used (hin : a.offset < Inode.sizeLow ino)
    (hused : Ext2Dirent.inode (a.readRecord ino heap).dirent ≠ 0) :
    ∃ r, look ino heap a = .listed r (a.readRecord ino heap) := by
  rw [look,if_neg (Nat.not_le.mpr hin),if_neg hused]
  exact ⟨_,rfl⟩

/-- A read that delivers the same bytes once more does not change the record. -/
theorem readRecord_again {heap' : Mem} (hoffset : (a.readRecord ino heap).offset = a.offset)
    (hdata : ((a.readRecord ino heap).fs.readInodeContents heap' ino a.offset DIRENT_SIZE).1 =
      (a.fs.readInodeContents heap ino a.offset DIRENT_SIZE).1) :
    ((a.readRecord ino heap).readRecord ino heap').dirent = (a.readRecord ino heap).dirent ∧
      ((a.readRecord ino heap).readRecord ino heap').offset = a.offset := by
  have hdirent :
      ((a.readRecord ino heap).readRecord ino heap').dirent = (a.readRecord ino heap).dirent := by
    funext x
    rw [readRecord,hoffset]
    dsimp only
    rw [hdata,readRecord]
    dsimp only
    simp only [store]
    split <;> rfl
  refine ⟨hdirent,?_⟩
  change ((a.readRecord ino heap).offset+Ext2Dirent.size
    ((a.readRecord ino heap).readRecord ino heap').dirent)%W32 = _
  rw [hdirent,hoffset]
  exact hoffset

/-- A free record that does not lead forward has length 0 or leads past the last offset. -/
theorem size_of_back (hback : (a.readRecord ino heap).offset ≤ a.offset) :
    Ext2Dirent.size (a.readRecord ino heap).dirent = 0 ∨
    W32 ≤ a.offset+Ext2Dirent.size (a.readRecord ino heap).dirent := by
  have hoffset :
    (a.readRecord ino heap).offset =
    (a.offset+Ext2Dirent.size (a.readRecord ino heap).dirent)%W32 := rfl
  by_contra hnot
  push Not at hnot
  rw [hoffset,Nat.mod_eq_of_lt hnot.2] at hback
  omega

/-- If the scan can be led back, it meets such a record. The induction is on the way of the scan. -/
theorem stuck_of_meets {x : ℕ × ReaddirPlace} (hx : Scanned ino gs x.2.fs)
    (h : Scans.Meets (look ino) (fun a b => b.offset ≤ a.offset) x.1 x.2) :
    Stuck (Delivered ino gs) (Inode.sizeLow ino) x.1 x.2.offset x.2.dirent := by
  obtain ⟨y,b,hway,⟨heap,hpass⟩,hback⟩ := h
  change ReflTransGen _ x y at hway
  induction hway using ReflTransGen.head_induction_on with
  | refl =>
    obtain ⟨hin,rfl,hfree⟩ := look_passed hpass
    exact .here hin (hx.delivered heap _) hfree (size_of_back hback)
  | head hstep _ ih =>
    rename_i x z
    obtain ⟨heap,⟨hturn,hindex⟩ | ⟨r,hturn,hindex⟩⟩ := hstep
    · obtain ⟨hin,hnext,hfree⟩ := look_passed hturn
      have hrest := ih (by rw [hnext]; exact hx.read heap _)
      rw [hnext] at hrest hfree
      rw [← hindex]
      exact .free hin (hx.delivered heap _) hfree hrest
    · obtain ⟨hin,hnext,hused⟩ := look_listed hturn
      have hrest := ih (by rw [hnext]; exact hx.read heap _)
      rw [hnext] at hrest hused
      rw [hindex]
      exact .used hin (hx.delivered heap _) hused hrest

/-- In a directory that is not near the end of all offsets, and whose reads deliver the same at all
times, the scan can be kept at such a record. -/
theorem meets_of_stuck (hsteady : Steady ino gs) (hsize : Inode.sizeLow ino+0x10000 ≤ W32)
    (h : Stuck (Delivered ino gs) (Inode.sizeLow ino) index offset dirent) :
    ∀ hs, Scanned ino gs hs →
    Scans.Meets (look ino) (fun a b => Scanned ino gs a.fs ∧ b.offset = a.offset) index ⟨offset,
      dirent,hs⟩ := by
  induction h with
  | @here index offset dirent data hin hdata hfree hlength =>
    intro hs hhs
    obtain ⟨heap,rfl⟩ := hsteady hs hhs _ _ hdata
    refine ⟨_,_,.refl,⟨heap,look_free (a:=⟨offset,dirent,hs⟩) hin hfree⟩,hhs,?_⟩
    have hlt := read16_lt (store dirent 0 (hs.readInodeContents heap ino offset DIRENT_SIZE).1) 4
    rw [Ext2Dirent.size] at hlength
    have hzero := hlength.resolve_right (by omega)
    rw [readRecord]
    dsimp only
    rw [Ext2Dirent.size,hzero,Nat.add_zero,Nat.mod_eq_of_lt (by omega)]
  | @free index offset dirent data hin hdata hfree _ ih =>
    intro hs hhs
    obtain ⟨heap,rfl⟩ := hsteady hs hhs _ _ hdata
    have hturn := look_free (a:=⟨offset,dirent,hs⟩) hin hfree
    exact Scans.Meets.step (x:=(index,⟨offset,dirent,hs⟩))
      (y:=(index,readRecord ino heap ⟨offset,dirent,hs⟩))
      ⟨heap,.inl ⟨hturn,rfl⟩⟩ (ih _ (hhs.read heap _))
  | @used index offset dirent data hin hdata hused _ ih =>
    intro hs hhs
    obtain ⟨heap,rfl⟩ := hsteady hs hhs _ _ hdata
    obtain ⟨r,hturn⟩ := look_used (a:=⟨offset,dirent,hs⟩) hin hused
    exact Scans.Meets.step (x:=(index+1,⟨offset,dirent,hs⟩))
      (y:=(index,readRecord ino heap ⟨offset,dirent,hs⟩))
      ⟨heap,.inr ⟨r,hturn,rfl⟩⟩ (ih _ (hhs.read heap _))

theorem ends_of_not_stuck {a : ReaddirPlace} (ha : Scanned ino gs a.fs)
    (h : ¬ Stuck (Delivered ino gs) (Inode.sizeLow ino) index a.offset a.dirent) (fresh : ℕ → Mem) :
    Scans.Ends (look ino) fresh index a := by
  have hforward : ∀ a b, Scans.Pass (look ino) a b → ¬ b.offset ≤ a.offset → a.offset < b.offset ∧
      b.offset < W32 := by
    rintro a b ⟨heap,hturn⟩ hnot
    obtain ⟨-,rfl,-⟩ := look_passed hturn
    exact ⟨Nat.lt_of_not_le hnot,Nat.mod_lt _ (by decide)⟩
  exact Scans.ends_of_not_meets hforward index a fresh fun hmeets =>
    h (stuck_of_meets (x:=(index,a)) ha hmeets)

theorem exists_fresh_of_stuck (hsteady : Steady ino gs) (hsize : Inode.sizeLow ino+0x10000 ≤ W32)
    (h : Stuck (Delivered ino gs) (Inode.sizeLow ino) index offset dirent) :
    ∃ fresh, ¬ Scans.Ends (look ino) fresh index ⟨offset,dirent,gs⟩ := by
  apply Scans.exists_fresh_of_meets (fun a b hpass hbad =>
    ?_) (meets_of_stuck hsteady hsize h gs .refl)
  obtain ⟨heap,hturn⟩ := hpass
  obtain ⟨hin,rfl,hfree⟩ := look_passed hturn
  obtain ⟨ha,hoffset⟩ := hbad
  have hb := ha.read heap a.offset
  obtain ⟨heap',hdata⟩ := hsteady _ hb _ _ (ha.delivered heap a.offset)
  obtain ⟨hdirent,hoffset'⟩ := readRecord_again hoffset hdata
  have hin' : (a.readRecord ino heap).offset < Inode.sizeLow ino := by rwa [hoffset]
  exact ⟨_,⟨heap',look_free hin' (by rwa [hdirent])⟩,hb,hoffset'.trans hoffset.symm⟩

end ReaddirPlace

/-- In a volume with a right cache, reads of a directory whose blocks are missing or in the volume
deliver the bytes of the device up to the first block that is missing. -/
theorem read_of_volume {target : ℕ → ℕ} (hv : gs.Volume) (hok : gs.BlocksOk)
    (hoffset : offset < Inode.sizeLow ino)
    (hmap : ∀ k, k*gs.blockSize < Inode.sizeLow ino+DIRENT_SIZE →
      (∃ blocks, gs.mapBlock ino k = some (target k,blocks)) ∧
      target k < gs.superblock.total_blocks) :
    ∃ n, UpToHole gs.blockSize target offset (clampedSize ino offset DIRENT_SIZE) n ∧ ∀ hs heap,
      Scanned ino gs hs → (hs.readInodeContents heap ino offset DIRENT_SIZE).1 =
        load (fileByte gs.blockSize target fun block x =>
            gs.device.byte (block*gs.blockSize+x)) offset n := by
  have hread : ∀ hs heap, Scanned ino gs hs →
      ∃ n, UpToHole gs.blockSize target offset (clampedSize ino offset DIRENT_SIZE) n ∧
        (hs.readInodeContents heap ino offset DIRENT_SIZE).1 =
          load (fileByte gs.blockSize target fun block x =>
              gs.device.byte (block*gs.blockSize+x)) offset n := by
    intro hs heap hhs
    refine readInodeContents_upToHole (given_of_volume hv hok heap ?_ ?_) hhs.reads hoffset (by
      decide)
    · exact fun k hk => (hmap k (by have := hk.2; omega)).1
    · exact fun k hk => (hmap k (by have := hk.2; omega)).2
  obtain ⟨n,hn,-⟩ := hread gs (fun _ => 0) .refl
  refine ⟨n,hn,fun hs heap hhs => ?_⟩
  obtain ⟨m,hm,heq⟩ := hread hs heap hhs
  rw [heq,hm.unique hn]

theorem steady_of_volume {target : ℕ → ℕ} (hv : gs.Volume) (hok : gs.BlocksOk)
    (hmap : ∀ k, k*gs.blockSize < Inode.sizeLow ino+DIRENT_SIZE →
      (∃ blocks, gs.mapBlock ino k = some (target k,blocks)) ∧
      target k < gs.superblock.total_blocks) :
    Steady ino gs := by
  rintro hs hhs offset data ⟨hs',heap,hhs',rfl⟩
  refine ⟨heap,?_⟩
  rcases Nat.lt_or_ge offset (Inode.sizeLow ino) with hin | hbehind
  · obtain ⟨n,-,hread⟩ := read_of_volume hv hok hin hmap
    rw [hread hs heap hhs,hread hs' heap hhs']
  · rw [readInodeContents,if_pos hbehind,readInodeContents,if_pos hbehind]

theorem DeviceInode.isDir {inode : ℕ} (hv : fs.Volume) (h : fs.DeviceInode inode ino) :
    Inode.isDir ino = Inode.isDir (fs.inodeMem inode) := by
  have hperms : Inode.perms ino = Inode.perms (fs.inodeMem inode) := by
    apply read16_congr
    intro x _ hhigh
    have hsize := hv.inode_size
    exact h x (by omega) (.inl (by omega))
  rw [Inode.isDir,Inode.isDir,hperms]

def directoryInode (size : ℕ) : Mem := write32 (write32 (write32 (fun _ => 0) 0 0x41ED) 4 size) 40 3

def directoryVolume (size : ℕ) (block : List (BitVec 8)) : Ext2Fs where
  superblock := ⟨8,0,8192,8,128,Ext2Superblock.kib_le⟩
  device := ⟨8192,store (store (fun _ => 0) (2*1024+128) (load (directoryInode size) 0 128))
    (3*1024) block⟩
  bgds := fun _ => ⟨0,2,0⟩
  inode_cache := [⟨2,directoryInode size⟩]
  block_cache := [⟨3,block⟩]
  readahead_buffer := fun _ => 0

section
variable {n : ℕ} {block : List (BitVec 8)}

theorem directoryVolume_volume (n : ℕ) (block : List (BitVec 8)) :
    (directoryVolume n block).Volume := by
  have hsize : (directoryVolume n block).blockSize = 1024 := rfl
  refine ⟨⟨?_,?_,?_⟩,?_,?_,?_⟩
  · rw [hsize]
    exact ⟨8,rfl⟩
  · exact show 8192 < W32 by decide
  · rw [hsize]
    exact show 8*1024 ≤ 8192 by decide
  · rw [hsize]
    decide
  · exact le_rfl
  · rw [hsize]
    exact ⟨8,rfl⟩

theorem directoryVolume_address (n : ℕ) (block : List (BitVec 8)) :
    (directoryVolume n block).inodeBlock 2 = 2 ∧
    (directoryVolume n block).inodeAddress 2 = 2*1024+128 := by
  simp [inodeAddress,inodeBlock,innerOffset,groupFromInode,indexFromInode,blockFromIndex,blockSize,
    directoryVolume]

theorem directoryVolume_inode (n : ℕ) (block : List (BitVec 8)) :
    (directoryVolume n block).DeviceInode 2 (directoryInode n) := by
  intro x hx _
  have hlt : x < 128 := hx
  rw [(directoryVolume_address n block).2,directoryVolume]
  dsimp only
  rw [store_outside _ (.inl (by omega)),store_load,if_pos (by omega),Nat.zero_add,
    Nat.add_sub_cancel_left]

theorem directoryVolume_coherent (hblock : block.length = 1024) :
    (directoryVolume n block).Coherent := by
  refine ⟨?_,?_,List.nodup_singleton _⟩
  · intro c_bl hc
    obtain rfl := List.mem_singleton.mp hc
    have hload :=
      load_store (store (fun _ => 0) (2*1024+128) (load (directoryInode n) 0 128)) (3*1024) block
    rw [hblock] at hload
    exact hload.symm
  · intro c_ino hc
    obtain rfl := List.mem_singleton.mp hc
    exact directoryVolume_inode n block

theorem directoryVolume_maps (hsize : Inode.sizeLow (directoryInode n) ≤ 1024) :
    (directoryVolume n block).Maps ((directoryVolume n block).inodeMem 2) (fun _ => 3) 0
      (Inode.sizeLow ((directoryVolume n block).inodeMem 2)) := by
  have hlow := (directoryVolume_inode n block).sizeLow (directoryVolume_volume n block)
  have hpointers := (directoryVolume_inode n block).samePointers (directoryVolume_volume n block)
  have hbs : (directoryVolume n block).blockSize = 1024 := rfl
  intro k _ hk
  rw [hbs,← hlow] at hk
  obtain rfl : k = 0 := by omega
  have hpointer : Inode.blockPointer (directoryInode n) 0 = 3 := by
    rw [Inode.blockPointer,directoryInode,read32_write32]
  refine ⟨[],?_,by decide,show 3 < 8 by decide⟩
  rw [mapBlock,if_pos (by decide),← hpointers.blockPointer (by decide),hpointer]

theorem directoryInode_pointer (n : ℕ) {k : ℕ} (hk : k < 2) :
    Inode.blockPointer (directoryInode n) k = if k = 0 then 3 else 0 := by
  match k,hk with
  | 0,_ => exact read32_write32 _ _ _
  | 1,_ =>
    refine (read32_congr (m:=fun _ => 0) ?_).trans (by decide)
    intro x hlow _
    rw [directoryInode,write32_outside _ (by omega),write32_outside _ (by omega),
      write32_outside _ (by omega)]

theorem load_firstBlock {m : ℕ} (hm : m ≤ 1024) (hblock : block.length = 1024) :
    load (fileByte 1024 (fun k => if k = 0 then 3 else 0) fun b x =>
      (directoryVolume n block).device.byte (b*1024+x)) 0 m =
      block.take m := by
  apply List.ext_getElem?
  intro i
  by_cases hi : i < m
  · have hin : i < block.length := by omega
    rw [getElem?_load _ _ hi,List.getElem?_take_of_lt hi,Nat.zero_add,fileByte,
      Nat.div_eq_of_lt (by omega),if_pos rfl,
      if_neg (by decide),Nat.mod_eq_of_lt (by omega),directoryVolume]
    dsimp only
    rw [store_inside _ _ hin,List.getD_eq_getElem?_getD,List.getElem?_eq_getElem hin,
      Option.getD_some]
  · rw [List.getElem?_eq_none (by simpa using hi),List.getElem?_eq_none (by simp; omega)]

/-- Reads of a directory with one block deliver the bytes of that block. -/
theorem directoryVolume_read (hdir : Inode.isDir (directoryInode n) = true)
    (hpos : 0 < Inode.sizeLow (directoryInode n))
    (hone : Inode.sizeLow (directoryInode n) ≤ 1024) (hblock : block.length = 1024) :
    ∃ ino gs, (directoryVolume n block).readInode (fun _ => 0) 2 0 = (some ino,gs) ∧
      Inode.isDir ino = true ∧
      Inode.sizeLow ino = Inode.sizeLow (directoryInode n) ∧ Steady ino gs ∧
      Delivered ino gs 0 = {block.take (min DIRENT_SIZE (Inode.sizeLow (directoryInode n)))} := by
  have hv := directoryVolume_volume n block
  have hdevice := directoryVolume_inode n block
  have hi : (directoryVolume n block).HasInode 2 :=
    ⟨by decide,by rw [(directoryVolume_address n block).1]; exact show 2 < 8 by decide⟩
  obtain ⟨hsame,hc,ino,hino,hdevice'⟩ :=
    readInode_ok hv (directoryVolume_coherent (n:=n) hblock) hi (fun _ => 0) 0
  rcases hread : (directoryVolume n block).readInode (fun _ => 0) 2 0 with ⟨found,gs⟩
  rw [hread] at hsame hc hino
  obtain rfl : found = some ino := hino
  have hlow : Inode.sizeLow ino = Inode.sizeLow (directoryInode n) := by
    rw [hdevice'.sizeLow hv,← hdevice.sizeLow hv]
  have hbs : gs.blockSize = 1024 := hsame.layout.blockSize
  have htotal : gs.superblock.total_blocks = 8 := congrArg (·.total_blocks) hsame.superblock
  have hpointer : ∀ k < DIRECT_BLOCK_CAPACITY,
      Inode.blockPointer ino k = Inode.blockPointer (directoryInode n) k := by
    intro k hk
    rw [(hdevice'.samePointers hv).blockPointer hk,← (hdevice.samePointers hv).blockPointer hk]
  have hmap : ∀ k, k*gs.blockSize < Inode.sizeLow ino+DIRENT_SIZE →
      (∃ blocks, gs.mapBlock ino k = some (if k = 0 then 3 else 0,blocks)) ∧
        (if k = 0 then 3 else 0) < gs.superblock.total_blocks := by
    intro k hk
    rw [hbs,hlow,DIRENT_SIZE] at hk
    have hk : k < 2 := by omega
    have hdirect : k < DIRECT_BLOCK_CAPACITY := by rw [DIRECT_BLOCK_CAPACITY]; omega
    refine ⟨⟨[],?_⟩,by rw [htotal]; split <;> decide⟩
    rw [mapBlock,if_pos hdirect,hpointer k hdirect,directoryInode_pointer n hk]
  have hv' := hsame.layout.isVolume hv
  refine ⟨ino,gs,rfl,by rw [hdevice'.isDir hv,← hdevice.isDir hv,hdir],hlow,
    steady_of_volume hv' hc.blocks hmap,?_⟩
  obtain ⟨m,hm,hdeliver⟩ := read_of_volume hv' hc.blocks (by rw [hlow]; exact hpos) hmap
  rw [clampedSize_eq (by rw [hlow]; exact hpos) (by decide),hlow,if_pos (by decide),
    Nat.sub_zero,hbs] at hm
  -- all that is asked for is in the block
  obtain rfl := hm.eq_of_mapped (by
    intro x _ hx
    rw [Nat.div_eq_of_lt (by omega)]
    decide)
  rw [hbs,hsame.device,load_firstBlock (by omega) hblock] at hdeliver
  ext data
  constructor
  · rintro ⟨hs,heap,hhs,rfl⟩
    exact hdeliver hs heap hhs
  · rintro rfl
    exact ⟨gs,fun _ => 0,.refl,hdeliver gs _ .refl⟩

end

/-- For all volumes, directories and indices, a call of `__ext2_readdir` ends, whatever is in its
buffers, if it meets no record that is not in use and has length 0 or leads past the last offset. In
a directory that is not near the end of all offsets, and whose reads deliver the same at all times,
this is the only case in which it ends. -/
theorem readdir_ends (fs : Ext2Fs) (dir index now : ℕ) (dirent opened : Mem)
    (hindex : index < W32) :
    ((∀ ino gs, fs.readInode opened dir now = (some ino,gs) → Inode.isDir ino = true →
        ¬ Stuck (Delivered ino gs) (Inode.sizeLow ino) index 0 dirent) →
      ∀ entry buffers, ∃ turns,
      (fs.readdir turns ⟨now,dirent,opened,buffers,entry⟩ dir index).isSome) ∧
    ∀ ino gs, fs.readInode opened dir now = (some ino,gs) → Inode.isDir ino = true → Steady ino gs →
      Inode.sizeLow ino+0x10000 ≤ W32 →
      Stuck (Delivered ino gs) (Inode.sizeLow ino) index 0 dirent →
      ∀ entry, ∃ buffers, ∀ turns,
      fs.readdir turns ⟨now,dirent,opened,buffers,entry⟩ dir index = none := by
  have hcall : ∀ ino gs, fs.readInode opened dir now = (some ino,gs) → Inode.isDir ino = true →
    ∀ turns entry buffers, fs.readdir turns ⟨now,dirent,opened,buffers,entry⟩ dir index =
        Scans.nth (ReaddirPlace.look ino) turns buffers index ⟨0,dirent,gs⟩ := by
    intro ino gs hread hdir turns entry buffers
    rw [readdir,hread]
    dsimp only
    rw [if_pos hdir,readdirLoop_eq hindex turns buffers 0 0 dirent gs (Nat.zero_le _),Nat.sub_zero]
  constructor
  · intro hfree entry buffers
    rcases hread : fs.readInode opened dir now with ⟨_ | ino,gs⟩
    · exact ⟨0,by rw [readdir,hread]; rfl⟩
    by_cases hdir : Inode.isDir ino = true
    · obtain ⟨turns,hsome⟩ :=
        ReaddirPlace.ends_of_not_stuck (a:=⟨0,dirent,gs⟩) .refl (hfree ino gs hread hdir) buffers
      exact ⟨turns,by rwa [hcall ino gs hread hdir]⟩
    · refine ⟨0,?_⟩
      rw [readdir,hread]
      dsimp only
      rw [if_neg hdir]
      rfl
  · intro ino gs hread hdir hsteady hsize hstuck entry
    obtain ⟨buffers,hnot⟩ := ReaddirPlace.exists_fresh_of_stuck hsteady hsize hstuck
    refine ⟨buffers,fun turns => ?_⟩
    rw [hcall ino gs hread hdir,← Option.not_isSome_iff_eq_none]
    exact fun hsome => hnot ⟨turns,hsome⟩

def oneFree : List (BitVec 8) := [0,0,0,0,12,0,1,1,98,0,0,0]++List.replicate 1012 0

/-- The scan passes a record that is not in use and ends, and it does not get away from one without
a length. -/
theorem readdir_ends_free :
    (∀ entry buffers, ∃ turns, ((directoryVolume 12 oneFree).readdir turns
      ⟨0,fun _ => 0,fun _ => 0,buffers,entry⟩ 2 5).isSome) ∧
    ∀ entry, ∃ buffers, ∀ turns, (directoryVolume 1024 (List.replicate 1024 0)).readdir turns
      ⟨0,fun _ => 0,fun _ => 0,buffers,entry⟩ 2 0 = none := by
  constructor
  · apply (readdir_ends (directoryVolume 12 oneFree) 2 5 0 (fun _ => 0) (fun _ => 0) (by decide)).1
    intro ino gs hread _ hstuck
    obtain ⟨ino',gs',hread',-,hlow,-,hdeliver⟩ :=
      @directoryVolume_read 12 oneFree (by decide) (by decide) (by decide) (by decide +kernel)
    obtain ⟨hino,rfl⟩ := Prod.mk.inj (hread.symm.trans hread')
    obtain rfl := Option.some.inj hino
    have hsize : Inode.sizeLow ino = 12 := hlow.trans (by decide)
    have hdata : ∀ data ∈ Delivered ino gs 0, data = [0,0,0,0,12,0,1,1,98,0,0,0] := by
      intro data hmem
      rw [hdeliver] at hmem
      exact hmem.trans (by decide +kernel)
    rw [hsize] at hstuck
    cases hstuck with
    | here _ hmem _ hlength =>
      obtain rfl := hdata _ hmem
      revert hlength
      decide
    | free _ hmem _ hrest =>
      obtain rfl := hdata _ hmem
      exact absurd hrest.lt (by decide)
    | used _ hmem hused _ =>
      obtain rfl := hdata _ hmem
      exact hused (by decide)
  · obtain ⟨ino,gs,hread,hdir,hlow,hsteady,hdeliver⟩ :=
      @directoryVolume_read 1024 (List.replicate 1024 0) (by decide) (by decide) (by
        decide) List.length_replicate
    have hsize : Inode.sizeLow ino = 1024 := hlow.trans (by decide)
    refine (readdir_ends (directoryVolume 1024 (List.replicate 1024 0)) 2 0 0 (fun _ =>
      0) (fun _ => 0) (by decide)).2
      ino gs hread hdir hsteady (by rw [hsize]; decide) ?_
    rw [hsize]
    have hmem :
        (List.replicate 1024 0).take (min DIRENT_SIZE (Inode.sizeLow (directoryInode 1024))) ∈
        Delivered ino gs 0 := by
      rw [hdeliver]
      exact Set.mem_singleton _
    exact .here (by decide) hmem (by decide +kernel) (.inl (by decide +kernel))

/-- A block that is first in the cache is read from there, and nothing changes. -/
theorem readBlock_first (bl : List (BitVec 8)) (rest : List CachedBlock)
    (hcache : fs.block_cache = ⟨block,bl⟩::rest)
    (hblock : block ≤ fs.superblock.total_blocks) (readahead : ℕ) :
    fs.readBlock block readahead = ((fs.blockSize,bl),fs) := by
  have hlookup :
    MoveToFront.lookup (fun c_bl : CachedBlock =>
      decide (c_bl.block_number = block)) fs.block_cache =
      some (⟨block,bl⟩,fs.block_cache) := by
    rw [hcache,MoveToFront.lookup,List.find?_cons_of_pos (by simp),
      List.eraseP_cons_of_pos (by simp)]
    rfl
  rw [readBlock,if_neg (by omega),tryGetCachedBlock,hlookup]

theorem load_zeros (m : Mem) {n k : ℕ} (h : n ≤ k) :
    load (store m 0 (List.replicate k 0)) 0 n = List.replicate n 0 := by
  apply List.ext_getElem?
  intro i
  by_cases hi : i < n
  · have hin : i < k := by omega
    rw [getElem?_load _ _ hi,store_inside _ _ (by simpa using hin),List.getD_eq_getElem?_getD]
    simp [hi,hin]
  · rw [List.getElem?_eq_none (by simpa using hi),List.getElem?_eq_none (by simpa using hi)]

/-- A directory with a block full of zeros: its first record is not in use and has length 0, and the
scan does not get away from it. -/
theorem zeroDirectory_loops (index : ℕ) (buffers : ℕ → Mem) (turns : ℕ) :
    (directoryVolume 1024 (List.replicate 1024 0)).readdir turns ⟨0,fun _ => 0,fun _ => 0,buffers,
      fun _ => 0⟩ 2 index = none := by
  have hfirst : ((directoryVolume 1024 (List.replicate 1024 0)).readInode (fun _ => 0) 2 0) =
      (some (Inode.setAccessTime (directoryInode 1024) 0),
        {directoryVolume 1024 (List.replicate 1024 0) with
          inode_cache := [⟨2,Inode.setAccessTime (directoryInode 1024) 0⟩]}) := rfl
  rw [readdir,hfirst]
  dsimp only
  rw [if_pos (by decide)]
  generalize hgs : {directoryVolume 1024 (List.replicate 1024 0) with
    inode_cache := [⟨2,Inode.setAccessTime (directoryInode 1024) 0⟩]} = gs
  have hbuffer :
      ∀ heap readahead, gs.readBuffer heap 3 readahead =
          (store heap 0 (List.replicate 1024 0),gs) := by
    intro heap readahead
    rw [readBuffer,readBlock_first (List.replicate 1024 0) [] (by rw [← hgs]; rfl) (by
      rw [← hgs]; decide)]
  have hsize : gs.blockSize = 1024 := by
    rw [← hgs]
    rfl
  have hread :
    ∀ heap, gs.readInodeContents heap (Inode.setAccessTime (directoryInode 1024) 0) 0 DIRENT_SIZE =
      (List.replicate DIRENT_SIZE 0,gs) := by
    intro heap
    have hlow : Inode.sizeLow (Inode.setAccessTime (directoryInode 1024) 0) = 1024 := by decide
    have hpointer : Inode.blockPointer (Inode.setAccessTime (directoryInode 1024) 0) 0 = 3 := by
      decide
    rw [readInodeContents,hlow,if_neg (by decide),hsize]
    dsimp only
    rw [if_neg (by decide),show DIRENT_SIZE = 262+1 from rfl,contentsLoop,if_neg (by decide),hsize]
    have htarget :
        gs.blockFromOffset heap (Inode.setAccessTime (directoryInode 1024) 0) (0/1024) =
            (3,gs) := by
      rw [blockFromOffset,if_pos (by decide),Nat.zero_div,hpointer]
    rw [htarget]
    dsimp only
    rw [if_neg (by decide),if_pos (by decide),hbuffer,Nat.zero_mod,List.nil_append,
      load_zeros _ (by decide)]
  have hdirent : store (fun _ => 0) 0 (List.replicate DIRENT_SIZE (0 : BitVec 8)) = fun _ => 0 := by
    funext x
    rw [store]
    split
    · rw [List.getD_eq_getElem?_getD,List.getElem?_replicate]
      split <;> rfl
    · rfl
  induction turns generalizing buffers with
  | zero => rfl
  | succ turns ih =>
    rw [readdirLoop,if_neg (by decide)]
    dsimp only
    rw [hread,hdirent]
    exact ih _

/-- The loop of `__ext2_readdir` does not end in a directory with a block full of zeros. -/
theorem zeroDirectory_not_ended : Inode.isDir (directoryInode 1024) = true ∧
    ¬ ∃ turns, ((directoryVolume 1024 (List.replicate 1024 0)).readdir turns
      ⟨0,fun _ => 0,fun _ => 0,fun _ _ => 0,fun _ => 0⟩ 2 0).isSome := by
  refine ⟨by decide,?_⟩
  rintro ⟨turns,hsome⟩
  rw [zeroDirectory_loops] at hsome
  cases hsome

end Ext2Fs
end ScalesOS
