import ScalesOS.FileReads
import ScalesOS.FileWrites

/-! The blocks of a file as the pointers on the device give them. What `__ext2_read` returns
is the contents of these blocks, and `__ext2_write` is right where the blocks it writes to
are these blocks. -/
namespace ScalesOS
open ByteMemory Storage SparseFile

namespace Ext2Fs
variable (fs : Ext2Fs)

/-- Word `i` of a block on the device. -/
def deviceWord (block i : ℕ) : ℕ := read32 fs.device.byte (block*fs.blockSize+4*i)

/-- A lookup through word `i` of an indirect block, and the indirect blocks that it and the
lookup after it go through. There is none outside the volume or the block. -/
def mapThrough (pointer i : ℕ) (next : ℕ → Option (ℕ × List ℕ)) : Option (ℕ × List ℕ) :=
  if pointer = 0 then some (0,[])
  else if pointer < fs.superblock.total_blocks ∧ 4*i+4 ≤ fs.blockSize then
    (next (fs.deviceWord pointer i)).map fun r => (r.1,pointer::r.2)
  else none

def mapSingle (pointer block_offset : ℕ) : Option (ℕ × List ℕ) :=
  fs.mapThrough pointer (sub32 block_offset DIRECT_BLOCK_CAPACITY) fun target => some (target,[])

def mapDouble (pointer block_offset : ℕ) : Option (ℕ × List ℕ) :=
  let extra_offset := sub32 block_offset fs.singleCapacity
  fs.mapThrough pointer (extra_offset/fs.singleCapacity) fun target =>
    fs.mapSingle target (extra_offset%fs.singleCapacity)

def mapTriple (pointer block_offset : ℕ) : Option (ℕ × List ℕ) :=
  let extra_offset := sub32 block_offset fs.doubleCapacity
  fs.mapThrough pointer (extra_offset/fs.singleCapacity*fs.singleCapacity) fun target =>
    fs.mapDouble target (extra_offset%fs.singleCapacity*fs.singleCapacity%W32)

/-- The block with this number in a file, zero if there is none, and the indirect blocks on
the way to it. -/
def mapBlock (ino : Mem) (block_offset : ℕ) : Option (ℕ × List ℕ) :=
  if block_offset < DIRECT_BLOCK_CAPACITY then some (Inode.blockPointer ino block_offset,[])
  else if block_offset < fs.singleCapacity ∧ Inode.singlePointer ino ≠ 0 then
    fs.mapSingle (Inode.singlePointer ino) block_offset
  else if block_offset < fs.doubleCapacity ∧ Inode.doublePointer ino ≠ 0 then
    fs.mapDouble (Inode.doublePointer ino) block_offset
  else if block_offset < fs.tripleCapacity ∧ Inode.triplePointer ino ≠ 0 then
    fs.mapTriple (Inode.triplePointer ino) block_offset
  else some (0,[])

/-- A file whose block `k` is the block `target k`. -/
def fileMem (target : ℕ → ℕ) : Mem := fun x =>
    fs.device.byte (target (x/fs.blockSize)*fs.blockSize+x%fs.blockSize)

/-- What the device holds of an inode. -/
def inodeMem (inode : ℕ) : Mem := fun x => fs.device.byte (fs.inodeAddress inode+x)

end Ext2Fs

theorem read32_eq {m m' : Mem} {a b : ℕ} (h : ∀ j < 4, m (a+j) = m' (b+j)) :
    read32 m a = read32 m' b := by
  have h0 := h 0 (by decide)
  simp only [Nat.add_zero] at h0
  rw [read32,read32,h0,h 1 (by decide),h 2 (by decide),h 3 (by decide)]

def SamePointers (ino ino' : Mem) : Prop := ∀ x, 40 ≤ x → x < 100 → ino' x = ino x

namespace SamePointers
variable {ino ino' : Mem} (h : SamePointers ino ino')
include h

theorem blockPointer {i : ℕ} (hi : i < DIRECT_BLOCK_CAPACITY) :
    Inode.blockPointer ino' i = Inode.blockPointer ino i := by
  rw [DIRECT_BLOCK_CAPACITY] at hi
  exact read32_congr fun x hlow hhigh => h x (by omega) (by omega)

theorem singlePointer : Inode.singlePointer ino' = Inode.singlePointer ino :=
  read32_congr fun x hlow hhigh => h x (by omega) (by omega)

theorem doublePointer : Inode.doublePointer ino' = Inode.doublePointer ino :=
  read32_congr fun x hlow hhigh => h x (by omega) (by omega)

theorem triplePointer : Inode.triplePointer ino' = Inode.triplePointer ino :=
  read32_congr fun x hlow hhigh => h x (by omega) (by omega)

end SamePointers

namespace Ext2Fs
variable {fs gs : Ext2Fs} {heap ino ino' : Mem} {pointer block_offset i p : ℕ} {blocks : List ℕ}

/-- `gs` has the same bytes as `fs` in these blocks. -/
structure SameIn (blocks : List ℕ) (fs gs : Ext2Fs) : Prop where
  superblock : gs.superblock = fs.superblock
  bytes : ∀ b ∈ blocks, ∀ x < fs.blockSize,
    gs.device.byte (b*fs.blockSize+x) = fs.device.byte (b*fs.blockSize+x)

theorem SameVolume.sameIn (h : SameVolume fs gs) (blocks : List ℕ) : SameIn blocks fs gs :=
  ⟨h.superblock,fun _ _ _ _ => by rw [h.device]⟩

section
variable (h : SameIn blocks fs gs)
include h

theorem SameIn.blockSize : gs.blockSize = fs.blockSize := by
  rw [Ext2Fs.blockSize,h.superblock,Ext2Fs.blockSize]

theorem SameIn.deviceWord (hb : pointer ∈ blocks) (hi : 4*i+4 ≤ fs.blockSize) :
    gs.deviceWord pointer i = fs.deviceWord pointer i := by
  rw [Ext2Fs.deviceWord,Ext2Fs.deviceWord,h.blockSize]
  apply read32_eq
  intro j hj
  rw [Nat.add_assoc]
  exact h.bytes pointer hb (4*i+j) (by omega)

theorem SameIn.tail {b : ℕ} {rest : List ℕ} (hblocks : blocks = b::rest) : SameIn rest fs gs :=
  ⟨h.superblock,fun c hc => h.bytes c (by rw [hblocks]; exact List.mem_cons_of_mem _ hc)⟩

theorem SameIn.mapThrough {next next' : ℕ → Option (ℕ × List ℕ)}
    (hmap : fs.mapThrough pointer i next = some (p,blocks))
    (hnext : ∀ target rest, SameIn rest fs gs → next target = some (p,rest) →
      next' target = some (p,rest)) :
    gs.mapThrough pointer i next' = some (p,blocks) := by
  rw [Ext2Fs.mapThrough] at hmap ⊢
  rw [h.superblock,h.blockSize]
  split at hmap
  · rename_i hzero
    rw [if_pos hzero]
    exact hmap
  · rename_i hpos
    rw [if_neg hpos]
    split at hmap
    · rename_i hin
      obtain ⟨⟨q,rest⟩,hq,heq⟩ := Option.map_eq_some_iff.mp hmap
      obtain ⟨rfl,rfl⟩ := Prod.mk.inj heq
      rw [if_pos hin,h.deviceWord List.mem_cons_self hin.2,hnext _ rest (h.tail rfl) hq]
      rfl
    · cases hmap

theorem SameIn.singleCapacity : gs.singleCapacity = fs.singleCapacity := by
  rw [Ext2Fs.singleCapacity,h.blockSize,Ext2Fs.singleCapacity]

theorem SameIn.doubleCapacity : gs.doubleCapacity = fs.doubleCapacity := by
  rw [Ext2Fs.doubleCapacity,h.blockSize,h.singleCapacity,Ext2Fs.doubleCapacity]

theorem SameIn.tripleCapacity : gs.tripleCapacity = fs.tripleCapacity := by
  rw [Ext2Fs.tripleCapacity,h.blockSize,h.doubleCapacity,Ext2Fs.tripleCapacity]

theorem SameIn.mapSingle (hmap : fs.mapSingle pointer block_offset = some (p,blocks)) :
    gs.mapSingle pointer block_offset = some (p,blocks) :=
  h.mapThrough hmap fun _ _ _ hq => hq

theorem SameIn.mapDouble (hmap : fs.mapDouble pointer block_offset = some (p,blocks)) :
    gs.mapDouble pointer block_offset = some (p,blocks) := by
  simp only [Ext2Fs.mapDouble] at hmap ⊢
  rw [h.singleCapacity]
  exact h.mapThrough hmap fun _ _ hrest hq => hrest.mapSingle hq

theorem SameIn.mapTriple (hmap : fs.mapTriple pointer block_offset = some (p,blocks)) :
    gs.mapTriple pointer block_offset = some (p,blocks) := by
  simp only [Ext2Fs.mapTriple] at hmap ⊢
  rw [h.singleCapacity,h.doubleCapacity]
  exact h.mapThrough hmap fun _ _ hrest hq => hrest.mapDouble hq

/-- A file keeps its blocks if its pointers and its indirect blocks stay. -/
theorem SameIn.mapBlock (hino : SamePointers ino ino')
    (hmap : fs.mapBlock ino block_offset = some (p,blocks)) :
    gs.mapBlock ino' block_offset = some (p,blocks) := by
  rw [Ext2Fs.mapBlock] at hmap ⊢
  rw [hino.singlePointer,hino.doublePointer,hino.triplePointer,h.singleCapacity,h.doubleCapacity,
    h.tripleCapacity]
  split_ifs at hmap ⊢ with hdirect hsingle hdouble htriple
  · rw [hino.blockPointer hdirect]
    exact hmap
  · exact h.mapSingle hmap
  · exact h.mapDouble hmap
  · exact h.mapTriple hmap
  · exact hmap

end

theorem bufferWord_eq (hv : fs.Volume) (hok : fs.BlocksOk) (heap : Mem)
    (hpointer : pointer < fs.superblock.total_blocks) (hi : 4*i+4 ≤ fs.blockSize) :
    bufferWord (fs.readBuffer heap pointer 0).1 i = fs.deviceWord pointer i := by
  have hsmall := hv.small
  have hmax : MAX_READAHEAD < W32 := by decide
  rw [bufferWord,Nat.mod_eq_of_lt (by omega),deviceWord]
  apply read32_eq
  intro j hj
  rw [readBuffer_apply hv hok heap hpointer (dvd_zero _) _ (by omega),Nat.add_assoc]

theorem mapThrough_cases {next : ℕ → Option (ℕ × List ℕ)}
    (h : fs.mapThrough pointer i next = some (p,blocks)) :
    pointer = 0 ∧ p = 0 ∨ pointer ≠ 0 ∧ pointer < fs.superblock.total_blocks ∧
      4*i+4 ≤ fs.blockSize ∧
      ∃ rest, next (fs.deviceWord pointer i) = some (p,rest) ∧ blocks = pointer::rest := by
  rw [mapThrough] at h
  split at h
  · rename_i hzero
    obtain ⟨rfl,-⟩ := Prod.mk.inj (Option.some.inj h)
    exact Or.inl ⟨hzero,rfl⟩
  · rename_i hpos
    split at h
    · rename_i hin
      obtain ⟨⟨q,rest⟩,hq,heq⟩ := Option.map_eq_some_iff.mp h
      obtain ⟨rfl,hblocks⟩ := Prod.mk.inj heq
      exact Or.inr ⟨hpos,hin.1,hin.2,rest,hq,hblocks.symm⟩
    · cases h

section
variable (hv : fs.Volume) (hok : fs.BlocksOk) (heap : Mem)
include hv hok

theorem resolveSingle_eq (h : fs.mapSingle pointer block_offset = some (p,blocks)) :
    (fs.resolveSingle heap pointer block_offset).1 = p := by
  rw [resolveSingle]
  rcases mapThrough_cases h with ⟨hzero,hp⟩ | ⟨hpos,hblock,hin,rest,hrest,-⟩
  · rw [if_pos hzero,hp]
  · rw [if_neg hpos]
    dsimp only
    rw [bufferWord_eq hv hok heap hblock hin]
    exact (Prod.mk.inj (Option.some.inj hrest)).1

end

/-- The volume after a buffer has been filled looks blocks up in the same way. -/
theorem readBuffer_after (hv : fs.Volume) (hok : fs.BlocksOk) (heap : Mem) (block : ℕ) :
    (fs.readBuffer heap block 0).2.Volume ∧ (fs.readBuffer heap block 0).2.BlocksOk ∧
      ∀ blocks, SameIn blocks fs (fs.readBuffer heap block 0).2 := by
  have hreads := readBuffer_reads fs heap block fun _ => dvd_zero fs.blockSize
  exact ⟨hreads.same.layout.isVolume hv,hreads.blocksOk hv hok,hreads.same.sameIn⟩

theorem resolveDouble_eq (hv : fs.Volume) (hok : fs.BlocksOk) (heap : Mem)
    (h : fs.mapDouble pointer block_offset = some (p,blocks)) :
    (fs.resolveDouble heap pointer block_offset).1 = p := by
  simp only [mapDouble] at h
  rw [resolveDouble]
  rcases mapThrough_cases h with ⟨hzero,hp⟩ | ⟨hpos,hblock,hin,rest,hrest,-⟩
  · rw [if_pos hzero,hp]
  · obtain ⟨hv',hok',hsame⟩ := readBuffer_after hv hok heap pointer
    rw [if_neg hpos]
    dsimp only
    rw [bufferWord_eq hv hok heap hblock hin]
    exact resolveSingle_eq hv' hok' heap ((hsame rest).mapSingle hrest)

theorem resolveTriple_eq (hv : fs.Volume) (hok : fs.BlocksOk) (heap : Mem)
    (h : fs.mapTriple pointer block_offset = some (p,blocks)) :
    (fs.resolveTriple heap pointer block_offset).1 = p := by
  simp only [mapTriple] at h
  rw [resolveTriple]
  rcases mapThrough_cases h with ⟨hzero,hp⟩ | ⟨hpos,hblock,hin,rest,hrest,-⟩
  · rw [if_pos hzero,hp]
  · obtain ⟨hv',hok',hsame⟩ := readBuffer_after hv hok heap pointer
    rw [if_neg hpos]
    dsimp only
    rw [bufferWord_eq hv hok heap hblock hin]
    exact resolveDouble_eq hv' hok' heap ((hsame rest).mapDouble hrest)

/-- With a right cache the driver finds the block that the pointers on the device lead to. -/
theorem blockFromOffset_eq (hv : fs.Volume) (hok : fs.BlocksOk) (heap : Mem)
    (h : fs.mapBlock ino block_offset = some (p,blocks)) :
    (fs.blockFromOffset heap ino block_offset).1 = p := by
  rw [mapBlock] at h
  rw [blockFromOffset]
  split_ifs at h ⊢ with hdirect hsingle hdouble htriple
  · exact (Prod.mk.inj (Option.some.inj h)).1
  · exact resolveSingle_eq hv hok heap h
  · exact resolveDouble_eq hv hok heap h
  · exact resolveTriple_eq hv hok heap h
  · exact (Prod.mk.inj (Option.some.inj h)).1

/-- The blocks of a file that hold the bytes from `pos` on are where `target` says. -/
def Maps (fs : Ext2Fs) (ino : Mem) (target : ℕ → ℕ) (pos size : ℕ) : Prop :=
  ∀ k, pos/fs.blockSize ≤ k → k*fs.blockSize < pos+size →
    ∃ blocks, fs.mapBlock ino k = some (target k,blocks) ∧ target k ≠ 0 ∧
    target k < fs.superblock.total_blocks

section
variable {asked : ℕ → Prop} {target : ℕ → ℕ} {pos size : ℕ}

/-- In a volume with a right cache the blocks are where the pointers on the device lead to, and have
the device's bytes in them. -/
theorem given_of_volume (hv : fs.Volume) (hok : fs.BlocksOk) (heap : Mem)
    (hmap : ∀ k, asked k → ∃ blocks, fs.mapBlock ino k = some (target k,blocks))
    (hin : ∀ k, asked k → target k < fs.superblock.total_blocks) :
    Given heap ino fs.blockSize asked target (fun block x =>
        fs.device.byte (block*fs.blockSize+x)) (ReadsOnly fs) := by
  refine ⟨fun gs h => h.same.layout.blockSize,?_,?_⟩
  · intro gs h k hk
    obtain ⟨blocks,hblock⟩ := hmap k hk
    have hsame := (h.same.sameIn blocks).mapBlock (fun _ _ _ => rfl) hblock
    exact ⟨blockFromOffset_eq (h.same.layout.isVolume hv) (h.blocksOk hv hok) heap hsame,
      h.trans (blockFromOffset_reads gs heap ino k)⟩
  · intro gs h k hk _ block_buffer n
    have hv' := h.same.layout.isVolume hv
    have hdvd : gs.blockSize ∣ n*fs.blockSize%W32 := by
      rw [← h.same.layout.blockSize]
      exact hv'.dvd_ahead n
    have hbuffer :=
      readBuffer_apply hv' (h.blocksOk hv hok) block_buffer (by
        rw [h.same.superblock]; exact hin k hk) hdvd
    rw [h.same.layout.blockSize,h.same.device] at hbuffer
    exact ⟨hbuffer,h.trans (readBuffer_reads gs block_buffer (target k) fun _ => hdvd)⟩

/-- Reading returns the part of the file that is asked for, up to its size. -/
theorem readInodeContents_eq (hv : fs.Volume) (hok : fs.BlocksOk) (heap : Mem)
    (hoffset : pos < Inode.sizeLow ino)
    (hsize : pos+size < W32) (hmaps : fs.Maps ino target pos (min size (Inode.sizeLow ino-pos))) :
    (fs.readInodeContents heap ino pos size).1 =
    load (fs.fileMem target) pos (min size (Inode.sizeLow ino-pos)) := by
  have hclip : (if Inode.sizeLow ino ≤ pos+size then Inode.sizeLow ino-pos else size) =
      min size (Inode.sizeLow ino-pos) := by
    split <;> omega
  rw [readInodeContents,if_neg (by omega)]
  dsimp only
  rw [Nat.mod_eq_of_lt hsize,hclip]
  generalize min size (Inode.sizeLow ino-pos) = size at hmaps ⊢
  have hgiven :
    Given heap ino fs.blockSize (fun k => pos/fs.blockSize ≤ k ∧ k*fs.blockSize < pos+size) target
      (fun block x => fs.device.byte (block*fs.blockSize+x)) (ReadsOnly fs) := by
    apply given_of_volume hv hok heap
    · rintro k ⟨hlow,hhigh⟩
      obtain ⟨blocks,hblock,-,-⟩ := hmaps k hlow hhigh
      exact ⟨blocks,hblock⟩
    · rintro k ⟨hlow,hhigh⟩
      obtain ⟨-,-,-,hlt⟩ := hmaps k hlow hhigh
      exact hlt
  have hmapped : Mapped fs.blockSize target pos size := by
    intro x hlow hhigh
    obtain ⟨-,-,hne,-⟩ := hmaps (x/fs.blockSize) (Nat.div_le_div_right hlow)
      ((Nat.div_mul_le_self x fs.blockSize).trans_lt hhigh)
    exact hne
  obtain ⟨n,hn,hread⟩ :=
    contentsLoop_spec hgiven size size pos heap fs [] le_rfl .refl fun k hlow hhigh => ⟨hlow,hhigh⟩
  rw [hread,hn.eq_of_mapped hmapped,List.nil_append]
  apply load_congr
  intro x hlow hhigh
  rw [fileByte,if_neg (hmapped x hlow hhigh),fileMem]

end

theorem DeviceInode.samePointers {inode : ℕ} (hv : fs.Volume) (h : fs.DeviceInode inode ino) :
    SamePointers (fs.inodeMem inode) ino := by
  intro x hlow hhigh
  have hsize := hv.inode_size
  exact h x (by omega) (Or.inr (by omega))

theorem DeviceInode.sizeLow {inode : ℕ} (hv : fs.Volume) (h : fs.DeviceInode inode ino) :
    Inode.sizeLow ino = Inode.sizeLow (fs.inodeMem inode) := by
  apply read32_congr
  intro x hlow hhigh
  have hsize := hv.inode_size
  exact h x (by omega) (Or.inl (by omega))

theorem read_eq {target : ℕ → ℕ} {inode offset size : ℕ} (hv : fs.Volume) (hc : fs.Coherent)
    (hi : fs.HasInode inode)
    (heap : Mem) (now : ℕ) (hpos : size ≠ 0) (hoffset : offset < Inode.sizeLow (fs.inodeMem inode))
    (hsize : offset+size < W32) (hmaps : fs.Maps (fs.inodeMem inode) target offset
      (min size (Inode.sizeLow (fs.inodeMem inode)-offset))) :
    (fs.read heap inode offset size now).1 =
      some (load (fs.fileMem target) offset
          (min size (Inode.sizeLow (fs.inodeMem inode)-offset))) := by
  obtain ⟨hsame,hc',ino,hread,hdevice⟩ := readInode_ok hv hc hi heap now
  have hlow := hdevice.sizeLow hv
  rw [read,if_neg hpos]
  split
  · rename_i hget
    rw [hget] at hread
    cases hread
  · rename_i ino' gs hget
    rw [hget] at hread hsame hc'
    obtain rfl := Option.some.inj hread
    dsimp only at hsame hc' ⊢
    have hmaps' : gs.Maps ino' target offset (min size (Inode.sizeLow ino'-offset)) := by
      rw [hlow,Maps,hsame.layout.blockSize,hsame.superblock]
      intro k hk hend
      obtain ⟨blocks,hmap,hne,hlt⟩ := hmaps k hk hend
      exact ⟨blocks,(hsame.sameIn blocks).mapBlock (hdevice.samePointers hv) hmap,hne,hlt⟩
    have hcontents :=
      readInodeContents_eq (hsame.layout.isVolume hv) hc'.blocks heap (by rwa [hlow]) hsize hmaps'
    have hmem : gs.fileMem target = fs.fileMem target := by
      funext x
      rw [fileMem,hsame.layout.blockSize,hsame.device,fileMem]
    rw [hcontents,hlow,hmem]

end Ext2Fs
end ScalesOS
