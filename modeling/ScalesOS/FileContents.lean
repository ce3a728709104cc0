import ScalesOS.BlockMap

/-!
# What a read of a file delivers

`__ext2_read_inode_contents` for all offsets and sizes. It ends at the first block that is missing,
and when the end of the request has no 32-bit place it does not see the end of the file.
-/

namespace ScalesOS
open ByteMemory Storage SparseFile

namespace Ext2Fs
variable {fs : Ext2Fs} {heap ino : Mem} {bs offset size : ℕ} {target : ℕ → ℕ} {content : ℕ → Mem}
    {P : Ext2Fs → Prop}

/-- The numbers of the blocks that a request reaches. -/
def Requested (bs offset size k : ℕ) : Prop := offset/bs ≤ k ∧ k*bs < offset+size

def clampedSize (ino : Mem) (offset size : ℕ) : ℕ :=
  if Inode.sizeLow ino ≤ (offset+size)%W32 then Inode.sizeLow ino-offset else size

/-- The sum of offset and size is cut to 32 bits, and then the end of the file is overlooked. -/
theorem clampedSize_eq (hoffset : offset < Inode.sizeLow ino) (hsize : size < W32) :
    clampedSize ino offset size = if offset+size < W32 then
    min size (Inode.sizeLow ino-offset) else size := by
  have hlow : Inode.sizeLow ino < W32 := read32_lt ino 4
  rw [clampedSize]
  by_cases hsum : offset+size < W32
  · rw [if_pos hsum,Nat.mod_eq_of_lt hsum]
    split <;> omega
  · have hmod : (offset+size)%W32 = offset+size-W32 := by
      rw [Nat.mod_eq_sub_mod (by omega),Nat.mod_eq_of_lt (by omega)]
    rw [if_neg hsum,if_neg (by omega)]

/-- A read stores the bytes of the file up to the first block that is missing. -/
theorem readInodeContents_upToHole
    (hgiven : Given heap ino bs (Requested bs offset size) target content P) (hP : P fs)
    (hoffset : offset < Inode.sizeLow ino) (hsize : size < W32) :
    ∃ n, UpToHole bs target offset (clampedSize ino offset size) n ∧
      (fs.readInodeContents heap ino offset size).1 =
      load (fileByte bs target content) offset n := by
  have hclamped := clampedSize_eq hoffset hsize
  have hle : clampedSize ino offset size ≤ size := by
    rw [hclamped]
    split <;> omega
  obtain ⟨n,hn,hread⟩ :=
    contentsLoop_spec hgiven (clampedSize ino offset size) (clampedSize ino offset size)
      offset heap fs []
    le_rfl hP fun k hlow hhigh => ⟨hlow,by omega⟩
  refine ⟨n,hn,?_⟩
  rw [readInodeContents,if_neg (Nat.not_le.mpr hoffset)]
  dsimp only
  rw [← hgiven.blockSize fs hP] at hread ⊢
  exact hread

theorem load_inj_length {m : Mem} {a n n' : ℕ} (h : load m a n = load m a n') : n = n' := by
  have hlength := congrArg List.length h
  rwa [length_load,length_load] at hlength

/-- For all inodes, offsets and sizes, with the places of the blocks and what is in them given, a
read stores exactly the bytes of the file that it was asked for in these cases. -/
theorem readInodeContents_right (heap ino : Mem) (bs offset size : ℕ) (target : ℕ → ℕ)
    (content : ℕ → Mem) (P : Ext2Fs → Prop)
    (hgiven : Given heap ino bs (Requested bs offset size) target content P)
    (fs : Ext2Fs) (hP : P fs) (hsize : size < W32) :
    (fs.readInodeContents heap ino offset size).1 =
        load (fileByte bs target content) offset (min size (Inode.sizeLow ino-offset)) ↔
      Inode.sizeLow ino ≤ offset ∨ Mapped bs target offset (min size (Inode.sizeLow ino-offset)) ∧
        (offset+size < W32 ∨ target (Inode.sizeLow ino/bs) = 0) := by
  rcases Nat.lt_or_ge offset (Inode.sizeLow ino) with hin | hbehind
  swap
  · have hnone : min size (Inode.sizeLow ino-offset) = 0 := by omega
    rw [readInodeContents,if_pos hbehind,hnone]
    exact iff_of_true rfl (.inl hbehind)
  rw [or_iff_right (Nat.not_le.mpr hin)]
  have hlow : Inode.sizeLow ino < W32 := read32_lt ino 4
  obtain ⟨n,hn,hread⟩ := readInodeContents_upToHole hgiven hP hin hsize
  rw [clampedSize_eq hin hsize] at hn
  have hcount : (fs.readInodeContents heap ino offset size).1 =
      load (fileByte bs target content) offset (min size (Inode.sizeLow ino-offset)) ↔
        n = min size (Inode.sizeLow ino-offset) := by
    rw [hread]
    exact ⟨load_inj_length,fun h => h ▸ rfl⟩
  rw [hcount]
  by_cases hsum : offset+size < W32
  · rw [if_pos hsum] at hn
    constructor
    · intro heq
      exact ⟨heq ▸ hn.mapped,.inl hsum⟩
    · rintro ⟨hmapped,-⟩
      exact hn.eq_of_mapped hmapped
  · -- the loop goes on behind the end of the file, unless a block is missing right there
    rw [if_neg hsum] at hn
    have hrest : min size (Inode.sizeLow ino-offset) = Inode.sizeLow ino-offset := by omega
    have hend : offset+(Inode.sizeLow ino-offset) = Inode.sizeLow ino := by omega
    rw [hrest,or_iff_right hsum]
    constructor
    · rintro rfl
      have hhole := hn.stop.resolve_left (by omega)
      rw [hend] at hhole
      exact ⟨hn.mapped,hhole⟩
    · rintro ⟨hmapped,hhole⟩
      exact hn.eq_of_hole hmapped (by omega) (hend.symm ▸ hhole)

/-- A file of this size. Its first block has this place, and its second block is block 1. -/
def fileWith (size first : ℕ) : Mem := write32 (write32 (write32 (fun _ => 0) 4 size) 40 first) 44 1

def directTarget (ino : Mem) (k : ℕ) : ℕ :=
  if k < DIRECT_BLOCK_CAPACITY then Inode.blockPointer ino k else 0

theorem smallBlocks_given (hpointers : ∀ k < DIRECT_BLOCK_CAPACITY, Inode.blockPointer ino k < 2)
    (hindirect : Inode.singlePointer ino = 0 ∧ Inode.doublePointer ino = 0 ∧
      Inode.triplePointer ino = 0) (asked : ℕ → Prop) :
    Given (fun _ => 0) ino 1024 asked (directTarget ino) (fun block x =>
      smallBlocks.device.byte (block*1024+x))
      (ReadsOnly smallBlocks) := by
  obtain ⟨hsingle,hdouble,htriple⟩ := hindirect
  have hvolume : smallBlocks.Volume :=
    ⟨⟨by decide,by decide,by decide⟩,by decide,by decide,by decide⟩
  refine given_of_volume hvolume (fun _ h => absurd h List.not_mem_nil) (fun _ => 0) (fun k _ =>
    ⟨[],?_⟩) (fun k _ => ?_)
  · rw [mapBlock,hsingle,hdouble,htriple,directTarget]
    split <;> simp
  · rw [directTarget]
    split
    · exact hpointers k ‹_›
    · decide

/-- Three bytes from two blocks. -/
theorem readInodeContents_right_two :
    (smallBlocks.readInodeContents (fun _ => 0) (fileWith 2048 1) 1023 3).1 = [1,1,1] := by
  have hgiven :=
    smallBlocks_given (show ∀ k < DIRECT_BLOCK_CAPACITY,
      Inode.blockPointer (fileWith 2048 1) k < 2 by decide)
    (by decide) (Requested 1024 1023 3)
  refine ((readInodeContents_right _ _ 1024 1023 3 _ _ _ hgiven smallBlocks .refl (by
    decide)).mpr ?_).trans (by decide)
  refine .inr ⟨?_,.inl (by decide)⟩
  intro x hlow hhigh
  have hsize : min 3 (Inode.sizeLow (fileWith 2048 1)-1023) = 3 := by decide
  rw [hsize] at hhigh
  interval_cases x <;> decide

/-- The first block of a file is missing and nothing of the file is read. And a request for all
32-bit places reads more than the file has. -/
theorem read_ends_wrong :
    (Given (fun _ => 0) (fileWith 2048 0) 1024 (Requested 1024 0 2048)
      (directTarget (fileWith 2048 0))
        (fun block x => smallBlocks.device.byte (block*1024+x)) (ReadsOnly smallBlocks) ∧
      (smallBlocks.readInodeContents (fun _ => 0) (fileWith 2048 0) 0 2048).1 = [] ∧
        min 2048 (Inode.sizeLow (fileWith 2048 0)-0) = 2048) ∧
    Given (fun _ => 0) (fileWith 1500 1) 1024 (Requested 1024 1 (2^32-1))
    (directTarget (fileWith 1500 1))
        (fun block x => smallBlocks.device.byte (block*1024+x)) (ReadsOnly smallBlocks) ∧
      (smallBlocks.readInodeContents (fun _ => 0) (fileWith 1500 1) 1 (2^32-1)).1 ≠
        load (fileByte 1024 (directTarget (fileWith 1500 1)) fun block x =>
          smallBlocks.device.byte (block*1024+x)) 1
          (min (2^32-1) (Inode.sizeLow (fileWith 1500 1)-1)) := by
  refine ⟨⟨smallBlocks_given (by decide) (by decide) _,by decide +kernel,by decide⟩,?_⟩
  have hgiven :=
    smallBlocks_given (show ∀ k < DIRECT_BLOCK_CAPACITY,
      Inode.blockPointer (fileWith 1500 1) k < 2 by decide)
    (by decide) (Requested 1024 1 (2^32-1))
  refine ⟨hgiven,?_⟩
  obtain ⟨n,hn,hread⟩ :=
    readInodeContents_upToHole hgiven .refl (show 1 < Inode.sizeLow (fileWith 1500 1) by decide)
      (by decide)
  rw [hread]
  intro heq
  have hcount : n = 1499 := (load_inj_length heq).trans (by decide)
  rw [hcount] at hn
  exact absurd hn.stop (by decide)

end Ext2Fs
end ScalesOS
