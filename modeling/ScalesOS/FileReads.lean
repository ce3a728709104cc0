import ScalesOS.Inodes
import ScalesOS.SparseFile

/-!
# The loop that reads a file

The loop of `__ext2_read_inode_contents` with the places of the blocks and what is in them taken
from outside. It copies the bytes of the file up to the first block that is missing.
-/

namespace ScalesOS
open ByteMemory Storage SparseFile

namespace Ext2Fs

/-- In a volume with `P`, which stays, the blocks that are `asked` for are where `target` says and
have `content` in them. -/
structure Given (heap ino : Mem) (bs : ℕ) (asked : ℕ → Prop) (target : ℕ → ℕ) (content : ℕ → Mem)
    (P : Ext2Fs → Prop) :
    Prop where
  blockSize : ∀ fs, P fs → fs.blockSize = bs
  lookup : ∀ fs, P fs → ∀ k, asked k →
    (fs.blockFromOffset heap ino k).1 = target k ∧ P (fs.blockFromOffset heap ino k).2
  read : ∀ fs, P fs → ∀ k, asked k → target k ≠ 0 → ∀ block_buffer n,
    (∀ x < bs, (fs.readBuffer block_buffer (target k) (n*bs%W32)).1 x = content (target k) x) ∧
      P (fs.readBuffer block_buffer (target k) (n*bs%W32)).2

variable {heap ino : Mem} {bs : ℕ} {asked : ℕ → Prop} {target : ℕ → ℕ} {content : ℕ → Mem}
    {P : Ext2Fs → Prop}

/-- The induction is on the turns, with any volume, place and buffer. -/
theorem contentsLoop_spec (hgiven : Given heap ino bs asked target content P) (turns : ℕ) :
    ∀ (size pos : ℕ)
    (block_buffer : Mem) (fs : Ext2Fs) (copied : List (BitVec 8)), size ≤ turns → P fs →
    (∀ k, pos/bs ≤ k → k*bs < pos+size → asked k) →
    ∃ n, UpToHole bs target pos size n ∧
      (contentsLoop heap ino turns size (pos/bs) (pos%bs) block_buffer fs copied).1 =
        copied++load (fileByte bs target content) pos n := by
  induction turns with
  | zero =>
    intro size pos block_buffer fs copied hturns _ _
    obtain rfl := Nat.le_zero.mp hturns
    exact ⟨0,.zero,by rw [contentsLoop,load_zero,List.append_nil]⟩
  | succ turns ih =>
    intro size pos block_buffer fs copied hturns hP hasked
    have hsize := hgiven.blockSize fs hP
    have hbs : 0 < bs := hsize ▸ blockSize_pos
    have hpart := Nat.mod_lt pos hbs
    rw [contentsLoop]
    split
    · rename_i hzero
      subst hzero
      exact ⟨0,.zero,by rw [load_zero,List.append_nil]⟩
    rename_i hpos
    have hfirst : asked (pos/bs) :=
      hasked _ le_rfl ((Nat.div_mul_le_self pos bs).trans_lt (by omega))
    obtain ⟨hlookup,hP'⟩ := hgiven.lookup fs hP _ hfirst
    dsimp only
    rw [hlookup,hsize]
    split
    · rename_i hhole
      exact ⟨0,.hole hhole,by rw [load_zero,List.append_nil]⟩
    rename_i htarget
    obtain ⟨hbuffer,hP''⟩ := hgiven.read _ hP' _ hfirst htarget block_buffer
      (sub32 (Inode.sizeLow ino/bs) (pos/bs)+1)
    split
    · rename_i hlast
      exact ⟨size,.last hlast htarget,by rw [load_fileByte hlast htarget hbuffer]⟩
    · rename_i hmore
      obtain ⟨hblock,hplace⟩ := next_block hbs pos
      have hrest := fun block_buffer copied =>
        ih (size-(bs-pos%bs)) (pos+(bs-pos%bs)) block_buffer _ copied (by omega) hP'' (by
          intro k hlow hhigh
          rw [hblock] at hlow
          exact hasked k (by omega) (by omega))
      rw [hblock,hplace] at hrest
      obtain ⟨n,hn,hcopied⟩ := hrest _ _
      refine ⟨bs-pos%bs+n,hn.next (by omega) htarget,hcopied.trans ?_⟩
      rw [load_fileByte le_rfl htarget hbuffer,List.append_assoc,load_add]

theorem contentsLoop_copied (heap ino : Mem) (turns : ℕ) : ∀ (size block_offset part_offset : ℕ)
    (block_buffer : Mem) (fs : Ext2Fs) (copied : List (BitVec 8)),
    copied <+: (contentsLoop heap ino turns size block_offset part_offset block_buffer
      fs copied).1 := by
  induction turns with
  | zero => exact fun _ _ _ _ _ _ => List.prefix_rfl
  | succ turns ih =>
    intro size block_offset part_offset block_buffer fs copied
    rw [contentsLoop]
    dsimp only
    split_ifs
    · exact List.prefix_rfl
    · exact List.prefix_rfl
    · exact List.prefix_append _ _
    · exact (List.prefix_append _ _).trans (ih _ _ _ _ _ _)

/-- The first `n` bytes are read correctly if their blocks are there, whatever comes behind them. -/
theorem contentsLoop_prefix (hgiven : Given heap ino bs asked target content P) (turns : ℕ) :
    ∀ (size n pos : ℕ)
    (block_buffer : Mem) (fs : Ext2Fs) (copied : List (BitVec 8)), size ≤ turns → n ≤ size → P fs →
    (∀ k, pos/bs ≤ k → k*bs < pos+n → asked k ∧ target k ≠ 0) →
    copied++load (fileByte bs target content) pos n <+:
      (contentsLoop heap ino turns size (pos/bs) (pos%bs) block_buffer fs copied).1 := by
  induction turns with
  | zero =>
    intro size n pos block_buffer fs copied hturns hn _ _
    obtain rfl : n = 0 := by omega
    rw [load_zero,List.append_nil]
    exact contentsLoop_copied heap ino 0 _ _ _ _ _ _
  | succ turns ih =>
    intro size n pos block_buffer fs copied hturns hn hP hasked
    rcases Nat.eq_zero_or_pos n with rfl | hpos
    · rw [load_zero,List.append_nil]
      exact contentsLoop_copied heap ino _ _ _ _ _ _ _
    have hsize := hgiven.blockSize fs hP
    have hbs : 0 < bs := hsize ▸ blockSize_pos
    have hpart := Nat.mod_lt pos hbs
    obtain ⟨hfirst,htarget⟩ :=
      hasked (pos/bs) le_rfl ((Nat.div_mul_le_self pos bs).trans_lt (by omega))
    obtain ⟨hlookup,hP'⟩ := hgiven.lookup fs hP _ hfirst
    obtain ⟨hbuffer,hP''⟩ :=
      hgiven.read _ hP' _ hfirst htarget block_buffer (sub32 (Inode.sizeLow ino/bs) (pos/bs)+1)
    rw [contentsLoop,if_neg (by omega)]
    dsimp only
    rw [hlookup,hsize,if_neg htarget]
    split
    · -- the last block of the request
      obtain ⟨k,rfl⟩ := Nat.exists_eq_add_of_le hn
      rw [load_add,← load_fileByte (by omega) htarget hbuffer,← List.append_assoc]
      exact List.prefix_append _ _
    · rename_i hmore
      by_cases hin : n ≤ bs-pos%bs
      · refine List.IsPrefix.trans ?_ (contentsLoop_copied heap ino turns _ _ _ _ _ _)
        obtain ⟨k,hk⟩ := Nat.exists_eq_add_of_le hin
        rw [hk,load_add,← load_fileByte hin htarget hbuffer,← List.append_assoc]
        exact List.prefix_append _ _
      · obtain ⟨hblock,hplace⟩ := next_block hbs pos
        have hrest := fun block_buffer copied =>
          ih (size-(bs-pos%bs)) (n-(bs-pos%bs)) (pos+(bs-pos%bs)) block_buffer _ copied (by
              omega) (by omega) hP'' (by
            intro k hlow hhigh
            rw [hblock] at hlow
            exact hasked k (by omega) (by omega))
        rw [hblock,hplace] at hrest
        have hsplit : load (fileByte bs target content) pos n =
            load (fileByte bs target content) pos (bs-pos%bs)++
              load (fileByte bs target content) (pos+(bs-pos%bs)) (n-(bs-pos%bs)) := by
          rw [← load_add,Nat.add_sub_cancel' (by omega)]
        rw [hsplit,← load_fileByte le_rfl htarget hbuffer,← List.append_assoc]
        exact hrest _ _

end Ext2Fs
end ScalesOS
