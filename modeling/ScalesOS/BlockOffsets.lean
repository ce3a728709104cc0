import ScalesOS.BlockMap
import ScalesOS.PointerTree

/-!
# The block of a file that a number stands for

`__ext2_block_from_offset` beside the layout of ext2. The direct pointers are taken for the start
of the single indirect block and not for what comes before it, so the driver is twelve blocks off
where a file goes on in the next level. Behind the triple indirect block it finds nothing at all.
-/

namespace ScalesOS
open ByteMemory Storage PointerTree

namespace Ext2Fs
variable (fs : Ext2Fs)

/-- Word `i` of a buffer that the block has been read into. -/
def entry (heap : Mem) (block i : ℕ) : ℕ := bufferWord (fs.readBuffer heap block 0).1 i

section
variable (entry : ℕ → ℕ → ℕ)

def lookupSingle (pointer block_offset : ℕ) : ℕ × List ℕ :=
  through entry pointer (sub32 block_offset DIRECT_BLOCK_CAPACITY) fun target => (target,[])

def lookupDouble (pointer block_offset : ℕ) : ℕ × List ℕ :=
  let extra_offset := sub32 block_offset fs.singleCapacity
  through entry pointer (extra_offset/fs.singleCapacity) fun target =>
    lookupSingle entry target (extra_offset%fs.singleCapacity)

def lookupTriple (pointer block_offset : ℕ) : ℕ × List ℕ :=
  let extra_offset := sub32 block_offset fs.doubleCapacity
  through entry pointer (extra_offset/fs.singleCapacity*fs.singleCapacity) fun target =>
    fs.lookupDouble entry target (extra_offset%fs.singleCapacity*fs.singleCapacity%W32)

/-- The value of `__ext2_block_from_offset` and the indices that it uses. -/
def lookupBlock (ino : Mem) (block_offset : ℕ) : ℕ × List ℕ :=
  if block_offset < DIRECT_BLOCK_CAPACITY then (Inode.blockPointer ino block_offset,[])
  else if block_offset < fs.singleCapacity ∧ Inode.singlePointer ino ≠ 0 then
    lookupSingle entry (Inode.singlePointer ino) block_offset
  else if block_offset < fs.doubleCapacity ∧ Inode.doublePointer ino ≠ 0 then
    fs.lookupDouble entry (Inode.doublePointer ino) block_offset
  else if block_offset < fs.tripleCapacity ∧ Inode.triplePointer ino ≠ 0 then
    fs.lookupTriple entry (Inode.triplePointer ino) block_offset
  else (0,[])

/-- The block that the layout of ext2 has at this place of a file. -/
def layout (ino : Mem) (block_offset : ℕ) : ℕ :=
  let k := fs.blockSize/4
  if block_offset < 12 then Inode.blockPointer ino block_offset
  else if block_offset-12 < k then (walk entry k 1 (Inode.singlePointer ino) (block_offset-12)).1
  else if block_offset-12-k < k^2 then
    (walk entry k 2 (Inode.doublePointer ino) (block_offset-12-k)).1
  else if block_offset-12-k-k^2 < k^3 then
    (walk entry k 3 (Inode.triplePointer ino) (block_offset-12-k-k^2)).1
  else 0

end

/-- Every cached block is what the device gives for it. -/
def CacheHeld : Prop :=
  ∀ c_bl ∈ fs.block_cache, c_bl.block =
    fs.device.read (c_bl.block_number*fs.blockSize%W32) fs.blockSize

end Ext2Fs

namespace Ext2Fs
variable {fs gs : Ext2Fs} {entry : ℕ → ℕ → ℕ} {heap ino : Mem} {block pointer block_offset k : ℕ}

theorem CacheHeld.of_perm (hc : fs.CacheHeld) (hsame : SameButBlocks fs gs)
    (hperm : gs.block_cache.Perm fs.block_cache) :
    gs.CacheHeld := by
  intro c_bl hmem
  rw [hsame.device,hsame.layout.blockSize]
  exact hc c_bl (hperm.subset hmem)

theorem CacheHeld.readAlone (hc : fs.CacheHeld) (block : ℕ) : (fs.readAlone block).2.CacheHeld := by
  rw [Ext2Fs.readAlone]
  dsimp only
  split
  · intro c_bl hmem
    rcases MoveToFront.mem_push hmem with rfl | hmem
    · rfl
    · exact hc c_bl hmem
  · exact hc

/-- Cached or not, a block is read as the device gives it, and the cache stays as it should be. -/
theorem CacheHeld.readBlock (hc : fs.CacheHeld) (block : ℕ) : (fs.readBlock block 0).2.CacheHeld ∧
    (fs.readBlock block 0).1.2 =
      if fs.superblock.total_blocks < block then []
      else fs.device.read (block*fs.blockSize%W32) fs.blockSize := by
  have hperm := tryGetCachedBlock_perm fs block
  have hsame := tryGetCachedBlock_same fs block
  rw [Ext2Fs.readBlock]
  split
  · exact ⟨hc,rfl⟩
  · split
    · rename_i gs hget
      obtain ⟨c_bl,hmem,rfl,rfl⟩ := tryGetCachedBlock_some (congrArg Prod.fst hget)
      rw [hget] at hperm hsame
      exact ⟨hc.of_perm hsame hperm,hc c_bl hmem⟩
    · rename_i gs hget
      rw [hget] at hperm hsame
      rw [if_neg (not_not.mpr rfl)]
      refine ⟨(hc.of_perm hsame hperm).readAlone block,?_⟩
      rw [Ext2Fs.readAlone]
      dsimp only
      rw [hsame.layout.blockSize,hsame.device]

/-- The words of a block are the same after another block has been read. -/
theorem CacheHeld.entry_after (hc : fs.CacheHeld) (heap : Mem) (block : ℕ) :
    (fs.readBuffer heap block 0).2.CacheHeld ∧ (fs.readBuffer heap block 0).2.entry heap =
    fs.entry heap := by
  have hsame := readBlock_same fs block 0
  have hc' := (hc.readBlock block).1
  refine ⟨hc',?_⟩
  funext pointer i
  have hdata := (hc'.readBlock pointer).2
  rw [hsame.superblock,hsame.device,hsame.layout.blockSize,← (hc.readBlock pointer).2] at hdata
  exact congrArg (fun data => bufferWord (store heap 0 data) i) hdata

/-- A word of a block of the volume is the word that the device has there. -/
theorem entry_eq (himage : fs.Image) (hc : fs.CacheHeld) (heap : Mem)
    (hblock : block < fs.superblock.total_blocks) {i : ℕ}
    (hi : i < fs.singleCapacity) : fs.entry heap block i = fs.deviceWord block i := by
  have hend := himage.block_le hblock
  have hsize := himage.size_lt
  have hin : 4*i+4 ≤ fs.blockSize := by
    rw [singleCapacity] at hi
    omega
  rw [Ext2Fs.entry,bufferWord,Nat.mod_eq_of_lt (by omega),deviceWord]
  apply read32_eq
  intro j hj
  rw [readBuffer,(hc.readBlock block).2,if_neg hblock.asymm,himage.offset_lt hblock.le,
    Device.read_eq _ hend]
  dsimp only
  rw [store_load,if_pos (by omega),Nat.sub_zero,Nat.add_assoc]

theorem resolveSingle_lookup (fs : Ext2Fs) (heap : Mem) (pointer block_offset : ℕ) :
    (fs.resolveSingle heap pointer block_offset).1 =
    (lookupSingle (fs.entry heap) pointer block_offset).1 := by
  rw [resolveSingle,lookupSingle,through]
  split <;> rfl

theorem resolveDouble_lookup (hc : fs.CacheHeld) (heap : Mem) (pointer block_offset : ℕ) :
    (fs.resolveDouble heap pointer block_offset).1 =
    (fs.lookupDouble (fs.entry heap) pointer block_offset).1 := by
  rw [resolveDouble,lookupDouble,through]
  split
  · rfl
  · dsimp only
    rw [resolveSingle_lookup,(hc.entry_after heap pointer).2]
    rfl

theorem resolveTriple_lookup (hc : fs.CacheHeld) (heap : Mem) (pointer block_offset : ℕ) :
    (fs.resolveTriple heap pointer block_offset).1 =
    (fs.lookupTriple (fs.entry heap) pointer block_offset).1 := by
  rw [resolveTriple,lookupTriple,through]
  split
  · rfl
  · obtain ⟨hc',hentry⟩ := hc.entry_after heap pointer
    have hsame : SameVolume fs (fs.readBuffer heap pointer 0).2 :=
      (readBlock_same fs pointer 0).toSameVolume
    dsimp only
    rw [resolveDouble_lookup hc',hentry,lookupDouble,lookupDouble,(hsame.sameIn []).singleCapacity]
    rfl

theorem blockFromOffset_lookup (hc : fs.CacheHeld) (heap ino : Mem) (block_offset : ℕ) :
    (fs.blockFromOffset heap ino block_offset).1 =
    (fs.lookupBlock (fs.entry heap) ino block_offset).1 := by
  rw [blockFromOffset,lookupBlock]
  split_ifs
  · rfl
  · exact resolveSingle_lookup fs heap _ _
  · exact resolveDouble_lookup hc heap _ _
  · exact resolveTriple_lookup hc heap _ _
  · rfl

theorem singleCapacity_eq (fs : Ext2Fs) : fs.singleCapacity = 2^(8+fs.superblock.block_size) := by
  have hblock : fs.blockSize = 4*2^(8+fs.superblock.block_size) := by
    rw [blockSize,pow_add]
    omega
  rw [singleCapacity,hblock,Nat.mul_div_cancel_left _ (by decide)]

/-- The capacity of a double indirect block is right, or it has vanished. -/
theorem doubleCapacity_cases (fs : Ext2Fs) :
    fs.doubleCapacity = 0 ∨ fs.singleCapacity ≤ 2^15 ∧
    fs.doubleCapacity = fs.singleCapacity*fs.singleCapacity := by
  have hdouble : fs.doubleCapacity = fs.singleCapacity*fs.singleCapacity%W32 := rfl
  have hk := singleCapacity_eq fs
  rcases Nat.lt_or_ge fs.superblock.block_size 8 with hsmall | hlarge
  · have hle : fs.singleCapacity ≤ 2^15 := by
      rw [hk]
      exact Nat.pow_le_pow_right (by decide) (by omega)
    exact .inr ⟨hle,hdouble.trans
      (Nat.mod_eq_of_lt ((Nat.mul_le_mul hle hle).trans_lt (by decide)))⟩
  · left
    rw [hdouble,hk,← pow_add]
    exact Nat.mod_eq_zero_of_dvd (pow_dvd_pow 2 (show 32 ≤ _ by omega))

theorem tripleCapacity_cases (fs : Ext2Fs) :
    fs.tripleCapacity = 0 ∨ fs.singleCapacity ≤ 2^10 ∧
    fs.doubleCapacity = fs.singleCapacity*fs.singleCapacity ∧
      fs.tripleCapacity = fs.singleCapacity*(fs.singleCapacity*fs.singleCapacity) := by
  have htriple : fs.tripleCapacity = fs.singleCapacity*fs.doubleCapacity%W32 := rfl
  have hk := singleCapacity_eq fs
  rcases doubleCapacity_cases fs with hzero | ⟨-,hdouble⟩
  · left
    rw [htriple,hzero]
    rfl
  rcases Nat.lt_or_ge fs.superblock.block_size 3 with hsmall | hlarge
  · have hle : fs.singleCapacity ≤ 2^10 := by
      rw [hk]
      exact Nat.pow_le_pow_right (by decide) (by omega)
    refine .inr ⟨hle,hdouble,?_⟩
    rw [htriple,hdouble]
    exact Nat.mod_eq_of_lt ((Nat.mul_le_mul hle (Nat.mul_le_mul hle hle)).trans_lt (by decide))
  · left
    rw [htriple,hdouble,hk,← pow_add,← pow_add]
    exact Nat.mod_eq_zero_of_dvd (pow_dvd_pow 2 (show 32 ≤ _ by omega))

theorem walk_one (pointer place : ℕ) :
    walk entry k 1 pointer place = through entry pointer place fun target => (target,[]) := by
  rw [walk,pow_zero,Nat.div_one]
  rfl

/-- The direct pointers are left out, so this is the walk to the place. -/
theorem lookupSingle_walk (hdirect : 12 ≤ block_offset) (pointer : ℕ) :
    lookupSingle entry pointer block_offset = walk entry k 1 pointer (block_offset-12) := by
  rw [walk_one,lookupSingle,DIRECT_BLOCK_CAPACITY,sub32_eq hdirect]

/-- A number below twelve is taken for one behind the end of the block. -/
theorem lookupSingle_low (hk : k ≤ 2^31) (hlow : block_offset < 12) (pointer value : ℕ) :
    Leads k value (lookupSingle entry pointer block_offset) ↔ pointer = 0 ∧ value = 0 := by
  rw [lookupSingle,DIRECT_BLOCK_CAPACITY,sub32,if_neg (by omega)]
  by_cases hpointer : pointer = 0
  · simp [hpointer]
  · rw [leads_through hpointer]
    constructor
    · rintro ⟨hindex,-⟩
      omega
    · rintro ⟨hzero,-⟩
      exact absurd hzero hpointer

section
variable {pointer value : ℕ}

/-- In the blocks of pointers that start with a multiple of their size, all but the first twelve
entries are found. -/
theorem lookupDouble_walk (hk : fs.singleCapacity ≤ block_offset)
    (hdirect : 12 ≤ (block_offset-fs.singleCapacity)%fs.singleCapacity) :
    fs.lookupDouble entry pointer block_offset =
      walk entry fs.singleCapacity 2 pointer (block_offset-12-fs.singleCapacity) := by
  have hpos : 0 < fs.singleCapacity := by
    rw [singleCapacity_eq]
    positivity
  rw [lookupDouble,sub32_eq hk,Nat.sub_right_comm]
  generalize block_offset-fs.singleCapacity = extra at hdirect ⊢
  generalize fs.singleCapacity = k at hdirect hpos ⊢
  have hlt := Nat.mod_lt extra hpos
  have hsplit : extra-12 = k*(extra/k)+(extra%k-12) := by
    have hdiv := Nat.div_add_mod extra k
    omega
  have hrest : extra%k-12 < k := by omega
  have hindex : (extra-12)/k = extra/k := by
    rw [hsplit,Nat.mul_add_div hpos,Nat.div_eq_of_lt hrest,Nat.add_zero]
  have hplace : (extra-12)%k = extra%k-12 := by
    rw [hsplit,Nat.mul_add_mod,Nat.mod_eq_of_lt hrest]
  rw [walk,pow_one,hindex,hplace]
  exact congrArg (through entry pointer (extra/k)) (funext fun target =>
    lookupSingle_walk hdirect target)

theorem lookupDouble_low (hle : fs.singleCapacity ≤ 2^15) (hpointer : pointer ≠ 0)
    (hk : fs.singleCapacity ≤ block_offset)
    (hlow : (block_offset-fs.singleCapacity)%fs.singleCapacity < 12)
    (hlt : block_offset < fs.singleCapacity*fs.singleCapacity) :
    Leads fs.singleCapacity value (fs.lookupDouble entry pointer block_offset) ↔
      entry pointer ((block_offset-fs.singleCapacity)/fs.singleCapacity) = 0 ∧ value = 0 := by
  have hindex : (block_offset-fs.singleCapacity)/fs.singleCapacity < fs.singleCapacity :=
    Nat.div_lt_of_lt_mul (by omega)
  rw [lookupDouble,sub32_eq hk,leads_through hpointer,lookupSingle_low (hle.trans (by decide)) hlow]
  exact and_iff_right hindex

/-- Before the blocks of the double indirect block the index is far behind the end. -/
theorem lookupDouble_before (hle : fs.singleCapacity ≤ 2^15) (hpointer : pointer ≠ 0)
    (hk : block_offset < fs.singleCapacity) :
    ¬Leads fs.singleCapacity value (fs.lookupDouble entry pointer block_offset) := by
  rw [lookupDouble,sub32,if_neg (by omega),leads_through hpointer]
  rintro ⟨hindex,-⟩
  have hless := (Nat.div_lt_iff_lt_mul (by omega)).mp hindex
  have hsquare := Nat.mul_le_mul hle hle
  omega

/-- What the triple indirect block has in its place `extra` is looked up in the first of its blocks,
and there in the twelfth word before the start of a block. -/
theorem lookupTriple_first (hle : fs.singleCapacity ≤ 2^10) {extra : ℕ}
    (hlt : extra < fs.singleCapacity) :
    Leads fs.singleCapacity value (fs.lookupDouble entry pointer (extra*fs.singleCapacity)) ↔
      (pointer = 0 ∨ 0 < extra ∧ entry pointer (extra-1) = 0) ∧ value = 0 := by
  have hcapacity : fs.singleCapacity ≤ 2^15 := hle.trans (by decide)
  by_cases hpointer : pointer = 0
  · rw [lookupDouble,hpointer,through_null]
    simp
  rw [or_iff_right hpointer]
  rcases Nat.eq_zero_or_pos extra with rfl | hextra
  · rw [Nat.zero_mul]
    exact iff_of_false (lookupDouble_before hcapacity hpointer hlt) (fun h => Nat.lt_irrefl 0 h.1.1)
  · have hback : extra*fs.singleCapacity-fs.singleCapacity = (extra-1)*fs.singleCapacity :=
      (Nat.sub_one_mul _ _).symm
    have hin : fs.singleCapacity ≤ extra*fs.singleCapacity := Nat.le_mul_of_pos_left _ hextra
    have hrest : (extra*fs.singleCapacity-fs.singleCapacity)%fs.singleCapacity < 12 := by
      rw [hback,Nat.mul_mod_left]
      decide
    rw [lookupDouble_low hcapacity hpointer hin hrest (Nat.mul_lt_mul_of_pos_right hlt (by omega)),
      hback,Nat.mul_div_cancel _ (by omega)]
    simp [hextra]

theorem lookupTriple_leads (hle : fs.singleCapacity ≤ 2^10)
    (hdouble : fs.doubleCapacity = fs.singleCapacity*fs.singleCapacity) (hpointer : pointer ≠ 0) :
    Leads fs.singleCapacity value (fs.lookupTriple entry pointer block_offset) ↔
      (fs.singleCapacity*fs.singleCapacity ≤ block_offset ∧
        block_offset-fs.singleCapacity*fs.singleCapacity < fs.singleCapacity ∧
          (entry pointer 0 = 0 ∨ 0 < block_offset-fs.singleCapacity*fs.singleCapacity ∧
            entry (entry pointer 0) (block_offset-fs.singleCapacity*fs.singleCapacity-1) =
            0)) ∧ value = 0 := by
  have hsquare := Nat.mul_le_mul hle hle
  have hpos : 0 < fs.singleCapacity := by
    rw [singleCapacity_eq]
    positivity
  have hlate : ∀ extra, fs.singleCapacity ≤ extra →
      ¬extra/fs.singleCapacity*fs.singleCapacity < fs.singleCapacity :=
    fun extra h => Nat.not_lt.mpr (Nat.le_mul_of_pos_left _ (Nat.div_pos h hpos))
  rw [lookupTriple,hdouble,leads_through hpointer]
  rcases Nat.lt_or_ge block_offset (fs.singleCapacity*fs.singleCapacity) with hbefore | hin
  · rw [sub32,if_neg (Nat.not_le.mpr hbefore)]
    exact iff_of_false (fun h => hlate _ (by omega) h.1) (fun h =>
      absurd h.1.1 (Nat.not_le.mpr hbefore))
  rw [sub32_eq hin,and_iff_right hin]
  generalize block_offset-fs.singleCapacity*fs.singleCapacity = extra
  rcases Nat.lt_or_ge extra fs.singleCapacity with hfirst | hbehind
  · have hword : extra*fs.singleCapacity < W32 :=
      (Nat.mul_lt_mul_of_pos_right hfirst hpos).trans (hsquare.trans_lt (by decide))
    rw [Nat.div_eq_of_lt hfirst,Nat.zero_mul,Nat.mod_eq_of_lt hfirst,Nat.mod_eq_of_lt hword,
      lookupTriple_first hle hfirst,and_iff_right hpos,and_iff_right hfirst]
  · exact iff_of_false (fun h => hlate extra hbehind h.1) (fun h =>
      absurd h.1.1 (Nat.not_lt.mpr hbehind))

end

section
variable (fs entry)

def Null (ino : Mem) (block_offset : ℕ) : Prop :=
  let k := fs.singleCapacity
  if block_offset < fs.doubleCapacity ∧ Inode.doublePointer ino ≠ 0 then
    k ≤ block_offset ∧ entry (Inode.doublePointer ino) ((block_offset-k)/k) = 0
  else if block_offset < fs.tripleCapacity ∧ Inode.triplePointer ino ≠ 0 then
    k*k ≤ block_offset ∧ block_offset-k*k < k ∧ (entry (Inode.triplePointer ino) 0 = 0 ∨
      0 < block_offset-k*k ∧ entry (entry (Inode.triplePointer ino) 0) (block_offset-k*k-1) = 0)
  else True

/-- The block is one that direct pointers or the single indirect block lead to and that the driver
looks for there, or one of the double indirect block at whose place the two counts agree, or it
is missing. -/
def Found (ino : Mem) (block_offset : ℕ) : Prop :=
  let k := fs.singleCapacity
  block_offset < 12 ∨ block_offset < k ∧ Inode.singlePointer ino ≠ 0 ∨
    k ≤ block_offset ∧ block_offset < fs.doubleCapacity ∧ Inode.doublePointer ino ≠ 0 ∧
    12 ≤ (block_offset-k)%k ∨ fs.layout entry ino block_offset = 0 ∧ fs.Null entry ino block_offset

end

theorem layout_direct (hdirect : block_offset < 12) :
    fs.layout entry ino block_offset = Inode.blockPointer ino block_offset := if_pos hdirect

theorem layout_single (hdirect : 12 ≤ block_offset)
    (hsingle : block_offset-12 < fs.singleCapacity) :
    fs.layout entry ino block_offset =
        (walk entry fs.singleCapacity 1 (Inode.singlePointer ino) (block_offset-12)).1 := by
  rw [layout,if_neg (Nat.not_lt.mpr hdirect)]
  exact if_pos hsingle

theorem layout_double (hsingle : fs.singleCapacity ≤ block_offset-12)
    (hdouble : block_offset-12-fs.singleCapacity < fs.singleCapacity^2) :
    fs.layout entry ino block_offset =
      (walk entry fs.singleCapacity 2 (Inode.doublePointer ino)
        (block_offset-12-fs.singleCapacity)).1 := by
  have hpos : 0 < fs.singleCapacity := by
    rw [singleCapacity_eq]
    positivity
  rw [layout,if_neg (by omega)]
  exact (if_neg (Nat.not_lt.mpr hsingle)).trans (if_pos hdouble)

theorem lookupDouble_leads (hle : fs.singleCapacity ≤ 2^15) (hpointer : Inode.doublePointer ino ≠ 0)
    (hlt : block_offset < fs.singleCapacity*fs.singleCapacity) :
    Leads fs.singleCapacity (fs.layout entry ino block_offset)
        (fs.lookupDouble entry (Inode.doublePointer ino) block_offset) ↔
      fs.singleCapacity ≤ block_offset ∧ 12 ≤ (block_offset-fs.singleCapacity)%fs.singleCapacity ∨
        fs.layout entry ino block_offset = 0 ∧ fs.singleCapacity ≤ block_offset ∧
          entry (Inode.doublePointer ino) ((block_offset-fs.singleCapacity)/fs.singleCapacity) =
          0 := by
  rcases Nat.lt_or_ge block_offset fs.singleCapacity with hbefore | hk
  · apply iff_of_false (lookupDouble_before hle hpointer hbefore)
    rintro (⟨hk,-⟩ | ⟨-,hk,-⟩) <;> omega
  rw [and_iff_right hk,and_iff_right hk]
  rcases Nat.lt_or_ge ((block_offset-fs.singleCapacity)%fs.singleCapacity) 12 with hlow | hhigh
  · rw [lookupDouble_low hle hpointer hk hlow hlt,or_iff_right (Nat.not_le.mpr hlow),and_comm]
  · have hextra := hhigh.trans (Nat.mod_le _ _)
    have hplace : block_offset-12-fs.singleCapacity < fs.singleCapacity^2 := by
      rw [sq]
      omega
    rw [layout_double (by omega) hplace,lookupDouble_walk hk hhigh]
    exact iff_of_true (leads_walk hplace _) (.inl hhigh)

/-- The driver finds the block of the layout, with indices inside the blocks, in these cases and in
no others. -/
theorem lookupBlock_leads (fs : Ext2Fs) (entry : ℕ → ℕ → ℕ) (ino : Mem) (block_offset : ℕ) :
    Leads fs.singleCapacity (fs.layout entry ino block_offset)
    (fs.lookupBlock entry ino block_offset) ↔
      fs.Found entry ino block_offset := by
  rw [lookupBlock,DIRECT_BLOCK_CAPACITY]
  by_cases hdirect : block_offset < 12
  · rw [if_pos hdirect,layout_direct hdirect]
    exact iff_of_true ⟨rfl,fun i hi => absurd hi List.not_mem_nil⟩ (.inl hdirect)
  have hdirect' := Nat.le_of_not_lt hdirect
  rw [if_neg hdirect]
  by_cases hsingle : block_offset < fs.singleCapacity ∧ Inode.singlePointer ino ≠ 0
  · have hplace : block_offset-12 < fs.singleCapacity := by omega
    rw [if_pos hsingle,layout_single hdirect' hplace,lookupSingle_walk hdirect']
    exact iff_of_true (leads_walk (by rwa [pow_one]) _) (.inr (.inl hsingle))
  rw [if_neg hsingle,Found,or_iff_right hdirect,or_iff_right hsingle,Null]
  by_cases hdouble : block_offset < fs.doubleCapacity ∧ Inode.doublePointer ino ≠ 0
  · rw [if_pos hdouble,if_pos hdouble]
    obtain ⟨hle,hcapacity⟩ := (doubleCapacity_cases fs).resolve_left (by omega)
    rw [lookupDouble_leads hle hdouble.2 (hcapacity ▸ hdouble.1),and_iff_right hdouble.1,
      and_iff_right hdouble.2]
  · rw [if_neg hdouble,if_neg hdouble]
    have hfound :
      ¬(fs.singleCapacity ≤ block_offset ∧ block_offset < fs.doubleCapacity ∧
        Inode.doublePointer ino ≠ 0 ∧
        12 ≤ (block_offset-fs.singleCapacity)%fs.singleCapacity) := fun h => hdouble ⟨h.2.1,h.2.2.1⟩
    rw [or_iff_right hfound]
    by_cases htriple : block_offset < fs.tripleCapacity ∧ Inode.triplePointer ino ≠ 0
    · obtain ⟨hle,hcapacity,-⟩ := (tripleCapacity_cases fs).resolve_left (by omega)
      rw [if_pos htriple,if_pos htriple,lookupTriple_leads hle hcapacity htriple.2,and_comm]
    · rw [if_neg htriple,if_neg htriple,leads_null,and_true]

/-- For all block sizes, inodes and numbers of blocks, the driver returns the block of the layout
and stays inside the pointer blocks exactly in these cases. -/
theorem blockFromOffset_found (fs : Ext2Fs) (hc : fs.CacheHeld) (heap ino : Mem)
    (block_offset : ℕ) :
    (fs.blockFromOffset heap ino block_offset).1 = fs.layout (fs.entry heap) ino block_offset ∧
        (∀ i ∈ (fs.lookupBlock (fs.entry heap) ino block_offset).2, i < fs.blockSize/4) ↔
      fs.Found (fs.entry heap) ino block_offset := by
  rw [blockFromOffset_lookup hc]
  exact lookupBlock_leads fs (fs.entry heap) ino block_offset

def threes : Ext2Fs where
  superblock := ⟨4,0,8192,8,128,Ext2Superblock.kib_le⟩
  device := ⟨4096,fun x => if x%4 = 0 then 3 else 0⟩
  bgds := fun _ => ⟨0,0,0⟩
  inode_cache := []
  block_cache := []
  readahead_buffer := fun _ => 0

/-- An inode with a single indirect block, and with a double indirect block if there is one. -/
def indirect (double : BitVec 8) : Mem := fun x => if x = 88 then 1
    else if x = 92 then double else 0

theorem threes_held : threes.CacheHeld := fun _ h => absurd h List.not_mem_nil

theorem blockFromOffset_found_first : (threes.blockFromOffset (fun _ => 0) (indirect 0) 12).1 =
    threes.layout (threes.entry fun _ => 0) (indirect 0) 12 ∧
      ∀ i ∈ (threes.lookupBlock (threes.entry fun _ => 0) (indirect 0) 12).2,
      i < threes.blockSize/4 :=
  (blockFromOffset_found threes threes_held (fun _ => 0) (indirect 0) 12).mpr
  (.inr (.inl (by decide)))

/-- The last twelve blocks of the single indirect block are not found. With a double indirect block
they are looked for in it, at an index behind the end of a block. -/
theorem single_indirect_lost : threes.Image ∧ threes.CacheHeld ∧
    (threes.blockFromOffset (fun _ => 0) (indirect 0) 256).1 = 0 ∧
      threes.layout (threes.entry fun _ => 0) (indirect 0) 256 = 3 ∧
        (threes.lookupBlock (threes.entry fun _ => 0) (indirect 2) 256).2 = [0,2^32-12] :=
  ⟨⟨by decide,by decide,by decide⟩,threes_held,by decide +kernel,by decide +kernel,
    by decide +kernel⟩

end Ext2Fs
end ScalesOS
