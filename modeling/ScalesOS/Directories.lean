import ScalesOS.FileContents
import ScalesOS.Paths
import ScalesOS.Scans

/-!
# Directories

`__ext2_readdir` and `__ext2_finddir`. A directory is a file of records with their lengths. Every
record is read with the largest size that it can have, into a variable that keeps what a read does
not deliver.
-/

namespace ScalesOS
open ByteMemory Storage

def EXT2_DIR : ℕ := 0x4000

/-- `sizeof(ext2_dirent_t)`. -/
def DIRENT_SIZE : ℕ := 263

namespace Inode

def perms (ino : Mem) : ℕ := read16 ino 0
def isDir (ino : Mem) : Bool := perms ino &&& EXT2_DIR ≠ 0

end Inode

namespace Ext2Dirent

def inode (dirent : Mem) : ℕ := read32 dirent 0
def size (dirent : Mem) : ℕ := read16 dirent 4
def nameLength (dirent : Mem) : ℕ := (dirent 6).toNat
def nameBytes (dirent : Mem) : List (BitVec 8) := load dirent 8 (nameLength dirent)
def entry (dirent : Mem) : Dirent := ⟨pathOfBytes (nameBytes dirent),inode dirent⟩

end Ext2Dirent

/-- The node of a file of the volume. -/
structure Ext2Node where
  name : Path
  inode : ℕ
  size : ℕ
  dir : Bool

/-- What a call of `__ext2_readdir` finds: the time, its variable for a record, and fresh memory for
the inode and for the buffers of its reads; and fresh memory for the inode of the entry, which is
opened if the entry is the right one. -/
structure ReaddirCall where
  now : ℕ
  dirent : Mem
  opened : Mem
  buffers : ℕ → Mem
  entry : Mem

namespace Ext2Fs

/-- The loop of `__ext2_readdir`, unless it takes more turns. -/
def readdirLoop (ino : Mem) (index : ℕ) : (turns : ℕ) → (buffers : ℕ → Mem) →
    (offset cur_index : ℕ) → (dirent : Mem) → Ext2Fs → Option (Option Dirent × Ext2Fs)
  | 0,_,_,_,_,_ => none
  | turns+1,buffers,offset,cur_index,dirent,fs =>
    if Inode.sizeLow ino ≤ offset then some (none,fs)
    else
      let r := fs.readInodeContents (buffers 0) ino offset DIRENT_SIZE
      let dirent := store dirent 0 r.1
      if Ext2Dirent.inode dirent ≠ 0 ∧ index = cur_index then
        some (some (Ext2Dirent.entry dirent),r.2)
      else
        readdirLoop ino index turns (fun n => buffers (n+1)) ((offset+Ext2Dirent.size dirent)%W32)
          (if Ext2Dirent.inode dirent ≠ 0 then (cur_index+1)%W32 else cur_index) dirent r.2

variable (fs : Ext2Fs)

def readdir (turns : ℕ) (call : ReaddirCall) (dir index : ℕ) : Option (Option Dirent × Ext2Fs) :=
  match fs.readInode call.opened dir call.now with
  | (none,fs) => some (none,fs)
  | (some ino,fs) =>
    if Inode.isDir ino then readdirLoop ino index turns call.buffers 0 0 call.dirent fs
    else some (none,fs)

/-- `__ext2_from_inode`. Without an inode the source would read at address 0. -/
def fromInode (heap : Mem) (now : ℕ) (name : Path) (inode : ℕ) : Option Ext2Node × Ext2Fs :=
  match fs.readInode heap inode now with
  | (none,fs) => (none,fs)
  | (some ino,fs) => (some ⟨name,inode,Inode.sizeLow ino,Inode.isDir ino⟩,fs)

/-- The loop of `__ext2_finddir` over the entries of one directory. `calls` are its calls of
`__ext2_readdir`. -/
def entryLoop (turns : ℕ) (calls : ℕ → ReaddirCall) (dir : ℕ) (folder : Path) :
    (entries index : ℕ) → Ext2Fs → Option (Option Ext2Node × Ext2Fs)
  | 0,_,_ => none
  | entries+1,index,fs =>
    match fs.readdir turns (calls index) dir index with
    | none => none
    | some (none,fs) => some (none,fs)
    | some (some d,fs) =>
      if d.name = folder then
        match fs.fromInode (calls index).entry (calls index).now d.name d.ino with
        | (none,_) => none
        | (some node,fs) => some (some node,fs)
      else entryLoop turns calls dir folder entries ((index+1)%W32) fs

/-- The loop of `__ext2_finddir` over the segments of a path. -/
def folderLoop (turns : ℕ) : (calls : ℕ → ℕ → ReaddirCall) → List (Option Path) →
    Ext2Node → Ext2Fs → Option (Option Ext2Node × Ext2Fs)
  | _,[],root,fs => some (some root,fs)
  | _,none::_,_,_ => none
  | calls,some folder::folders,root,fs =>
    match entryLoop turns (calls 0) root.inode folder turns 0 fs with
    | none => none
    | some (none,fs) => some (none,fs)
    | some (some node,fs) => folderLoop turns (fun n => calls (n+1)) folders node fs

def finddir (turns : ℕ) (calls : ℕ → ℕ → ReaddirCall) (root : Ext2Node) (path : Path) :
    Option (Option Ext2Node × Ext2Fs) :=
  match folderLoop turns calls (Path.segments path) root fs with
  | none => none
  | some (none,fs) => some (none,fs)
  | some (some root,fs) => some (if some root.name = Path.kUtilPathFilename path then
      some root else none,fs)

/-- Where `__ext2_readdir` is in a directory, with the record that it has read last. -/
structure ReaddirPlace where
  offset : ℕ
  dirent : Mem
  fs : Ext2Fs

namespace ReaddirPlace

def readRecord (ino heap : Mem) (a : ReaddirPlace) : ReaddirPlace :=
  let r := a.fs.readInodeContents heap ino a.offset DIRENT_SIZE
  let dirent := store a.dirent 0 r.1
  ⟨(a.offset+Ext2Dirent.size dirent)%W32,dirent,r.2⟩

def look (ino heap : Mem) (a : ReaddirPlace) : Scans.Turn ReaddirPlace (Option Dirent × Ext2Fs) :=
  let next := a.readRecord ino heap
  if Inode.sizeLow ino ≤ a.offset then .ended (none,a.fs)
  else if Ext2Dirent.inode next.dirent = 0 then .passed next
  else .listed (some (Ext2Dirent.entry next.dirent),next.fs) next

end ReaddirPlace

variable {fs : Ext2Fs} {ino : Mem}

theorem readdirLoop_eq {index : ℕ} (hindex : index < W32) (turns : ℕ) : ∀ (buffers : ℕ → Mem)
    (offset cur_index : ℕ) (dirent : Mem) (fs : Ext2Fs), cur_index ≤ index →
    readdirLoop ino index turns buffers offset cur_index dirent fs =
      Scans.nth (ReaddirPlace.look ino) turns buffers (index-cur_index) ⟨offset,dirent,fs⟩ := by
  induction turns with
  | zero => exact fun _ _ _ _ _ _ => rfl
  | succ turns ih =>
    intro buffers offset cur_index dirent fs hle
    rw [readdirLoop,Scans.nth,ReaddirPlace.look,ReaddirPlace.readRecord]
    dsimp only
    by_cases hend : Inode.sizeLow ino ≤ offset
    · rw [if_pos hend,if_pos hend]
    rw [if_neg hend,if_neg hend]
    generalize fs.readInodeContents (buffers 0) ino offset DIRENT_SIZE = r
    generalize store dirent 0 r.1 = dirent
    by_cases hfree : Ext2Dirent.inode dirent = 0
    · rw [if_pos hfree,if_neg fun h => h.1 hfree,if_neg (not_not_intro hfree)]
      exact ih _ _ _ _ _ hle
    rw [if_neg hfree,if_pos hfree]
    by_cases hcur : index = cur_index
    · rw [if_pos ⟨hfree,hcur⟩]
      dsimp only
      rw [if_pos (by omega)]
    · rw [if_neg fun h => hcur h.2]
      dsimp only
      have hlt : cur_index+1 < W32 := by omega
      rw [if_neg (by omega),Nat.mod_eq_of_lt hlt,ih _ _ _ _ _ (by omega),Nat.sub_sub]

end Ext2Fs
end ScalesOS
