import ScalesOS.Paths
import ScalesOS.Scans
import ScalesOS.Storage

/-!
# Archives

`kernel/src/fs/tar.c`, as far as it walks through the headers of an archive. Each step is as long as
the header says, and offsets have 32 bits.
-/

namespace ScalesOS
open Storage ByteMemory

namespace Tar

/-- `sizeof(tar_header_t)`. -/
def HEADER_SIZE : ℕ := 157

/-- The loop of `__k_fs_tar_get_size`. -/
def getSizeLoop (sz : ℕ → BitVec 8) : (j : ℕ) → (size count : BitVec 32) → BitVec 32
  | 0,size,_ => size
  | j+1,size,count => getSizeLoop sz j (size+((sz j).signExtend 32-48)*count) (count*8)

def getSize (sz : ℕ → BitVec 8) : ℕ := (getSizeLoop sz 11 0 1).toNat

/-- `__k_fs_tar_read_header`. The bytes that the device does not have are those of the `fresh`
memory that the header is read into, and so is what stands behind it. -/
def readHeader (dev : Device) (fresh : List (BitVec 8)) (offset : ℕ) : List (BitVec 8) :=
  let data := dev.read offset HEADER_SIZE
  data++fresh.drop data.length

def filename (header : List (BitVec 8)) : Path := pathOfBytes header
def sizeField (header : List (BitVec 8)) : ℕ := getSize fun j => header.getD (124+j) 0

/-- How far it is from a header to the next one, in 32 bits. -/
def step (header : List (BitVec 8)) : ℕ :=
  let size := sizeField header
  (size/512+1)*512+if size%512 ≠ 0 then 512 else 0

theorem step_pos (header : List (BitVec 8)) : 0 < step header :=
  Nat.add_pos_left (Nat.mul_pos (Nat.succ_pos _) (by decide)) _

structure Node where
  name : Path
  inode : ℕ
  size : ℕ
  deriving DecidableEq

/-- The name that a file of an archive gets. The source has the filename of a path for it, which is
there for all paths. -/
def lastName (header : List (BitVec 8)) : Path := (Path.kUtilPathFilename (filename header)).getD []

def createNode (header : List (BitVec 8)) (offset : ℕ) : Node :=
  ⟨lastName header,offset,sizeField header⟩

def kUtilPathJoin (base append : Path) : Path :=
  Path.kUtilPathStrip base++ '/'::Path.kUtilPathStrip append

/-- The comparison of `__k_fs_tar_readdir`: the number of segments, and `strncmp`. -/
def Listed (folder name : Path) : Prop :=
  Path.kUtilPathLength name = Path.kUtilPathLength folder+1 ∧ folder <+: name

instance (folder name : Path) : Decidable (Listed folder name) := by
  unfold Listed
  infer_instance

/-- The loop of `__k_fs_tar_readdir`, unless it takes more turns. -/
def readdirLoop (dev : Device) (folder : Path) (index : ℕ) :
    (turns : ℕ) → (fresh : ℕ → List (BitVec 8)) → (offs i : ℕ) →
    Option (Option Dirent)
  | 0,_,_,_ => none
  | turns+1,fresh,offs,i =>
    if dev.size ≤ offs then some none
    else
      let header := readHeader dev (fresh 0) offs
      if filename header = [] then some none
      else if Listed folder (filename header) ∧ i = index then some (some ⟨lastName header,offs⟩)
      else
        readdirLoop dev folder index turns (fun n => fresh (n+1)) ((offs+step header)%W32)
          (if Listed folder (filename header) then (i+1)%W32 else i)

/-- `__k_fs_tar_readdir` of the directory with the header at `node`. `parent` is the fresh memory
for that header. -/
def readdir (dev : Device) (turns : ℕ) (parent : List (BitVec 8)) (fresh : ℕ → List (BitVec 8))
    (node index : ℕ) :
    Option (Option Dirent) :=
  if index = 0 then some (some ⟨['.'],0⟩)
  else if index = 1 then some (some ⟨['.', '.'],0⟩)
  else readdirLoop dev (Path.kUtilPathStrip (filename (readHeader dev parent node)))
    (index-2) turns fresh 0 0

/-- The loop of `__k_fs_tar_finddir`, unless it takes more turns. -/
def finddirLoop (dev : Device) (fullpath : Path) :
    (turns : ℕ) → (fresh : ℕ → List (BitVec 8)) → (offs : ℕ) →
    Option (Option Node)
  | 0,_,_ => none
  | turns+1,fresh,offs =>
    if dev.size ≤ offs then some none
    else
      let header := readHeader dev (fresh 0) offs
      if filename header = [] then some none
      else if Path.kUtilPathStrip (filename header) = fullpath then
        some (some (createNode header offs))
      else finddirLoop dev fullpath turns (fun n => fresh (n+1)) ((offs+step header)%W32)

def finddir (dev : Device) (turns : ℕ) (parent : List (BitVec 8)) (fresh : ℕ → List (BitVec 8))
    (node : ℕ) (path : Path) :
    Option (Option Node) :=
  finddirLoop dev (kUtilPathJoin (filename (readHeader dev parent node)) path) turns fresh 0

theorem getSizeLoop_congr {sz sz' : ℕ → BitVec 8} (j : ℕ) : ∀ size count, (∀ i < j, sz i = sz' i) →
    getSizeLoop sz j size count = getSizeLoop sz' j size count := by
  induction j with
  | zero => exact fun _ _ _ => rfl
  | succ j ih =>
    intro size count h
    rw [getSizeLoop,getSizeLoop,h j (Nat.lt_succ_self j)]
    exact ih _ _ fun i hi => h i (hi.trans (Nat.lt_succ_self j))

theorem sizeField_append {data : List (BitVec 8)} (h : HEADER_SIZE ≤ data.length)
    (rest : List (BitVec 8)) :
    sizeField (data++rest) = sizeField data := by
  rw [sizeField,sizeField,getSize,getSize,getSizeLoop_congr]
  intro i hi
  have hin : 124+i < data.length := by
    have hsize : HEADER_SIZE = 157 := rfl
    omega
  rw [List.getD_eq_getElem?_getD,List.getD_eq_getElem?_getD,List.getElem?_append_left hin]

theorem readHeader_eq {dev : Device} {offs : ℕ} (h : offs+HEADER_SIZE ≤ dev.size)
    (fresh : List (BitVec 8)) :
    readHeader dev fresh offs = load dev.byte offs HEADER_SIZE++fresh.drop HEADER_SIZE := by
  rw [readHeader,dev.read_eq h,length_load]

theorem step_readHeader {dev : Device} {offs : ℕ} (h : offs+HEADER_SIZE ≤ dev.size)
    (fresh : List (BitVec 8)) :
    step (readHeader dev fresh offs) = step (load dev.byte offs HEADER_SIZE) := by
  rw [step,step,readHeader_eq h,sizeField_append (length_load _ _ _).ge]

def look {γ : Type} (dev : Device) (wanted : List (BitVec 8) → Prop) [DecidablePred wanted]
    (found : List (BitVec 8) → ℕ → γ) (fresh : List (BitVec 8)) (offs : ℕ) :
    Scans.Turn ℕ (Option γ) :=
  let header := readHeader dev fresh offs
  let next := (offs+step header)%W32
  if dev.size ≤ offs ∨ filename header = [] then .ended none
  else if wanted header then .listed (some (found header offs)) next
  else .passed next

/-- The headers that the two walks look for, and what they make of them. -/
def lookListed (dev : Device) (folder : Path) : List (BitVec 8) → ℕ →
    Scans.Turn ℕ (Option Dirent) :=
  look dev (fun header => Listed folder (filename header)) fun header offs => ⟨lastName header,offs⟩

def lookNamed (dev : Device) (fullpath : Path) : List (BitVec 8) → ℕ → Scans.Turn ℕ (Option Node) :=
  look dev (fun header => Path.kUtilPathStrip (filename header) = fullpath) createNode

variable {dev : Device} {folder fullpath : Path}

theorem readdirLoop_eq {index : ℕ} (hindex : index < W32) (turns : ℕ) :
    ∀ (fresh : ℕ → List (BitVec 8)) (offs i : ℕ), i ≤ index →
    readdirLoop dev folder index turns fresh offs i =
    Scans.nth (lookListed dev folder) turns fresh (index-i) offs := by
  induction turns with
  | zero => exact fun _ _ _ _ => rfl
  | succ turns ih =>
    intro fresh offs i hle
    rw [readdirLoop,Scans.nth,lookListed,look]
    dsimp only
    by_cases hend : dev.size ≤ offs
    · rw [if_pos hend,if_pos (Or.inl hend)]
    by_cases hempty : filename (readHeader dev (fresh 0) offs) = []
    · rw [if_neg hend,if_pos hempty,if_pos (Or.inr hempty)]
    rw [if_neg hend,if_neg hempty,if_neg (not_or.mpr ⟨hend,hempty⟩)]
    generalize readHeader dev (fresh 0) offs = header
    by_cases hlisted : Listed folder (filename header)
    · rw [if_pos hlisted,if_pos hlisted]
      by_cases hi : i = index
      · rw [if_pos ⟨hlisted,hi⟩]
        dsimp only
        rw [if_pos (by omega)]
      · have hlt : i+1 < W32 := by omega
        rw [if_neg fun h => hi h.2]
        dsimp only
        rw [if_neg (by omega),Nat.mod_eq_of_lt hlt,ih _ _ _ (by omega),Nat.sub_sub]
        rfl
    · rw [if_neg hlisted,if_neg hlisted,if_neg fun h => hlisted h.1]
      exact ih _ _ _ hle

theorem finddirLoop_eq (turns : ℕ) : ∀ (fresh : ℕ → List (BitVec 8)) (offs : ℕ),
    finddirLoop dev fullpath turns fresh offs =
    Scans.nth (lookNamed dev fullpath) turns fresh 0 offs := by
  induction turns with
  | zero => exact fun _ _ => rfl
  | succ turns ih =>
    intro fresh offs
    rw [finddirLoop,Scans.nth,lookNamed,look]
    dsimp only
    by_cases hend : dev.size ≤ offs
    · rw [if_pos hend,if_pos (Or.inl hend)]
    by_cases hempty : filename (readHeader dev (fresh 0) offs) = []
    · rw [if_neg hend,if_pos hempty,if_pos (Or.inr hempty)]
    rw [if_neg hend,if_neg hempty,if_neg (not_or.mpr ⟨hend,hempty⟩)]
    by_cases hname : Path.kUtilPathStrip (filename (readHeader dev (fresh 0) offs)) = fullpath
    · rw [if_pos hname,if_pos hname]
      rfl
    · rw [if_neg hname,if_neg hname]
      exact ih _ _

section
variable {γ : Type} {wanted : List (BitVec 8) → Prop} [DecidablePred wanted]
    {found : List (BitVec 8) → ℕ → γ}

theorem look_passed {fresh : List (BitVec 8)} {a b : ℕ}
    (h : look dev wanted found fresh a = .passed b) :
    a < dev.size ∧ filename (readHeader dev fresh a) ≠ [] ∧ ¬ wanted (readHeader dev fresh a) ∧
      b = (a+step (readHeader dev fresh a))%W32 := by
  rw [look] at h
  split_ifs at h with hend hwanted
  rw [not_or,Nat.not_le] at hend
  exact ⟨hend.1,hend.2,hwanted,(Scans.Turn.passed.inj h).symm⟩

theorem filename_eq_nil {offs : ℕ} (hin : offs < dev.size) (hzero : dev.byte offs = 0)
    (fresh : List (BitVec 8)) :
    filename (readHeader dev fresh offs) = [] := by
  obtain ⟨n,hn⟩ : ∃ n, dev.available offs HEADER_SIZE = 1+n := by
    have hpos : 0 < dev.available offs HEADER_SIZE := lt_min (by decide) (by omega)
    exact ⟨dev.available offs HEADER_SIZE-1,by omega⟩
  have hfirst : load dev.byte offs 1 = [0] := by
    rw [← hzero]
    rfl
  rw [filename,readHeader,Device.read,hn,load_add,hfirst]
  rfl

/-- No header leads back if none has a size that leads over the end of the 32-bit offsets. -/
theorem not_meets_of_sizes (hsizes : ∀ offs fresh, offs < dev.size →
    offs+step (readHeader dev fresh offs) < W32)
    (index : ℕ) : ¬ Scans.Meets (look dev wanted found) (fun offs next => next ≤ offs) index 0 := by
  rintro ⟨x,b,-,⟨fresh,hpass⟩,hback⟩
  obtain ⟨hin,-,-,hb⟩ := look_passed hpass
  have hpos := step_pos (readHeader dev fresh x.2)
  rw [Nat.mod_eq_of_lt (hsizes x.2 fresh hin)] at hb
  omega

end

end Tar
end ScalesOS
