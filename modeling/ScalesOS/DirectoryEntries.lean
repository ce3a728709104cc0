import Mathlib.Data.List.TakeWhile
import ScalesOS.DirectoryScans

/-!
# The entries of a directory

What `__ext2_readdir` lists and `__ext2_finddir` finds in a directory whose records are well formed
and can be read.
-/

namespace ScalesOS
open ByteMemory Storage SparseFile

namespace Ext2Dirent
variable {d r : Mem}

/-- The name of a record with all its bytes. -/
def name (r : Mem) : Path := (nameBytes r).map fun c => Char.ofNat c.toNat

/-- A variable that holds the start of a record. -/
def Holds (d r : Mem) : Prop := ∀ x < 8+nameLength r, d x = r x

theorem Holds.inode (h : Holds d r) : inode d = inode r := read32_congr fun x _ hx => h x (by omega)

theorem Holds.size (h : Holds d r) : size d = size r := read16_congr fun x _ hx => h x (by omega)

theorem Holds.nameLength (h : Holds d r) : nameLength d = nameLength r := by
  rw [Ext2Dirent.nameLength,h 6 (by omega)]
  rfl

theorem Holds.nameBytes (h : Holds d r) : nameBytes d = nameBytes r := by
  rw [Ext2Dirent.nameBytes,h.nameLength]
  exact load_congr fun x _ hx => h x hx

/-- The entry of a record whose name has no zeros has all of the name. -/
theorem Holds.entry (h : Holds d r) (hname : (0 : BitVec 8) ∉ Ext2Dirent.nameBytes r) :
    entry d = ⟨name r,Ext2Dirent.inode r⟩ := by
  have hall :
      (Ext2Dirent.nameBytes r).takeWhile (fun c => decide (c ≠ 0)) = Ext2Dirent.nameBytes r := by
    have hnonzero : ∀ c ∈ Ext2Dirent.nameBytes r, decide (c ≠ 0) = true := fun c hc =>
      decide_eq_true fun heq => hname (heq ▸ hc)
    exact List.takeWhile_eq_self_iff.mpr hnonzero
  rw [Ext2Dirent.entry,h.inode,h.nameBytes,pathOfBytes,hall]
  rfl

end Ext2Dirent

namespace Ext2Fs

/-- The records of a directory from an offset to its end. Each has room for its name, and no zeros
in the name if it is in use. -/
inductive Records (content : Mem) (size : ℕ) : ℕ → List Mem → Prop
  | nil : Records content size size []
  | cons {o : ℕ} {r : Mem} {l : List Mem} : (r = fun x => content (o+x)) →
      8+Ext2Dirent.nameLength r ≤ Ext2Dirent.size r → o+Ext2Dirent.size r ≤ size →
      (Ext2Dirent.inode r ≠ 0 → (0 : BitVec 8) ∉ Ext2Dirent.nameBytes r) →
      Records content size (o+Ext2Dirent.size r) l → Records content size o (r::l)

/-- The records that are in use. -/
def used (records : List Mem) : List Mem := records.filter fun r => Ext2Dirent.inode r ≠ 0

/-- In every state of the volume that is `good` the inode can be read and is a directory of this
size, and what is read of the directory begins with its content. -/
structure Readable (good : Ext2Fs → Prop) (dir size : ℕ) (content : Mem) : Prop where
  opens : ∀ fs, good fs → ∀ heap now, good (fs.readInode heap dir now).2 ∧
    ∃ ino, (fs.readInode heap dir now).1 = some ino ∧ Inode.isDir ino = true ∧
    Inode.sizeLow ino = size ∧ ∀ gs, good gs → ∀ heap offset, offset < size →
      good (gs.readInodeContents heap ino offset DIRENT_SIZE).2 ∧
        load content offset (min DIRENT_SIZE (size-offset)) <+:
        (gs.readInodeContents heap ino offset DIRENT_SIZE).1

variable {good : Ext2Fs → Prop} {dir size o : ℕ} {content ino r : Mem} {fs gs : Ext2Fs}
    {records : List Mem}

theorem Readable.size_lt (h : Readable good dir size content) (hgood : good fs) : size < W32 := by
  obtain ⟨-,ino,-,-,hlow,-⟩ := h.opens fs hgood (fun _ => 0) 0
  exact hlow ▸ read32_lt ino 4

theorem Records.length_le (h : Records content size o records) : 8*records.length+o ≤ size := by
  induction h with
  | nil => simp
  | cons _ hroom _ _ _ ih =>
    rw [List.length_cons]
    omega

theorem holds_of_prefix {dirent : Mem} {data : List (BitVec 8)}
    (hroom : 8+Ext2Dirent.nameLength (fun x => content (o+x)) ≤
      Ext2Dirent.size fun x => content (o+x))
    (hin : (o+Ext2Dirent.size fun x => content (o+x)) ≤ size)
    (hdata : load content o (min DIRENT_SIZE (size-o)) <+: data) :
    Ext2Dirent.Holds (store dirent 0 data) fun x => content (o+x) := by
  intro x hx
  have hname : Ext2Dirent.nameLength (fun x => content (o+x)) < 256 := (content (o+6)).isLt
  have hsize : DIRENT_SIZE = 263 := rfl
  have hlt : x < min DIRENT_SIZE (size-o) := by omega
  obtain ⟨more,rfl⟩ := hdata
  have hstore :=
    @store_inside dirent 0 x (load content o (min DIRENT_SIZE (size-o))++more) (by simp; omega)
  rw [Nat.zero_add] at hstore
  rw [hstore,List.getD_eq_getElem?_getD,List.getElem?_append_left (by simpa using hlt),
    getElem?_load _ _ hlt]
  rfl

theorem readInode_some (fs : Ext2Fs) (heap : Mem) (now : ℕ) {inode : ℕ} (h : inode ≠ 0) :
    ∃ ino gs, fs.readInode heap inode now = (some ino,gs) := by
  rw [readInode,if_neg h]
  split
  · exact ⟨_,_,rfl⟩
  · exact ⟨_,_,rfl⟩

theorem Records.trail (hrecords : Records content size o records) (hsize : size < W32)
    (hlow : Inode.sizeLow ino = size) (hread : ∀ gs, good gs → ∀ heap offset, offset < size →
      good (gs.readInodeContents heap ino offset DIRENT_SIZE).2 ∧
      load content offset (min DIRENT_SIZE (size-offset)) <+:
      (gs.readInodeContents heap ino offset DIRENT_SIZE).1) :
    ∀ dirent fs, good fs →
      Scans.Trail (ReaddirPlace.look ino) (fun r d => r.1 = d ∧ good r.2) none ⟨o,dirent,fs⟩
        (records.map fun r => if Ext2Dirent.inode r = 0 then none
          else some (some ⟨Ext2Dirent.name r,Ext2Dirent.inode r⟩)) := by
  induction hrecords with
  | nil =>
    intro dirent fs hgood
    refine .ended (fun _ => (none,fs)) fun heap => ⟨?_,rfl,hgood⟩
    rw [ReaddirPlace.look]
    exact if_pos hlow.le
  | @cons o r l hr hroom hin hname hrest ih =>
    intro dirent fs hgood
    subst hr
    have hlt : o < size := by omega
    have hholds :
        ∀ heap, Ext2Dirent.Holds (ReaddirPlace.readRecord ino heap ⟨o,dirent,fs⟩).dirent fun x =>
            content (o+x) :=
      fun heap => holds_of_prefix hroom hin (hread fs hgood heap o hlt).2
    have hnext : ∀ heap, ReaddirPlace.readRecord ino heap ⟨o,dirent,fs⟩ =
        ⟨o+Ext2Dirent.size fun x => content (o+x),
          (ReaddirPlace.readRecord ino heap ⟨o,dirent,fs⟩).dirent,
          (ReaddirPlace.readRecord ino heap ⟨o,dirent,fs⟩).fs⟩ := by
      intro heap
      have hoffset :
        (o+Ext2Dirent.size (ReaddirPlace.readRecord ino heap ⟨o,dirent,fs⟩).dirent)%W32 =
          o+Ext2Dirent.size fun x => content (o+x) := by
        rw [(hholds heap).size,Nat.mod_eq_of_lt (hin.trans_lt hsize)]
      rw [← hoffset]
      rfl
    have hgoes : ∀ heap, Scans.Trail (ReaddirPlace.look ino) (fun r d => r.1 = d ∧ good r.2) none
        (ReaddirPlace.readRecord ino heap ⟨o,dirent,fs⟩)
        (l.map fun r => if Ext2Dirent.inode r = 0 then none
          else some (some ⟨Ext2Dirent.name r,Ext2Dirent.inode r⟩)) := by
      intro heap
      rw [hnext]
      exact ih _ _ (hread fs hgood heap o hlt).1
    rw [List.map_cons]
    have hbefore : ¬ Inode.sizeLow ino ≤ o := by omega
    by_cases hfree : Ext2Dirent.inode (fun x => content (o+x)) = 0
    · rw [if_pos hfree]
      refine .passed (fun heap => ReaddirPlace.readRecord ino heap ⟨o,dirent,fs⟩) (fun heap =>
        ?_) hgoes
      rw [ReaddirPlace.look]
      dsimp only
      rw [if_neg hbefore,if_pos ((hholds heap).inode.trans hfree)]
    · rw [if_neg hfree]
      refine .listed (fun heap =>
        (some (Ext2Dirent.entry (ReaddirPlace.readRecord ino heap ⟨o,dirent,fs⟩).dirent),
        (ReaddirPlace.readRecord ino heap ⟨o,dirent,fs⟩).fs)) _ (fun heap =>
        ⟨?_,?_,(hread fs hgood heap o hlt).1⟩) hgoes
      · rw [ReaddirPlace.look]
        dsimp only
        rw [if_neg hbefore,if_neg fun h => hfree ((hholds heap).inode.symm.trans h)]
      · dsimp only
        rw [(hholds heap).entry (hname hfree)]

theorem filterMap_used (records : List Mem) :
    (records.map fun r => if Ext2Dirent.inode r = 0 then none
      else some (some (⟨Ext2Dirent.name r,Ext2Dirent.inode r⟩ : Dirent))).filterMap id =
      (used records).map fun r => some ⟨Ext2Dirent.name r,Ext2Dirent.inode r⟩ := by
  induction records with
  | nil => rfl
  | cons r l ih =>
    rw [used] at ih ⊢
    by_cases hfree : Ext2Dirent.inode r = 0
    · simpa [hfree] using ih
    · simpa [hfree] using ih

theorem readdir_eq (hread : Readable good dir size content)
    (hrecords : Records content size 0 records) (hgood : good fs)
    (call : ReaddirCall) {turns index : ℕ} (hturns : records.length < turns)
    (hindex : index < W32) :
    ∃ gs, fs.readdir turns call dir index =
      some (((used records)[index]?).map fun r => ⟨Ext2Dirent.name r,Ext2Dirent.inode r⟩,gs) ∧
          good gs := by
  obtain ⟨hopened,ino,hino,hdir,hlow,hcontents⟩ := hread.opens fs hgood call.opened call.now
  have htrail := hrecords.trail (hread.size_lt hgood) hlow hcontents call.dirent _ hopened
  obtain ⟨⟨entry,gs⟩,hnth,hentry,hgs⟩ :=
    htrail.nth_eq call.buffers index turns (by simpa using hturns)
  refine ⟨gs,?_,hgs⟩
  rcases hfs : fs.readInode call.opened dir call.now with ⟨opened,fs'⟩
  rw [hfs] at hino hnth
  dsimp only at hino hnth
  rw [readdir,hfs,hino]
  dsimp only
  rw [if_pos hdir,readdirLoop_eq hindex turns call.buffers 0 0 call.dirent fs' (Nat.zero_le _),
    Nat.sub_zero,hnth]
  rw [filterMap_used,List.getElem?_map] at hentry
  dsimp only at hentry
  rw [hentry]
  cases (used records)[index]? <;> rfl

/-- The loop of `__ext2_finddir` finds the first of the remaining records with the name. -/
theorem entryLoop_eq (hread : Readable good dir size content)
    (hrecords : Records content size 0 records)
    {turns : ℕ} (hturns : records.length < turns) (calls : ℕ → ReaddirCall)
    (folder : Path) (entries : ℕ) :
    ∀ (index : ℕ) (fs : Ext2Fs), good fs → (used records).length < entries+index →
      index ≤ (used records).length →
      ∃ node gs, entryLoop turns calls dir folder entries index fs = some (node,gs) ∧
        node.map (fun n => (n.name,n.inode)) =
          (((used records).drop index).find? fun r => Ext2Dirent.name r = folder).map fun r =>
          (folder,Ext2Dirent.inode r) := by
  have hlength : (used records).length ≤ records.length := List.length_filter_le _ _
  have hbound := hrecords.length_le
  induction entries with
  | zero => exact fun index fs _ hmore hle => by omega
  | succ entries ih =>
    intro index fs hgood hmore hle
    have hsize := hread.size_lt hgood
    obtain ⟨gs,hcall,hgs⟩ :=
      readdir_eq hread hrecords hgood (calls index) hturns (show index < W32 by omega)
    rw [entryLoop,hcall]
    rcases Nat.lt_or_ge index (used records).length with hlt | hend
    · rw [List.getElem?_eq_getElem hlt,List.drop_eq_getElem_cons hlt]
      dsimp only [Option.map_some]
      by_cases hname : Ext2Dirent.name (used records)[index] = folder
      · have hinode : Ext2Dirent.inode (used records)[index] ≠ 0 := by
          have hmem := List.getElem_mem hlt
          simpa using (List.mem_filter.mp hmem).2
        obtain ⟨ino,hs,hopen⟩ := readInode_some gs (calls index).entry (calls index).now hinode
        rw [if_pos hname,fromInode,hopen,List.find?_cons_of_pos (by simpa using hname)]
        exact ⟨_,_,rfl,by rw [Option.map_some,Option.map_some,hname]⟩
      · rw [if_neg hname,List.find?_cons_of_neg (by simpa using hname),Nat.mod_eq_of_lt (by omega)]
        exact ih _ _ hgs (by omega) hlt
    · rw [List.getElem?_eq_none hend,List.drop_eq_nil_of_le hend]
      exact ⟨none,gs,rfl,rfl⟩

/-- In every directory with well-formed records that can be read, `__ext2_readdir` gives the name
and the inode of the record in use with the index, and nothing behind the last one, and
`__ext2_finddir` finds a node for a single name exactly if a record in use has it, with the inode
of the first such record. -/
theorem readdir_finddir (hread : Readable good dir size content)
    (hrecords : Records content size 0 records)
    (hgood : good fs) {turns : ℕ} (hturns : records.length < turns) :
    (∀ call index, index < W32 → ∃ gs, fs.readdir turns call dir index =
      some (((used records)[index]?).map fun r => ⟨Ext2Dirent.name r,Ext2Dirent.inode r⟩,gs)) ∧
    ∀ calls (root : Ext2Node) (name : Path), root.inode = dir → '/' ∉ name →
      ∃ node gs, fs.finddir turns calls root name = some (node,gs) ∧
        node.map (fun n => (n.name,n.inode)) =
          ((used records).find? fun r => Ext2Dirent.name r = name).map fun r =>
          (name,Ext2Dirent.inode r) := by
  constructor
  · intro call index hindex
    obtain ⟨gs,hcall,-⟩ := readdir_eq hread hrecords hgood call hturns hindex
    exact ⟨gs,hcall⟩
  · intro calls root name hroot hname
    have hlength : (used records).length ≤ records.length := List.length_filter_le _ _
    obtain ⟨node,gs,hloop,hnode⟩ :=
      entryLoop_eq hread hrecords hturns (calls 0) name turns 0 fs hgood (by omega)
      (Nat.zero_le _)
    rw [List.drop_zero] at hnode
    refine ⟨node,gs,?_,hnode⟩
    rw [finddir,Path.segments_eq,Path.names_single hname,List.map_singleton,folderLoop,hroot,hloop]
    cases node with
    | none => rfl
    | some n =>
      have hn : n.name = name := by
        obtain ⟨r,-,heq⟩ := Option.map_eq_some_iff.mp hnode.symm
        exact (congrArg Prod.fst heq).symm
      dsimp only
      rw [folderLoop]
      dsimp only
      rw [Path.filename_single hname,if_pos (congrArg some hn)]

theorem readInodeContents_prefix {target : ℕ → ℕ} {n : ℕ} (hv : fs.Volume) (hok : fs.BlocksOk)
    (heap : Mem) {offset size : ℕ} (hoffset : offset < Inode.sizeLow ino) (hsize : size < W32)
    (hn : n ≤ min size (Inode.sizeLow ino-offset)) (hmaps : fs.Maps ino target offset n) :
    load (fs.fileMem target) offset n <+: (fs.readInodeContents heap ino offset size).1 := by
  have hgiven :
    Given heap ino fs.blockSize (fun k => offset/fs.blockSize ≤ k ∧
      k*fs.blockSize < offset+n) target
      (fun block x => fs.device.byte (block*fs.blockSize+x)) (ReadsOnly fs) := by
    apply given_of_volume hv hok heap
    · rintro k ⟨hlow,hhigh⟩
      obtain ⟨blocks,hblock,-,-⟩ := hmaps k hlow hhigh
      exact ⟨blocks,hblock⟩
    · rintro k ⟨hlow,hhigh⟩
      obtain ⟨-,-,-,hlt⟩ := hmaps k hlow hhigh
      exact hlt
  have hle : n ≤ clampedSize ino offset size := by
    rw [clampedSize_eq hoffset hsize]
    split <;> omega
  have hfront :=
    contentsLoop_prefix hgiven (clampedSize ino offset size) (clampedSize ino offset size) n
      offset heap fs []
    le_rfl hle .refl fun k hlow hhigh => by
      obtain ⟨-,-,hne,-⟩ := hmaps k hlow hhigh
      exact ⟨⟨hlow,hhigh⟩,hne⟩
  have hfile : load (fs.fileMem target) offset n =
      load (fileByte fs.blockSize target fun block x =>
          fs.device.byte (block*fs.blockSize+x)) offset n := by
    apply load_congr
    intro x hlow hhigh
    obtain ⟨-,-,hne,-⟩ := hmaps (x/fs.blockSize) (Nat.div_le_div_right hlow)
      ((Nat.div_mul_le_self x fs.blockSize).trans_lt hhigh)
    rw [fileByte,if_neg hne,fileMem]
  rw [readInodeContents,if_neg (Nat.not_le.mpr hoffset),hfile]
  exact hfront

/-- A directory of a volume all of whose blocks are there can be read. -/
theorem readable_of_volume {target : ℕ → ℕ} (hv : fs.Volume) (hi : fs.HasInode dir)
    (hdir : Inode.isDir (fs.inodeMem dir) = true)
    (hmaps : fs.Maps (fs.inodeMem dir) target 0 (Inode.sizeLow (fs.inodeMem dir))) :
    Readable (fun gs => SameVolume fs gs ∧ gs.Coherent) dir (Inode.sizeLow (fs.inodeMem dir))
        (fs.fileMem target) := by
  constructor
  rintro gs ⟨hsame,hc⟩ heap now
  obtain ⟨hsame',hc',ino,hino,hdevice⟩ :=
    readInode_ok (hsame.layout.isVolume hv) hc (hsame.layout.hasInode.mpr hi) heap now
  have hdevice' : fs.DeviceInode dir ino := hsame.deviceInode.mp hdevice
  refine ⟨⟨hsame.trans hsame',hc'⟩,ino,hino,by rw [hdevice'.isDir hv,hdir],hdevice'.sizeLow hv,?_⟩
  rintro hs ⟨hsame'',hc''⟩ heap' offset hoffset
  have hreads := readInodeContents_reads hs heap' ino offset DIRENT_SIZE
  refine ⟨⟨hsame''.trans hreads.same.toSameVolume,
    hreads.coherent (hsame''.layout.isVolume hv) hc''⟩,?_⟩
  have hmem : hs.fileMem target = fs.fileMem target := by
    funext x
    rw [fileMem,hsame''.layout.blockSize,hsame''.device,fileMem]
  rw [← hmem]
  refine readInodeContents_prefix (hsame''.layout.isVolume hv) hc''.blocks heap' ?_ (by
    decide) ?_ ?_
  · rwa [hdevice'.sizeLow hv]
  · rw [hdevice'.sizeLow hv]
  · rw [Maps,hsame''.layout.blockSize,hsame''.superblock]
    intro k _ hhigh
    obtain ⟨blocks,hmap,hne,hlt⟩ := hmaps k (by simp) (by omega)
    exact ⟨blocks,(hsame''.sameIn blocks).mapBlock (hdevice'.samePointers hv) hmap,hne,hlt⟩

def twoFiles : List (BitVec 8) :=
  [11,0,0,0,12,0,1,1,97,0,0,0]++[0,0,0,0,12,0,1,1,98,0,0,0]++[12,0,0,0,12,0,1,1,98,0,0,
    0]++List.replicate 988 0

theorem Records.of_size {n : ℕ} {l : List Mem} (hn : (Ext2Dirent.size fun x => content (o+x)) = n)
    (hroom : (8+Ext2Dirent.nameLength fun x => content (o+x)) ≤ n) (hin : o+n ≤ size)
    (hname : (0 : BitVec 8) ∉ Ext2Dirent.nameBytes fun x => content (o+x))
    (h : Records content size (o+n) l) :
    Records content size o ((fun x => content (o+x))::l) := by
  subst hn
  exact .cons rfl hroom hin (fun _ => hname) h

theorem readdir_finddir_two :
    (∃ gs, (directoryVolume 36 twoFiles).readdir 4 ⟨0,fun _ => 0,fun _ => 0,fun _ _ => 0,
      fun _ => 0⟩ 2 1 =
      some (some ⟨['b'],12⟩,gs)) ∧
    ∃ node gs, (directoryVolume 36 twoFiles).finddir 4 (fun _ _ =>
      ⟨0,fun _ => 0,fun _ => 0,fun _ _ => 0,fun _ => 0⟩)
      ⟨[],2,36,true⟩ ['b'] = some (node,gs) ∧ node.map (fun n => (n.name,n.inode)) =
          some (['b'],12) := by
  have hv := directoryVolume_volume 36 twoFiles
  have hdevice := directoryVolume_inode 36 twoFiles
  have hlow : Inode.sizeLow ((directoryVolume 36 twoFiles).inodeMem 2) = 36 := by
    rw [← hdevice.sizeLow hv]
    decide
  have hread :=
    readable_of_volume hv ⟨by
      decide,by rw [(directoryVolume_address 36 twoFiles).1]; exact show 2 < 8 by decide⟩
    (by rw [← hdevice.isDir hv]; decide)
    (@directoryVolume_maps 36 twoFiles (by decide))
  rw [hlow] at hread
  have hrecords : Records ((directoryVolume 36 twoFiles).fileMem fun _ => 3) 36 0 _ :=
    .of_size (n:=12) (by decide +kernel) (by decide +kernel) (by decide) (by decide +kernel)
      (.of_size (n:=12) (by decide +kernel) (by decide +kernel) (by decide) (by decide +kernel)
        (.of_size (n:=12) (by decide +kernel) (by decide +kernel) (by decide) (by
          decide +kernel) .nil))
  obtain ⟨hlist,hfind⟩ :=
    readdir_finddir hread hrecords ⟨.refl,directoryVolume_coherent (by decide +kernel)⟩
      (show _ < 4 by decide)
  constructor
  · obtain ⟨gs,hgs⟩ := hlist ⟨0,fun _ => 0,fun _ => 0,fun _ _ => 0,fun _ => 0⟩ 1 (by decide)
    exact ⟨gs,hgs.trans (congrArg (fun entry => some (entry,gs)) (by decide +kernel))⟩
  · obtain ⟨node,gs,hgs,hnode⟩ :=
      hfind (fun _ _ => ⟨0,fun _ => 0,fun _ => 0,fun _ _ => 0,fun _ => 0⟩) ⟨[],2,36,true⟩ ['b']
      rfl (by decide)
    exact ⟨node,gs,hgs,hnode.trans (by decide +kernel)⟩

end Ext2Fs
end ScalesOS
