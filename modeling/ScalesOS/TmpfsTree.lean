import ScalesOS.Canonize
import ScalesOS.MountRuns
import ScalesOS.NameTree
import ScalesOS.Tmpfs

/-!
# The tree of a tmpfs

`fs/tmpfs.c` below a mount point, as the calls of `fs/vfs.c` and `int/syscall.c` use it: nodes
in the kernel heap with pointers to their parents and children, a file system node for each
lookup, and the contents of each node in an address space of its own. The paths that lead below
the mount point are looked up in a tree of files that the nodes are laid out as.
-/

namespace ScalesOS
namespace TmpfsTree

open ByteMemory NameTree Storage

def O_RDONLY : ℕ := 1
def O_WRONLY : ℕ := 2
def O_CREAT : ℕ := 4
def O_NOFOLLOW : ℕ := 32

def EPERM : ℤ := 1
def ENOENT : ℤ := 2
def ENOTDIR : ℤ := 20
def EISDIR : ℤ := 21

/-- `k_util_path_folder`: the path up to its last slash. -/
def kUtilPathFolder (path : Path) : Path :=
  if path = ['/'] then path else (path.reverse.dropWhile (· ≠ '/')).tail.reverse

/-- The path that `__sys_to_fullpath` gives. -/
def fullpath (wd path : Path) : Path := (Path.sysToFullpath wd path).elim ['/'] StringBuffer.string

/-- The type of a `tmpfs_node_t`, and its contents. -/
structure TmpfsData where
  dir : Bool
  contents : TmpfsNode

/-- `tmpfs_node_t`. -/
abbrev TmpfsCell := Cell Path TmpfsData

/-- `fs_node_t` of a tmpfs; only the node of the mount has a mount point. -/
structure FsNode where
  name : Path
  device : ℕ
  dir : Bool
  size : ℕ
  mountpoint : Option ℕ
  deriving DecidableEq

/-- A node that `k_fs_vfs_open` has returned. -/
structure OpenNode where
  node : VfsNode FsNode
  mode : ℕ

/-- What `k_calloc` gives for a new node, and what the frames hold that are not in use yet. -/
structure Fresh where
  address : ℕ
  memory : Mem

def Fresh.unused : Fresh := ⟨0,fun _ => 0⟩

structure Tmpfs where
  vfs : Vfs FsNode
  nodes : ℕ → Option TmpfsCell
  opened : ℕ → Option OpenNode

/-- What the callers see. -/
inductive Answer
  /-- of an opened node, whether it is a directory and its size -/
  | node (found : Option (Bool × ℕ))
  | value (r : ℤ)
  /-- with the bytes stored and whether the caller's address space is the current one again -/
  | read (r : ℤ) (stored : List (BitVec 8)) (restored : Bool)
  | dirent (d : Option Dirent)
  | done
  deriving DecidableEq

namespace Tmpfs

def toFsNode (p : ℕ) (cell : TmpfsCell) : FsNode :=
  ⟨cell.name,p,cell.value.dir,cell.value.contents.size,none⟩

def finddir (s : Tmpfs) (root : FsNode) (path : Path) : Option FsNode := do
  let dir ← s.nodes root.device
  let p ← dir.children.find? fun p => (s.nodes p).map Cell.name = some path
  (s.nodes p).map (toFsNode p)

def fileSystems (s : Tmpfs) : FileSystems FsNode :=
  ⟨FsNode.name,s.finddir,fun _ => false,fun _ => []⟩

/-- `__k_fs_tmpfs_create_node` below a parent, for a file or a directory. -/
def createNode (s : Tmpfs) (fresh : Fresh) (name : Path) (dir : Bool) (parent : ℕ) : Tmpfs :=
  let nodes :=
    Function.update s.nodes fresh.address (some ⟨name,⟨dir,TmpfsNode.create fresh.memory⟩,
      some parent,[]⟩)
  let dir :=
    (s.nodes parent).map fun cell => { cell with children := cell.children++[fresh.address] }
  { s with nodes := Function.update nodes parent dir }

def create (s : Tmpfs) (fresh : Fresh) (root : FsNode) (path : Path) : FsNode × Tmpfs :=
  (⟨path,fresh.address,false,0,none⟩,s.createNode fresh path false root.device)

def mkdir (s : Tmpfs) (fresh : Fresh) (root : FsNode) (path : Path) : FsNode × Tmpfs :=
  (⟨path,fresh.address,true,0,none⟩,s.createNode fresh path true root.device)

/-- `__k_fs_tmpfs_rm`. For the children it takes a `tmpfs_node_t` for a `fs_node_t`, and reads
a pointer out of the name. -/
def rm (s : Tmpfs) (node : FsNode) : Result Tmpfs :=
  match s.nodes node.device with
  | none => throw (.panic "Page fault")
  | some cell =>
    match cell.parent with
    | none => pure { s with nodes := Function.update s.nodes node.device none }
    | some parent =>
      if cell.children ≠ [] then throw (.panic "Page fault")
      else
        let dir :=
          (s.nodes parent).map fun cell => { cell with children := cell.children.erase node.device }
        let nodes := Function.update s.nodes parent dir
        pure { s with nodes := Function.update nodes node.device none }

def readdir (s : Tmpfs) (root : FsNode) (index : ℕ) : Option Dirent :=
  if index = 0 then some ⟨['.'],0⟩
  else if index = 1 then some ⟨['.','.'],1⟩
  else do
    let dir ← s.nodes root.device
    let p ← dir.children[index-2]?
    (s.nodes p).map fun child => ⟨child.name,index-2⟩

/-- `__k_fs_vfs_find_node`; no node is a symbolic link. -/
def findNode (s : Tmpfs) (path : Path) (flags : ℕ) : Result (Option (VfsNode FsNode)) :=
  s.vfs.kFsVfsFindNode s.fileSystems 0 path (decide (flags &&& O_NOFOLLOW ≠ 0))

/-- `k_fs_vfs_open`. The folder is opened for writing, which never creates it. -/
def kFsVfsOpen (s : Tmpfs) (path : Path) (mode : ℕ) (fresh : Fresh) :
    Result (Option (VfsNode FsNode) × Tmpfs) := do
  let canon_path := Path.kUtilPathCanonize path []
  match ← s.findNode canon_path mode with
  | some node => pure (some node,s)
  | none =>
    if mode &&& O_CREAT = 0 then pure (none,s)
    else
      let root_folder ← s.findNode (Path.kUtilPathCanonize (kUtilPathFolder canon_path) []) O_WRONLY
      match root_folder,Path.kUtilPathFilename canon_path with
      | some (.file folder),some name =>
        let (node,s) := s.create fresh folder name
        pure (some (.file node),s)
      | _,_ => pure (none,s)

def kFsVfsRead (s : Tmpfs) (node : OpenNode) (supply : Supply) (offset size : ℕ) : Result Answer :=
  match node.node with
  | .virtual _ => pure (.read (-EPERM) [] true)
  | .file n =>
    if node.mode &&& O_RDONLY = 0 then pure (.read (-EPERM) [] true)
    else
      match s.nodes n.device with
      | none => throw (.panic "Page fault")
      | some cell => do
        let r ← cell.value.contents.read supply n.size offset size
        pure (.read r.value r.stored r.restored)

def kFsVfsWrite (s : Tmpfs) (node : OpenNode) (supply : Supply) (offset : ℕ)
    (data : List (BitVec 8)) : Result (Answer × Tmpfs) :=
  match node.node with
  | .virtual _ => pure (.value (-EPERM),s)
  | .file n =>
    if node.mode &&& O_WRONLY = 0 then pure (.value (-EPERM),s)
    else
      match s.nodes n.device with
      | none => throw (.panic "Page fault")
      | some cell => do
        let (r,contents) ← cell.value.contents.write supply offset data
        let cell := { cell with value := { cell.value with contents := contents } }
        pure (.value r,{ s with nodes := Function.update s.nodes n.device (some cell) })

def virtualReaddir (s : Tmpfs) (e index : ℕ) : Option Dirent :=
  if index = 0 then some ⟨['.'],0⟩
  else if index = 1 then some ⟨['.','.'],1⟩
  else (s.vfs.entries e).children[index-2]?.map fun c => ⟨(s.vfs.entries c).name,1⟩

def kFsVfsReaddir (s : Tmpfs) (node : OpenNode) (index : ℕ) : Option Dirent :=
  match node.node with
  | .virtual e => s.virtualReaddir e index
  | .file n =>
    match n.mountpoint with
    | none => s.readdir n index
    | some e =>
      match (s.vfs.entries e).children[index]? with
      | some c => some ⟨(s.vfs.entries c).name,1⟩
      | none => s.readdir n (index-(s.vfs.entries e).children.length)

def dropMountpoint (s : Tmpfs) : Option ℕ → Tmpfs
  | none => s
  | some e => { s with vfs := (s.vfs.treeRemoveNode e).freeEntry e }

/-- What `k_fs_vfs_rm` and `k_fs_vfs_rmdir` do to a node of the right kind. -/
def removeNode (s : Tmpfs) : VfsNode FsNode → Result Tmpfs
  | .virtual e => pure (s.dropMountpoint (some e))
  | .file n => do
    let s ← s.rm n
    pure (s.dropMountpoint n.mountpoint)

def isDir : VfsNode FsNode → Bool
  | .virtual _ => true
  | .file n => n.dir

def kFsVfsRm (s : Tmpfs) (node : VfsNode FsNode) : Result (Answer × Tmpfs) :=
  if isDir node then pure (.value (-EISDIR),s)
  else do
    let s ← s.removeNode node
    pure (.value 0,s)

def kFsVfsRmdir (s : Tmpfs) (node : VfsNode FsNode) : Result (Answer × Tmpfs) :=
  if isDir node = false then pure (.value (-ENOTDIR),s)
  else do
    let s ← s.removeNode node
    pure (.value 0,s)

def sysMkdir (s : Tmpfs) (wd path : Path) (mode : ℕ) (first second : Fresh) :
    Result (Answer × Tmpfs) := do
  let full := fullpath wd path
  match Path.kUtilPathFilename full with
  | none => throw (.panic "Page fault")
  | some name =>
    let (par_node,s) ← s.kFsVfsOpen (kUtilPathFolder full) mode first
    match par_node with
    | none => pure (.value (-ENOENT),s)
    | some (.virtual _) => pure (.value 0,s)
    | some (.file node) => pure (.value 0,(s.mkdir second node name).2)

def sysRm (s : Tmpfs) (wd path : Path) : Result (Answer × Tmpfs) := do
  let (node,s) ← s.kFsVfsOpen (fullpath wd path) 0 .unused
  match node with
  | none => pure (.value (-ENOENT),s)
  | some node => s.kFsVfsRm node

def sysRmdir (s : Tmpfs) (wd path : Path) : Result (Answer × Tmpfs) := do
  let (node,s) ← s.kFsVfsOpen (fullpath wd path) 0 .unused
  match node with
  | none => pure (.value (-ENOENT),s)
  | some node => s.kFsVfsRmdir node

end Tmpfs

/-- A call, with the working directory and the path, or the number of an open node. -/
inductive Call
  | open (node : ℕ) (wd path : Path) (mode : ℕ) (fresh : Fresh)
  | close (node : ℕ)
  | read (node : ℕ) (supply : Supply) (offset size : ℕ)
  | write (node : ℕ) (supply : Supply) (offset : ℕ) (data : List (BitVec 8))
  | readdir (node index : ℕ)
  | mkdir (wd path : Path) (mode : ℕ) (first second : Fresh)
  | rm (wd path : Path)
  | rmdir (wd path : Path)

/-- What `k_fs_vfs_open` tells of a node. -/
def shown : VfsNode FsNode → Bool × ℕ
  | .virtual _ => (true,0)
  | .file n => (n.dir,n.size)

namespace Tmpfs

def openNode (s : Tmpfs) (node : ℕ) : Result OpenNode :=
  match s.opened node with
  | some node => pure node
  | none => throw (.panic "Page fault")

def call (s : Tmpfs) : Call → Result (Answer × Tmpfs)
  | .open node wd path mode fresh => do
    let (found,s) ← s.kFsVfsOpen (fullpath wd path) mode fresh
    pure (.node (found.map shown),
      { s with opened := Function.update s.opened node (found.map fun n => ⟨n,mode⟩) })
  | .close node => do
    let _ ← s.openNode node
    pure (.done,{ s with opened := Function.update s.opened node none })
  | .read node supply offset size => do
    let n ← s.openNode node
    let answer ← s.kFsVfsRead n supply offset size
    pure (answer,s)
  | .write node supply offset data => do
    let n ← s.openNode node
    s.kFsVfsWrite n supply offset data
  | .readdir node index => do
    let n ← s.openNode node
    pure (.dirent (s.kFsVfsReaddir n index),s)
  | .mkdir wd path mode first second => s.sysMkdir wd path mode first second
  | .rm wd path => s.sysRm wd path
  | .rmdir wd path => s.sysRmdir wd path

def run (s : Tmpfs) : List Call → Result (List Answer × Tmpfs)
  | [] => pure ([],s)
  | c :: cs => do
    let (answer,s) ← s.call c
    let (answers,s) ← s.run cs
    pure (answer :: answers,s)

end Tmpfs

/-- `k_fs_vfs_mount` of a tmpfs: the root of its nodes, and an entry for the path. -/
def mount (v : Vfs FsNode) (path : Path) (fresh : Fresh) : Result Tmpfs :=
  match Path.kUtilPathFilename path,(v.kFsVfsGetEntry path true).1 with
  | some name,some e => pure {
      vfs := v.kFsVfsMountNode path ⟨name,fresh.address,true,0,some e⟩
      nodes := Function.update (fun _ =>
        none) fresh.address (some ⟨name,⟨true,TmpfsNode.create fresh.memory⟩,none,[]⟩)
      opened := fun _ => none }
  | _,_ => throw (.panic "Page fault")

/-- A file or a directory. A directory has contents, too, and is written to like a file. -/
structure Entry where
  dir : Bool
  file : File

/-- An open node: its path below the mount, its kind and size when it was opened, and the mode. -/
structure OpenPath where
  path : List Path
  dir : Bool
  size : ℕ
  mode : ℕ

/-- The ordered tree of entries that this driver keeps. A name can occur twice in a directory, and
an entry can lie below a regular file. -/
structure FileTree where
  tree : NameTree Path Entry
  opened : ℕ → Option OpenPath

/-- A call as a tree of files takes it: paths are the names below the mount. -/
inductive Op
  | open (node : ℕ) (path : List Path) (mode : ℕ)
  | close (node : ℕ)
  | read (node offset size : ℕ)
  | write (node offset : ℕ) (data : List (BitVec 8))
  | readdir (node index : ℕ)
  | mkdir (path : List Path) (mode : ℕ)
  | rm (path : List Path)
  | rmdir (path : List Path)

/-- A tree whose root has the name `root`, and the names of the entries below the mount point. -/
structure Place where
  root : Path
  mounts : List Path

namespace FileTree
variable (m : Place) (t : FileTree)

def lookup (path : List Path) : Option (Entry × NameTree Path Entry) := t.tree.find (m.root :: path)

def insert (path : List Path) (entry : Entry) : FileTree :=
  { t with tree := t.tree.change (fun e below =>
    (e,below.push (path.getLastD []) entry)) (m.root :: path.dropLast) }

def remove (path : List Path) : FileTree :=
  { t with tree := t.tree.change (fun e below => (e,below.erase (path.getLastD []))) (m.root ::
    path.dropLast) }

def store (path : List Path) (offset : ℕ) (data : List (BitVec 8)) : FileTree :=
  { t with tree := t.tree.change (fun e below =>
    ({ e with file := e.file.write offset data },below)) (m.root :: path) }

/-- What is missing is created as an empty file, if it may be and its directory is there. -/
def openPath (path : List Path) (mode : ℕ) : Option Entry × FileTree :=
  match t.lookup m path with
  | some (entry,_) => (some entry,t)
  | none =>
    if mode &&& O_CREAT = 0 ∨ (t.lookup m path.dropLast).isNone then (none,t)
    else (some ⟨false,.empty⟩,t.insert m path ⟨false,.empty⟩)

def sizeOf (path : List Path) (entry : Entry) : ℕ := if path = [] then 0 else entry.file.size

/-- The list of a directory. -/
def list (path : List Path) (below : NameTree Path Entry) : List Dirent :=
  (if path = [] then m.mounts.map fun name => ⟨name,1⟩ else [])++
    ⟨['.'],0⟩ :: ⟨['.','.'],1⟩ :: below.entries.mapIdx fun i e => ⟨e.1,i⟩

/-- `rm` or `rmdir`, which takes directories or not. -/
def unlink (path : List Path) (dir : Bool) (error : ℤ) : Answer × FileTree :=
  match t.lookup m path with
  | none => (.value (-ENOENT),t)
  | some (entry,_) => if entry.dir = dir then (.value 0,t.remove m path) else (.value (-error),t)

def apply : Op → Answer × FileTree
  | .open node path mode =>
    let (found,t) := t.openPath m path mode
    (.node (found.map fun e => (e.dir,sizeOf path e)),
      { t with opened := Function.update t.opened node (found.map fun e =>
        ⟨path,e.dir,sizeOf path e,mode⟩) })
  | .close node => (.done,{ t with opened := Function.update t.opened node none })
  | .read node offset size =>
    match t.opened node with
    | none => (.done,t)
    | some o =>
      if o.mode &&& O_RDONLY = 0 then (.read (-EPERM) [] true,t)
      else
        match t.lookup m o.path with
        | none => (.done,t)
        | some (entry,_) =>
          -- the file ends for the reader where it did when it was opened
          let bytes := { entry.file with size := o.size }.read offset size
          (.read bytes.length bytes true,t)
  | .write node offset data =>
    match t.opened node with
    | none => (.done,t)
    | some o => if o.mode &&& O_WRONLY = 0 then (.value (-EPERM),t)
        else (.value data.length,t.store m o.path offset data)
  | .readdir node index =>
    match t.opened node with
    | none => (.done,t)
    | some o =>
      match t.lookup m o.path with
      | none => (.done,t)
      | some (_,below) => (.dirent (list m o.path below)[index]?,t)
  | .mkdir path mode =>
    let (found,t) := t.openPath m path.dropLast mode
    match found with
    | none => (.value (-ENOENT),t)
    | some _ => (.value 0,t.insert m path ⟨true,.empty⟩)
  | .rm path => t.unlink m path false EISDIR
  | .rmdir path => t.unlink m path true ENOTDIR

def run : FileTree → List Op → List Answer × FileTree
  | t,[] => ([],t)
  | t,o :: os =>
    let (answer,t) := t.apply m o
    let (answers,t) := t.run os
    (answer :: answers,t)

/-- An empty directory. -/
def empty : FileTree := ⟨.cons m.root ⟨true,.empty⟩ .nil .nil,fun _ => none⟩

end FileTree

structure MountPoint where
  entry : ℕ
  names : List Path
  name : Path
  device : ℕ

def MountPoint.node (m : MountPoint) : FsNode := ⟨m.name,m.device,true,0,some m.entry⟩

structure MountPoint.On (m : MountPoint) (v : Vfs FsNode) : Prop where
  lookup : v.lookup m.names = some m.entry
  node : (v.entries m.entry).node = .file m.node

def MountPoint.place (m : MountPoint) (v : Vfs FsNode) : Place :=
  ⟨m.name,(v.entries m.entry).children.map fun c => (v.entries c).name⟩

variable (m : MountPoint)

/-- The path goes through the mount point and no entry below it, and it fits the buffer. -/
structure Leads (v : Vfs FsNode) (wd path : Path) (rest : List Path) : Prop where
  full : fullpath wd path = Path.absolute (m.names++rest)
  names : Path.Names (m.names++rest)
  put : ∀ c ∈ m.names++rest, Path.effect c = .put
  fits : (Path.absolute (m.names++rest)).length < 255
  below : ∀ part ∈ rest.head?, v.findChild m.entry part = none

/-- A read that starts with a block and meets no null word of the array. -/
def Readable (contents : TmpfsNode) (supply : Supply) (offset size : ℕ) : Prop :=
  size ≠ 0 → offset ≤ contents.size → contents.CanRead supply offset size ∧
    contents.slot (offset/TMPFS_BLOCK_SIZE+min size (contents.size-offset)/TMPFS_BLOCK_SIZE) ≠ .ok 0

def Removable (s : Tmpfs) (rest : List Path) (dir : Bool) : Prop :=
  rest ≠ [] ∧ ∀ n cell, Vfs.descend s.fileSystems rest (.file m.node) = some (.file n) →
    n.dir = dir → s.nodes n.device = some cell → cell.children = [] ∧
      ∀ node o f, s.opened node = some o → o.node = .file f → f.device ≠ n.device

/-- The call does what it is for, and is the call `Op` of the tree. -/
inductive Meets (s : Tmpfs) : Call → Op → Prop
  | open {node : ℕ} {wd path : Path} {rest : List Path} {mode : ℕ} {fresh : Fresh}
      (hpath : Leads m s.vfs wd path rest)
      (hfresh : s.nodes fresh.address = none) :
      Meets s (.open node wd path mode fresh) (.open node rest mode)
  | close {node : ℕ} (hnode : s.opened node ≠ none) : Meets s (.close node) (.close node)
  | read {node : ℕ} {supply : Supply} {offset size : ℕ} (hnode : s.opened node ≠ none)
      (hcan : ∀ o n cell, s.opened node = some o → o.node = .file n → o.mode &&& O_RDONLY ≠ 0 →
        s.nodes n.device = some cell →
        Readable { cell.value.contents with size := n.size } supply offset size) :
      Meets s (.read node supply offset size) (.read node offset size)
  | write {node : ℕ} {supply : Supply} {offset : ℕ} {data : List (BitVec 8)}
      (hnode : s.opened node ≠ none)
      (hcan : ∀ o n cell, s.opened node = some o → o.node = .file n → o.mode &&& O_WRONLY ≠ 0 →
        s.nodes n.device = some cell → cell.value.contents.CanWrite supply offset data.length) :
      Meets s (.write node supply offset data) (.write node offset data)
  | readdir {node index : ℕ} (hnode : s.opened node ≠ none) :
      Meets s (.readdir node index) (.readdir node index)
  | mkdir {wd path : Path} {rest : List Path} {mode : ℕ} {first second : Fresh}
      (hpath : Leads m s.vfs wd path rest)
      (hrest : rest ≠ []) (hfirst : s.nodes first.address = none)
      (hsecond : s.nodes second.address = none)
      (hne : first.address ≠ second.address) :
      Meets s (.mkdir wd path mode first second) (.mkdir rest mode)
  | rm {wd path : Path} {rest : List Path} (hpath : Leads m s.vfs wd path rest)
      (hremovable : Removable m s rest false) :
      Meets s (.rm wd path) (.rm rest)
  | rmdir {wd path : Path} {rest : List Path} (hpath : Leads m s.vfs wd path rest)
      (hremovable : Removable m s rest true) :
      Meets s (.rmdir wd path) (.rmdir rest)

/-- Each call can be made when its turn comes. -/
def MeetsAll (s : Tmpfs) : List (Call × Op) → Prop
  | [] => True
  | c :: cs => Meets m s c.1 c.2 ∧ ∀ answer s', s.call c.1 = .ok (answer,s') → MeetsAll s' cs

def Stands (d : TmpfsData) (e : Entry) : Prop := d.dir = e.dir ∧ d.contents.Holds e.file

def nodeAt (rest : List Path) (x : ℕ × Entry) : FsNode :=
  if rest = [] then m.node else ⟨rest.getLastD [],x.1,x.2.dir,x.2.file.size,none⟩

structure OpenPath.Of (nodes : ℕ → Option TmpfsCell) (t : NameTree Path (ℕ × Entry)) (o : OpenNode)
    (k : OpenPath) (n : FsNode) :
    Prop where
  node : o.node = .file n
  mode : o.mode = k.mode
  pointer : t.pointerAt (m.name :: k.path) = some n.device
  dir : n.dir = k.dir
  size : n.size = k.size
  mountpoint : n.mountpoint = if k.path = [] then some m.entry else none
  held : ∀ cell, nodes n.device = some cell → n.size ≤ cell.value.contents.size

/-- The nodes are laid out as the tree, and the open nodes are paths of it. -/
structure Shows (v : Vfs FsNode) (s : Tmpfs) (t : NameTree Path (ℕ × Entry))
    (files : FileTree) : Prop where
  vfs : s.vfs = v
  laid : Laid Stands s.nodes none t
  nodup : t.pointers.Nodup
  root : t.pointerAt [m.name] = some m.device
  dir : ∀ cell, s.nodes m.device = some cell → cell.value.dir = true
  tree : t.map Prod.snd = files.tree
  opened : ∀ node, Option.Rel (fun o k => ∃ n, OpenPath.Of m s.nodes t o k n) (s.opened node)
    (files.opened node)

variable {m : MountPoint} {v : Vfs FsNode} {s : Tmpfs} {t : NameTree Path (ℕ × Entry)}
    {files : FileTree}
  {wd path : Path} {rest : List Path}

theorem folder_absolute {cs : List Path} {c : Path} (h : Path.Names (cs++[c])) :
    kUtilPathFolder (Path.absolute (cs++[c])) = Path.joined cs := by
  have hc := h c (List.mem_append_right _ (List.mem_singleton_self _))
  have hne : cs++[c] ≠ [] := List.append_ne_nil_of_right_ne_nil _ (List.cons_ne_nil _ _)
  have hjoined : Path.absolute (cs++[c]) = Path.joined cs++ '/' :: c := by
    rw [Path.absolute,if_neg hne,Path.joined_append,Path.joined,Path.joined,List.append_nil]
  have hslash : Path.joined cs++ '/' :: c ≠ ['/'] := by
    intro heq
    have hlength := congrArg List.length heq
    have hpos := List.length_pos_iff.mpr hc.1
    simp only [List.length_append,List.length_cons,List.length_nil] at hlength
    omega
  have hdrop : (c.reverse++ '/' :: (Path.joined cs).reverse).dropWhile (· ≠ '/') = '/' ::
      (Path.joined cs).reverse := by
    rw [List.dropWhile_append_of_pos]
    · rw [List.dropWhile_cons_of_neg (by simp)]
    · intro x hx
      rw [decide_eq_true_eq]
      rintro rfl
      exact hc.2 (List.mem_reverse.mp hx)
  rw [hjoined,kUtilPathFolder,if_neg hslash,List.reverse_append,List.reverse_cons,List.append_assoc,
    List.singleton_append,hdrop,List.tail_cons,List.reverse_reverse]

theorem canonize_joined {cs : List Path} (hcs : Path.Names cs)
    (hput : ∀ c ∈ cs, Path.effect c = .put)
    (hfits : (Path.absolute cs).length < 255) : Path.kUtilPathCanonize (Path.joined cs)
    [] = Path.absolute cs := by
  by_cases hnil : cs = []
  · rw [hnil]
    decide
  · have habs : Path.absolute cs = Path.joined cs := if_neg hnil
    rw [← habs]
    exact Path.canonize_absolute hcs hput hfits

theorem filename_absolute {cs : List Path} {c : Path} (h : Path.Names (cs++[c])) :
    Path.kUtilPathFilename (Path.absolute (cs++[c])) = some c := by
  have hne : Path.absolute (cs++[c]) ≠ ['/'] := by
    intro heq
    have hnames := Path.names_absolute h
    rw [heq,Path.names_root] at hnames
    exact absurd hnames.symm (List.append_ne_nil_of_right_ne_nil _ (List.cons_ne_nil _ _))
  rw [(Path.filename_eq hne).1,Path.names_absolute h,List.getLast?_append_cons]
  rfl

theorem absolute_length_le (cs : List Path) (c : Path) :
    (Path.absolute cs).length ≤ (Path.absolute (cs++[c])).length := by
  have hne : cs++[c] ≠ [] := List.append_ne_nil_of_right_ne_nil _ (List.cons_ne_nil _ _)
  rw [Path.absolute,Path.absolute,if_neg hne,Path.joined_append,List.length_append,Path.joined,
    List.length_cons]
  split
  · rw [List.length_singleton]
    omega
  · omega

/-- A path through the mount point and no entry below it, with names that no `.` is among. -/
structure Through (m : MountPoint) (v : Vfs FsNode) (rest : List Path) : Prop where
  names : Path.Names (m.names++rest)
  put : ∀ c ∈ m.names++rest, Path.effect c = .put
  fits : (Path.absolute (m.names++rest)).length < 255
  below : ∀ part ∈ rest.head?, v.findChild m.entry part = none

theorem Leads.through (h : Leads m v wd path rest) : Through m v rest :=
  ⟨h.names,h.put,h.fits,h.below⟩

theorem Through.canonize (h : Through m v rest) :
    Path.kUtilPathCanonize (Path.absolute (m.names++rest)) [] = Path.absolute (m.names++rest) :=
  Path.canonize_absolute h.names h.put h.fits

/-- The path of the directory goes through the mount point, too, and `k_util_path_folder` finds
it. -/
theorem Through.folder {init : List Path} {c : Path} (h : Through m v (init++[c])) :
    Through m v init ∧
    Path.kUtilPathCanonize (kUtilPathFolder (Path.absolute (m.names++(init++[c])))) [] =
    Path.absolute (m.names++init) ∧
    Path.kUtilPathFilename (Path.absolute (m.names++(init++[c]))) = some c := by
  obtain ⟨hnames,hput,hfits,hbelow⟩ := h
  rw [← List.append_assoc] at hnames hput hfits ⊢
  have hinit : Through m v init := by
    refine ⟨fun x hx => hnames x (List.mem_append_left _ hx),
      fun x hx => hput x (List.mem_append_left _ hx),
      (absolute_length_le _ c).trans_lt hfits,fun part hpart => hbelow part ?_⟩
    cases init with
    | nil => cases hpart
    | cons a init => exact hpart
  rw [folder_absolute hnames]
  exact ⟨hinit,canonize_joined hinit.names hinit.put hinit.fits,filename_absolute hnames⟩

theorem followEntries_append (names : List Path) :
    ∀ {cur e : ℕ}, names.foldlM v.findChild cur = some e →
    (∀ part ∈ rest.head?, v.findChild e part = none) →
    v.followEntries (names++rest) cur = (e,rest) := by
  induction names with
  | nil =>
    intro cur e h hstop
    obtain rfl := Option.some.inj h
    rw [List.nil_append]
    cases rest with
    | nil => rfl
    | cons part rest => rw [Vfs.followEntries,hstop part rfl]
  | cons name names ih =>
    intro cur e h hstop
    rw [List.foldlM_cons] at h
    obtain ⟨c,hchild,h⟩ := Option.bind_eq_some_iff.mp h
    rw [List.cons_append,Vfs.followEntries,hchild]
    exact ih h hstop

theorem finddir_tree {below : NameTree Path (ℕ × Entry)} {n : FsNode} {cell : TmpfsCell}
    (hcell : s.nodes n.device = some cell)
    (hchildren : cell.children = below.tops) (hlaid : Laid Stands s.nodes (some n.device) below)
    (part : Path) :
    s.finddir n part = (below.find [part]).map fun y => nodeAt m [part] y.1 := by
  have hfirst := hlaid.first below part
  rw [Tmpfs.finddir,hcell]
  change (cell.children.find? _ >>= fun p => _) = _
  rw [hchildren,hfirst,pointerAt]
  cases hfind : below.find [part] with
  | none => rfl
  | some y =>
    obtain ⟨⟨p,e⟩,inner⟩ := y
    obtain ⟨name,v,q,hlast,hp,hstands,-⟩ := hlaid.find below hfind
    obtain rfl := Option.some.inj hlast
    change (s.nodes p).map (Tmpfs.toFsNode p) = _
    have hnode : nodeAt m [part] (p,e) = ⟨part,p,e.dir,e.file.size,none⟩ :=
      if_neg (List.cons_ne_nil _ _)
    change _ = some (nodeAt m [part] (p,e))
    rw [hp,Option.map_some,hnode,Tmpfs.toFsNode,hstands.1,hstands.2.size]
    rfl

theorem descend_tree (rest : List Path) : ∀ {below : NameTree Path (ℕ × Entry)} {n : FsNode}
    {cell : TmpfsCell}, rest ≠ [] → s.nodes n.device = some cell → cell.children = below.tops →
    Laid Stands s.nodes (some n.device) below →
    Vfs.descend s.fileSystems rest (.file n) = (below.find rest).map fun y =>
    .file (nodeAt m rest y.1) := by
  induction rest with
  | nil => exact fun h => absurd rfl h
  | cons part rest ih =>
    intro below n cell _ hcell hchildren hlaid
    rw [Vfs.descend_cons,Vfs.kFsVfsFinddir]
    change ((s.finddir n part).map VfsNode.file).bind _ = _
    rw [finddir_tree (m := m) hcell hchildren hlaid]
    cases hfind : below.find [part] with
    | none =>
      cases rest with
      | nil =>
        rw [hfind]
        rfl
      | cons part' rest =>
        rw [show part :: part' :: rest = [part]++part' :: rest from rfl,
          find_append below (List.cons_ne_nil _ _) (List.cons_ne_nil _ _),hfind]
        rfl
    | some y =>
      obtain ⟨⟨p,e⟩,inner⟩ := y
      obtain ⟨name,v,q,-,hp,-,hinner⟩ := hlaid.find below hfind
      cases rest with
      | nil =>
        rw [hfind]
        rfl
      | cons part' rest =>
        have hnode : nodeAt m [part] (p,e) = ⟨part,p,e.dir,e.file.size,none⟩ :=
          if_neg (List.cons_ne_nil _ _)
        rw [show part :: part' :: rest = [part]++part' :: rest from rfl,
          find_append below (List.cons_ne_nil _ _) (List.cons_ne_nil _ _),hfind]
        change Vfs.descend s.fileSystems (part' :: rest) (.file (nodeAt m [part] (p,e))) = _
        rw [hnode,ih (List.cons_ne_nil _ _) hp rfl hinner]
        rfl

theorem Shows.descend (h : Shows m v s t files) (rest : List Path) :
    Vfs.descend s.fileSystems rest (.file m.node) =
    (t.find (m.name :: rest)).map fun y => .file (nodeAt m rest y.1) := by
  obtain ⟨⟨⟨p,e⟩,below⟩,hroot,hdevice⟩ := Option.map_eq_some_iff.mp h.root
  obtain rfl : p = m.device := hdevice
  by_cases hrest : rest = []
  · rw [hrest,hroot]
    rfl
  · obtain ⟨name,d,q,-,hcell,-,hlaid⟩ := h.laid.find t hroot
    rw [show m.name :: rest = [m.name]++rest from rfl,
      find_append t (List.cons_ne_nil _ _) hrest,hroot]
    exact descend_tree rest hrest hcell rfl hlaid

theorem Shows.findNode (h : Shows m v s t files) (hm : m.On v)
    (hpath : Through m v rest) (flags : ℕ) :
    s.findNode (Path.absolute (m.names++rest)) flags =
      .ok ((t.find (m.name :: rest)).map fun y => .file (nodeAt m rest y.1)) := by
  have hfs : ∀ d part n, s.fileSystems.finddir d part = some n → s.fileSystems.name n = part := by
    intro d part n hn
    obtain ⟨dir,-,hn⟩ := Option.bind_eq_some_iff.mp hn
    obtain ⟨p,hp,hn⟩ := Option.bind_eq_some_iff.mp hn
    obtain ⟨cell,hcell,rfl⟩ := Option.map_eq_some_iff.mp hn
    have hname := List.find?_some hp
    rw [hcell,decide_eq_true_eq] at hname
    exact Option.some.inj hname
  have hlinks :
      ∀ names node, Vfs.NoLinks s.fileSystems names node :=
        fun names node before after found _ _ => by
    cases found <;> rfl
  have hfollow := followEntries_append m.names hm.lookup hpath.below
  rw [Tmpfs.findNode,h.vfs,Vfs.findNode_eq hfs _ (hlinks _ _),Path.names_absolute hpath.names,
    hfollow,hm.node]
  exact congrArg Except.ok (h.descend rest)

end TmpfsTree
end ScalesOS
