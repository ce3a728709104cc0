import ScalesOS.Paths

/-!
# The mount tree

`kernel/src/fs/vfs.c` and `types/src/tree.c`: the entries of the virtual file system, how
nodes are mounted and unmounted, and how a path is resolved through the entries and then
through the file systems. An entry and its node in the tree are named by one number, the
root by `0`. What is below the nodes of file systems is a parameter.
-/

namespace ScalesOS

/-- What the file systems say of their nodes. -/
structure FileSystems (N : Type) where
  name : N → Path
  finddir : N → Path → Option N
  isSymlink : N → Bool
  readlink : N → Path

/-- A node is the virtual directory of an entry, or belongs to a file system. -/
inductive VfsNode (N : Type)
  | virtual (entry : ℕ)
  | file (node : N)
  deriving DecidableEq

/-- `vfs_entry_t` and its `tree_node_t`. -/
structure VfsEntry (N : Type) where
  name : Path
  node : VfsNode N
  parent : Option ℕ
  children : List ℕ
  /-- the entry has been freed -/
  freed : Bool

structure Vfs (N : Type) where
  entries : ℕ → VfsEntry N
  nextEntry : ℕ

def VFS_ROOT : ℕ := 0

namespace Vfs

variable {N : Type}

def modify (v : Vfs N) (e : ℕ) (f : VfsEntry N → VfsEntry N) : Vfs N :=
  { v with entries := Function.update v.entries e (f (v.entries e)) }

/-- `k_fs_vfs_init`. -/
def init : Vfs N where
  entries := fun e => ⟨if e = VFS_ROOT then "[root]".toList else [],.virtual e,none,[],false⟩
  nextEntry := 1

def findChild (v : Vfs N) (e : ℕ) (part : Path) : Option ℕ :=
  (v.entries e).children.find? fun c => (v.entries c).name = part

/-- `k_fs_vfs_create_entry` below an entry, with the virtual node. -/
def kFsVfsCreateEntry (v : Vfs N) (name : Path) (parent : ℕ) : Vfs N :=
  let new := v.nextEntry
  { (v.modify new fun _ => ⟨name,.virtual new,some parent,[],false⟩).modify parent
      fun x => { x with children := x.children++[new] } with
    nextEntry := new+1 }

/-- The loop of `__k_fs_vfs_get_entry`. -/
def getEntryLoop (create : Bool) : List (Option Path) → ℕ → Vfs N → Option ℕ × Vfs N
  | [], cur, v => (some cur,v)
  | none :: rest, cur, v => getEntryLoop create rest cur v
  | some part :: rest, cur, v =>
    match v.findChild cur part with
    | some c => getEntryLoop create rest c v
    | none =>
      if create then getEntryLoop create rest v.nextEntry (v.kFsVfsCreateEntry part cur)
      else (none,v)

def kFsVfsGetEntry (v : Vfs N) (path : Path) (create : Bool) : Option ℕ × Vfs N :=
  if path = ['/'] then (some VFS_ROOT,v) else getEntryLoop create (Path.segments path) VFS_ROOT v

def setNode (v : Vfs N) (e : ℕ) (node : VfsNode N) : Vfs N :=
  v.modify e fun x => { x with node := node }

def kFsVfsMountNode (v : Vfs N) (path : Path) (fsroot : N) : Vfs N :=
  match v.kFsVfsGetEntry path true with
  | (some e,v) => v.setNode e (.file fsroot)
  | (none,v) => v

def treeRemoveNode (v : Vfs N) (e : ℕ) : Vfs N :=
  match (v.entries e).parent with
  | some parent => v.modify parent fun x => { x with children := x.children.erase e }
  | none => v

/-- `k_free` of an entry. -/
def freeEntry (v : Vfs N) (e : ℕ) : Vfs N := v.modify e fun x => { x with freed := true }

def kFsVfsUmount (v : Vfs N) (path : Path) : Vfs N :=
  match v.kFsVfsGetEntry path false with
  | (some e,v) => if e ≠ VFS_ROOT then (v.treeRemoveNode e).freeEntry e else v
  | (none,v) => v

variable (fs : FileSystems N)

def nodeName (v : Vfs N) : VfsNode N → Path
  | .virtual e => (v.entries e).name
  | .file n => fs.name n

def isSymlink : VfsNode N → Bool
  | .virtual _ => false
  | .file n => fs.isSymlink n

/-- `k_fs_vfs_finddir`. A virtual directory has no such function. -/
def kFsVfsFinddir : VfsNode N → Path → Option (VfsNode N)
  | .virtual _, _ => none
  | .file n, part => (fs.finddir n part).map .file

/-- `__k_fs_vfs_follow_symlink`, where the path is looked up by `find`. -/
def kFsVfsFollowSymlink (find : Path → Result (Option (VfsNode N))) :
    VfsNode N → Result (Option (VfsNode N))
  | .virtual _ => pure none
  | .file n => if fs.isSymlink n then find (fs.readlink n) else pure none

/-- The loop of `__k_fs_vfs_find_node` in a file system. -/
def findInFs (find : Path → Result (Option (VfsNode N))) (nofollow : Bool) :
    List (Option Path) → VfsNode N → Result (Option (VfsNode N))
  | [], node => pure (some node)
  | none :: _, node => pure (some node)
  | some part :: rest, node => do
    let followed ← if isSymlink fs node ∧ nofollow = false then kFsVfsFollowSymlink fs find node
      else pure (some node)
    match followed.bind fun node => kFsVfsFinddir fs node part with
    | none => pure none
    | some node => findInFs find nofollow rest node

/-- The loop of `__k_fs_vfs_find_node` over the entries, with the result so far. -/
def findLoop (v : Vfs N) (find : Path → Result (Option (VfsNode N))) (nofollow : Bool)
    (filename : Path) :
    List (Option Path) → ℕ → Option (VfsNode N) → Result (Option (VfsNode N))
  | [], _, result => pure result
  | none :: rest, cur, result => findLoop v find nofollow filename rest cur result
  | some part :: rest, cur, result =>
    match v.findChild cur part with
    | some c =>
      findLoop v find nofollow filename rest c (if (v.entries c).name = filename then
        some (v.entries c).node else result)
    | none => do
      let found ← findInFs fs find nofollow (some part :: rest) (v.entries cur).node
      pure (found.filter fun node => nodeName fs v node = filename)

/-- `__k_fs_vfs_find_node`; no more than `fuel` symbolic links lead to one another. -/
def kFsVfsFindNode (v : Vfs N) : ℕ → Path → Bool → Result (Option (VfsNode N))
  | fuel, path, nofollow =>
    if path = ['/'] then pure (some (v.entries VFS_ROOT).node)
    else
      match Path.kUtilPathFilename path with
      | none => throw (.panic "no file name")
      | some filename => do
        let find : Path → Result (Option (VfsNode N)) := fun path =>
          match fuel with
          | 0 => throw .loop
          | fuel+1 => kFsVfsFindNode v fuel path false
        let result ← findLoop fs v find nofollow filename (Path.segments path) VFS_ROOT none
        match result with
        | none => pure none
        | some node => if isSymlink fs node ∧ nofollow = false then
            kFsVfsFollowSymlink fs find node else pure (some node)

end Vfs
end ScalesOS
