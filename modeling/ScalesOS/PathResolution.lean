import ScalesOS.MountTree

/-!
# Resolution of paths

The node of a path is found from the entry of its longest prefix in the mount tree, by
looking up the remaining names one by one in the file system mounted there.
-/

namespace ScalesOS
namespace Vfs

variable {N : Type} (fs : FileSystems N) (v : Vfs N)

/-- The entry of some names. -/
def lookup (names : List Path) : Option ℕ := names.foldlM v.findChild VFS_ROOT

/-- The names are looked up one by one in a file system. -/
def descend (names : List Path) (node : VfsNode N) : Option (VfsNode N) :=
  names.foldlM (kFsVfsFinddir fs) node

def followEntries : List Path → ℕ → ℕ × List Path
  | [], cur => (cur,[])
  | part :: rest, cur =>
    match v.findChild cur part with
    | some c => followEntries rest c
    | none => (cur,part :: rest)

variable {fs v}

theorem findChild_name {e c : ℕ} {part : Path} (h : v.findChild e part = some c) :
    (v.entries c).name = part := by
  have hp := List.find?_some h
  exact of_decide_eq_true hp

theorem findChild_mem {e c : ℕ} {part : Path} (h : v.findChild e part = some c) :
    c ∈ (v.entries e).children :=
  List.mem_of_find?_eq_some h

theorem lookup_append (pre : List Path) (part : Path) :
    v.lookup (pre++[part]) = (v.lookup pre).bind fun e => v.findChild e part := by
  rw [lookup,List.foldlM_append]
  change (v.lookup pre >>= fun e => [part].foldlM v.findChild e) = _
  cases v.lookup pre with
  | none => rfl
  | some e =>
    change (v.findChild e part >>= fun e => some e) = v.findChild e part
    cases v.findChild e part <;> rfl

theorem lookup_none {pre rest : List Path} (h : v.lookup pre = none) :
    v.lookup (pre++rest) = none := by
  rw [lookup,List.foldlM_append]
  change (v.lookup pre >>= fun e => rest.foldlM v.findChild e) = _
  rw [h]
  rfl

theorem followEntries_spec (names : List Path) : ∀ {pre : List Path}
    {cur : ℕ}, v.lookup pre = some cur → ∃ mid, names = mid++(v.followEntries names cur).2 ∧
    v.lookup (pre++mid) = some (v.followEntries names cur).1 ∧
      ∀ part ∈ (v.followEntries names cur).2.head?,
      v.findChild (v.followEntries names cur).1 part = none := by
  induction names with
  | nil =>
    intro pre cur hpre
    exact ⟨[],rfl,by rwa [List.append_nil],fun part hpart => by cases hpart⟩
  | cons part rest ih =>
    intro pre cur hpre
    rw [followEntries]
    cases hchild : v.findChild cur part with
    | none =>
      refine ⟨[],rfl,by rwa [List.append_nil],fun c hc => ?_⟩
      obtain rfl := Option.some.inj hc
      exact hchild
    | some c =>
      have hpre' : v.lookup (pre++[part]) = some c := by
        rw [lookup_append,hpre]
        exact hchild
      obtain ⟨mid,hnames,hmid,hnone⟩ := ih hpre'
      refine ⟨part :: mid,?_,?_,hnone⟩
      · rw [List.cons_append,← hnames]
      · rw [List.append_cons]
        exact hmid

theorem longest_prefix {pre rest : List Path} {e : ℕ} (hpre : v.lookup pre = some e)
    (hstop : ∀ part ∈ rest.head?, v.findChild e part = none) {k : ℕ} (hk : pre.length < k)
    (hle : k ≤ (pre++rest).length) :
    v.lookup ((pre++rest).take k) = none := by
  cases rest with
  | nil =>
    rw [List.append_nil] at hle
    omega
  | cons part rest =>
    have htake : (pre++part :: rest).take k = (pre++[part])++rest.take (k-(pre.length+1)) := by
      rw [List.append_cons,List.take_append,List.take_of_length_le (by simp; omega),
        List.length_append,List.length_singleton]
    rw [htake]
    refine lookup_none ?_
    rw [lookup_append,hpre]
    exact hstop part rfl

theorem descend_cons (part : Path) (rest : List Path) (node : VfsNode N) :
    descend fs (part :: rest) node = (kFsVfsFinddir fs node part).bind (descend fs rest) := by
  rw [descend,List.foldlM_cons]
  rfl

/-- Nothing is found just if one of the names is not found where the names before it lead. -/
theorem descend_eq_none (names : List Path) : ∀ node : VfsNode N, descend fs names node = none ↔
    ∃ before part after node', names = before++part :: after ∧ descend fs before node = some node' ∧
      kFsVfsFinddir fs node' part = none := by
  induction names with
  | nil =>
    intro node
    refine iff_of_false (fun h => by cases h) ?_
    rintro ⟨before,part,after,node',h,-⟩
    exact absurd h.symm (by simp)
  | cons name names ih =>
    intro node
    rw [descend_cons]
    cases hfound : kFsVfsFinddir fs node name with
    | none => exact iff_of_true rfl ⟨[],name,names,node,rfl,rfl,hfound⟩
    | some next =>
      rw [Option.bind_some,ih next]
      constructor
      · rintro ⟨before,part,after,node',hnames,hbefore,hnone⟩
        refine ⟨name :: before,part,after,node',?_,?_,hnone⟩
        · rw [hnames,List.cons_append]
        · rw [descend_cons,hfound]
          exact hbefore
      · rintro ⟨before,part,after,node',hnames,hbefore,hnone⟩
        cases before with
        | nil =>
          obtain ⟨rfl,rfl⟩ := List.cons.inj hnames
          obtain rfl := Option.some.inj hbefore
          rw [hfound] at hnone
          cases hnone
        | cons b before =>
          obtain ⟨rfl,rfl⟩ := List.cons.inj hnames
          rw [descend_cons,hfound] at hbefore
          exact ⟨before,part,after,node',rfl,hbefore,hnone⟩

/-- The node that is found has the last name, where files are called what they were looked up
by. -/
theorem descend_name (hfs : ∀ d part n, fs.finddir d part = some n → fs.name n = part)
    (names : List Path) :
    ∀ (node : VfsNode N) {found : VfsNode N} {last : Path}, names.getLast? = some last →
      descend fs names node = some found → nodeName fs v found = last := by
  induction names with
  | nil =>
    intro node found last hlast
    cases hlast
  | cons name names ih =>
    intro node found last hlast hfound
    rw [descend_cons] at hfound
    obtain ⟨next,hnext,hfound⟩ := Option.bind_eq_some_iff.mp hfound
    cases names with
    | nil =>
      obtain rfl := Option.some.inj hlast
      obtain rfl := Option.some.inj hfound
      cases node with
      | «virtual» e => cases hnext
      | file n =>
        obtain ⟨m,hm,rfl⟩ := Option.map_eq_some_iff.mp hnext
        exact hfs n name m hm
    | cons name' names => exact ih next hlast hfound

/-- No symbolic link lies on the way. -/
def NoLinks (fs : FileSystems N) (names : List Path) (node : VfsNode N) : Prop :=
  ∀ before after found, names = before++after → descend fs before node = some found →
    isSymlink fs found = false

theorem NoLinks.next {name : Path} {names : List Path} {node next : VfsNode N}
    (h : NoLinks fs (name :: names) node)
    (hnext : kFsVfsFinddir fs node name = some next) : NoLinks fs names next := by
  intro before after found hnames hfound
  refine h (name :: before) after found ?_ ?_
  · rw [hnames,List.cons_append]
  · rw [descend_cons,hnext]
    exact hfound

theorem findInFs_eq (find : Path → Result (Option (VfsNode N))) (nofollow : Bool)
    (names : List Path) :
    ∀ node, NoLinks fs names node →
        findInFs fs find nofollow (names.map some) node = .ok (descend fs names node) := by
  induction names with
  | nil => exact fun node _ => rfl
  | cons name names ih =>
    intro node hlinks
    have hnode := hlinks [] (name :: names) node rfl rfl
    rw [List.map_cons,findInFs,hnode,if_neg (fun h => Bool.false_ne_true h.1),descend_cons]
    simp only [pure_bind,Option.bind_some]
    cases hnext : kFsVfsFinddir fs node name with
    | none => rfl
    | some next => exact ih next (hlinks.next hnext)

/-- The loop over the entries finds what the longest prefix leads to. -/
theorem findLoop_eq (hfs : ∀ d part n, fs.finddir d part = some n → fs.name n = part)
    {find : Path → Result (Option (VfsNode N))} {nofollow : Bool} {filename : Path}
    (names : List Path) :
    ∀ cur result, names.getLast? = some filename →
      NoLinks fs (v.followEntries names cur).2 (v.entries (v.followEntries names cur).1).node →
      findLoop fs v find nofollow filename (names.map some) cur result =
        .ok (descend fs (v.followEntries names cur).2
            (v.entries (v.followEntries names cur).1).node) := by
  induction names with
  | nil =>
    intro cur result hlast
    cases hlast
  | cons part rest ih =>
    intro cur result hlast hlinks
    rw [followEntries] at hlinks ⊢
    rw [List.map_cons,findLoop]
    cases hchild : v.findChild cur part with
    | none =>
      rw [hchild] at hlinks
      dsimp only at hlinks ⊢
      have hfound := findInFs_eq find nofollow (part :: rest) _ hlinks
      rw [List.map_cons] at hfound
      rw [hfound]
      change Except.ok _ = Except.ok _
      congr 1
      cases hd : descend fs (part :: rest) (v.entries cur).node with
      | none => rfl
      | some found =>
        rw [Option.filter_some_eq_some]
        exact decide_eq_true (descend_name hfs _ _ hlast hd)
    | some c =>
      rw [hchild] at hlinks
      dsimp only at hlinks ⊢
      cases rest with
      | nil =>
        have hpart : part = filename := Option.some.inj hlast
        rw [findChild_name hchild,if_pos hpart]
        rfl
      | cons part' rest => exact ih c _ hlast hlinks

theorem findNode_eq (hfs : ∀ d part n, fs.finddir d part = some n → fs.name n = part) (path : Path)
    (hlinks : NoLinks fs (v.followEntries (Path.names path) VFS_ROOT).2
      (v.entries (v.followEntries (Path.names path) VFS_ROOT).1).node) (fuel :
      ℕ) (nofollow : Bool) :
    v.kFsVfsFindNode fs fuel path nofollow =
      .ok (descend fs (v.followEntries (Path.names path) VFS_ROOT).2
      (v.entries (v.followEntries (Path.names path) VFS_ROOT).1).node) := by
  rw [kFsVfsFindNode]
  by_cases hroot : path = ['/']
  · rw [if_pos hroot,hroot]
    rfl
  · obtain ⟨hfile,hne⟩ := Path.filename_eq hroot
    obtain ⟨filename,hlast⟩ : ∃ f, (Path.names path).getLast? = some f :=
      ⟨_,List.getLast?_eq_some_getLast hne⟩
    rw [if_neg hroot,hfile,hlast,Path.segments_eq]
    refine Result.bind_eq_ok.mpr ⟨_,findLoop_eq hfs _ _ _ hlast hlinks,?_⟩
    cases hd : descend fs (v.followEntries (Path.names path) VFS_ROOT).2
        (v.entries (v.followEntries (Path.names path) VFS_ROOT).1).node with
    | none => rfl
    | some found =>
      have hfound := hlinks _ [] found (List.append_nil _).symm hd
      change (if isSymlink fs found = true ∧ _ then _ else _) = _
      rw [if_neg (by rw [hfound]; exact fun h => Bool.false_ne_true h.1)]
      rfl

/-- A canonical path without symbolic links is resolved to the node of the longest prefix
that the mount tree has, or to what the file system mounted there has under the remaining
names. -/
theorem find_node_longest_prefix (hfs : ∀ d part n, fs.finddir d part = some n → fs.name n = part)
    {names : List Path}
    (hnames : Path.Names names) : ∃ pre rest e, names = pre++rest ∧ v.lookup pre = some e ∧
      (∀ k, pre.length < k → k ≤ names.length → v.lookup (names.take k) = none) ∧
      (NoLinks fs rest (v.entries e).node → ∀ fuel nofollow,
        v.kFsVfsFindNode fs fuel (Path.absolute names) nofollow =
        .ok (descend fs rest (v.entries e).node)) ∧
      (descend fs rest (v.entries e).node = none ↔ ∃ before part after node,
        rest = before++part :: after ∧
        descend fs before (v.entries e).node = some node ∧ kFsVfsFinddir fs node part = none) := by
  have hroot : v.lookup [] = some VFS_ROOT := rfl
  obtain ⟨pre,hsplit,hpre,hstop⟩ := followEntries_spec (v:=v) names hroot
  rw [List.nil_append] at hpre
  refine ⟨pre,_,_,hsplit,hpre,fun k hk hle => ?_,fun hlinks fuel nofollow => ?_,descend_eq_none _ _⟩
  · rw [hsplit] at hle ⊢
    exact longest_prefix hpre hstop hk hle
  · have hpath :=
      findNode_eq (v:=v) hfs (Path.absolute names) (by
        rwa [Path.names_absolute hnames]) fuel nofollow
    rwa [Path.names_absolute hnames] at hpath

/-- Files that are numbers: a directory `d` has a file under every name, numbered by what
comes behind it. -/
def exampleFiles : FileSystems (ℕ × Path) where
  name := fun n => n.2
  finddir := fun d part => if d.1 < 5 then some (d.1+1,part) else none
  isSymlink := fun _ => false
  readlink := fun _ => []

/-- Two file systems are mounted, at `/a` and at `/a/b`. -/
def exampleMounts : Vfs (ℕ × Path) :=
  (init.kFsVfsMountNode "/a".toList (1,"a".toList)).kFsVfsMountNode "/a/b".toList (3,"r".toList)

theorem find_node_longest_prefix_nested :
    ∃ pre rest e, ["a".toList,"b".toList,"c".toList,"a".toList] = pre++rest ∧
    exampleMounts.lookup pre = some e ∧
    exampleMounts.kFsVfsFindNode exampleFiles 0 "/a/b/c/a".toList false =
      .ok (descend exampleFiles rest (exampleMounts.entries e).node) ∧
    exampleMounts.kFsVfsFindNode exampleFiles 0 "/a/b/c/a".toList false =
    .ok (some (.file (5,"a".toList))) := by
  have hfs : ∀ d part n, exampleFiles.finddir d part = some n → exampleFiles.name n = part := by
    intro d part n h
    simp only [exampleFiles] at h ⊢
    split at h
    · rw [← Option.some.inj h]
    · cases h
  have hnames : Path.Names ["a".toList,"b".toList,"c".toList,"a".toList] := by decide
  obtain ⟨pre,rest,e,hsplit,hpre,-,hfind,-⟩ :=
    find_node_longest_prefix (v:=exampleMounts) hfs hnames
  have hlinks : NoLinks exampleFiles rest (exampleMounts.entries e).node := fun _ _ found _ _ => by
    cases found <;> rfl
  exact ⟨pre,rest,e,hsplit,hpre,hfind hlinks 0 false,by decide +kernel⟩

end Vfs
end ScalesOS
