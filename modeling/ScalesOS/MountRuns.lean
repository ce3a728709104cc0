import ScalesOS.PathResolution

/-!
# Mounting and unmounting

The mount tree over runs of `k_fs_vfs_mount_node` and `k_fs_vfs_umount`. Mounting leaves what
is mounted elsewhere in place; unmounting takes the entry with everything below it out of
the tree.
-/

namespace ScalesOS
namespace Vfs

variable {N : Type} {v w : Vfs N} {e c : ℕ} {names : List Path}

/-- The entries form a tree in which siblings have different names. -/
structure WellFormed (v : Vfs N) : Prop where
  root_lt : VFS_ROOT < v.nextEntry
  child_lt : ∀ e, ∀ c ∈ (v.entries e).children, e < c ∧ c < v.nextEntry
  parent : ∀ e, ∀ c ∈ (v.entries e).children, (v.entries c).parent = some e
  distinct : ∀ e, ∀ c ∈ (v.entries e).children, ∀ c' ∈ (v.entries e).children,
    (v.entries c).name = (v.entries c').name → c = c'
  nodup : ∀ e, (v.entries e).children.Nodup
  fresh : ∀ e, v.nextEntry ≤ e → (v.entries e).children = [] ∧ (v.entries e).freed = false
  root_kept : (v.entries VFS_ROOT).freed = false
  freed : ∀ c, (v.entries c).freed = true → ∀ e, c ∉ (v.entries e).children

theorem init_wellFormed : (init : Vfs N).WellFormed where
  root_lt := Nat.zero_lt_one
  child_lt := fun e c hc => by cases hc
  parent := fun e c hc => by cases hc
  distinct := fun e c hc => by cases hc
  nodup := fun _ => List.nodup_nil
  fresh := fun _ _ => ⟨rfl,rfl⟩
  root_kept := rfl
  freed := fun c hc => by cases hc

theorem findChild_eq (hv : v.WellFormed) {part : Path} (hc : c ∈ (v.entries e).children)
    (hname : (v.entries c).name = part) : v.findChild e part = some c := by
  cases hfind : v.findChild e part with
  | none =>
    have hnone := List.find?_eq_none.mp hfind c hc
    rw [decide_eq_true_eq] at hnone
    exact absurd hname hnone
  | some c' => rw [hv.distinct e c hc c' (findChild_mem hfind)
      (hname.trans (findChild_name hfind).symm)]

theorem lookup_lt (hv : v.WellFormed) (h : v.lookup names = some e) : e < v.nextEntry := by
  cases hnames : names.reverse with
  | nil =>
    rw [List.reverse_eq_nil_iff] at hnames
    rw [hnames] at h
    rw [← Option.some.inj h]
    exact hv.root_lt
  | cons part rest =>
    rw [List.reverse_eq_cons_iff] at hnames
    rw [hnames,lookup_append] at h
    obtain ⟨e',-,hchild⟩ := Option.bind_eq_some_iff.mp h
    exact (hv.child_lt e' e (findChild_mem hchild)).2

theorem lookup_injective (hv : v.WellFormed) : ∀ {p q : List Path} {e : ℕ}, v.lookup p = some e →
    v.lookup q = some e → p = q := by
  intro p
  induction p using List.reverseRecOn with
  | nil =>
    intro q e hp hq
    obtain rfl := Option.some.inj hp
    cases q using List.reverseRecOn with
    | nil => rfl
    | append_singleton q b =>
      rw [lookup_append] at hq
      obtain ⟨e',-,hchild⟩ := Option.bind_eq_some_iff.mp hq
      exact absurd (hv.child_lt e' _ (findChild_mem hchild)).1 (Nat.not_lt_zero _)
  | append_singleton p a ih =>
    intro q e hp hq
    rw [lookup_append] at hp
    obtain ⟨e',hp,hchild⟩ := Option.bind_eq_some_iff.mp hp
    cases q using List.reverseRecOn with
    | nil =>
      obtain rfl := Option.some.inj hq
      exact absurd (hv.child_lt e' _ (findChild_mem hchild)).1 (Nat.not_lt_zero _)
    | append_singleton q b =>
      rw [lookup_append] at hq
      obtain ⟨e'',hq,hchild'⟩ := Option.bind_eq_some_iff.mp hq
      have hparent :=
        (hv.parent e' e (findChild_mem hchild)).symm.trans (hv.parent e'' e (findChild_mem hchild'))
      obtain rfl := Option.some.inj hparent
      rw [ih hp hq,← findChild_name hchild,← findChild_name hchild']

theorem modify_self (v : Vfs N) (e : ℕ) (f : VfsEntry N → VfsEntry N) :
    (v.modify e f).entries e = f (v.entries e) :=
  Function.update_self ..

theorem modify_other (v : Vfs N) (f : VfsEntry N → VfsEntry N) (h : c ≠ e) :
    (v.modify e f).entries c = v.entries c :=
  Function.update_of_ne h ..

theorem modify_field {α : Type} (g : VfsEntry N → α) {f : VfsEntry N → VfsEntry N}
    (h : g (f (v.entries e)) = g (v.entries e))
    (c : ℕ) : g ((v.modify e f).entries c) = g (v.entries c) := by
  by_cases hc : c = e
  · rw [hc,modify_self,h]
  · rw [modify_other v f hc]

/-- Two trees in which every entry has the same name, parent and children. -/
structure SameTree (v w : Vfs N) : Prop where
  next_eq : w.nextEntry = v.nextEntry
  name_eq : ∀ e, (w.entries e).name = (v.entries e).name
  parent_eq : ∀ e, (w.entries e).parent = (v.entries e).parent
  children_eq : ∀ e, (w.entries e).children = (v.entries e).children

theorem SameTree.findChild (h : SameTree v w) (e : ℕ) (part : Path) :
    w.findChild e part = v.findChild e part := by
  rw [Vfs.findChild,Vfs.findChild,h.children_eq]
  simp only [h.name_eq]

theorem SameTree.lookup (h : SameTree v w) (names : List Path) :
    w.lookup names = v.lookup names := by
  rw [Vfs.lookup,Vfs.lookup]
  congr 1
  funext e part
  exact h.findChild e part

theorem SameTree.wellFormed (h : SameTree v w) (hv : v.WellFormed)
    (hfreed : ∀ e, (w.entries e).freed = (v.entries e).freed) :
    w.WellFormed where
  root_lt := by rw [h.next_eq]; exact hv.root_lt
  child_lt := fun e => by rw [h.children_eq,h.next_eq]; exact hv.child_lt e
  parent := fun e c hc => by rw [h.children_eq] at hc; rw [h.parent_eq]; exact hv.parent e c hc
  distinct := fun e => by
    rw [h.children_eq]
    simp only [h.name_eq]
    exact hv.distinct e
  nodup := fun e => by rw [h.children_eq]; exact hv.nodup e
  fresh := fun e he => by rw [h.children_eq,hfreed]; exact hv.fresh e (h.next_eq ▸ he)
  root_kept := by rw [hfreed]; exact hv.root_kept
  freed := fun c hc e => by rw [h.children_eq]; exact hv.freed c (hfreed c ▸ hc) e

theorem setNode_same (v : Vfs N) (e : ℕ) (node : VfsNode N) : SameTree v (v.setNode e node) :=
  ⟨rfl,modify_field VfsEntry.name rfl,modify_field VfsEntry.parent rfl,
    modify_field VfsEntry.children rfl⟩

theorem setNode_wellFormed (hv : v.WellFormed) (e : ℕ) (node : VfsNode N) :
    (v.setNode e node).WellFormed :=
  (setNode_same v e node).wellFormed hv (modify_field VfsEntry.freed rfl)

structure Extends (v w : Vfs N) : Prop where
  next_le : v.nextEntry ≤ w.nextEntry
  lookup : ∀ names e, v.lookup names = some e → w.lookup names = some e
  node : ∀ e, e < v.nextEntry → (w.entries e).node = (v.entries e).node

theorem Extends.refl (v : Vfs N) : Extends v v := ⟨le_rfl,fun _ _ h => h,fun _ _ => rfl⟩

theorem Extends.trans {u : Vfs N} (h : Extends v w) (h' : Extends w u) : Extends v u where
  next_le := h.next_le.trans h'.next_le
  lookup := fun names e hl => h'.lookup names e (h.lookup names e hl)
  node := fun e he => (h'.node e (lt_of_lt_of_le he h.next_le)).trans (h.node e he)

theorem createEntry_entries (v : Vfs N) (name : Path) {parent : ℕ}
    (hlt : parent < v.nextEntry) (x : ℕ) :
    (v.kFsVfsCreateEntry name parent).entries x =
      if x = parent then { v.entries parent with
        children := (v.entries parent).children++[v.nextEntry] }
      else if x = v.nextEntry then ⟨name,.virtual v.nextEntry,some parent,[],false⟩
      else v.entries x := by
  have hne : parent ≠ v.nextEntry := by omega
  change ((v.modify v.nextEntry fun _ => _).modify parent fun y =>
    { y with children := y.children++[v.nextEntry] }).entries x = _
  by_cases hx : x = parent
  · rw [if_pos hx,hx,modify_self,modify_other _ _ hne]
  · rw [if_neg hx,modify_other _ _ hx]
    by_cases hx' : x = v.nextEntry
    · rw [if_pos hx',hx',modify_self]
    · rw [if_neg hx',modify_other _ _ hx']

/-- The entry, with one child more if it is the parent of the new one. -/
theorem createEntry_children (v : Vfs N) (hv : v.WellFormed) (name : Path) {parent : ℕ}
    (hlt : parent < v.nextEntry) (x : ℕ) :
    ((v.kFsVfsCreateEntry name parent).entries x).children =
      (v.entries x).children++(if x = parent then [v.nextEntry] else []) := by
  rw [createEntry_entries v name hlt]
  by_cases hx : x = parent
  · rw [if_pos hx,if_pos hx,hx]
  · rw [if_neg hx,if_neg hx,List.append_nil]
    by_cases hx' : x = v.nextEntry
    · rw [if_pos hx',hx',(hv.fresh _ le_rfl).1]
    · rw [if_neg hx']

theorem createEntry_old (v : Vfs N) (name : Path) {parent : ℕ} (hlt : parent < v.nextEntry) {x : ℕ}
    (hx : x < v.nextEntry) :
    ((v.kFsVfsCreateEntry name parent).entries x).name = (v.entries x).name ∧
    ((v.kFsVfsCreateEntry name parent).entries x).node = (v.entries x).node ∧
    ((v.kFsVfsCreateEntry name parent).entries x).parent = (v.entries x).parent ∧
    ((v.kFsVfsCreateEntry name parent).entries x).freed = (v.entries x).freed := by
  rw [createEntry_entries v name hlt]
  have hne : x ≠ v.nextEntry := by omega
  by_cases hx' : x = parent
  · rw [if_pos hx',hx']
    exact ⟨rfl,rfl,rfl,rfl⟩
  · rw [if_neg hx',if_neg hne]
    exact ⟨rfl,rfl,rfl,rfl⟩

theorem createEntry_new (v : Vfs N) (name : Path) {parent : ℕ} (hlt : parent < v.nextEntry) :
    (v.kFsVfsCreateEntry name parent).entries v.nextEntry = ⟨name,.virtual v.nextEntry,
      some parent,[],false⟩ := by
  rw [createEntry_entries v name hlt,if_neg (by omega),if_pos rfl]

theorem WellFormed.create (hv : v.WellFormed) {name : Path} {parent : ℕ}
    (hlt : parent < v.nextEntry)
    (hnone : v.findChild parent name = none) : (v.kFsVfsCreateEntry name parent).WellFormed := by
  have hmem : ∀ x c, c ∈ ((v.kFsVfsCreateEntry name parent).entries x).children →
      (c ∈ (v.entries x).children ∧ c < v.nextEntry) ∨ (c = v.nextEntry ∧ x = parent) := by
    intro x c hc
    rw [createEntry_children v hv name hlt] at hc
    rcases List.mem_append.mp hc with hc | hc
    · exact Or.inl ⟨hc,(hv.child_lt x c hc).2⟩
    · split at hc
      · rename_i hx
        exact Or.inr ⟨List.mem_singleton.mp hc,hx⟩
      · cases hc
  have hnew := createEntry_new v name hlt
  have hother : ∀ c ∈ (v.entries parent).children, (v.entries c).name ≠ name := by
    intro c hc
    have h := List.find?_eq_none.mp hnone c hc
    rwa [decide_eq_true_eq] at h
  refine ⟨Nat.succ_pos _,fun x c hc => ?_,fun x c hc => ?_,fun x c hc c' hc' hname => ?_,
    fun x => ?_,fun x hx => ?_,?_,fun c hc x hx => ?_⟩
  · change x < c ∧ c < v.nextEntry+1
    rcases hmem x c hc with ⟨hc,-⟩ | ⟨rfl,rfl⟩
    · exact ⟨(hv.child_lt x c hc).1,(hv.child_lt x c hc).2.trans (Nat.lt_succ_self _)⟩
    · exact ⟨hlt,Nat.lt_succ_self _⟩
  · rcases hmem x c hc with ⟨hc,hclt⟩ | ⟨rfl,rfl⟩
    · rw [(createEntry_old v name hlt hclt).2.2.1]
      exact hv.parent x c hc
    · rw [hnew]
  · rcases hmem x c hc with ⟨hc,hclt⟩ | ⟨rfl,hx⟩ <;> rcases hmem x c' hc' with
      ⟨hc',hclt'⟩ | ⟨rfl,hx'⟩
    · rw [(createEntry_old v name hlt hclt).1,(createEntry_old v name hlt hclt').1] at hname
      exact hv.distinct x c hc c' hc' hname
    · rw [(createEntry_old v name hlt hclt).1,hnew] at hname
      exact absurd hname (hother c (hx' ▸ hc))
    · rw [(createEntry_old v name hlt hclt').1,hnew] at hname
      exact absurd hname.symm (hother c' (hx ▸ hc'))
    · rfl
  · rw [createEntry_children v hv name hlt]
    refine List.nodup_append.mpr ⟨hv.nodup x,?_,fun c hc c' hc' => ?_⟩
    · split
      · exact List.nodup_singleton _
      · exact List.nodup_nil
    · have hclt := (hv.child_lt x c hc).2
      split at hc'
      · rw [List.mem_singleton.mp hc']
        omega
      · cases hc'
  · have hx' : v.nextEntry+1 ≤ x := hx
    rw [createEntry_entries v name hlt,if_neg (by omega),if_neg (by omega)]
    exact hv.fresh x (by omega)
  · rw [(createEntry_old v name hlt hv.root_lt).2.2.2]
    exact hv.root_kept
  · rcases hmem x c hx with ⟨hx,hclt⟩ | ⟨rfl,rfl⟩
    · rw [(createEntry_old v name hlt hclt).2.2.2] at hc
      exact hv.freed c hc x hx
    · rw [hnew] at hc
      cases hc

theorem create_findChild (hv : v.WellFormed) {name : Path} {parent : ℕ} (hlt : parent < v.nextEntry)
    (hnone : v.findChild parent name = none) {x : ℕ} {part : Path}
    (h : v.findChild x part = some c) :
    (v.kFsVfsCreateEntry name parent).findChild x part = some c := by
  have hc := findChild_mem h
  refine findChild_eq (hv.create hlt hnone) ?_ ?_
  · rw [createEntry_children v hv name hlt]
    exact List.mem_append_left _ hc
  · rw [(createEntry_old v name hlt (hv.child_lt x c hc).2).1,findChild_name h]

theorem create_extends (hv : v.WellFormed) {name : Path} {parent : ℕ} (hlt : parent < v.nextEntry)
    (hnone : v.findChild parent name = none) : Extends v (v.kFsVfsCreateEntry name parent) := by
  refine ⟨Nat.le_succ _,fun names => ?_,fun x hx => (createEntry_old v name hlt hx).2.1⟩
  induction names using List.reverseRecOn with
  | nil => exact fun e h => h
  | append_singleton names part ih =>
    intro e h
    rw [lookup_append] at h ⊢
    obtain ⟨e',he',hchild⟩ := Option.bind_eq_some_iff.mp h
    rw [ih e' he']
    exact create_findChild hv hlt hnone hchild

/-- The entry of a path is there, or is made together with those on the way to it. -/
theorem getEntryLoop_create (names : List Path) : ∀ {v : Vfs N} {pre : List Path}
    {cur : ℕ}, v.WellFormed →
    v.lookup pre = some cur → ∃ e w, getEntryLoop true (names.map some) cur v = (some e,w) ∧
    w.WellFormed ∧ Extends v w ∧ w.lookup (pre++names) = some e := by
  induction names with
  | nil =>
    intro v pre cur hv hpre
    exact ⟨cur,v,rfl,hv,.refl v,by rwa [List.append_nil]⟩
  | cons part rest ih =>
    intro v pre cur hv hpre
    rw [List.map_cons,getEntryLoop]
    cases hchild : v.findChild cur part with
    | some c =>
      have hpre' : v.lookup (pre++[part]) = some c := by
        rw [lookup_append,hpre]
        exact hchild
      obtain ⟨e,w,hret,hw,hext,hlookup⟩ := ih hv hpre'
      exact ⟨e,w,hret,hw,hext,by rwa [List.append_cons]⟩
    | none =>
      have hlt := lookup_lt hv hpre
      have hext := create_extends hv hlt hchild
      have hcreated := hv.create hlt hchild
      have hpre' : (v.kFsVfsCreateEntry part cur).lookup (pre++[part]) = some v.nextEntry := by
        rw [lookup_append,hext.lookup pre cur hpre]
        refine findChild_eq hcreated ?_ ?_
        · rw [createEntry_children v hv part hlt,if_pos rfl]
          exact List.mem_append_right _ (List.mem_singleton_self _)
        · rw [createEntry_new v part hlt]
      obtain ⟨e,w,hret,hw,hext',hlookup⟩ := ih hcreated hpre'
      exact ⟨e,w,hret,hw,hext.trans hext',by rwa [List.append_cons]⟩

theorem getEntry_create (hv : v.WellFormed) (path : Path) :
    ∃ e w, v.kFsVfsGetEntry path true = (some e,w) ∧ w.WellFormed ∧
    Extends v w ∧ w.lookup (Path.names path) = some e := by
  rw [kFsVfsGetEntry]
  by_cases hroot : path = ['/']
  · rw [if_pos hroot,hroot]
    exact ⟨VFS_ROOT,v,rfl,hv,.refl v,rfl⟩
  · rw [if_neg hroot,Path.segments_eq]
    exact getEntryLoop_create _ hv (rfl : v.lookup [] = some VFS_ROOT)

theorem getEntryLoop_find (names : List Path) : ∀ (v : Vfs N) (cur : ℕ),
    getEntryLoop false (names.map some) cur v = (names.foldlM v.findChild cur,v) := by
  induction names with
  | nil => exact fun v cur => rfl
  | cons part rest ih =>
    intro v cur
    rw [List.map_cons,getEntryLoop,List.foldlM_cons]
    cases v.findChild cur part with
    | some c => exact ih v c
    | none => rfl

theorem getEntry_find (v : Vfs N) (path : Path) :
    v.kFsVfsGetEntry path false = (v.lookup (Path.names path),v) := by
  rw [kFsVfsGetEntry]
  by_cases hroot : path = ['/']
  · rw [if_pos hroot,hroot]
    rfl
  · rw [if_neg hroot,Path.segments_eq]
    exact getEntryLoop_find _ v VFS_ROOT

/-- What `k_fs_vfs_umount` makes of a tree with an entry that is not the root. -/
def detach (v : Vfs N) (e : ℕ) : Vfs N := (v.treeRemoveNode e).freeEntry e

theorem treeRemoveNode_eq {parent : ℕ} (h : (v.entries e).parent = some parent) :
    v.treeRemoveNode e = v.modify parent fun x => { x with children := x.children.erase e } := by
  rw [treeRemoveNode,h]

theorem detach_field {α : Type} (g : VfsEntry N → α) (hc : ∀ x l, g { x with children := l } = g x)
    (hf : ∀ x b, g { x with freed := b } = g x) (x : ℕ) :
    g ((v.detach e).entries x) = g (v.entries x) := by
  rw [detach,freeEntry,modify_field g (hf _ _),treeRemoveNode]
  split
  · exact modify_field g (hc _ _) x
  · rfl

theorem detach_children {parent : ℕ} (h : (v.entries e).parent = some parent) (x : ℕ) :
    ((v.detach e).entries x).children = if x = parent then (v.entries x).children.erase e
    else (v.entries x).children := by
  rw [detach,freeEntry,treeRemoveNode_eq h,modify_field VfsEntry.children rfl]
  by_cases hx : x = parent
  · rw [if_pos hx,hx,modify_self]
  · rw [if_neg hx,modify_other _ _ hx]

theorem detach_freed (x : ℕ) : ((v.detach e).entries x).freed = if x = e then true
    else (v.entries x).freed := by
  rw [detach,freeEntry]
  by_cases hx : x = e
  · rw [if_pos hx,hx,modify_self]
  · rw [if_neg hx,modify_other _ _ hx,treeRemoveNode]
    split
    · exact modify_field VfsEntry.freed rfl x
    · rfl

theorem lookup_parent (hv : v.WellFormed) {names : List Path} {part : Path}
    (h : v.lookup (names++[part]) = some e) :
    ∃ parent, v.lookup names = some parent ∧ e ∈ (v.entries parent).children ∧
        (v.entries e).parent = some parent := by
  rw [lookup_append] at h
  obtain ⟨parent,hparent,hchild⟩ := Option.bind_eq_some_iff.mp h
  exact ⟨parent,hparent,findChild_mem hchild,hv.parent parent e (findChild_mem hchild)⟩

theorem detach_mem {parent : ℕ} (hv : v.WellFormed)
    (h : (v.entries e).parent = some parent) (x : ℕ) :
    c ∈ ((v.detach e).entries x).children ↔ c ∈ (v.entries x).children ∧ c ≠ e := by
  rw [detach_children h]
  split
  · rw [List.Nodup.mem_erase_iff (hv.nodup x)]
    exact and_comm
  · rename_i hx
    refine ⟨fun hc => ⟨hc,fun heq => hx ?_⟩,And.left⟩
    rw [heq] at hc
    exact Option.some.inj ((hv.parent x e hc).symm.trans h)

theorem WellFormed.detach (hv : v.WellFormed) {parent : ℕ} (hmem : e ∈ (v.entries parent).children)
    (h : (v.entries e).parent = some parent) : (v.detach e).WellFormed := by
  have hname := detach_field (v:=v) (e:=e) VfsEntry.name (fun _ _ => rfl) fun _ _ => rfl
  have hpar := detach_field (v:=v) (e:=e) VfsEntry.parent (fun _ _ => rfl) fun _ _ => rfl
  have hnext : (v.detach e).nextEntry = v.nextEntry := by
    rw [Vfs.detach,freeEntry,treeRemoveNode_eq h]
    rfl
  have hlt := hv.child_lt parent e hmem
  refine ⟨?_,fun x c hc => ?_,fun x c hc => ?_,fun x c hc c' hc' heq => ?_,fun x => ?_,
    fun x hx => ?_,?_,fun c hc x hx => ?_⟩
  · rw [hnext]
    exact hv.root_lt
  · rw [hnext]
    exact hv.child_lt x c ((detach_mem hv h x).mp hc).1
  · rw [hpar]
    exact hv.parent x c ((detach_mem hv h x).mp hc).1
  · rw [hname,hname] at heq
    exact hv.distinct x c ((detach_mem hv h x).mp hc).1 c' ((detach_mem hv h x).mp hc').1 heq
  · rw [detach_children h]
    split
    · exact (hv.nodup x).erase e
    · exact hv.nodup x
  · rw [hnext] at hx
    have hxe : x ≠ e := by omega
    have hold := hv.fresh x hx
    rw [detach_freed,if_neg hxe,detach_children h,hold.1]
    exact ⟨by split <;> rfl,hold.2⟩
  · have hne : VFS_ROOT ≠ e := by
      rw [VFS_ROOT]
      omega
    rw [detach_freed,if_neg hne]
    exact hv.root_kept
  · rw [detach_mem hv h] at hx
    rw [detach_freed,if_neg hx.2] at hc
    exact hv.freed c hc x hx.1

theorem lookup_detach (hv : v.WellFormed) {names : List Path} {part : Path}
    (h : v.lookup (names++[part]) = some e)
    (q : List Path) : (v.detach e).lookup q = if names++[part] <+: q then none else v.lookup q := by
  obtain ⟨parent,hparent,hmem,hpar⟩ := lookup_parent hv h
  have hname := detach_field (v:=v) (e:=e) VfsEntry.name (fun _ _ => rfl) fun _ _ => rfl
  have hv' := hv.detach hmem hpar
  induction q using List.reverseRecOn with
  | nil =>
    rw [if_neg (fun hp => by simpa using List.prefix_nil.mp hp)]
    rfl
  | append_singleton q b ih =>
    rw [lookup_append,ih]
    by_cases hq : names++[part] <+: q
    · rw [if_pos hq,if_pos (hq.trans (List.prefix_append q [b]))]
      rfl
    · rw [if_neg hq,lookup_append]
      have hiff : names++[part] <+: q++[b] ↔ names++[part] = q++[b] := by
        rw [List.prefix_concat_iff]
        exact ⟨fun hp => hp.resolve_right hq,Or.inl⟩
      simp only [hiff]
      cases hl : v.lookup q with
      | none =>
        split <;> rfl
      | some x =>
        rw [Option.bind_some,Option.bind_some]
        cases hchild : (v.detach e).findChild x b with
        | some c =>
          have hc := (detach_mem hv hpar x).mp (findChild_mem hchild)
          have hold : v.findChild x b = some c :=
            findChild_eq hv hc.1 ((hname c).symm.trans (findChild_name hchild))
          rw [if_neg,hold]
          intro heq
          rw [heq,lookup_append,hl,Option.bind_some,hold] at h
          exact hc.2 (Option.some.inj h)
        | none =>
          split
          · rfl
          · rename_i hne
            cases hold : v.findChild x b with
            | none => rfl
            | some c =>
              exfalso
              have hce : c ≠ e := fun heq => hne <| lookup_injective hv h <| by
                rw [lookup_append,hl,Option.bind_some,hold,heq]
              have hfound : (v.detach e).findChild x b = some c :=
                findChild_eq hv' ((detach_mem hv hpar x).mpr ⟨findChild_mem hold,hce⟩)
                  ((hname c).trans (findChild_name hold))
              rw [hfound] at hchild
              cases hchild

structure Mounts (N : Type) where
  vfs : Vfs N
  mounted : List Path → Option N

inductive MountEvent (N : Type)
  | mount (path : Path) (fsroot : N)
  | umount (path : Path)

/-- One call. -/
def Mounts.step (s : Mounts N) : MountEvent N → Mounts N
  | .mount path fsroot =>
    ⟨s.vfs.kFsVfsMountNode path fsroot,Function.update s.mounted (Path.names path) (some fsroot)⟩
  | .umount path => ⟨s.vfs.kFsVfsUmount path,Function.update s.mounted (Path.names path) none⟩

def Mounts.init : Mounts N := ⟨Vfs.init,fun _ => none⟩

def Mounts.run (s : Mounts N) (es : List (MountEvent N)) : Mounts N := es.foldl Mounts.step s

/-- Every path at which something is mounted is resolved to it, whatever the file systems
hold (a link that is mounted is resolved to itself only if links are not followed), and no
entry that can be reached has been freed. -/
structure Isolated (s : Mounts N) : Prop where
  resolves : ∀ path n, s.mounted (Path.names path) = some n →
    ∀ (fs : FileSystems N) (fuel : ℕ) (nofollow : Bool), nofollow = true ∨ fs.isSymlink n = false →
    s.vfs.kFsVfsFindNode fs fuel path nofollow = .ok (some (.file n))
  not_freed : ∀ e, Relation.ReflTransGen (fun a b => b ∈ (s.vfs.entries a).children) VFS_ROOT e →
    (s.vfs.entries e).freed = false

/-- Nothing is mounted below a path that is unmounted. -/
def Bare (s : Mounts N) : MountEvent N → Prop
  | .mount _ _ => True
  | .umount path => Path.names path = [] ∨
      ∀ below, Path.names path <+: Path.names below → Path.names below ≠ Path.names path →
      s.mounted (Path.names below) = none

def AllBare (s : Mounts N) : List (MountEvent N) → Prop
  | [] => True
  | e :: es => Bare s e ∧ AllBare (s.step e) es

structure Anchored (s : Mounts N) : Prop where
  wellFormed : s.vfs.WellFormed
  path : ∀ names n, s.mounted names = some n → ∃ path, Path.names path = names
  entry : ∀ names n, s.mounted names = some n → ∃ e, s.vfs.lookup names = some e ∧
    (s.vfs.entries e).node = .file n

theorem findLoop_entry {fs : FileSystems N} {find : Path → Result (Option (VfsNode N))}
    {nofollow : Bool} {filename : Path}
    (names : List Path) : ∀ cur result, names.foldlM v.findChild cur = some e →
    names.getLast? = some filename →
      findLoop fs v find nofollow filename (names.map some) cur result =
      .ok (some (v.entries e).node) := by
  induction names with
  | nil =>
    intro cur result _ hlast
    cases hlast
  | cons part rest ih =>
    intro cur result h hlast
    rw [List.foldlM_cons] at h
    obtain ⟨c,hchild,h⟩ := Option.bind_eq_some_iff.mp h
    rw [List.map_cons,findLoop,hchild]
    dsimp only
    cases rest with
    | nil =>
      obtain rfl := Option.some.inj h
      have hpart : part = filename := Option.some.inj hlast
      rw [findChild_name hchild,if_pos hpart]
      rfl
    | cons part' rest => exact ih c _ h hlast

theorem findNode_entry {path : Path} (h : v.lookup (Path.names path) = some e)
    (fs : FileSystems N) (fuel : ℕ)
    (nofollow : Bool) (hlink : nofollow = true ∨ isSymlink fs (v.entries e).node = false) :
    v.kFsVfsFindNode fs fuel path nofollow = .ok (some (v.entries e).node) := by
  rw [kFsVfsFindNode]
  by_cases hroot : path = ['/']
  · rw [hroot] at h
    rw [if_pos hroot,← Option.some.inj h]
    rfl
  · obtain ⟨hfile,hne⟩ := Path.filename_eq hroot
    obtain ⟨filename,hlast⟩ : ∃ f, (Path.names path).getLast? = some f :=
      ⟨_,List.getLast?_eq_some_getLast hne⟩
    rw [if_neg hroot,hfile,hlast,Path.segments_eq]
    refine Result.bind_eq_ok.mpr ⟨_,findLoop_entry _ _ _ h hlast,?_⟩
    refine if_neg fun hboth => ?_
    rcases hlink with hlink | hlink
    · rw [hlink] at hboth
      cases hboth.2
    · rw [hlink] at hboth
      cases hboth.1

theorem findNode_none {path : Path} (h : v.lookup (Path.names path) = none) :
    v.kFsVfsFindNode ⟨fun _ => [],fun _ _ => none,fun _ => false,fun _ =>
      []⟩ 0 path true = .ok none := by
  have hfs : ∀ (d : N) (part : Path) (n : N),
      (⟨fun _ => [],fun _ _ => none,fun _ => false,fun _ => []⟩ : FileSystems N).finddir d part =
      some n → [] = part :=
    fun d part n hn => by cases hn
  have hlinks :
      ∀ names (node : VfsNode N), NoLinks ⟨fun _ => [],fun _ _ => none,fun _ => false,fun _ =>
          []⟩ names node :=
    fun names node before after found _ _ => by cases found <;> rfl
  rw [findNode_eq hfs path (hlinks _ _)]
  obtain ⟨mid,hsplit,hmid,-⟩ :=
    followEntries_spec (Path.names path) (rfl : v.lookup [] = some VFS_ROOT)
  cases hrest : (v.followEntries (Path.names path) VFS_ROOT).2 with
  | nil =>
    rw [hrest,List.append_nil] at hsplit
    rw [List.nil_append,← hsplit,h] at hmid
    cases hmid
  | cons part rest =>
    rw [descend_cons]
    cases (v.entries (v.followEntries (Path.names path) VFS_ROOT).1).node <;> rfl

theorem Anchored.isolated {s : Mounts N} (h : Anchored s) : Isolated s where
  resolves := by
    intro path n hn fs fuel nofollow hlink
    obtain ⟨e,he,hnode⟩ := h.entry _ n hn
    have hfind := findNode_entry he fs fuel nofollow (by rw [hnode]; exact hlink)
    rwa [hnode] at hfind
  not_freed := by
    intro e he
    by_contra hfreed
    rw [Bool.not_eq_false] at hfreed
    cases he with
    | refl =>
      rw [h.wellFormed.root_kept] at hfreed
      cases hfreed
    | tail _ hmem => exact h.wellFormed.freed e hfreed _ hmem

theorem Anchored.mount {s : Mounts N} (h : Anchored s) (path : Path) (fsroot : N) :
    Anchored (s.step (.mount path fsroot)) := by
  obtain ⟨e,w,hret,hw,hext,hlookup⟩ := getEntry_create h.wellFormed path
  have hvfs : (s.step (.mount path fsroot)).vfs = w.setNode e (.file fsroot) := by
    change s.vfs.kFsVfsMountNode path fsroot = _
    rw [kFsVfsMountNode,hret]
  have hmounted : ∀ names, (s.step (.mount path fsroot)).mounted names =
      if names = Path.names path then some fsroot else s.mounted names := fun names =>
        Function.update_apply ..
  refine ⟨?_,fun names n hn => ?_,fun names n hn => ?_⟩
  · rw [hvfs]
    exact setNode_wellFormed hw e _
  · rw [hmounted] at hn
    split at hn
    · rename_i heq
      exact ⟨path,heq.symm⟩
    · exact h.path names n hn
  · rw [hvfs]
    simp only [(setNode_same w e (.file fsroot)).lookup]
    rw [hmounted] at hn
    split at hn
    · rename_i heq
      obtain rfl := Option.some.inj hn
      refine ⟨e,heq ▸ hlookup,?_⟩
      rw [setNode,modify_self]
    · rename_i hne
      obtain ⟨e',he',hnode⟩ := h.entry names n hn
      have hl := hext.lookup names e' he'
      have hee : e' ≠ e := fun heq => hne (lookup_injective hw hl (heq ▸ hlookup))
      refine ⟨e',hl,?_⟩
      rw [setNode,modify_other _ _ hee,hext.node e' (lookup_lt h.wellFormed he'),hnode]

theorem lookup_ne_root (hv : v.WellFormed) (hne : names ≠ [])
    (h : v.lookup names = some e) : e ≠ VFS_ROOT :=
  fun heq => hne (lookup_injective hv (h.trans (congrArg some heq)) rfl)

theorem umount_eq (v : Vfs N) (path : Path) : v.kFsVfsUmount path =
    (v.lookup (Path.names path)).elim v fun e => if e ≠ VFS_ROOT then v.detach e else v := by
  rw [kFsVfsUmount,getEntry_find]
  cases v.lookup (Path.names path) <;> rfl

/-- Unmounting takes out what is at the path and below it, except at the root. -/
theorem umount_spec (hv : v.WellFormed) (path : Path) : (v.kFsVfsUmount path).WellFormed ∧
    (∀ q, (v.kFsVfsUmount path).lookup q =
      if Path.names path ≠ [] ∧ Path.names path <+: q then none else v.lookup q) ∧
    ∀ x, ((v.kFsVfsUmount path).entries x).node = (v.entries x).node := by
  rw [umount_eq]
  cases hlookup : v.lookup (Path.names path) with
  | none =>
    refine ⟨hv,fun q => ?_,fun _ => rfl⟩
    by_cases hq : Path.names path ≠ [] ∧ Path.names path <+: q
    · obtain ⟨rest,hrest⟩ := hq.2
      rw [if_pos hq,← hrest]
      exact lookup_none hlookup
    · rw [if_neg hq]
      rfl
  | some e =>
    rw [Option.elim_some]
    rcases List.eq_nil_or_concat (Path.names path) with hnil | ⟨before,part,hsplit⟩
    · rw [hnil] at hlookup
      have he : e = VFS_ROOT := (Option.some.inj hlookup).symm
      rw [if_neg (not_not_intro he)]
      exact ⟨hv,fun q => (if_neg fun hq => hq.1 hnil).symm,fun _ => rfl⟩
    · rw [List.concat_eq_append] at hsplit
      have hne : Path.names path ≠ [] := by
        rw [hsplit]
        simp
      rw [if_pos (lookup_ne_root hv hne hlookup)]
      rw [hsplit] at hlookup
      obtain ⟨parent,-,hmem,hpar⟩ := lookup_parent hv hlookup
      refine ⟨hv.detach hmem hpar,fun q => ?_,
        detach_field VfsEntry.node (fun _ _ => rfl) fun _ _ => rfl⟩
      rw [lookup_detach hv hlookup,hsplit]
      simp

theorem Anchored.umount {s : Mounts N} (h : Anchored s) {path : Path}
    (hbare : Bare s (.umount path)) :
    Anchored (s.step (.umount path)) := by
  obtain ⟨hv,hlookup,hnode⟩ := umount_spec h.wellFormed path
  have hmounted : ∀ names, (s.step (.umount path)).mounted names =
      if names = Path.names path then none else s.mounted names := fun names =>
        Function.update_apply ..
  refine ⟨hv,fun names n hn => ?_,fun names n hn => ?_⟩
  all_goals
    rw [hmounted] at hn
    split at hn
    · cases hn
  · exact h.path names n hn
  · rename_i hne
    obtain ⟨e,he,hen⟩ := h.entry names n hn
    obtain ⟨below,hbelow⟩ := h.path names n hn
    refine ⟨e,?_,(hnode e).trans hen⟩
    have hnot : ¬ (Path.names path ≠ [] ∧ Path.names path <+: names) := by
      rintro ⟨hroot,hpref⟩
      have hnone := hbare.resolve_left hroot below
      rw [hbelow] at hnone
      rw [hnone hpref hne] at hn
      cases hn
    exact (hlookup names).trans ((if_neg hnot).trans he)

theorem Anchored.step {s : Mounts N} (h : Anchored s) (e : MountEvent N) :
    Isolated (s.step e) ↔ Bare s e := by
  cases e with
  | mount path fsroot => exact iff_of_true (h.mount path fsroot).isolated trivial
  | umount path =>
    refine ⟨fun hi => ?_,fun hbare => (h.umount hbare).isolated⟩
    by_contra hbare
    rw [Bare,not_or] at hbare
    obtain ⟨hroot,hbelow⟩ := hbare
    rw [Classical.not_forall] at hbelow
    obtain ⟨below,hbelow⟩ := hbelow
    rw [Classical.not_imp,Classical.not_imp] at hbelow
    obtain ⟨hpref,hne,hsome⟩ := hbelow
    obtain ⟨n,hn⟩ := Option.ne_none_iff_exists'.mp hsome
    obtain ⟨-,hlookup,-⟩ := umount_spec h.wellFormed path
    have hmounted : (s.step (.umount path)).mounted (Path.names below) = some n :=
      (Function.update_of_ne hne _ _).trans hn
    have hgone : (s.step (.umount path)).vfs.lookup (Path.names below) = none :=
      (hlookup _).trans (if_pos ⟨hroot,hpref⟩)
    have hfound :=
      hi.resolves below n hmounted ⟨fun _ => [],fun _ _ => none,fun _ => false,fun _ =>
        []⟩ 0 true (Or.inl rfl)
    rw [findNode_none hgone] at hfound
    cases hfound

theorem init_anchored : Anchored (Mounts.init : Mounts N) :=
  ⟨init_wellFormed,fun _ _ h => (by cases h),fun _ _ h => (by cases h)⟩

theorem Anchored.run (es : List (MountEvent N)) : ∀ {s : Mounts N}, Anchored s → AllBare s es →
    Anchored (s.run es) := by
  induction es with
  | nil => exact fun h _ => h
  | cons e es ih =>
    intro s h hbare
    refine ih ?_ hbare.2
    cases e with
    | mount path fsroot => exact h.mount path fsroot
    | umount path => exact h.umount hbare.1

/-- In every run in which nothing is mounted below what is unmounted, all that is mounted is
found where it was mounted and no entry in the tree has been freed; and a call keeps this
just if it does not unmount something with a mount below. -/
theorem mount_isolation {es : List (MountEvent N)} (h : AllBare Mounts.init es) :
    Isolated (Mounts.init.run es) ∧ ∀ e, Isolated ((Mounts.init.run es).step e) ↔
    Bare (Mounts.init.run es) e :=
  ⟨(init_anchored.run es h).isolated,(init_anchored.run es h).step⟩

/-- Something is mounted below another mount and unmounted again. -/
theorem mount_isolation_below : Isolated (Mounts.init.run
    [.mount "/a".toList 1,.mount "/a/b".toList 2,.umount "/a/b".toList] : Mounts ℕ) := by
  have hbare : AllBare Mounts.init
      [.mount "/a".toList 1,.mount "/a/b".toList 2,.umount "/a/b".toList] := by
    refine ⟨trivial,trivial,Or.inr fun below hpref hne => ?_,trivial⟩
    have hnames : Path.names "/a/b".toList = ["a".toList,"b".toList] := by decide
    rw [hnames] at hpref hne
    have hlen := hpref.length_le
    have hshort : Path.names below ≠ Path.names "/a".toList := by
      intro heq
      rw [heq] at hlen
      exact absurd hlen (by decide)
    exact (Function.update_of_ne (hnames ▸ hne) _ _).trans (Function.update_of_ne hshort _ _)
  exact (mount_isolation hbare).1

/-- Unmounting `/a` takes `/a/b` away, although something is still mounted there. -/
theorem umount_detaches_below : ¬ Isolated (Mounts.init.run
    [.mount "/a".toList 1,.mount "/a/b".toList 2,.umount "/a".toList] : Mounts ℕ) := by
  intro hi
  have hfound :=
    hi.resolves "/a/b".toList 2 (by decide +kernel) ⟨fun _ => [],fun _ _ => none,
      fun _ => false,fun _ => []⟩
    0 true (Or.inl rfl)
  exact absurd hfound (by decide +kernel)

end Vfs
end ScalesOS
