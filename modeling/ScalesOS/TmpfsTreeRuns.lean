import ScalesOS.TmpfsTree

/-!
# Runs on a tmpfs

Every call below the mount point is a call of the tree of files. What a call changes is at one
node and below it, and every open node stays the one of its path.
-/

namespace ScalesOS
namespace TmpfsTree

open ByteMemory NameTree Storage

variable {m : MountPoint} {v : Vfs FsNode} {s : Tmpfs} {t : NameTree Path (ℕ × Entry)}
    {files : FileTree}
  {wd path : Path} {rest : List Path}

variable {ns : List Path} {p : ℕ} {e : Entry} {below : NameTree Path (ℕ × Entry)}

theorem Shows.opened_some (h : Shows m v s t files) {node : ℕ} {k : OpenPath}
    (hk : files.opened node = some k) :
    ∃ o n, s.opened node = some o ∧ OpenPath.Of m s.nodes t o k n := by
  have hrel := h.opened node
  rw [hk] at hrel
  cases ho : s.opened node with
  | none =>
    rw [ho] at hrel
    cases hrel
  | some o =>
    rw [ho] at hrel
    cases hrel with
    | some hof =>
      obtain ⟨n,hof⟩ := hof
      exact ⟨o,n,rfl,hof⟩

/-- The nodes after a change at one of them, where no open node loses its path. -/
theorem Shows.change (h : Shows m v s t files) (hfind : t.find ns = some ((p,e),below))
    (f : ℕ × Entry → NameTree Path (ℕ × Entry) → (ℕ × Entry) × NameTree Path (ℕ × Entry))
    (g : Entry → NameTree Path Entry → Entry × NameTree Path Entry) {nodes' : ℕ → Option TmpfsCell}
    (hp : (f (p,e) below).1.1 = p)
    (hg : ((f (p,e) below).1.2,(f (p,e) below).2.map Prod.snd) = g e (below.map Prod.snd))
    {name : Path} {d d' : TmpfsData} {q : Option ℕ} (hcell : s.nodes p = some ⟨name,d,q,below.tops⟩)
    (hcell' : nodes' p = some ⟨name,d',q,(f (p,e) below).2.tops⟩)
    (hstands : Stands d' (f (p,e) below).1.2) (hdir : d'.dir = d.dir)
    (hsize : d.contents.size ≤ d'.contents.size)
    (hsame : ∀ x ∈ t.pointers, x ∉ p :: below.pointers → nodes' x = s.nodes x)
    (hroot : ∀ x ∈ t.pointers, x ≠ p → ∀ cell, nodes' x = some cell → s.nodes x = some cell)
    (hlaid : Laid Stands nodes' (some p) (f (p,e) below).2)
    (hnodup : (f (p,e) below).2.pointers.Nodup)
    (hnew : ∀ x ∈ (f (p,e) below).2.pointers, x ∈ below.pointers ∨ x ∉ t.pointers)
    (hkeep : ∀ names x, (names = [] ∨ ∃ node k, files.opened node = some k ∧
      m.name :: k.path = ns++names) →
      below.pointerAt names = some x → (f (p,e) below).2.pointerAt names = some x) :
    Shows m v { s with nodes := nodes' }
        (t.change f ns) { files with tree := files.tree.change g ns } where
  vfs := h.vfs
  laid := Laid.change t hcell hcell' hstands hlaid hp h.laid h.nodup hfind hsame
  nodup := nodup_change t h.nodup hfind hp hnodup hnew
  root := by
    refine pointerAt_change t hfind hp (fun names heq hq => ?_) h.root
    -- the path of the root has one name, and so has `ns`
    cases ns with
    | nil =>
      rw [find_nil] at hfind
      cases hfind
    | cons n ns =>
      obtain ⟨-,htail⟩ := List.cons.inj heq
      exact hkeep names _ (.inl (List.append_eq_nil_iff.mp htail.symm).2) hq
  dir := by
    intro cell hcellRoot
    by_cases heq : m.device = p
    · have hcellRoot' : nodes' m.device = some cell := hcellRoot
      rw [heq,hcell'] at hcellRoot'
      obtain rfl := Option.some.inj hcellRoot'
      exact hdir.trans (h.dir _ (heq ▸ hcell))
    · exact h.dir cell (hroot _ (pointer_mem h.root) heq cell hcellRoot)
  tree := by
    rw [← h.tree]
    refine change_map t fun x b hx => ?_
    rw [hfind] at hx
    obtain ⟨rfl,rfl⟩ := Prod.mk.inj (Option.some.inj hx)
    exact hg
  opened := by
    intro node
    have hrel := h.opened node
    change Option.Rel _ (s.opened node) (files.opened node)
    cases hk : files.opened node with
    | none =>
      rw [hk] at hrel
      cases ho : s.opened node with
      | none => exact .none
      | some o =>
        rw [ho] at hrel
        cases hrel
    | some k =>
      obtain ⟨o,n,ho,hof⟩ := h.opened_some hk
      rw [ho]
      refine .some ⟨n,hof.node,hof.mode,?_,hof.dir,hof.size,hof.mountpoint,fun cell hcellNode => ?_⟩
      · exact pointerAt_change t hfind hp (fun names heq hq =>
          hkeep names _ (.inr ⟨node,k,hk,heq⟩) hq) hof.pointer
      · by_cases heq : n.device = p
        · have hcellNode' : nodes' n.device = some cell := hcellNode
          rw [heq,hcell'] at hcellNode'
          obtain rfl := Option.some.inj hcellNode'
          exact (hof.held _ (heq ▸ hcell)).trans hsize
        · exact hof.held cell (hroot _ (pointer_mem hof.pointer) heq cell hcellNode)

theorem Shows.createNode (h : Shows m v s t files)
    (hfind : t.find ns = some ((p,e),below)) {fresh : Fresh}
    (hfresh : s.nodes fresh.address = none) (name : Path) (dir : Bool) :
    Shows m v (s.createNode fresh name dir p)
      (t.change (fun x b => (x,b.push name (fresh.address,⟨dir,.empty⟩))) ns)
      { files with tree := files.tree.change (fun x b => (x,b.push name ⟨dir,.empty⟩)) ns } := by
  obtain ⟨hpbelow,hbelow⟩ := nodup_find t h.nodup hfind
  have hin := mem_find t hfind
  have hout : fresh.address ∉ t.pointers := fun hmem => h.laid.cell t _ hmem hfresh
  have hne : ∀ q ∈ t.pointers, q ≠ fresh.address := fun q hq heq => hout (heq ▸ hq)
  obtain ⟨pname,d,q,-,hcell,hstands,hlaid⟩ := h.laid.find t hfind
  have hother : ∀ x ∈ t.pointers, x ≠ p → (s.createNode fresh name dir p).nodes x = s.nodes x := by
    intro x hx hxp
    exact (Function.update_of_ne hxp _ _).trans (Function.update_of_ne (hne x hx) _ _)
  refine h.change hfind _ _ rfl ?_ hcell ?_ hstands rfl le_rfl
    (fun x hx hout => hother x hx fun heq => hout (heq ▸ List.mem_cons_self))
    (fun x hx hxp cell hx' => (hother x hx hxp).symm.trans hx') ?_ ?_ ?_ fun names x _ hx =>
    pointerAt_push below hx
  · rw [map_push]
  · refine (Function.update_self ..).trans ?_
    rw [hcell,tops_push]
    rfl
  · refine Laid.push (v := ⟨dir,.create fresh.memory⟩) below ?_ ?_ ⟨rfl,
      TmpfsNode.create_holds fresh.memory⟩
    · exact hlaid.congr below fun x hx => hother x (hin (List.mem_cons_of_mem _ hx)) fun heq =>
        hpbelow (heq ▸ hx)
    · exact (Function.update_of_ne (hne p (hin List.mem_cons_self)).symm _ _).trans
        (Function.update_self ..)
  · rw [pointers_push]
    refine hbelow.append (List.nodup_singleton _) fun x hx hx' => ?_
    rw [List.mem_singleton.mp hx'] at hx
    exact hout (hin (List.mem_cons_of_mem _ hx))
  · intro x hx
    rw [pointers_push] at hx
    rcases List.mem_append.mp hx with hx | hx
    · exact .inl hx
    · rw [List.mem_singleton.mp hx]
      exact .inr hout

theorem Shows.write (h : Shows m v s t files) (hfind : t.find ns = some ((p,e),below))
    {cell : TmpfsCell} (hp : s.nodes p = some cell) {contents : TmpfsNode} {f : File → File}
    (hholds : contents.Holds (f e.file)) (hgrows : e.file.size ≤ (f e.file).size) :
    Shows m v { s with nodes := Function.update s.nodes p (some
      { cell with value := { cell.value with contents := contents } }) }
      (t.change (fun x b => ((x.1,{ x.2 with file := f x.2.file }),b)) ns)
      { files with tree := files.tree.change (fun x b => ({ x with file := f x.file },b)) ns } := by
  obtain ⟨hpbelow,hbelow⟩ := nodup_find t h.nodup hfind
  obtain ⟨pname,d,q,-,hcell,hstands,hlaid⟩ := h.laid.find t hfind
  obtain rfl := Option.some.inj (hp.symm.trans hcell)
  refine h.change hfind _ _ rfl rfl hcell (Function.update_self ..)
    (show Stands { d with contents := contents } { e with file := f e.file } from
      ⟨hstands.1,hholds⟩) rfl
    (by rw [hstands.2.size,hholds.size]; exact hgrows)
    (fun x _ hx => Function.update_of_ne (fun heq : x = p => hx (heq ▸ List.mem_cons_self)) _ _)
    (fun x _ hx cell hx' => (Function.update_of_ne hx _ _).symm.trans hx')
    (hlaid.congr below fun x hx =>
      Function.update_of_ne (fun heq : x = p => hpbelow (heq ▸ hx)) _ _) hbelow (fun x hx =>
        .inl hx)
    fun names x _ hx => hx

theorem Shows.rm (h : Shows m v s t files) (hns : ns ≠ []) {name : Path} {c : ℕ} {x : Entry}
    (hfind : t.find (ns++[name]) = some ((c,x),.nil))
    (hclosed : ∀ node k, files.opened node = some k → m.name :: k.path ≠ ns++[name]) {n : FsNode}
    (hn : n.device = c) :
    ∃ s', s.rm n = .ok s' ∧ s'.opened = s.opened ∧
      Shows m v s' (t.change (fun y b => (y,b.erase name)) ns)
      { files with tree := files.tree.change (fun y b => (y,b.erase name)) ns } := by
  have hparent := hfind
  rw [find_append t hns (List.cons_ne_nil _ _)] at hparent
  obtain ⟨⟨⟨p,e⟩,below⟩,hp,hbelow⟩ := Option.bind_eq_some_iff.mp hparent
  obtain ⟨hpbelow,hdistinct⟩ := nodup_find t h.nodup hp
  obtain ⟨l,r,hl,hr⟩ := pointers_erase below hbelow
  have hcmem : c ∈ below.pointers := mem_find below hbelow List.mem_cons_self
  have hpc : p ≠ c := fun heq => hpbelow (heq ▸ hcmem)
  -- the other nodes below the parent
  have hkept : ∀ y ∈ (below.erase name).pointers, y ∈ below.pointers ∧ y ≠ c := by
    intro y hy
    rw [hr] at hy
    rw [hl] at hdistinct ⊢
    refine ⟨?_,?_⟩
    · rcases List.mem_append.mp hy with hy | hy
      · exact List.mem_append_left _ hy
      · exact List.mem_append_right _ (List.mem_cons_of_mem _ hy)
    · rintro rfl
      exact (List.nodup_cons.mp (List.nodup_middle.mp hdistinct)).1 hy
  obtain ⟨pname,d,q,-,hcell,hstands,hlaid⟩ := h.laid.find t hp
  obtain ⟨cname,dc,qc,-,hccell,-,-⟩ := h.laid.find t hfind
  obtain rfl : qc = some p := hlaid.parent_eq below hbelow hccell
  have hccell' : s.nodes c = some ⟨cname,dc,some p,[]⟩ := hccell
  have hret : s.rm n = .ok { s with
      nodes := Function.update
          (Function.update s.nodes p (some ⟨pname,d,q,below.tops.erase c⟩)) c none } := by
    rw [Tmpfs.rm,hn,hccell']
    simp only [ne_eq,not_true_eq_false,if_false,hcell,Option.map_some]
    rfl
  refine ⟨_,hret,rfl,h.change hp _ _ rfl ?_ hcell ?_ hstands rfl le_rfl ?_ ?_ ?_ ?_ ?_ ?_⟩
  · rw [map_erase]
  · refine (Function.update_of_ne hpc _ _).trans ?_
    rw [Function.update_self,tops_erase below hdistinct hbelow]
  · intro y _ hout
    refine (Function.update_of_ne ?_ _ _).trans (Function.update_of_ne ?_ _ _)
    · exact fun heq => hout (heq ▸ List.mem_cons_of_mem _ hcmem)
    · exact fun heq => hout (heq ▸ List.mem_cons_self)
  · intro y _ hyp cell hy
    change Function.update (Function.update s.nodes p (some ⟨pname,d,q,below.tops.erase c⟩)) c none
      y = some cell at hy
    by_cases hyc : y = c
    · rw [hyc,Function.update_self] at hy
      cases hy
    · rwa [Function.update_of_ne hyc,Function.update_of_ne hyp] at hy
  · refine (hlaid.erase below).congr _ fun y hy => ?_
    obtain ⟨hmem,hne⟩ := hkept y hy
    exact (Function.update_of_ne hne _ _).trans (Function.update_of_ne (fun heq : y = p =>
      hpbelow (heq ▸ hmem)) _ _)
  · rw [hl] at hdistinct
    rw [hr]
    exact (List.nodup_cons.mp (List.nodup_middle.mp hdistinct)).2
  · exact fun y hy => .inl (hkept y hy).1
  · intro names y hnames hy
    refine pointerAt_erase below hbelow ?_ hy
    rintro rfl
    rcases hnames with hnil | ⟨node,k,hk,heq⟩
    · cases hnil
    · exact hclosed node k hk heq

/-- A node of a path, as `k_fs_vfs_open` returns it. -/
structure NodeOf (m : MountPoint) (t : NameTree Path (ℕ × Entry)) (rest : List Path) (n : FsNode)
    (e : Entry) : Prop where
  find : ∃ below, t.find (m.name :: rest) = some ((n.device,e),below)
  dir : n.dir = e.dir
  size : n.size = FileTree.sizeOf rest e
  mountpoint : n.mountpoint = if rest = [] then some m.entry else none

theorem Shows.lookup (h : Shows m v s t files) (rest : List Path) :
    files.lookup (m.place v) rest = (t.find (m.name :: rest)).map fun y =>
    (y.1.2,y.2.map Prod.snd) := by
  rw [FileTree.lookup,← h.tree,find_map]
  rfl

theorem Shows.nodeAt (h : Shows m v s t files)
    (hfind : t.find (m.name :: rest) = some ((p,e),below)) :
    NodeOf m t rest (nodeAt m rest (p,e)) e := by
  by_cases hrest : rest = []
  · have hnode : TmpfsTree.nodeAt m rest (p,e) = m.node := if_pos hrest
    obtain ⟨⟨⟨p',e'⟩,below'⟩,hroot,hdevice⟩ := Option.map_eq_some_iff.mp h.root
    obtain rfl : p' = m.device := hdevice
    rw [hnode]
    rw [hrest,hroot] at hfind
    obtain ⟨hpe,rfl⟩ := Prod.mk.inj (Option.some.inj hfind)
    obtain ⟨rfl,rfl⟩ := Prod.mk.inj hpe
    obtain ⟨name,d,q,-,hcell,hstands,-⟩ := h.laid.find t hroot
    refine ⟨⟨below',by rw [hrest]; exact hroot⟩,?_,by rw [FileTree.sizeOf,if_pos hrest]; rfl,
      by rw [if_pos hrest]; rfl⟩
    exact ((h.dir _ hcell).symm.trans hstands.1)
  · have hnode : TmpfsTree.nodeAt m rest (p,e) = ⟨rest.getLastD [],p,e.dir,e.file.size,none⟩ :=
      if_neg hrest
    rw [hnode]
    exact ⟨⟨below,hfind⟩,rfl,by rw [FileTree.sizeOf,if_neg hrest],by rw [if_neg hrest]⟩

theorem insert_concat (files : FileTree) (place : Place) (init : List Path) (c : Path)
    (entry : Entry) :
    files.insert place (init++[c]) entry =
      { files with tree := files.tree.change (fun e b =>
        (e,b.push c entry)) (place.root :: init) } := by
  rw [FileTree.insert,List.dropLast_concat,List.getLastD_concat]

theorem remove_concat (files : FileTree) (place : Place) (init : List Path) (c : Path) :
    files.remove place (init++[c]) =
      { files with tree := files.tree.change (fun e b => (e,b.erase c)) (place.root :: init) } := by
  rw [FileTree.remove,List.dropLast_concat,List.getLastD_concat]

theorem openPath_none (files : FileTree) {place : Place} {mode : ℕ}
    (h : files.lookup place rest = none) :
    files.openPath place rest mode =
      if mode &&& O_CREAT = 0 ∨ (files.lookup place rest.dropLast).isNone then (none,files)
      else (some ⟨false,.empty⟩,files.insert place rest ⟨false,.empty⟩) := by
  rw [FileTree.openPath,h]

theorem createNode_free {fresh : Fresh} {name : Path} {dir : Bool} {parent a : ℕ}
    (ha : a ≠ fresh.address)
    (hnone : s.nodes a = none) : (s.createNode fresh name dir parent).nodes a = none := by
  by_cases hp : a = parent
  · rw [hp] at hnone ⊢
    refine (Function.update_self ..).trans ?_
    rw [hnone]
    rfl
  · exact (Function.update_of_ne hp _ _).trans ((Function.update_of_ne ha _ _).trans hnone)

structure OpenOk (m : MountPoint) (v : Vfs FsNode) (s s' : Tmpfs) (fresh : Fresh)
    (t' : NameTree Path (ℕ × Entry))
    (files' : FileTree) (rest : List Path) (found : Option (VfsNode FsNode))
    (entry : Option Entry) : Prop where
  shows' : Shows m v s' t' files'
  found : Option.Rel (fun x e => ∃ n, x = .file n ∧ NodeOf m t' rest n e) found entry
  opened : s'.opened = s.opened
  free : ∀ a, a ≠ fresh.address → s.nodes a = none → s'.nodes a = none

theorem Shows.openPath (h : Shows m v s t files) (hm : m.On v) (hpath : Through m v rest)
    {fresh : Fresh} (mode : ℕ)
    (hfresh : mode &&& O_CREAT ≠ 0 → s.nodes fresh.address = none) : ∃ s' t' found,
    s.kFsVfsOpen (Path.absolute (m.names++rest)) mode fresh = .ok (found,s') ∧
      OpenOk m v s s' fresh t' (files.openPath (m.place v) rest mode).2 rest found
      (files.openPath (m.place v) rest mode).1 := by
  have hfound := h.findNode hm hpath mode
  have hlookup := h.lookup rest
  rw [Tmpfs.kFsVfsOpen,hpath.canonize,hfound]
  cases hfind : t.find (m.name :: rest) with
  | some y =>
    obtain ⟨⟨p,e⟩,below⟩ := y
    rw [hfind] at hlookup
    rw [FileTree.openPath,hlookup]
    exact ⟨s,t,_,rfl,h,.some ⟨_,rfl,h.nodeAt hfind⟩,rfl,fun _ _ ha => ha⟩
  | none =>
    rw [hfind] at hlookup
    rw [openPath_none files hlookup]
    by_cases hcreat : mode &&& O_CREAT = 0
    · refine ⟨s,t,none,?_,?_⟩
      · change (if mode &&& O_CREAT = 0 then _ else _) = _
        rw [if_pos hcreat]
        rfl
      · rw [if_pos (.inl hcreat)]
        exact ⟨h,.none,rfl,fun _ _ ha => ha⟩
    · -- the root is there, so the path has a last name
      have hrest : rest ≠ [] := by
        rintro rfl
        obtain ⟨y,hroot,-⟩ := Option.map_eq_some_iff.mp h.root
        rw [hroot] at hfind
        cases hfind
      obtain ⟨init,c,rfl⟩ := (List.eq_nil_or_concat' rest).resolve_left hrest
      obtain ⟨hinit,hfolder,hname⟩ := hpath.folder
      have hdir := h.findNode hm hinit O_WRONLY
      have hlookupDir := h.lookup init
      change ∃ s' t' found, (if mode &&& O_CREAT = 0 then _ else _) = Except.ok (found,s') ∧
        OpenOk m v s s' fresh t' _ _ found _
      rw [if_neg hcreat,hfolder,hdir,hname,List.dropLast_concat,hlookupDir]
      cases hparent : t.find (m.name :: init) with
      | none =>
        refine ⟨s,t,none,rfl,?_⟩
        rw [if_pos (.inr rfl)]
        exact ⟨h,.none,rfl,fun _ _ ha => ha⟩
      | some y =>
        obtain ⟨⟨p,e⟩,below⟩ := y
        have hnone : below.find [c] = none := by
          rw [show m.name :: (init++[c]) = (m.name :: init)++[c] from rfl,
            find_append t (List.cons_ne_nil _ _) (List.cons_ne_nil _ _),hparent] at hfind
          exact hfind
        obtain ⟨_,hdevice⟩ := (h.nodeAt hparent).find
        rw [hparent] at hdevice
        have hp : (TmpfsTree.nodeAt m init (p,e)).device = p :=
          (congrArg (fun y : (ℕ × Entry) × NameTree Path (ℕ × Entry) =>
            y.1.1) (Option.some.inj hdevice)).symm
        rw [if_neg (by rintro (hzero | hnone); exacts [hcreat hzero,Bool.false_ne_true hnone])]
        refine ⟨s.createNode fresh c false p,
          t.change (fun x b => (x,b.push c (fresh.address,⟨false,.empty⟩))) (m.name :: init),
          some (.file ⟨c,fresh.address,false,0,none⟩),?_,?_,?_,rfl,?_⟩
        · change Except.ok (_,s.createNode fresh c false (TmpfsTree.nodeAt m init (p,e)).device) = _
          rw [hp]
        · exact insert_concat files (m.place v) init c ⟨false,.empty⟩ ▸
            h.createNode hparent (hfresh hcreat) c false
        · refine .some ⟨_,rfl,⟨.nil,?_⟩,rfl,?_,?_⟩
          · rw [show m.name :: (init++[c]) = (m.name :: init)++[c] from rfl,
              find_append _ (List.cons_ne_nil _ _) (List.cons_ne_nil _ _),find_change t hparent]
            exact find_push below hnone
          · rw [FileTree.sizeOf,if_neg hrest]
            rfl
          · rw [if_neg hrest]
        · exact fun a ha hnone => createNode_free ha hnone

theorem Shows.openNode (h : Shows m v s t files) {node : ℕ} (hnode : s.opened node ≠ none) :
    ∃ o k n e below, s.openNode node = .ok o ∧ s.opened node = some o ∧ files.opened node = some k ∧
    OpenPath.Of m s.nodes t o k n ∧ t.find (m.name :: k.path) = some ((n.device,e),below) := by
  obtain ⟨o,ho⟩ := Option.ne_none_iff_exists'.mp hnode
  have hrel := h.opened node
  rw [ho] at hrel
  cases hk : files.opened node with
  | none =>
    rw [hk] at hrel
    cases hrel
  | some k =>
    rw [hk] at hrel
    cases hrel with
    | some hof =>
      obtain ⟨n,hof⟩ := hof
      obtain ⟨⟨⟨p,e⟩,below⟩,hfind,hp⟩ := Option.map_eq_some_iff.mp hof.pointer
      obtain rfl : p = n.device := hp
      exact ⟨o,k,n,e,below,by rw [Tmpfs.openNode,ho]; rfl,ho,rfl,hof,hfind⟩

theorem Shows.setOpened (h : Shows m v s t files) (node : ℕ) {o : Option OpenNode}
    {k : Option OpenPath} (hrel : Option.Rel (fun o k => ∃ n, OpenPath.Of m s.nodes t o k n) o k) :
    Shows m v { s with opened := Function.update s.opened node o } t
      { files with opened := Function.update files.opened node k } where
  vfs := h.vfs
  laid := h.laid
  nodup := h.nodup
  root := h.root
  dir := h.dir
  tree := h.tree
  opened := by
    intro x
    change Option.Rel _ (Function.update s.opened node o x) (Function.update files.opened node k x)
    by_cases hx : x = node
    · rw [hx,Function.update_self,Function.update_self]
      exact hrel
    · rw [Function.update_of_ne hx,Function.update_of_ne hx]
      exact h.opened x

theorem Shows.of_nodeOf (h : Shows m v s t files) {n : FsNode}
    (hn : NodeOf m t rest n e) (mode : ℕ) :
    OpenPath.Of m s.nodes t ⟨.file n,mode⟩ ⟨rest,e.dir,FileTree.sizeOf rest e,mode⟩ n := by
  obtain ⟨below,hfind⟩ := hn.find
  refine ⟨rfl,rfl,?_,hn.dir,hn.size,hn.mountpoint,fun cell hcell => ?_⟩
  · rw [pointerAt,hfind]
    rfl
  · obtain ⟨name,d,q,-,hp,hstands,-⟩ := h.laid.find t hfind
    obtain rfl := Option.some.inj (hcell.symm.trans hp)
    rw [hn.size,FileTree.sizeOf]
    split
    · exact Nat.zero_le _
    · exact hstands.2.size.ge

theorem Shows.openCall (h : Shows m v s t files) (hm : m.On v) (hpath : Leads m v wd path rest)
    {node mode : ℕ} {fresh : Fresh} (hfresh : s.nodes fresh.address = none) : ∃ s' t',
      s.call (.open node wd path mode fresh) =
      .ok ((files.apply (m.place v) (.open node rest mode)).1,s') ∧
        Shows m v s' t' (files.apply (m.place v) (.open node rest mode)).2 := by
  obtain ⟨s₁,t₁,found,hopen,hok⟩ := h.openPath hm hpath.through mode fun _ => hfresh
  rw [Tmpfs.call,hpath.full,hopen,FileTree.apply]
  obtain ⟨hshows,hfound,-,-⟩ := hok
  generalize files.openPath (m.place v) rest mode = r at hshows hfound ⊢
  obtain ⟨entry,files₁⟩ := r
  cases hfound with
  | none => exact ⟨_,t₁,rfl,hshows.setOpened node .none⟩
  | some hnode =>
    obtain ⟨n,rfl,hn⟩ := hnode
    refine ⟨_,t₁,?_,hshows.setOpened node (.some ⟨n,hshows.of_nodeOf hn mode⟩)⟩
    change Except.ok (Answer.node (some (n.dir,n.size)),_) = _
    rw [hn.dir,hn.size]
    rfl

theorem Shows.close (h : Shows m v s t files) {node : ℕ} (hnode : s.opened node ≠ none) : ∃ s' t',
    s.call (.close node) = .ok ((files.apply (m.place v) (.close node)).1,s') ∧
      Shows m v s' t' (files.apply (m.place v) (.close node)).2 := by
  obtain ⟨o,_,_,_,_,hok,-⟩ := h.openNode hnode
  rw [Tmpfs.call,hok]
  exact ⟨_,t,rfl,h.setOpened node .none⟩

theorem readBlocks_size (contents : TmpfsNode) (size block_offset : ℕ) (n : ℕ) :
    ∀ (i part_offset : ℕ) (copied : List (BitVec 8)),
    ({ contents with size := size } : TmpfsNode).readBlocks block_offset n i part_offset copied =
      contents.readBlocks block_offset n i part_offset copied := by
  induction n with
  | zero => exact fun _ _ _ => rfl
  | succ n ih =>
    intro i part_offset copied
    rw [TmpfsNode.readBlocks,TmpfsNode.readBlocks]
    simp only [ih]
    rfl

theorem read_size (contents : TmpfsNode) (size : ℕ) (supply : Supply) (node_size offset n : ℕ) :
    ({ contents with size := size } : TmpfsNode).read supply node_size offset n =
    contents.read supply node_size offset n := by
  rw [TmpfsNode.read,TmpfsNode.read]
  simp only [readBlocks_size]
  rfl

theorem Readable.read {contents : TmpfsNode} {f : File} {supply : Supply} {size offset n : ℕ}
    (hholds : contents.Holds f)
    (hle : size ≤ contents.size) (hcan : Readable { contents with size := size } supply offset n) :
    contents.read supply size offset n =
      .ok ⟨(({ f with size := size } : File).read offset n).length,
          ({ f with size := size } : File).read offset n,true⟩ := by
  have hbacked := hholds.backed
  have hcut : ({ contents with size := size } : TmpfsNode).Holds { f with size := size } :=
    ⟨⟨hholds.last,hholds.limit,hholds.array,hholds.slots,hholds.blocks⟩,rfl,
      (hle.trans hholds.size.le).trans hbacked.size_le,hbacked.inside,hbacked.outside⟩
  obtain ⟨restored,hread,hrestored⟩ := TmpfsNode.read_ok hcut fun hpos hin => (hcan hpos hin).1
  rw [hrestored fun hpos hin => (hcan hpos hin).2] at hread
  exact (read_size contents size supply size offset n).symm.trans hread

theorem Shows.read (h : Shows m v s t files) {node : ℕ} (hnode : s.opened node ≠ none)
    {supply : Supply} {offset size : ℕ}
    (hcan : ∀ o n cell, s.opened node = some o → o.node = .file n → o.mode &&& O_RDONLY ≠ 0 →
      s.nodes n.device = some cell →
      Readable { cell.value.contents with size := n.size } supply offset size) : ∃ s' t',
        s.call (.read node supply offset size) =
        .ok ((files.apply (m.place v) (.read node offset size)).1,s') ∧
          Shows m v s' t' (files.apply (m.place v) (.read node offset size)).2 := by
  obtain ⟨o,k,n,e,below,hok,ho,hk,hof,hfind⟩ := h.openNode hnode
  have hlookup := h.lookup k.path
  rw [hfind] at hlookup
  obtain ⟨name,d,q,-,hcell,hstands,-⟩ := h.laid.find t hfind
  have hmode := hof.mode
  rw [Tmpfs.call,hok,FileTree.apply,hk]
  change ∃ s' t', (s.kFsVfsRead o supply offset size >>= fun answer => pure (answer,s)) = _ ∧ _
  rw [Tmpfs.kFsVfsRead,hof.node,hmode]
  dsimp only
  by_cases hreads : k.mode &&& O_RDONLY = 0
  · rw [if_pos hreads,if_pos hreads]
    exact ⟨s,t,rfl,h⟩
  · have hread :=
      Readable.read hstands.2 (hof.held _ hcell) (hcan o n _ ho hof.node (hmode ▸ hreads) hcell)
    rw [hof.size] at hread
    rw [if_neg hreads,if_neg hreads,hlookup,hcell]
    refine ⟨s,t,?_,h⟩
    dsimp only
    rw [hof.size,hread]
    rfl

theorem Shows.writeCall (h : Shows m v s t files) {node : ℕ} (hnode : s.opened node ≠ none)
    {supply : Supply} {offset : ℕ} {data : List (BitVec 8)}
    (hcan : ∀ o n cell, s.opened node = some o → o.node = .file n → o.mode &&& O_WRONLY ≠ 0 →
      s.nodes n.device = some cell →
      cell.value.contents.CanWrite supply offset data.length) : ∃ s' t',
        s.call (.write node supply offset data) =
        .ok ((files.apply (m.place v) (.write node offset data)).1,s') ∧
          Shows m v s' t' (files.apply (m.place v) (.write node offset data)).2 := by
  obtain ⟨o,k,n,e,below,hok,ho,hk,hof,hfind⟩ := h.openNode hnode
  obtain ⟨name,d,q,-,hcell,hstands,-⟩ := h.laid.find t hfind
  have hmode := hof.mode
  rw [Tmpfs.call,hok,FileTree.apply,hk]
  change ∃ s' t', s.kFsVfsWrite o supply offset data = _ ∧ _
  rw [Tmpfs.kFsVfsWrite,hof.node,hmode]
  dsimp only
  by_cases hwrites : k.mode &&& O_WRONLY = 0
  · rw [if_pos hwrites,if_pos hwrites]
    exact ⟨s,t,rfl,h⟩
  · obtain ⟨contents,hwrite,hholds⟩ :=
      TmpfsNode.write_ok hstands.2 (hcan o n _ ho hof.node (hmode ▸ hwrites) hcell)
    rw [if_neg hwrites,if_neg hwrites,hcell]
    refine ⟨_,_,?_,h.write (f := fun f =>
      f.write offset data) hfind hcell hholds (Nat.le_max_left _ _)⟩
    dsimp only at hwrite ⊢
    rw [hwrite]
    rfl

theorem readdir_tree {below : NameTree Path (ℕ × Entry)} {n : FsNode} {cell : TmpfsCell}
    (hcell : s.nodes n.device = some cell)
    (hchildren : cell.children = below.tops) (hlaid : Laid Stands s.nodes (some n.device) below)
    (index : ℕ) :
    s.readdir n index = (⟨['.'],0⟩ :: ⟨['.','.'],1⟩ ::
      (below.map Prod.snd).entries.mapIdx fun i e => (⟨e.1,i⟩ : Dirent))[index]? := by
  match index with
  | 0 => rfl
  | 1 => rfl
  | i+2 =>
    change ((s.nodes n.device).bind fun dir => dir.children[i]?.bind fun p =>
      (s.nodes p).map fun child => (⟨child.name,i⟩ : Dirent)) =
        ((below.map Prod.snd).entries.mapIdx fun i e => (⟨e.1,i⟩ : Dirent))[i]?
    rw [hcell,Option.bind_some,hchildren,tops,List.getElem?_map,map_entries,List.getElem?_mapIdx,
      List.getElem?_map]
    cases hentry : below.entries[i]? with
    | none => rfl
    | some x =>
      have hname := hlaid.entry below (List.mem_of_getElem? hentry)
      change (s.nodes x.2.1).map (fun child => (⟨child.name,i⟩ : Dirent)) = some ⟨x.1,i⟩
      obtain ⟨child,hchild,heq⟩ := Option.map_eq_some_iff.mp hname
      rw [hchild,Option.map_some,heq]

theorem Shows.readdir (h : Shows m v s t files) {node : ℕ} (hnode : s.opened node ≠ none)
    {index : ℕ} : ∃ s' t',
    s.call (.readdir node index) = .ok ((files.apply (m.place v) (.readdir node index)).1,s') ∧
      Shows m v s' t' (files.apply (m.place v) (.readdir node index)).2 := by
  obtain ⟨o,k,n,e,below,hok,ho,hk,hof,hfind⟩ := h.openNode hnode
  have hlookup := h.lookup k.path
  rw [hfind] at hlookup
  obtain ⟨name,d,q,-,hcell,-,hlaid⟩ := h.laid.find t hfind
  have hlist :
      s.kFsVfsReaddir o index =
          (FileTree.list (m.place v) k.path (below.map Prod.snd))[index]? := by
    rw [Tmpfs.kFsVfsReaddir,hof.node]
    dsimp only
    rw [hof.mountpoint,FileTree.list]
    by_cases hroot : k.path = []
    · rw [if_pos hroot,if_pos hroot]
      dsimp only
      -- the mount points below come first
      rw [h.vfs,List.getElem?_append,MountPoint.place,List.length_map,List.length_map]
      dsimp only
      rw [List.map_map,List.getElem?_map]
      by_cases hindex : index < (v.entries m.entry).children.length
      · rw [if_pos hindex,List.getElem?_eq_getElem hindex]
        rfl
      · rw [if_neg hindex,List.getElem?_eq_none (Nat.le_of_not_lt hindex)]
        exact readdir_tree hcell rfl hlaid _
    · rw [if_neg hroot,if_neg hroot,List.nil_append]
      exact readdir_tree hcell rfl hlaid index
  rw [Tmpfs.call,hok,FileTree.apply,hk]
  dsimp only
  rw [hlookup]
  refine ⟨s,t,?_,h⟩
  change Except.ok (Answer.dirent (s.kFsVfsReaddir o index),s) = _
  rw [hlist]
  rfl

theorem kFsVfsOpen_congr {path path' : Path}
    (h : Path.kUtilPathCanonize path [] = Path.kUtilPathCanonize path' []) (s : Tmpfs)
    (mode : ℕ) (fresh : Fresh) : s.kFsVfsOpen path mode fresh = s.kFsVfsOpen path' mode fresh := by
  rw [Tmpfs.kFsVfsOpen,h,Tmpfs.kFsVfsOpen]

theorem Shows.mkdir (h : Shows m v s t files) (hm : m.On v) (hpath : Leads m v wd path rest)
    (hrest : rest ≠ []) {mode : ℕ} {first second : Fresh} (hfirst : s.nodes first.address = none)
    (hsecond : s.nodes second.address = none) (hne : first.address ≠ second.address) : ∃ s' t',
      s.sysMkdir wd path mode first second =
      .ok ((files.apply (m.place v) (.mkdir rest mode)).1,s') ∧
        Shows m v s' t' (files.apply (m.place v) (.mkdir rest mode)).2 := by
  obtain ⟨init,c,rfl⟩ := (List.eq_nil_or_concat' rest).resolve_left hrest
  obtain ⟨hinit,hfolder,hname⟩ := hpath.through.folder
  obtain ⟨s₁,t₁,found,hopen,hok⟩ := h.openPath hm hinit mode fun _ => hfirst
  rw [Tmpfs.sysMkdir,FileTree.apply,hpath.full,hname,
    kFsVfsOpen_congr (hfolder.trans hinit.canonize.symm),hopen,List.dropLast_concat]
  obtain ⟨hshows,hfound,-,hfree⟩ := hok
  generalize files.openPath (m.place v) init mode = r at hshows hfound ⊢
  obtain ⟨entry,files₁⟩ := r
  cases hfound with
  | none => exact ⟨s₁,t₁,rfl,hshows⟩
  | some hnode =>
    obtain ⟨n,rfl,⟨below,hfind⟩,-⟩ := hnode
    refine ⟨_,t₁.change (fun x b => (x,b.push c (second.address,⟨true,.empty⟩))) (m.name :: init),
      rfl,?_⟩
    change Shows m v _ _ (files₁.insert (m.place v) (init++[c]) ⟨true,.empty⟩)
    rw [insert_concat]
    exact hshows.createNode hfind (hfree _ hne.symm hsecond) c true

theorem tops_eq_nil {below : NameTree Path (ℕ × Entry)} (h : below.tops = []) : below = .nil := by
  cases below with
  | nil => rfl
  | cons name value below rest => cases h

theorem Shows.removeNode (h : Shows m v s t files) {dir : Bool}
    (hremovable : Removable m s rest dir) {n : FsNode}
    (hnode : NodeOf m t rest n e) (hdir : e.dir = dir) : ∃ s' t', s.removeNode (.file n) = .ok s' ∧
      Shows m v s' t' (files.remove (m.place v) rest) := by
  obtain ⟨hrest,hcan⟩ := hremovable
  obtain ⟨below,hfind⟩ := hnode.find
  have hdescend := h.descend rest
  rw [hfind] at hdescend
  obtain ⟨⟨b,hdevice⟩,hkind,-,-⟩ := h.nodeAt hfind
  rw [hfind] at hdevice
  have hn : n.device = (TmpfsTree.nodeAt m rest (n.device,e)).device :=
    congrArg (fun y : (ℕ × Entry) × NameTree Path (ℕ × Entry) => y.1.1) (Option.some.inj hdevice)
  obtain ⟨name,d,q,-,hcell,-,-⟩ := h.laid.find t hfind
  obtain ⟨hchildren,hclosed⟩ := hcan _ _ hdescend (hkind.trans hdir) (hn ▸ hcell)
  obtain rfl := tops_eq_nil hchildren
  obtain ⟨init,c,rfl⟩ := (List.eq_nil_or_concat' rest).resolve_left hrest
  have hfind' : t.find ((m.name :: init)++[c]) = some ((n.device,e),.nil) := hfind
  have hfree : ∀ node k, files.opened node = some k → m.name :: k.path ≠ (m.name :: init)++[c] := by
    intro node k hk heq
    obtain ⟨o,f,ho,hof⟩ := h.opened_some hk
    have hpointer := hof.pointer
    rw [heq,pointerAt,show (m.name :: init)++[c] = m.name :: (init++[c]) from rfl,hfind] at hpointer
    exact hclosed node o f ho hof.node ((Option.some.inj hpointer).symm.trans hn)
  obtain ⟨s',hrm,-,hshows⟩ := h.rm (List.cons_ne_nil _ _) hfind' hfree rfl
  refine ⟨s',_,?_,remove_concat files (m.place v) init c ▸ hshows⟩
  rw [Tmpfs.removeNode,hrm,hnode.mountpoint,if_neg hrest]
  rfl

theorem Shows.openOld (h : Shows m v s t files) (hm : m.On v) (hpath : Through m v rest) :
    s.kFsVfsOpen (Path.absolute (m.names++rest)) 0 .unused =
      .ok ((t.find (m.name :: rest)).map fun y => .file (TmpfsTree.nodeAt m rest y.1),s) := by
  rw [Tmpfs.kFsVfsOpen,hpath.canonize,h.findNode hm hpath]
  cases t.find (m.name :: rest) <;> rfl

theorem Shows.removeCall (h : Shows m v s t files) (hm : m.On v)
    (hpath : Leads m v wd path rest) {dir : Bool} (hremovable : Removable m s rest dir) (error : ℤ)
    (remove : Tmpfs → VfsNode FsNode → Result (Answer × Tmpfs))
    (hremove : ∀ n : FsNode, remove s (.file n) = if n.dir = dir then
      (do let s ← s.removeNode (.file n); pure (.value 0,s))
      else pure (.value (-error),s)) : ∃ s' t',
        (do
          let (node,s) ← s.kFsVfsOpen (fullpath wd path) 0 .unused
          match node with
          | none => pure (.value (-ENOENT),s)
          | some node => remove s node :
              Result (Answer × Tmpfs)) = .ok ((files.unlink (m.place v) rest dir error).1,s') ∧
        Shows m v s' t' (files.unlink (m.place v) rest dir error).2 := by
  have hlookup := h.lookup rest
  rw [hpath.full,h.openOld hm hpath.through,FileTree.unlink,hlookup]
  cases hfind : t.find (m.name :: rest) with
  | none => exact ⟨s,t,rfl,h⟩
  | some y =>
    obtain ⟨⟨p,e⟩,below⟩ := y
    have hnode := h.nodeAt hfind
    change ∃ s' t', remove s (.file (TmpfsTree.nodeAt m rest (p,e))) = _ ∧ _
    rw [hremove,hnode.dir]
    dsimp only [Option.map_some]
    by_cases hdir : e.dir = dir
    · obtain ⟨s',t',hok,hshows⟩ := h.removeNode hremovable hnode hdir
      rw [if_pos hdir,if_pos hdir,hok]
      exact ⟨s',t',rfl,hshows⟩
    · rw [if_neg hdir,if_neg hdir]
      exact ⟨s,t,rfl,h⟩

theorem Shows.rmCall (h : Shows m v s t files) (hm : m.On v) (hpath : Leads m v wd path rest)
    (hremovable : Removable m s rest false) :
    ∃ s' t', s.call (.rm wd path) = .ok ((files.apply (m.place v) (.rm rest)).1,s') ∧
      Shows m v s' t' (files.apply (m.place v) (.rm rest)).2 := by
  refine h.removeCall hm hpath hremovable EISDIR Tmpfs.kFsVfsRm fun n => ?_
  rw [Tmpfs.kFsVfsRm,Tmpfs.isDir]
  cases n.dir <;> rfl

theorem Shows.rmdirCall (h : Shows m v s t files) (hm : m.On v) (hpath : Leads m v wd path rest)
    (hremovable : Removable m s rest true) :
    ∃ s' t', s.call (.rmdir wd path) = .ok ((files.apply (m.place v) (.rmdir rest)).1,s') ∧
      Shows m v s' t' (files.apply (m.place v) (.rmdir rest)).2 := by
  refine h.removeCall hm hpath hremovable ENOTDIR Tmpfs.kFsVfsRmdir fun n => ?_
  rw [Tmpfs.kFsVfsRmdir,Tmpfs.isDir]
  cases n.dir <;> rfl

/-- One call is the call of the tree of files, and the nodes show the tree after it. -/
theorem Shows.call (h : Shows m v s t files) (hm : m.On v) {c : Call} {o : Op}
    (hmeets : Meets m s c o) : ∃ s' t', s.call c = .ok ((files.apply (m.place v) o).1,s') ∧
    Shows m v s' t' (files.apply (m.place v) o).2 := by
  have hvfs := h.vfs
  cases hmeets with
  | «open» hpath hfresh => exact h.openCall hm (hvfs ▸ hpath) hfresh
  | close hnode => exact h.close hnode
  | read hnode hcan => exact h.read hnode hcan
  | write hnode hcan => exact h.writeCall hnode hcan
  | readdir hnode => exact h.readdir hnode
  | mkdir hpath hrest hfirst hsecond hne => exact h.mkdir hm (hvfs ▸ hpath) hrest hfirst hsecond hne
  | rm hpath hremovable => exact h.rmCall hm (hvfs ▸ hpath) hremovable
  | rmdir hpath hremovable => exact h.rmdirCall hm (hvfs ▸ hpath) hremovable

theorem Shows.run (hm : m.On v) (calls : List (Call × Op)) : ∀ {s : Tmpfs}
    {t : NameTree Path (ℕ × Entry)} {files : FileTree},
    Shows m v s t files → MeetsAll m s calls → ∃ s' t',
      s.run (calls.map Prod.fst) =
      .ok ((FileTree.run (m.place v) files (calls.map Prod.snd)).1,s') ∧
        Shows m v s' t' (FileTree.run (m.place v) files (calls.map Prod.snd)).2 := by
  induction calls with
  | nil => exact fun {s t _} h _ => ⟨s,t,rfl,h⟩
  | cons c calls ih =>
    intro s t files h hmeets
    obtain ⟨s₁,t₁,hcall,h₁⟩ := h.call hm hmeets.1
    obtain ⟨s',t',hrun,h'⟩ := ih h₁ (hmeets.2 _ _ hcall)
    refine ⟨s',t',?_,h'⟩
    rw [List.map_cons,Tmpfs.run,hcall]
    exact Result.bind_eq_ok.mpr ⟨_,rfl,Result.bind_eq_ok.mpr ⟨_,hrun,rfl⟩⟩

/-- Where a path is mounted. -/
def mountPointOf (v : Vfs FsNode) (path : Path) (fresh : Fresh) : MountPoint where
  entry := (v.kFsVfsGetEntry path true).1.getD VFS_ROOT
  names := Path.names path
  name := (Path.kUtilPathFilename path).getD []
  device := fresh.address

theorem mount_shows {v₀ : Vfs FsNode} (hv : v₀.WellFormed) {path : Path} {fresh : Fresh}
    (hmount : mount v₀ path fresh = .ok s) :
    (mountPointOf v₀ path fresh).On s.vfs ∧ ∃ t, Shows (mountPointOf v₀ path fresh) s.vfs s t
      (FileTree.empty ((mountPointOf v₀ path fresh).place s.vfs)) := by
  obtain ⟨e,w,hentry,hw,-,hlookup⟩ := Vfs.getEntry_create hv path
  have hat :
      mountPointOf v₀ path fresh = ⟨e,Path.names path,(Path.kUtilPathFilename path).getD [],
          fresh.address⟩ := by
    rw [mountPointOf,hentry]
    rfl
  rw [hat]
  rw [mount,hentry] at hmount
  cases hname : Path.kUtilPathFilename path with
  | none =>
    rw [hname] at hmount
    cases hmount
  | some name =>
    rw [hname] at hmount
    obtain rfl := Except.ok.inj hmount
    have hvfs : v₀.kFsVfsMountNode path ⟨name,fresh.address,true,0,some e⟩ =
        w.setNode e (.file ⟨name,fresh.address,true,0,some e⟩) := by
      rw [Vfs.kFsVfsMountNode,hentry]
    have hroot : Function.update (fun _ : ℕ => (none : Option TmpfsCell)) fresh.address
        (some ⟨name,⟨true,.create fresh.memory⟩,none,[]⟩) fresh.address =
          some ⟨name,⟨true,.create fresh.memory⟩,none,[]⟩ :=
      Function.update_self ..
    refine ⟨⟨?_,?_⟩,.cons name (fresh.address,⟨true,.empty⟩) .nil .nil,rfl,
      ⟨⟨⟨true,.create fresh.memory⟩,hroot,rfl,TmpfsNode.create_holds fresh.memory⟩,trivial,trivial⟩,
      List.nodup_singleton _,?_,?_,rfl,fun _ => .none⟩
    · dsimp only
      rw [hvfs,(Vfs.setNode_same w e _).lookup]
      exact hlookup
    · dsimp only
      rw [hvfs]
      exact congrArg VfsEntry.node (Vfs.modify_self w e _)
    · rw [pointerAt,NameTree.find,Option.getD_some,if_pos rfl,if_pos rfl]
      rfl
    · intro cell hcell
      obtain rfl := Option.some.inj (hroot.symm.trans hcell)
      rfl

/-- What is opened, read, written, listed, created and removed below a mount is a tree of
files, whatever is called in which order. -/
theorem tree_of_files {v₀ : Vfs FsNode} (hv : v₀.WellFormed) {path : Path} {fresh : Fresh}
    (hmount : mount v₀ path fresh = .ok s)
    {calls : List (Call × Op)} (hcalls : MeetsAll (mountPointOf v₀ path fresh) s calls) : ∃ s' t,
      s.run (calls.map Prod.fst) = .ok ((FileTree.run ((mountPointOf v₀ path fresh).place s.vfs)
        (FileTree.empty ((mountPointOf v₀ path fresh).place s.vfs)) (calls.map Prod.snd)).1,s') ∧
      Shows (mountPointOf v₀ path fresh) s.vfs s' t
      (FileTree.run ((mountPointOf v₀ path fresh).place s.vfs)
        (FileTree.empty ((mountPointOf v₀ path fresh).place s.vfs)) (calls.map Prod.snd)).2 := by
  obtain ⟨hm,t,hshows⟩ := mount_shows hv hmount
  exact hshows.run hm calls hcalls

theorem tree_of_files_root : ∃ s, mount Vfs.init ['/'] ⟨1,fun _ => 0⟩ = .ok s ∧ ∃ s' t,
    s.run [.mkdir ['/'] ['d'] 0 ⟨2,fun _ => 0⟩ ⟨3,fun _ => 0⟩,
      .open 0 ['/'] ['d','/','f'] 7 ⟨4,fun _ => 0⟩,
      .write 0 TmpfsNode.plenty 0 [1,2,3]] = .ok ([.value 0,.node (some (false,0)),.value 3],s') ∧
    Shows (mountPointOf Vfs.init ['/'] ⟨1,fun _ => 0⟩) s.vfs s' t
      ⟨.cons ['/'] ⟨true,.empty⟩ (.cons ['d'] ⟨true,.empty⟩
        (.cons ['f'] ⟨false,File.empty.write 0 [1,2,3]⟩ .nil .nil) .nil) .nil,
        Function.update (fun _ => none) 0 (some ⟨[['d'],['f']],false,0,7⟩)⟩ := by
  have hmount : mount Vfs.init ['/'] ⟨1,fun _ => 0⟩ = .ok _ := rfl
  refine ⟨_,hmount,tree_of_files Vfs.init_wellFormed hmount (show MeetsAll _ _
    [(.mkdir ['/'] ['d'] 0 ⟨2,fun _ => 0⟩ ⟨3,fun _ => 0⟩,.mkdir [['d']] 0),
      (.open 0 ['/'] ['d','/','f'] 7 ⟨4,fun _ => 0⟩,.open 0 [['d'],['f']] 7),
      (.write 0 TmpfsNode.plenty 0 [1,2,3],.write 0 0 [1,2,3])] from ?_)⟩
  refine ⟨.mkdir ⟨by decide,by decide,by decide,by decide,by decide⟩ (by decide) rfl rfl (by
    decide),fun answer s₁ h₁ => ?_⟩
  obtain ⟨rfl,rfl⟩ := Prod.mk.inj (Except.ok.inj h₁)
  refine ⟨.open ⟨by decide,by decide,by decide,by decide,by decide⟩ rfl,fun answer s₂ h₂ => ?_⟩
  obtain ⟨rfl,rfl⟩ := Prod.mk.inj (Except.ok.inj h₂)
  refine ⟨.write (by rintro ⟨⟩) fun o n cell ho hn _ hcell => ?_,fun _ _ _ => trivial⟩
  obtain rfl := Option.some.inj ho
  obtain rfl := VfsNode.file.inj hn
  obtain rfl := Option.some.inj hcell
  exact ⟨by decide,rfl,.inr (by decide),by decide,fun _ =>
    ⟨by decide,by decide,fun _ => rfl,rfl,fun _ _ => rfl,by decide⟩⟩

end TmpfsTree
end ScalesOS
