import ScalesOS.Process

/-!
# Descriptor tables

The descriptor calls of `kernel/src/proc/process.c` and `kernel/src/int/syscall.c` with
`k_fs_vfs_open` and `k_fs_vfs_close` of `kernel/src/fs/vfs.c`. A process counts its open
descriptors in `fds.amount` beside the array itself, a node counts the descriptors that
refer to it, and every call has to keep these counters in step with the slots.

Nodes and descriptors live in the kernel heap and are named by numbers. What the file
systems answer to a lookup is part of the call. Counters of references in memory do not
overflow; they may go below zero, and then they wrap around.
-/

namespace ScalesOS

def O_CREAT : ℕ := 4
def O_CLOEXEC : ℕ := 256

def decrement (n : ℕ) : ℕ := if n = 0 then W32-1 else n-1

theorem decrement_of_pos {n : ℕ} (h : 0 < n) : decrement n = n-1 := if_neg (by omega)

/-- `fd_list_t`. Cells of `nodes` outside the array are memory that belongs to something
else. -/
structure FdList where
  nodes : ℕ → Option ℕ
  amount : ℕ
  size : ℕ

/-- `fs_node_t`, with how often its close callback has run and how often it was freed. -/
structure FsNode where
  mode : ℕ
  links : ℕ
  closes : ℕ
  frees : ℕ

/-- What the file systems find: the path itself, neither the path nor its folder, or only
the folder, in which a file is then created or not. -/
inductive Lookup
  | found
  | missing
  | folder (created : Bool)
  deriving DecidableEq, Repr

structure Files where
  processes : ℕ → Option FdList
  fdts : ℕ → Fdt
  nodes : ℕ → FsNode
  nextFdt : ℕ
  nextNode : ℕ
  nextProcess : ℕ

namespace FdList

def setSlot (l : FdList) (fd : ℕ) (fdt : Option ℕ) : FdList :=
  { l with nodes := Function.update l.nodes fd fdt }

def findFree (l : FdList) : Option ℕ := (List.range l.size).find? fun i => (l.nodes i).isNone

/-- The slots in use. -/
def used (l : FdList) : Finset ℕ := (Finset.range l.size).filter fun i => (l.nodes i).isSome

/-- Where `k_proc_process_open_node` puts a new descriptor. -/
def openSlot (l : FdList) (fdt : ℕ) : Result (ℕ × FdList) :=
  if l.size = l.amount then
    pure (l.size,{ l.setSlot l.size (some fdt) with size := l.size+1, amount := l.amount+1 })
  else
    match l.findFree with
    | some i => pure (i,{ l.setSlot i (some fdt) with amount := l.amount+1 })
    | none => throw (.panic "__builtin_unreachable")

end FdList

namespace Files

def setNode (s : Files) (n : ℕ) (node : FsNode) : Files :=
  { s with nodes := Function.update s.nodes n node }

def setFdt (s : Files) (f : ℕ) (fdt : Fdt) : Files :=
  { s with fdts := Function.update s.fdts f fdt }

def setProcess (s : Files) (p : ℕ) (l : Option FdList) : Files :=
  { s with processes := Function.update s.processes p l }

/-- A node that nobody has seen yet: a copy of a mounted node, or one that a file system
has just made. -/
def newNode (s : Files) (mode : ℕ) : ℕ × Files :=
  (s.nextNode,{ s.setNode s.nextNode ⟨mode,1,0,0⟩ with nextNode := s.nextNode+1 })

def kFsVfsClose (s : Files) (n : ℕ) : Files :=
  let node := s.nodes n
  let links := decrement node.links
  if links = 0 then s.setNode n
    { node with links := links, closes := node.closes+1, frees := node.frees+1 }
  else s.setNode n { node with links := links }

def kFsVfsOpen (s : Files) (lookup : Lookup) (mode : ℕ) : Option ℕ × Files :=
  match lookup with
  | .found =>
    let (n,s) := s.newNode mode
    (some n,s)
  | .missing => (none,s)
  | .folder created =>
    if mode &&& O_CREAT = 0 then (none,s)
    else
      let (folder,s) := s.newNode O_WRONLY
      let s := s.kFsVfsClose folder
      if created then
        let (n,s) := s.newNode mode
        (some n,s)
      else (none,s)

def kProcProcessOpenNode (s : Files) (p : ℕ) (l : FdList) (node : ℕ) : Result (ℕ × Files) := do
  let fdt := s.nextFdt
  let (fd,l) ← l.openSlot fdt
  pure (fd,{ (s.setFdt fdt ⟨node,1⟩).setProcess p (some l) with nextFdt := fdt+1 })

def sysOpen (s : Files) (p : ℕ) (l : FdList) (lookup : Lookup) (mode : ℕ) : Result (ℕ × Files) :=
  match s.kFsVfsOpen lookup mode with
  | (none,s) => pure (Vm.failed ENOENT,s)
  | (some node,s) => s.kProcProcessOpenNode p l node

/-- The counter goes down before the slot is looked at, and an empty slot is a null
pointer. -/
def kProcProcessCloseFd (s : Files) (p : ℕ) (l : FdList) (fd : ℕ) : Result (FdList × Files) :=
  if l.size ≤ fd then pure (l,s)
  else
    let l := { l with amount := decrement l.amount }
    match l.nodes fd with
    | none => throw (.panic "Page fault at 0x00000000")
    | some f =>
      let s := s.kFsVfsClose (s.fdts f).node
      let s := s.setFdt f ⟨(s.fdts f).node,decrement (s.fdts f).links⟩
      let l := l.setSlot fd none
      pure (l,s.setProcess p (some l))

def sysClose (s : Files) (p : ℕ) (l : FdList) (fd : ℕ) : Result (ℕ × Files) := do
  let (_,s) ← s.kProcProcessCloseFd p l fd
  pure (0,s)

/-- The first of the slots from `fd` on without a descriptor, or the size of the array. -/
def dupTarget (l : FdList) (fd : ℤ) : ℕ :=
  if fd < 0 then l.findFree.getD l.size else fd.toNat

/-- `sys_dup2`. The array is resized by `size-fd2+1`, which is meant to be the other way
around. -/
def sysDup2 (s : Files) (p : ℕ) (l : FdList) (fd1 fd2 : ℤ) : ℕ × Files :=
  if fd1 < 0 then (Vm.failed EINVAL,s)
  else if l.size ≤ fd1.toNat then (Vm.failed EINVAL,s)
  else
    match l.nodes fd1.toNat with
    | none => (Vm.failed EINVAL,s)
    | some f =>
      let fd := dupTarget l fd2
      let size := if l.size ≤ fd then (l.size+(l.size+W32-fd+1))%W32 else l.size
      let l := { l.setSlot fd (some f) with size := size }
      (fd,(s.setFdt f ⟨(s.fdts f).node,(s.fdts f).links+1⟩).setProcess p (some l))

/-- One round of the loop in `k_proc_process_fork` that copies the descriptors. -/
def copyFd (src : FdList) (i : ℕ) (copy : (ℕ → Option ℕ) × Files) : (ℕ → Option ℕ) × Files :=
  match src.nodes i with
  | none => copy
  | some f =>
    let s := copy.2
    let node := (s.fdts f).node
    let s := s.setFdt s.nextFdt ⟨node,1⟩
    let s := s.setNode node { s.nodes node with links := (s.nodes node).links+1 }
    (Function.update copy.1 i (some s.nextFdt),{ s with nextFdt := s.nextFdt+1 })

def copyFds (src : FdList) : ℕ → Files → (ℕ → Option ℕ) × Files
  | 0, s => (fun _ => none,s)
  | n+1, s => copyFd src n (copyFds src n s)

def kProcProcessFork (s : Files) (src : FdList) : ℕ × Files :=
  let (nodes,s) := copyFds src src.size s
  let new := s.nextProcess
  (new,{ s.setProcess new (some { src with nodes := nodes }) with nextProcess := new+1 })

/-- The loops that close descriptors: all of them at exit, those of nodes opened with
`O_CLOEXEC` at exec. -/
def closeFds (p : ℕ) (all : Bool) : ℕ → FdList × Files → Result (FdList × Files)
  | 0, c => pure c
  | n+1, c => do
    let (l,s) ← closeFds p all n c
    match l.nodes n with
    | none => pure (l,s)
    | some f =>
      if all ∨ (s.nodes (s.fdts f).node).mode &&& O_CLOEXEC ≠ 0 then s.kProcProcessCloseFd p l n
      else pure (l,s)

def kProcProcessPrepareExec (s : Files) (p : ℕ) (l : FdList) : Result Files := do
  let (_,s) ← closeFds p false l.size (l,s)
  pure s

def kProcProcessExit (s : Files) (p : ℕ) (l : FdList) : Result Files := do
  let (_,s) ← closeFds p true l.size (l,s)
  pure (s.setProcess p none)

inductive Call
  | openFile (lookup : Lookup) (mode : ℕ)
  | close (fd : ℕ)
  | dup2 (fd1 fd2 : ℤ)
  | fork
  | exec
  | exit
  deriving DecidableEq

/-- The descriptor calls of a process with the table `l`. -/
def call (s : Files) (p : ℕ) (l : FdList) : Call → Result (ℕ × Files)
  | .openFile lookup mode => s.sysOpen p l lookup mode
  | .close fd => s.sysClose p l fd
  | .dup2 fd1 fd2 => pure (s.sysDup2 p l fd1 fd2)
  | .fork => pure (s.kProcProcessFork l)
  | .exec => do
    let s ← s.kProcProcessPrepareExec p l
    pure (0,s)
  | .exit => do
    let s ← s.kProcProcessExit p l
    pure (0,s)

/-- A call by any process that is there, restricted to the calls of a kind. -/
def Step (allowed : Files → FdList → Call → Prop) (s t : Files) : Prop :=
  ∃ p l c r, s.processes p = some l ∧ allowed s l c ∧ s.call p l c = .ok (r,t)

/-- The first process has no open descriptors. -/
def boot : Files where
  processes := Function.update (fun _ => none) 0 (some ⟨fun _ => none,0,0⟩)
  fdts := fun _ => ⟨0,0⟩
  nodes := fun _ => ⟨0,0,0,0⟩
  nextFdt := 0
  nextNode := 0
  nextProcess := 1

end Files

namespace FdList

variable {l : FdList} {i f : ℕ}

def Counts (l : FdList) : Prop := l.amount = l.used.card

/-- A number behind which there is an open file. -/
def IsOpen (l : FdList) (fd : ℕ) : Prop := fd < l.size ∧ (l.nodes fd).isSome

instance (l : FdList) (fd : ℕ) : Decidable (l.IsOpen fd) := inferInstanceAs (Decidable (_ ∧ _))

/-- The lowest number without an open file; all numbers from the size on have none. -/
def IsLowest (l : FdList) (fd : ℕ) : Prop := ¬ l.IsOpen fd ∧ fd ≤ l.size ∧ ∀ i < fd, l.IsOpen i

theorem mem_used : i ∈ l.used ↔ l.IsOpen i := by
  rw [used,Finset.mem_filter,Finset.mem_range]
  exact Iff.rfl

theorem used_card_le (l : FdList) : l.used.card ≤ l.size := by
  calc l.used.card ≤ (Finset.range l.size).card := Finset.card_filter_le _ _
    _ = l.size := Finset.card_range _

theorem Counts.le_size (h : l.Counts) : l.amount ≤ l.size := h.trans_le l.used_card_le

theorem used_fill {k amount : ℕ} (hi : i < l.size) (hk : l.size = k) :
    used { l.setSlot i (some f) with size := k, amount := amount } = insert i l.used := by
  subst hk
  ext j
  rw [Finset.mem_insert,mem_used,mem_used]
  by_cases hj : j = i
  · subst hj
    simp [IsOpen,setSlot,hi]
  · simp [IsOpen,setSlot,hj]

theorem used_grow {amount : ℕ} :
    used { l.setSlot l.size (some f) with size := l.size+1, amount := amount } =
    insert l.size l.used := by
  ext j
  rw [Finset.mem_insert,mem_used,mem_used]
  by_cases hj : j = l.size
  · subst hj
    simp [IsOpen,setSlot]
  · have hlt : j < l.size+1 ↔ j < l.size := by omega
    simp [IsOpen,setSlot,hj,hlt]

theorem used_empty {amount : ℕ} :
    used { l.setSlot i none with amount := amount } = l.used.erase i := by
  ext j
  rw [Finset.mem_erase,mem_used,mem_used]
  by_cases hj : j = i
  · subst hj
    simp [IsOpen,setSlot]
  · simp [IsOpen,setSlot,hj]

theorem findFree_some (h : l.findFree = some i) : i < l.size ∧ l.IsLowest i := by
  obtain ⟨hnone,as,bs,happ,hbefore⟩ := List.find?_eq_some_iff_append.mp h
  have hlen : as.length = i := by
    have := congrArg (fun m => m[as.length]?) happ
    simp only [List.getElem?_append_right le_rfl,Nat.sub_self,List.getElem?_cons_zero] at this
    have hget := List.getElem?_eq_some_iff.mp this
    obtain ⟨hlt,hval⟩ := hget
    rwa [List.getElem_range] at hval
  have hi : i < l.size := by
    have : i ∈ List.range l.size := by rw [happ]; simp
    exact List.mem_range.mp this
  refine ⟨hi,fun hopen => ?_,hi.le,fun j hj => ⟨by omega,?_⟩⟩
  · have := hopen.2
    rw [Option.isSome_iff_ne_none] at this
    exact this (Option.isNone_iff_eq_none.mp hnone)
  · have hmem : j ∈ as := by
      have hget : (List.range l.size)[j]? = some j := by
        rw [List.getElem?_range (by omega)]
      rw [happ,List.getElem?_append_left (by omega)] at hget
      exact List.mem_of_getElem? hget
    have := hbefore j hmem
    rw [Option.isSome_iff_ne_none]
    intro h0
    rw [h0] at this
    exact absurd this (by decide)

theorem findFree_none (h : l.findFree = none) : l.used.card = l.size := by
  have hall : l.used = Finset.range l.size := by
    refine Finset.filter_true_of_mem fun j hj => ?_
    have := List.find?_eq_none.mp h j (List.mem_range.mpr (Finset.mem_range.mp hj))
    simpa [Option.isSome_iff_ne_none] using this
  rw [hall,Finset.card_range]

theorem lowest_size (h : l.used.card = l.size) : l.IsLowest l.size := by
  have hall : l.used = Finset.range l.size :=
    Finset.eq_of_subset_of_card_le (Finset.filter_subset _ _) (by rw [h,Finset.card_range])
  refine ⟨fun hopen => by exact absurd hopen.1 (lt_irrefl _),le_rfl,fun i hi => ?_⟩
  rw [← mem_used,hall]
  exact Finset.mem_range.mpr hi

theorem openSlot_spec (h : l.Counts) (fdt : ℕ) :
    ∃ fd l', l.openSlot fdt = .ok (fd,l') ∧ l.IsLowest fd ∧ l'.Counts ∧
      (∀ i, l'.nodes i = if i = fd then some fdt else l.nodes i) ∧ fd < l'.size ∧ l.size ≤ l'.size ∧
      ∀ i < l'.size, i ≠ fd → i < l.size := by
  rw [openSlot]
  by_cases hfull : l.size = l.amount
  · rw [if_pos hfull]
    have hlow := lowest_size (l:=l) (by rw [← h,hfull])
    refine ⟨_,_,rfl,hlow,?_,fun i => by simp [setSlot,Function.update_apply],
      Nat.lt_succ_self _,Nat.le_succ _,fun i hi hne => by simp only at hi; omega⟩
    rw [Counts,used_grow,Finset.card_insert_of_notMem (fun hm => hlow.1 (mem_used.mp hm)),← h]
  · rw [if_neg hfull]
    cases hfree : l.findFree with
    | none =>
      have := findFree_none hfree
      rw [← h] at this
      exact absurd this.symm hfull
    | some i =>
      obtain ⟨hi,hlow⟩ := findFree_some hfree
      refine ⟨i,_,rfl,hlow,?_,fun j => by simp [setSlot,Function.update_apply],hi,le_rfl,
        fun j hj _ => hj⟩
      have hused : used { l.setSlot i (some fdt) with amount := l.amount+1 } = insert i l.used :=
        used_fill hi rfl
      rw [Counts,hused,Finset.card_insert_of_notMem (fun hm => hlow.1 (mem_used.mp hm)),← h]

theorem Counts.close (h : l.Counts) (hopen : l.IsOpen i) :
    Counts { l.setSlot i none with amount := decrement l.amount } := by
  have hmem := mem_used.mpr hopen
  rw [Counts,used_empty,Finset.card_erase_of_mem hmem,← h]
  refine decrement_of_pos ?_
  rw [h]
  exact Finset.card_pos.mpr ⟨i,hmem⟩

theorem Counts.replace (h : l.Counts) (hopen : l.IsOpen i) :
    Counts { l.setSlot i (some f) with size := l.size } := by
  have hused : used { l.setSlot i (some f) with size := l.size } = insert i l.used :=
    used_fill hopen.1 rfl
  rw [Counts,hused,Finset.insert_eq_of_mem (mem_used.mpr hopen)]
  exact h

end FdList

namespace Files

variable {s t : Files} {p : ℕ} {l : FdList}

def Tables (s : Files) : Prop := ∀ p l, s.processes p = some l → l.Counts

@[simp] theorem setProcess_self (s : Files) (p : ℕ) (l : Option FdList) :
    (s.setProcess p l).processes p = l := by simp [setProcess]

theorem setProcess_other (s : Files) (l : Option FdList) {q : ℕ} (h : q ≠ p) :
    (s.setProcess p l).processes q = s.processes q := by simp [setProcess,h]

@[simp] theorem setNode_processes (s : Files) (n : ℕ) (node : FsNode) :
    (s.setNode n node).processes = s.processes := rfl

@[simp] theorem setFdt_processes (s : Files) (f : ℕ) (fdt : Fdt) :
    (s.setFdt f fdt).processes = s.processes := rfl

@[simp] theorem kFsVfsClose_processes (s : Files) (n : ℕ) :
    (s.kFsVfsClose n).processes = s.processes := by
  rw [kFsVfsClose]
  split <;> rfl

@[simp] theorem kFsVfsOpen_processes (s : Files) (lookup : Lookup) (mode : ℕ) :
    (s.kFsVfsOpen lookup mode).2.processes = s.processes := by
  cases lookup with
  | found => rfl
  | missing => rfl
  | folder created =>
    rw [kFsVfsOpen]
    dsimp only
    split
    · rfl
    · cases created <;> simp [newNode]

theorem Tables.set (hs : s.Tables) {l' : Option FdList} (h : ∀ m, l' = some m → m.Counts) :
    (s.setProcess p l').Tables := by
  intro q m hq
  by_cases hqp : q = p
  · subst hqp
    rw [setProcess_self] at hq
    exact h m hq
  · rw [setProcess_other s l' hqp] at hq
    exact hs q m hq

theorem Tables.of_eq (hs : s.Tables) (h : t.processes = s.processes) : t.Tables :=
  fun q m hq => hs q m (h ▸ hq)

theorem closeFd_counts (hs : s.Tables) (hl : l.Counts) {fd : ℕ} (h : fd < l.size → l.IsOpen fd) :
    ∃ l' s', s.kProcProcessCloseFd p l fd = .ok (l',s') ∧ s'.Tables ∧ l'.Counts ∧
    l'.size = l.size := by
  rw [kProcProcessCloseFd]
  by_cases hfd : l.size ≤ fd
  · rw [if_pos hfd]
    exact ⟨l,s,rfl,hs,hl,rfl⟩
  · rw [if_neg hfd]
    have hopen := h (by omega)
    obtain ⟨f,hf⟩ := Option.isSome_iff_exists.mp hopen.2
    simp only [hf]
    have hcount := hl.close hopen
    refine ⟨_,_,rfl,Tables.set (hs.of_eq (by simp)) fun m hm => ?_,hcount,rfl⟩
    obtain rfl := Option.some.inj hm
    exact hcount

theorem closeFd_unopened (fd : ℕ) (h : l.size ≤ fd) : s.kProcProcessCloseFd p l fd = .ok (l,s) := by
  rw [kProcProcessCloseFd,if_pos h]
  rfl

theorem closeFds_counts (all : Bool) (n : ℕ) : ∀ s l, s.Tables → l.Counts → n ≤ l.size →
    ∃ l' s', closeFds p all n (l,s) = .ok (l',s') ∧ s'.Tables ∧ l'.Counts ∧ l'.size = l.size := by
  induction n with
  | zero => exact fun s l hs hl _ => ⟨l,s,rfl,hs,hl,rfl⟩
  | succ n ih =>
    intro s l hs hl hn
    obtain ⟨l1,s1,h1,hs1,hl1,hsize⟩ := ih s l hs hl (by omega)
    rw [closeFds,h1]
    change ∃ l' s', (match l1.nodes n with
      | none => pure (l1,s1)
      | some f => if all ∨ (s1.nodes (s1.fdts f).node).mode &&& O_CLOEXEC ≠ 0 then
          s1.kProcProcessCloseFd p l1 n else pure (l1,s1)) = Except.ok (l',s') ∧ _
    cases hf : l1.nodes n with
    | none => exact ⟨l1,s1,rfl,hs1,hl1,hsize⟩
    | some f =>
      dsimp only
      split
      · rw [← hsize]
        exact closeFd_counts hs1 hl1 fun hlt => ⟨hlt,by rw [hf]; rfl⟩
      · exact ⟨l1,s1,rfl,hs1,hl1,hsize⟩

@[simp] theorem copyFds_processes (src : FdList) (n : ℕ) (s : Files) :
    (copyFds src n s).2.processes = s.processes := by
  induction n with
  | zero => rfl
  | succ n ih =>
    rw [copyFds,copyFd]
    split
    · exact ih
    · simpa using ih

theorem copyFds_isSome (src : FdList) (n : ℕ) (s : Files) (i : ℕ) :
    ((copyFds src n s).1 i).isSome ↔ i < n ∧ (src.nodes i).isSome := by
  induction n with
  | zero => simp [copyFds]
  | succ n ih =>
    rw [copyFds,copyFd]
    by_cases hi : i = n
    · subst hi
      cases hf : src.nodes i with
      | none =>
        simp only [ih,hf]
        simp
      | some f => simp
    · have hlt : i < n+1 ↔ i < n := by omega
      rw [hlt,← ih]
      split
      · exact Iff.rfl
      · simp [hi]

/-- The calls that keep the counters right: numbers that are closed are open or outside
the array, and a descriptor is duplicated onto an open one. -/
def Counted (_ : Files) (l : FdList) : Call → Prop
  | .close fd => fd < l.size → l.IsOpen fd
  | .dup2 fd1 fd2 => 0 ≤ fd1 → l.IsOpen fd1.toNat → 0 ≤ fd2 ∧ l.IsOpen fd2.toNat
  | _ => True

theorem sysOpen_counts (hs : s.Tables) (hl : l.Counts) (lookup : Lookup) (mode : ℕ) :
    ∃ r t, s.sysOpen p l lookup mode = .ok (r,t) ∧ t.Tables := by
  have hproc := kFsVfsOpen_processes s lookup mode
  rw [sysOpen]
  rcases h : s.kFsVfsOpen lookup mode with ⟨_ | node,s'⟩
  · rw [h] at hproc
    exact ⟨_,_,rfl,hs.of_eq hproc⟩
  · rw [h] at hproc
    obtain ⟨fd,l',hopen,-,hl',-⟩ := FdList.openSlot_spec hl s'.nextFdt
    simp only [kProcProcessOpenNode,hopen]
    refine ⟨_,_,rfl,fun q m hq => ?_⟩
    refine Tables.set (s:=s'.setFdt s'.nextFdt ⟨node,1⟩) (p:=p) (hs.of_eq hproc) (fun m hm =>
      ?_) q m hq
    obtain rfl := Option.some.inj hm
    exact hl'

theorem sysDup2_counts (hs : s.Tables) (hl : l.Counts) {fd1 fd2 : ℤ}
    (h : 0 ≤ fd1 → l.IsOpen fd1.toNat → 0 ≤ fd2 ∧ l.IsOpen fd2.toNat) :
    (s.sysDup2 p l fd1 fd2).2.Tables := by
  rw [sysDup2]
  split
  · exact hs
  · rename_i hneg
    split
    · exact hs
    · rename_i hsize
      cases hf : l.nodes fd1.toNat with
      | none => exact hs
      | some f =>
        obtain ⟨h2,hopen⟩ := h (by omega) ⟨by omega,by rw [hf]; rfl⟩
        have htarget : dupTarget l fd2 = fd2.toNat := if_neg (by omega)
        dsimp only
        rw [htarget,if_neg (by have := hopen.1; omega)]
        refine Tables.set hs fun m hm => ?_
        obtain rfl := Option.some.inj hm
        exact hl.replace hopen

theorem fork_counts (hs : s.Tables) (hl : l.Counts) : (s.kProcProcessFork l).2.Tables := by
  have hused : FdList.used { l with nodes := (copyFds l l.size s).1 } = l.used := by
    ext i
    rw [FdList.mem_used,FdList.mem_used]
    constructor
    · exact fun h => ⟨h.1,((copyFds_isSome l l.size s i).mp h.2).2⟩
    · exact fun h => ⟨h.1,(copyFds_isSome l l.size s i).mpr h⟩
  refine fun q m hq => Tables.set (s:=(copyFds l l.size s).2)
    (p:=(copyFds l l.size s).2.nextProcess)
    (hs.of_eq (copyFds_processes l l.size s)) (fun m hm => ?_) q m hq
  obtain rfl := Option.some.inj hm
  rw [FdList.Counts,hused]
  exact hl

theorem call_counts (hs : s.Tables) (hl : l.Counts) (c : Call) (h : Counted s l c) :
    ∃ r t, s.call p l c = .ok (r,t) ∧ t.Tables := by
  cases c with
  | openFile lookup mode => exact sysOpen_counts hs hl lookup mode
  | close fd =>
    obtain ⟨l',s',hclose,hs',-⟩ := closeFd_counts (p:=p) hs hl h
    refine ⟨0,s',?_,hs'⟩
    simp only [call,sysClose,hclose]
    rfl
  | dup2 fd1 fd2 => exact ⟨_,_,rfl,sysDup2_counts hs hl h⟩
  | fork => exact ⟨_,_,rfl,fork_counts hs hl⟩
  | exec =>
    obtain ⟨l',s',hclose,hs',-⟩ := closeFds_counts (p:=p) false l.size s l hs hl le_rfl
    refine ⟨0,s',?_,hs'⟩
    simp only [call,kProcProcessPrepareExec,hclose]
    rfl
  | exit =>
    obtain ⟨l',s',hclose,hs',-⟩ := closeFds_counts (p:=p) true l.size s l hs hl le_rfl
    refine ⟨0,s'.setProcess p none,?_,hs'.set fun m hm => by cases hm⟩
    simp only [call,kProcProcessExit,hclose]
    rfl

theorem step_counts (hs : s.Tables) (h : Step Counted s t) : t.Tables := by
  obtain ⟨p,l,c,r,hp,hc,hcall⟩ := h
  obtain ⟨r',t',hcall',ht⟩ := call_counts (p:=p) hs (hs p l hp) c hc
  rw [hcall] at hcall'
  obtain ⟨-,rfl⟩ := Prod.mk.inj (Except.ok.inj hcall')
  exact ht

theorem boot_tables : boot.Tables := by
  intro p l hp
  by_cases h : p = 0
  · subst h
    obtain rfl := Option.some.inj hp
    rfl
  · simp [boot,h] at hp

/-- In a run of such calls the counters are right in every state, so that an open finds the
lowest free number, calls return, and closing a number outside the array does nothing. -/
theorem descriptor_tables_count (h : Relation.ReflTransGen (Step Counted) boot s)
    (hp : s.processes p = some l) :
    (l.amount = l.used.card ∧ l.amount ≤ l.size) ∧
    (∀ node, ∃ fd t, s.kProcProcessOpenNode p l node = .ok (fd,t) ∧ l.IsLowest fd) ∧
    (∀ c, Counted s l c → ∃ r t, s.call p l c = .ok (r,t)) ∧
    ∀ fd, Counted s l (.close fd) → ¬ l.IsOpen fd → s.sysClose p l fd = .ok (0,s) := by
  have hs : s.Tables := reach_invariant (fun _ _ h1 h2 => step_counts h1 h2) boot_tables h
  have hl := hs p l hp
  refine ⟨⟨hl,hl.le_size⟩,fun node => ?_,fun c hc => ?_,fun fd hc hclosed => ?_⟩
  · obtain ⟨fd,l',hopen,hlow,-⟩ := FdList.openSlot_spec hl s.nextFdt
    rw [kProcProcessOpenNode,hopen]
    exact ⟨fd,_,rfl,hlow⟩
  · obtain ⟨r,t,hcall,-⟩ := call_counts (p:=p) hs hl c hc
    exact ⟨r,t,hcall⟩
  · have hout : l.size ≤ fd := by
      by_contra hlt
      exact hclosed (hc (by omega))
    simp only [sysClose,closeFd_unopened fd hout]
    rfl

/-- The first process has opened one file. -/
def opened : Files where
  processes := Function.update boot.processes 0
    (some ⟨Function.update (fun _ => none) 0 (some 0),1,1⟩)
  fdts := Function.update boot.fdts 0 ⟨0,1⟩
  nodes := Function.update boot.nodes 0 ⟨O_WRONLY,1,0,0⟩
  nextFdt := 1
  nextNode := 1
  nextProcess := 1

def duplicated : Files where
  processes := Function.update opened.processes 0
    (some ⟨Function.update (Function.update (fun _ => none) 0 (some 0)) 1 (some 0),1,2⟩)
  fdts := Function.update opened.fdts 0 ⟨0,2⟩
  nodes := opened.nodes
  nextFdt := 1
  nextNode := 1
  nextProcess := 1

theorem boot_opened : boot.call 0 ⟨fun _ => none,0,0⟩ (.openFile .found O_WRONLY) =
    .ok (0,opened) := by
  simp [call,sysOpen,kFsVfsOpen,newNode,kProcProcessOpenNode,FdList.openSlot,setNode,
    setFdt,setProcess,FdList.setSlot,opened,boot,bind,Except.bind,pure,Except.pure]

theorem opened_duplicated : opened.call 0 ⟨Function.update (fun _ => none) 0 (some 0),1,
    1⟩ (.dup2 0 (-1)) =
    .ok (1,duplicated) := by
  simp [call,sysDup2,dupTarget,FdList.findFree,setFdt,setProcess,FdList.setSlot,opened,
    duplicated,boot,List.range_succ,W32,pure,Except.pure]

theorem descriptor_tables_count_opened :
    opened.nextFdt = 1 ∧ FdList.Counts ⟨Function.update (fun _ => none) 0 (some 0),1,1⟩ := by
  have hrun : Relation.ReflTransGen (Step Counted) boot opened :=
    .single ⟨0,_,.openFile .found O_WRONLY,_,rfl,trivial,boot_opened⟩
  exact ⟨rfl,(descriptor_tables_count (p:=0) hrun rfl).1.1⟩

/-- A duplicate is not counted, and the next open runs off the end of the table. -/
theorem duplicate_is_not_counted : ∃ (s : Files) (l : FdList),
    Relation.ReflTransGen (Step fun _ _ _ => True) boot s ∧ s.processes 0 = some l ∧ l.amount = 1 ∧
      l.used.card = 2 ∧ s.kProcProcessOpenNode 0 l 1 = .error (.panic "__builtin_unreachable") := by
  have hopen : Step (fun _ _ _ => True) boot opened := ⟨0,_,_,_,rfl,trivial,boot_opened⟩
  have hdup : Step (fun _ _ _ => True) opened duplicated := ⟨0,_,_,_,rfl,trivial,opened_duplicated⟩
  exact ⟨duplicated,_,.tail (.single hopen) hdup,rfl,rfl,by decide,rfl⟩

end Files
end ScalesOS
