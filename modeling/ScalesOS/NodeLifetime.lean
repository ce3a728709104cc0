import ScalesOS.DescriptorTable

/-!
# Nodes and the slots that refer to them

A node is closed and freed when its last link goes. As long as every slot has a descriptor
of its own, the links of a node are the slots in all processes that refer to it.
-/

namespace ScalesOS

theorem sum_change {a : Finset ℕ} {f g : ℕ → ℕ} {i : ℕ} (hi : i ∈ a)
    (h : ∀ j ∈ a, j ≠ i → f j = g j) :
    ∑ j ∈ a, f j+g i = ∑ j ∈ a, g j+f i := by
  have hrest : ∑ j ∈ a.erase i, f j = ∑ j ∈ a.erase i, g j :=
    Finset.sum_congr rfl fun j hj => h j (Finset.mem_of_mem_erase hj) (Finset.ne_of_mem_erase hj)
  rw [← Finset.add_sum_erase a f hi,← Finset.add_sum_erase a g hi,hrest]
  omega

namespace FdList

/-- How many of the first `k` slots refer to node `n`; `node` is what a descriptor refers to. -/
def refsBelow (l : FdList) (node : ℕ → ℕ) (n k : ℕ) : ℕ :=
  ∑ i ∈ Finset.range k, if (l.nodes i).map node = some n then 1 else 0

def refs (l : FdList) (node : ℕ → ℕ) (n : ℕ) : ℕ := l.refsBelow node n l.size

variable {l l' : FdList} {node node' : ℕ → ℕ} {n i k : ℕ}

theorem refsBelow_congr (h : ∀ i < k, (l'.nodes i).map node' = (l.nodes i).map node) :
    l'.refsBelow node' n k = l.refsBelow node n k :=
  Finset.sum_congr rfl fun i hi => by rw [h i (Finset.mem_range.mp hi)]

theorem refs_set (hi : i < l.size) (v : Option ℕ) (node : ℕ → ℕ) (n amount : ℕ) :
    refs { l.setSlot i v with amount := amount } node n+(if (l.nodes i).map node = some n
      then 1 else 0) =
      l.refs node n+if v.map node = some n then 1 else 0 := by
  have hchange :=
    sum_change (f:=fun j => if ((l.setSlot i v).nodes j).map node = some n then 1 else 0)
    (g:=fun j => if (l.nodes j).map node = some n then 1 else 0) (Finset.mem_range.mpr hi)
    fun j _ hj => by simp [setSlot,hj]
  simpa [refs,refsBelow,setSlot] using hchange

theorem refs_opened {fd fdt : ℕ} (hfree : ¬ l.IsOpen fd)
    (hnodes : ∀ i, l'.nodes i = if i = fd then some fdt else l.nodes i) (hfd : fd < l'.size)
    (hsize : l.size ≤ l'.size) (hrest : ∀ i < l'.size, i ≠ fd → i < l.size) :
    l'.refs node n = l.refs node n+if node fdt = n then 1 else 0 := by
  have hold : ∑ i ∈ Finset.range l.size, (if (l.nodes i).map node = some n then 1 else 0) =
      ∑ i ∈ Finset.range l'.size, if i = fd then 0
          else if (l.nodes i).map node = some n then 1 else 0 := by
    refine Finset.sum_subset_zero_on_sdiff (Finset.range_subset_range.mpr hsize) (fun i hi =>
      ?_) fun i hi => ?_
    · rw [Finset.mem_sdiff,Finset.mem_range,Finset.mem_range] at hi
      rw [if_pos]
      by_contra hne
      exact hi.2 (hrest i hi.1 hne)
    · by_cases heq : i = fd
      · subst heq
        have hnone : l.nodes i = none := by
          by_contra hsome
          exact hfree ⟨Finset.mem_range.mp hi,Option.isSome_iff_ne_none.mpr hsome⟩
        simp [hnone]
      · rw [if_neg heq]
  have hchange := sum_change (f:=fun i => if (l'.nodes i).map node = some n then 1 else 0)
    (g:=fun i => if i = fd then 0 else if (l.nodes i).map node = some n then 1 else 0)
    (Finset.mem_range.mpr hfd) fun i _ hi => by simp [hnodes,hi]
  rw [refs,refs,refsBelow,refsBelow,hold]
  simpa [hnodes] using hchange

theorem refs_pos {f : ℕ} (hi : i < l.size) (hf : l.nodes i = some f) :
    0 < l.refs node (node f) := by
  have hone : (if (l.nodes i).map node = some (node f) then 1 else 0) = 1 := by simp [hf]
  have hle :=
    Finset.single_le_sum (f:=fun j => if (l.nodes j).map node = some (node f) then 1 else 0)
    (fun _ _ => Nat.zero_le _) (Finset.mem_range.mpr hi)
  rw [refs,refsBelow]
  exact Nat.lt_of_lt_of_le (by rw [hone]; exact Nat.one_pos) hle

theorem refs_eq_zero (h : ∀ i < l.size, ∀ f, l.nodes i = some f → node f ≠ n) :
    l.refs node n = 0 := by
  rw [refs,refsBelow]
  refine Finset.sum_eq_zero fun i hi => if_neg ?_
  cases hf : l.nodes i with
  | none => simp
  | some f => simpa using h i (Finset.mem_range.mp hi) f hf

end FdList

/-- A node with `r` references is open as long as there are any. -/
structure FsNode.Ok (node : FsNode) (r : ℕ) : Prop where
  links_eq : node.links = r
  closes_eq : node.closes = if r = 0 then 1 else 0
  frees_eq : node.frees = if r = 0 then 1 else 0

namespace Files

variable {s t : Files} {p n : ℕ} {l : FdList}

def nodeOf (s : Files) (f : ℕ) : ℕ := (s.fdts f).node

def refs (s : Files) (n : ℕ) : ℕ :=
  ∑ p ∈ Finset.range s.nextProcess, (s.processes p).elim 0 fun l => l.refs s.nodeOf n

/-- Some slot refers to the node. -/
def Refers (s : Files) (n : ℕ) : Prop :=
  ∃ p l i f, s.processes p = some l ∧ i < l.size ∧ l.nodes i = some f ∧ s.nodeOf f = n

structure Alive (s : Files) : Prop where
  tables : s.Tables
  process_lt : ∀ p l, s.processes p = some l → p < s.nextProcess
  slot_lt : ∀ p l i f, s.processes p = some l → i < l.size → l.nodes i = some f → f < s.nextFdt
  node_lt : ∀ f < s.nextFdt, s.nodeOf f < s.nextNode
  ok : ∀ n < s.nextNode, (s.nodes n).Ok (s.refs n)

theorem Alive.refs_le (h : s.Alive) (hp : s.processes p = some l) :
    l.refs s.nodeOf n ≤ s.refs n := by
  have hle := Finset.single_le_sum (f:=fun q => (s.processes q).elim 0 fun l => l.refs s.nodeOf n)
    (fun _ _ => Nat.zero_le _) (Finset.mem_range.mpr (h.process_lt p l hp))
  rw [refs]
  simpa [hp] using hle

theorem Alive.refs_pos_iff (h : s.Alive) : 0 < s.refs n ↔ s.Refers n := by
  constructor
  · intro hpos
    obtain ⟨p,-,hp⟩ := Finset.exists_ne_zero_of_sum_ne_zero (Nat.pos_iff_ne_zero.mp hpos)
    cases hl : s.processes p with
    | none => simp [hl] at hp
    | some l =>
      by_contra hno
      refine hp ?_
      rw [hl]
      exact FdList.refs_eq_zero fun i hi f hf heq => hno ⟨p,l,i,f,hl,hi,hf,heq⟩
  · rintro ⟨p,l,i,f,hp,hi,hf,rfl⟩
    exact (FdList.refs_pos hi hf).trans_le (h.refs_le hp)

theorem Alive.refs_new (h : s.Alive) (hn : s.nextNode ≤ n) : s.refs n = 0 := by
  by_contra hpos
  obtain ⟨p,l,i,f,hp,hi,hf,rfl⟩ := h.refs_pos_iff.mp (Nat.pos_of_ne_zero hpos)
  have := h.node_lt f (h.slot_lt p l i f hp hi hf)
  omega

theorem refs_setProcess {l' : Option FdList} {m : ℕ} (hp : s.processes p = some l)
    (hlt : p < s.nextProcess)
    (hproc : t.processes = Function.update s.processes p l') (hnext : t.nextProcess = s.nextProcess)
    (hnode : ∀ q l i f, s.processes q = some l → i < l.size → l.nodes i = some f →
      t.nodeOf f = s.nodeOf f)
    (hm : l'.elim 0 (fun l => l.refs t.nodeOf n) = m) :
    t.refs n+l.refs s.nodeOf n = s.refs n+m := by
  have hchange := sum_change (f:=fun q => (t.processes q).elim 0 fun l => l.refs t.nodeOf n)
    (g:=fun q => (s.processes q).elim 0 fun l => l.refs s.nodeOf n) (Finset.mem_range.mpr hlt)
    fun q _ hq => by
      simp only [hproc,Function.update_of_ne hq]
      cases hl : s.processes q with
      | none => rfl
      | some l =>
        refine FdList.refsBelow_congr fun i hi => ?_
        cases hf : l.nodes i with
        | none => rfl
        | some f => simp [hnode q l i f hl hi hf]
  rw [refs,refs,hnext]
  simpa [hp,hproc,hm] using hchange

theorem Alive.update (h : s.Alive) (hp : s.processes p = some l) {v : Option FdList}
    (hproc : t.processes = Function.update s.processes p v) (hnext : t.nextProcess = s.nextProcess)
    (hfdt : s.nextFdt ≤ t.nextFdt) (hnode : ∀ f < s.nextFdt, t.nodeOf f = s.nodeOf f)
    (hlt : ∀ f < t.nextFdt, t.nodeOf f < t.nextNode) (hcount : ∀ m, v = some m → m.Counts)
    (hslot : ∀ m, v = some m → ∀ i < m.size, ∀ f, m.nodes i = some f → f < t.nextFdt)
    (hok : ∀ n < t.nextNode, ∀ r,
      r+l.refs s.nodeOf n = s.refs n+v.elim 0 (fun m => m.refs t.nodeOf n) →
      (t.nodes n).Ok r) : t.Alive where
  tables := by
    intro q m hq
    rw [hproc] at hq
    exact Tables.set h.tables hcount q m hq
  process_lt := by
    intro q m hq
    rw [hnext]
    by_cases hqp : q = p
    · subst hqp
      exact h.process_lt q l hp
    · rw [hproc,Function.update_of_ne hqp] at hq
      exact h.process_lt q m hq
  slot_lt := by
    intro q m i f hq hi hf
    by_cases hqp : q = p
    · subst hqp
      rw [hproc,Function.update_self] at hq
      exact hslot m hq i hi f hf
    · rw [hproc,Function.update_of_ne hqp] at hq
      exact (h.slot_lt q m i f hq hi hf).trans_le hfdt
  node_lt := hlt
  ok := by
    intro n hn
    refine hok n hn (t.refs n) (refs_setProcess hp (h.process_lt p l hp) hproc hnext ?_ rfl)
    exact fun q m i f hq hi hf => hnode f (h.slot_lt q m i f hq hi hf)

theorem kFsVfsClose_spec {r : ℕ} (h : (s.nodes n).Ok r) (hr : 0 < r) (m : ℕ) :
    if m = n then ((s.kFsVfsClose n).nodes m).Ok (r-1)
    else (s.kFsVfsClose n).nodes m = s.nodes m := by
  have hlinks : decrement (s.nodes n).links = r-1 := by rw [h.links_eq,decrement_of_pos hr]
  have hcloses : (s.nodes n).closes = 0 := by rw [h.closes_eq,if_neg (by omega)]
  have hfrees : (s.nodes n).frees = 0 := by rw [h.frees_eq,if_neg (by omega)]
  rw [kFsVfsClose,hlinks]
  by_cases hm : m = n
  · subst hm
    rw [if_pos rfl]
    by_cases hlast : r-1 = 0
    · rw [if_pos hlast]
      constructor <;> simp [setNode,hlast,hcloses,hfrees]
    · rw [if_neg hlast]
      constructor <;> simp [setNode,hlast,hcloses,hfrees]
  · rw [if_neg hm]
    split <;> simp [setNode,hm]

@[simp] theorem kFsVfsClose_fdts (s : Files) (n : ℕ) : (s.kFsVfsClose n).fdts = s.fdts := by
  rw [kFsVfsClose]
  split <;> rfl

@[simp] theorem kFsVfsClose_next (s : Files) (n : ℕ) : (s.kFsVfsClose n).nextFdt = s.nextFdt ∧
    (s.kFsVfsClose n).nextNode = s.nextNode ∧ (s.kFsVfsClose n).nextProcess = s.nextProcess := by
  rw [kFsVfsClose]
  split <;> exact ⟨rfl,rfl,rfl⟩

/-- A change of the counter in a descriptor does not change what it refers to. -/
theorem nodeOf_setFdt (s : Files) (f links g : ℕ) :
    (s.setFdt f ⟨(s.fdts f).node,links⟩).nodeOf g = s.nodeOf g := by
  by_cases hg : g = f
  · subst hg
    simp [nodeOf,setFdt]
  · simp [nodeOf,setFdt,hg]

theorem closeFd_alive (h : s.Alive) (hp : s.processes p = some l) {fd : ℕ} {l' : FdList}
    (hclose : s.kProcProcessCloseFd p l fd = .ok (l',t)) :
    t.Alive ∧ t.processes p = some l' ∧ l'.size = l.size ∧
      ∀ i < l.size, l'.nodes i = if i = fd then none else l.nodes i := by
  rw [kProcProcessCloseFd] at hclose
  by_cases hfd : l.size ≤ fd
  · rw [if_pos hfd] at hclose
    obtain ⟨rfl,rfl⟩ := Prod.mk.inj (Except.ok.inj hclose)
    exact ⟨h,hp,rfl,fun i hi => by rw [if_neg (by omega)]⟩
  · rw [if_neg hfd] at hclose
    cases hf : l.nodes fd with
    | none => simp [hf,throw,throwThe,MonadExceptOf.throw] at hclose
    | some f =>
      simp only [hf] at hclose
      obtain ⟨rfl,rfl⟩ := Prod.mk.inj (Except.ok.inj hclose)
      have hlt : fd < l.size := by omega
      have hcount := (h.tables p l hp).close ⟨hlt,by rw [hf]; rfl⟩
      have hpos : 0 < s.refs (s.nodeOf f) := (FdList.refs_pos hlt hf).trans_le (h.refs_le hp)
      have hbound : s.nodeOf f < s.nextNode := h.node_lt f (h.slot_lt p l fd f hp hlt hf)
      obtain ⟨hnextF,hnextN,hnextP⟩ := kFsVfsClose_next s (s.nodeOf f)
      have hnode : ∀ l', (((s.kFsVfsClose (s.fdts f).node).setFdt f
          ⟨((s.kFsVfsClose (s.fdts f).node).fdts f).node,
            decrement ((s.kFsVfsClose (s.fdts f).node).fdts f).links⟩).setProcess p l').nodeOf =
            s.nodeOf := by
        intro l'
        funext g
        refine (nodeOf_setFdt _ f _ g).trans ?_
        rw [nodeOf,kFsVfsClose_fdts,nodeOf]
      refine ⟨h.update (v:=some { l.setSlot fd none with amount := decrement l.amount }) hp ?_
        hnextP hnextF.ge
        (fun g _ => congrFun (hnode _) g) ?_ ?_ ?_ ?_,setProcess_self _ _ _,rfl,
        fun i _ => by simp [FdList.setSlot,Function.update_apply]⟩
      · simp only [setProcess,setFdt_processes,kFsVfsClose_processes]
        rfl
      · intro g hg
        exact (congrFun (hnode _) g).trans_lt
          ((h.node_lt g (hg.trans_eq hnextF)).trans_eq hnextN.symm)
      · intro m hm
        obtain rfl := Option.some.inj hm
        exact hcount
      · intro m hm i hi g hg
        obtain rfl := Option.some.inj hm
        have hne : i ≠ fd := fun heq => by simp [heq,FdList.setSlot] at hg
        refine (h.slot_lt p l i g hp hi ?_).trans_eq hnextF.symm
        simpa [FdList.setSlot,hne] using hg
      · intro n hn r hr
        have hset : FdList.refs { l.setSlot fd none with amount := decrement l.amount } s.nodeOf n+
            (if s.nodeOf f = n then 1 else 0) = l.refs s.nodeOf n := by
          have := FdList.refs_set hlt none s.nodeOf n (decrement l.amount)
          simpa [hf] using this
        rw [Option.elim_some,hnode] at hr
        have hvfs := kFsVfsClose_spec (h.ok _ hbound) hpos n
        by_cases heq : n = s.nodeOf f
        · subst heq
          rw [if_pos rfl] at hvfs hset
          have hr' : r = s.refs (s.nodeOf f)-1 := by omega
          rw [hr']
          exact hvfs
        · rw [if_neg heq] at hvfs
          rw [if_neg (Ne.symm heq)] at hset
          have hr' : r = s.refs n := by omega
          rw [hr']
          exact hvfs ▸ h.ok n (hn.trans_eq hnextN)

theorem closeFds_alive (all : Bool) (n : ℕ) : ∀ {l' : FdList} {t : Files}, s.Alive →
    s.processes p = some l → n ≤ l.size → closeFds p all n (l,s) = .ok (l',t) →
    t.Alive ∧ t.processes p = some l' ∧ l'.size = l.size ∧ (all → ∀ i < n, l'.nodes i = none) := by
  induction n with
  | zero =>
    intro l' t h hp _ hclose
    obtain ⟨rfl,rfl⟩ := Prod.mk.inj (Except.ok.inj hclose)
    exact ⟨h,hp,rfl,fun _ i hi => by omega⟩
  | succ n ih =>
    intro l' t h hp hn hclose
    rw [closeFds] at hclose
    obtain ⟨⟨l1,s1⟩,hfirst,hlast⟩ := Result.bind_eq_ok.mp hclose
    obtain ⟨h1,hp1,hsize,hnone⟩ := ih h hp (by omega) hfirst
    dsimp only at hlast
    cases hf : l1.nodes n with
    | none =>
      rw [hf] at hlast
      obtain ⟨rfl,rfl⟩ := Prod.mk.inj (Except.ok.inj hlast)
      refine ⟨h1,hp1,hsize,fun ha i hi => ?_⟩
      rcases Nat.lt_succ_iff_lt_or_eq.mp hi with hlt | rfl
      · exact hnone ha i hlt
      · exact hf
    | some f =>
      simp only [hf] at hlast
      split at hlast
      · obtain ⟨h2,hp2,hsize2,hslots⟩ := closeFd_alive h1 hp1 hlast
        refine ⟨h2,hp2,hsize2.trans hsize,fun ha i hi => ?_⟩
        rw [hslots i (by omega)]
        split
        · rfl
        · exact hnone ha i (by omega)
      · rename_i hkeep
        obtain ⟨rfl,rfl⟩ := Prod.mk.inj (Except.ok.inj hlast)
        exact ⟨h1,hp1,hsize,fun ha => absurd (Or.inl ha) hkeep⟩

theorem Alive.leave (h : s.Alive) (hp : s.processes p = some l)
    (hnone : ∀ i < l.size, l.nodes i = none) :
    (s.setProcess p none).Alive := by
  refine h.update hp rfl rfl le_rfl (fun _ _ => rfl) h.node_lt (fun m hm => by cases hm)
    (fun m hm => by cases hm) fun n hn r hr => ?_
  have hzero : l.refs s.nodeOf n = 0 := FdList.refs_eq_zero fun i hi f hf => by
    rw [hnone i hi] at hf
    cases hf
  rw [hzero] at hr
  obtain rfl : r = s.refs n := by simpa using hr
  exact h.ok n hn

/-- What an open adds: at most one new node with a link, and folders that are closed again. -/
structure Looked (s t : Files) (found : Option ℕ) : Prop where
  processes_eq : t.processes = s.processes
  fdts_eq : t.fdts = s.fdts
  nextFdt_eq : t.nextFdt = s.nextFdt
  nextProcess_eq : t.nextProcess = s.nextProcess
  nextNode_le : s.nextNode ≤ t.nextNode
  old : ∀ n < s.nextNode, t.nodes n = s.nodes n
  new : ∀ n < t.nextNode, s.nextNode ≤ n → (t.nodes n).Ok (if found = some n then 1 else 0)
  found_new : ∀ n, found = some n → s.nextNode ≤ n ∧ n < t.nextNode

theorem newNode_looked (s : Files) (mode : ℕ) : Looked s (s.newNode mode).2 (some s.nextNode) where
  processes_eq := rfl
  fdts_eq := rfl
  nextFdt_eq := rfl
  nextProcess_eq := rfl
  nextNode_le := Nat.le_succ _
  old := fun n hn => by simp [newNode,setNode,Nat.ne_of_lt hn]
  new := by
    intro n hn hle
    obtain rfl : n = s.nextNode := by
      have : n < s.nextNode+1 := hn
      omega
    constructor <;> simp [newNode,setNode]
  found_new := by
    intro n hn
    obtain rfl := Option.some.inj hn
    exact ⟨le_rfl,Nat.lt_succ_self _⟩

theorem folder_looked (s : Files) :
    Looked s ((s.newNode O_WRONLY).2.kFsVfsClose s.nextNode) none := by
  have h := newNode_looked s O_WRONLY
  obtain ⟨hF,hN,hP⟩ := kFsVfsClose_next (s.newNode O_WRONLY).2 s.nextNode
  have hok := h.new s.nextNode (Nat.lt_succ_self _) le_rfl
  rw [if_pos rfl] at hok
  have hclose := kFsVfsClose_spec hok Nat.one_pos
  refine ⟨by simp [newNode],by simp [newNode,setNode],hF,hP,h.nextNode_le.trans_eq hN.symm,
    fun n hn => ?_,fun n hn hle => ?_,fun n hn => by cases hn⟩
  · have hother := hclose n
    rw [if_neg (by omega)] at hother
    rw [hother]
    exact h.old n hn
  · have hself := hclose n
    obtain rfl : n = s.nextNode := by
      have : n < s.nextNode+1 := hn.trans_eq hN
      omega
    rw [if_pos rfl] at hself
    exact hself

theorem Looked.trans {u : Files} {found : Option ℕ} (h : Looked s t none) (h' : Looked t u found) :
    Looked s u found where
  processes_eq := h'.processes_eq.trans h.processes_eq
  fdts_eq := h'.fdts_eq.trans h.fdts_eq
  nextFdt_eq := h'.nextFdt_eq.trans h.nextFdt_eq
  nextProcess_eq := h'.nextProcess_eq.trans h.nextProcess_eq
  nextNode_le := h.nextNode_le.trans h'.nextNode_le
  old := fun n hn => (h'.old n (hn.trans_le h.nextNode_le)).trans (h.old n hn)
  new := by
    intro n hn hle
    rcases Nat.lt_or_ge n t.nextNode with hlt | hge
    · have hne : found ≠ some n := fun heq => by
        have := (h'.found_new n heq).1
        omega
      rw [if_neg hne,h'.old n hlt]
      have := h.new n hlt hle
      rwa [if_neg (by simp)] at this
    · exact h'.new n hn hge
  found_new := fun n hn => ⟨h.nextNode_le.trans (h'.found_new n hn).1,(h'.found_new n hn).2⟩

theorem Looked.refl (s : Files) : Looked s s none :=
  ⟨rfl,rfl,rfl,rfl,le_rfl,fun _ _ => rfl,fun n hn hle => by omega,fun n hn => by cases hn⟩

theorem kFsVfsOpen_looked (s : Files) (lookup : Lookup) (mode : ℕ) :
    Looked s (s.kFsVfsOpen lookup mode).2 (s.kFsVfsOpen lookup mode).1 := by
  cases lookup with
  | found => exact newNode_looked s mode
  | missing => exact Looked.refl s
  | folder created =>
    rw [kFsVfsOpen]
    by_cases hmode : mode &&& O_CREAT = 0
    · rw [if_pos hmode]
      exact Looked.refl s
    · rw [if_neg hmode]
      cases created with
      | false => exact folder_looked s
      | true => exact (folder_looked s).trans (newNode_looked _ mode)

theorem Looked.refs_eq {found : Option ℕ} (h : Looked s t found) (n : ℕ) : t.refs n = s.refs n := by
  have hnode : t.nodeOf = s.nodeOf := by
    funext f
    rw [nodeOf,nodeOf,h.fdts_eq]
  rw [refs,refs,h.nextProcess_eq,h.processes_eq,hnode]

theorem Looked.alive (h : Looked s t none) (hs : s.Alive) : t.Alive where
  tables := hs.tables.of_eq h.processes_eq
  process_lt := by
    intro q m hq
    rw [h.processes_eq] at hq
    rw [h.nextProcess_eq]
    exact hs.process_lt q m hq
  slot_lt := by
    intro q m i f hq hi hf
    rw [h.processes_eq] at hq
    rw [h.nextFdt_eq]
    exact hs.slot_lt q m i f hq hi hf
  node_lt := by
    intro f hf
    rw [nodeOf,h.fdts_eq]
    exact (hs.node_lt f (hf.trans_eq h.nextFdt_eq)).trans_le h.nextNode_le
  ok := by
    intro n hn
    rw [h.refs_eq]
    rcases Nat.lt_or_ge n s.nextNode with hlt | hge
    · rw [h.old n hlt]
      exact hs.ok n hlt
    · rw [hs.refs_new hge]
      have := h.new n hn hge
      rwa [if_neg (by simp)] at this

theorem sysOpen_alive (hs : s.Alive) (hp : s.processes p = some l) {lookup : Lookup} {mode r : ℕ}
    (hopen : s.sysOpen p l lookup mode = .ok (r,t)) : t.Alive := by
  have hlook := kFsVfsOpen_looked s lookup mode
  rw [sysOpen] at hopen
  rcases hv : s.kFsVfsOpen lookup mode with ⟨_ | node,u⟩
  · rw [hv] at hopen hlook
    obtain ⟨-,rfl⟩ := Prod.mk.inj (Except.ok.inj hopen)
    exact hlook.alive hs
  · rw [hv] at hopen hlook
    obtain ⟨fd,l',hslot,hlow,hcount,hnodes,hfd,hsize,hrest⟩ :=
      FdList.openSlot_spec (hs.tables p l hp) u.nextFdt
    simp only [kProcProcessOpenNode,hslot] at hopen
    obtain ⟨-,rfl⟩ := Prod.mk.inj (Except.ok.inj hopen)
    obtain ⟨hle,hlt⟩ := hlook.found_new node rfl
    have hold :
        ∀ f < s.nextFdt, (Function.update u.fdts u.nextFdt ⟨node,1⟩ f).node = s.nodeOf f := by
      intro f hf
      rw [Function.update_of_ne (by rw [hlook.nextFdt_eq]; omega),hlook.fdts_eq]
      rfl
    refine hs.update hp (v:=some l') ?_ hlook.nextProcess_eq ?_ hold ?_ ?_ ?_ ?_
    · change Function.update u.processes p (some l') = _
      rw [hlook.processes_eq]
    · change s.nextFdt ≤ u.nextFdt+1
      rw [hlook.nextFdt_eq]
      exact Nat.le_succ _
    · intro f hf
      change (Function.update u.fdts u.nextFdt ⟨node,1⟩ f).node < u.nextNode
      change f < u.nextFdt+1 at hf
      rw [hlook.nextFdt_eq] at hf
      rcases Nat.lt_succ_iff_lt_or_eq.mp hf with hf | rfl
      · rw [hold f hf]
        exact (hs.node_lt f hf).trans_le hlook.nextNode_le
      · rw [← hlook.nextFdt_eq,Function.update_self]
        exact hlt
    · intro m hm
      obtain rfl := Option.some.inj hm
      exact hcount
    · intro m hm i hi f hf
      obtain rfl := Option.some.inj hm
      change f < u.nextFdt+1
      rw [hnodes] at hf
      split at hf
      · obtain rfl := Option.some.inj hf
        exact Nat.lt_succ_self _
      · rename_i hne
        have := hs.slot_lt p l i f hp (hrest i hi hne) hf
        rw [hlook.nextFdt_eq]
        omega
    · intro n hn r hr
      rw [Option.elim_some,FdList.refs_opened hlow.1 hnodes hfd hsize hrest] at hr
      have hself : (Function.update u.fdts u.nextFdt ⟨node,1⟩ u.nextFdt).node = node := by
        rw [Function.update_self]
      have hsame : l.refs (fun f => (Function.update u.fdts u.nextFdt ⟨node,1⟩ f).node) n =
          l.refs s.nodeOf n := by
        refine FdList.refsBelow_congr fun i hi => ?_
        cases hf : l.nodes i with
        | none => rfl
        | some f => exact congrArg some (hold f (hs.slot_lt p l i f hp hi hf))
      have hr' : r = s.refs n+if node = n then 1 else 0 := by
        change r+_ = _+(l.refs (fun f => (Function.update u.fdts u.nextFdt ⟨node,1⟩ f).node) n+
          if (Function.update u.fdts u.nextFdt ⟨node,1⟩ u.nextFdt).node = n then 1 else 0) at hr
        rw [hsame,hself] at hr
        omega
      rcases Nat.lt_or_ge n s.nextNode with hn' | hn'
      · rw [hr',if_neg (by omega)]
        exact hlook.old n hn' ▸ hs.ok n hn'
      · rw [hr',hs.refs_new hn',Nat.zero_add]
        have hnew := hlook.new n hn hn'
        simp only [Option.some.injEq] at hnew
        exact hnew

theorem sysDup2_alive (hs : s.Alive) (hp : s.processes p = some l) {fd1 fd2 : ℤ}
    (h : 0 ≤ fd1 → l.IsOpen fd1.toNat → fd2 = fd1) : (s.sysDup2 p l fd1 fd2).2.Alive := by
  rw [sysDup2]
  split
  · exact hs
  · rename_i hneg
    split
    · exact hs
    · rename_i hsize
      cases hf : l.nodes fd1.toNat with
      | none => exact hs
      | some f =>
        have hopen : l.IsOpen fd1.toNat := ⟨by omega,by rw [hf]; rfl⟩
        obtain rfl := h (by omega) hopen
        have htarget : dupTarget l fd2 = fd2.toNat := if_neg hneg
        have hsame : l.setSlot fd2.toNat (some f) = l := by
          rw [FdList.setSlot,← hf,Function.update_eq_self]
        dsimp only
        rw [htarget,if_neg hsize,hsame]
        refine hs.update hp (v:=some l) rfl rfl le_rfl (fun g _ =>
          nodeOf_setFdt s f _ g) (fun g hg => ?_)
          (fun m hm => ?_) (fun m hm i hi g hg => ?_) fun n hn r hr => ?_
        · exact (nodeOf_setFdt s f _ g).trans_lt (hs.node_lt g hg)
        · obtain rfl := Option.some.inj hm
          exact hs.tables p l hp
        · obtain rfl := Option.some.inj hm
          exact hs.slot_lt p l i g hp hi hg
        · have hnode : (s.setFdt f ⟨(s.fdts f).node,(s.fdts f).links+1⟩).nodeOf = s.nodeOf :=
            funext (nodeOf_setFdt s f _)
          change r+_ = _+l.refs (s.setFdt f ⟨(s.fdts f).node,(s.fdts f).links+1⟩).nodeOf n at hr
          rw [hnode] at hr
          obtain rfl : r = s.refs n := by omega
          exact hs.ok n hn

/-- The first `k` slots of a table have been copied. -/
structure Copied (s : Files) (src : FdList) (k : ℕ) (nodes : ℕ → Option ℕ) (t : Files) : Prop where
  processes_eq : t.processes = s.processes
  nextProcess_eq : t.nextProcess = s.nextProcess
  nextNode_eq : t.nextNode = s.nextNode
  nextFdt_le : s.nextFdt ≤ t.nextFdt
  old : ∀ f < s.nextFdt, t.nodeOf f = s.nodeOf f
  slot : ∀ i, (nodes i).map t.nodeOf = if i < k then (src.nodes i).map s.nodeOf else none
  slot_lt : ∀ i f, nodes i = some f → f < t.nextFdt
  new_lt : ∀ f < t.nextFdt, t.nodeOf f < t.nextNode
  links : ∀ n, t.nodes n = { s.nodes n with links := (s.nodes n).links+src.refsBelow s.nodeOf n k }

theorem copyFds_copied (hs : s.Alive) (hp : s.processes p = some l) (k : ℕ) (hk : k ≤ l.size) :
    Copied s l k (copyFds l k s).1 (copyFds l k s).2 := by
  induction k with
  | zero =>
    exact ⟨rfl,rfl,rfl,le_rfl,fun _ _ => rfl,fun i => (by simp [copyFds]),
      fun i f h => (by cases h),hs.node_lt,fun n => by simp [copyFds,FdList.refsBelow]⟩
  | succ k ih =>
    have h := ih (by omega)
    rw [copyFds,copyFd]
    have hsum : ∀ n, l.refsBelow s.nodeOf n (k+1) =
        l.refsBelow s.nodeOf n k+if (l.nodes k).map s.nodeOf = some n then 1 else 0 :=
      fun n => Finset.sum_range_succ _ _
    cases hf : l.nodes k with
    | none =>
      refine ⟨h.processes_eq,h.nextProcess_eq,h.nextNode_eq,h.nextFdt_le,h.old,fun i => ?_,
        h.slot_lt,h.new_lt,fun n => ?_⟩
      · rw [h.slot]
        by_cases hi : i = k
        · subst hi
          simp [hf]
        · have hlt : i < k+1 ↔ i < k := by omega
          simp only [hlt]
      · rw [h.links,hsum,hf]
        simp
    | some f =>
      set c := copyFds l k s with hc
      have hnode : (c.2.fdts f).node = s.nodeOf f := h.old f (hs.slot_lt p l k f hp (by omega) hf)
      have hlt : s.nodeOf f < s.nextNode := hs.node_lt f (hs.slot_lt p l k f hp (by omega) hf)
      have hkeep : ∀ g < c.2.nextFdt,
          (Function.update c.2.fdts c.2.nextFdt ⟨(c.2.fdts f).node,1⟩ g).node = c.2.nodeOf g := by
        intro g hg
        rw [Function.update_of_ne (by omega)]
        rfl
      have hself : (Function.update c.2.fdts c.2.nextFdt ⟨(c.2.fdts f).node,1⟩ c.2.nextFdt).node =
          s.nodeOf f := by
        rw [Function.update_self,hnode]
      refine ⟨h.processes_eq,h.nextProcess_eq,h.nextNode_eq,
        h.nextFdt_le.trans (Nat.le_succ _),fun g hg => ?_,
        fun i => ?_,fun i g hg => ?_,fun g hg => ?_,fun n => ?_⟩
      · exact (hkeep g (hg.trans_le h.nextFdt_le)).trans (h.old g hg)
      · change (Function.update c.1 k (some c.2.nextFdt) i).map
          (fun g => (Function.update c.2.fdts c.2.nextFdt ⟨(c.2.fdts f).node,1⟩ g).node) = _
        by_cases hi : i = k
        · subst hi
          rw [Function.update_self,if_pos (Nat.lt_succ_self _),hf,Option.map_some,hself]
          rfl
        · have hlt : i < k+1 ↔ i < k := by omega
          rw [Function.update_of_ne hi,if_congr hlt rfl rfl,← h.slot]
          cases hg : c.1 i with
          | none => rfl
          | some g => exact congrArg some (hkeep g (h.slot_lt i g hg))
      · change g < c.2.nextFdt+1
        change Function.update c.1 k (some c.2.nextFdt) i = some g at hg
        by_cases hi : i = k
        · subst hi
          rw [Function.update_self] at hg
          obtain rfl := Option.some.inj hg
          exact Nat.lt_succ_self _
        · rw [Function.update_of_ne hi] at hg
          have := h.slot_lt i g hg
          omega
      · change (Function.update c.2.fdts c.2.nextFdt ⟨(c.2.fdts f).node,1⟩ g).node < c.2.nextNode
        change g < c.2.nextFdt+1 at hg
        rcases Nat.lt_succ_iff_lt_or_eq.mp hg with hg | rfl
        · rw [hkeep g hg]
          exact h.new_lt g hg
        · rw [hself,h.nextNode_eq]
          exact hlt
      · change Function.update c.2.nodes (c.2.fdts f).node
          { c.2.nodes (c.2.fdts f).node with links := (c.2.nodes (c.2.fdts f).node).links+1 } n = _
        rw [hnode,hsum,hf,Option.map_some]
        by_cases hn : n = s.nodeOf f
        · subst hn
          rw [Function.update_self,h.links]
          simp [Nat.add_assoc]
        · rw [Function.update_of_ne hn,h.links]
          simp [Ne.symm hn]

theorem fork_alive (hs : s.Alive) (hp : s.processes p = some l) :
    (s.kProcProcessFork l).2.Alive := by
  have h := copyFds_copied hs hp l.size le_rfl
  have htables := fork_counts hs.tables (hs.tables p l hp)
  rw [kProcProcessFork] at htables ⊢
  set c := copyFds l l.size s with hc
  have hnext := h.nextProcess_eq
  have hold : ∀ q, q ≠ c.2.nextProcess →
      Function.update c.2.processes c.2.nextProcess (some { l with nodes := c.1 }) q =
      s.processes q := by
    intro q hq
    rw [Function.update_of_ne hq,h.processes_eq]
  refine ⟨htables,fun q m hq => ?_,fun q m i f hq hi hf => ?_,h.new_lt,fun n hn => ?_⟩
  · change q < c.2.nextProcess+1
    by_cases hnew : q = c.2.nextProcess
    · omega
    · have := hs.process_lt q m ((hold q hnew).symm.trans hq)
      omega
  · by_cases hnew : q = c.2.nextProcess
    · subst hnew
      change Function.update c.2.processes c.2.nextProcess (some { l with nodes := c.1 }) _ =
        some m at hq
      rw [Function.update_self] at hq
      obtain rfl := Option.some.inj hq
      exact h.slot_lt i f hf
    · exact (hs.slot_lt q m i f ((hold q hnew).symm.trans hq) hi hf).trans_le h.nextFdt_le
  · have hsum : ∑ q ∈ Finset.range c.2.nextProcess,
        (Function.update c.2.processes c.2.nextProcess (some { l with nodes := c.1 }) q).elim 0
          (fun m => m.refs c.2.nodeOf n) = s.refs n := by
      rw [hnext,refs]
      refine Finset.sum_congr rfl fun q hq => ?_
      rw [← hnext,hold q (by rw [hnext]; exact (Finset.mem_range.mp hq).ne)]
      cases hl : s.processes q with
      | none => rfl
      | some m =>
        refine FdList.refsBelow_congr fun i hi => ?_
        cases hf : m.nodes i with
        | none => rfl
        | some f => exact congrArg some (h.old f (hs.slot_lt q m i f hl hi hf))
    have hcopy : FdList.refs { l with nodes := c.1 } c.2.nodeOf n = l.refs s.nodeOf n :=
      FdList.refsBelow_congr fun i hi => by rw [h.slot,if_pos hi]
    have hrefs : ∑ q ∈ Finset.range (c.2.nextProcess+1),
        (Function.update c.2.processes c.2.nextProcess (some { l with nodes := c.1 }) q).elim 0
          (fun m => m.refs c.2.nodeOf n) = s.refs n+l.refs s.nodeOf n := by
      rw [Finset.sum_range_succ,hsum,Function.update_self,Option.elim_some,hcopy]
    change (c.2.nodes n).Ok (∑ q ∈ Finset.range (c.2.nextProcess+1), _)
    have hok := hs.ok n (hn.trans_eq h.nextNode_eq)
    have hle := hs.refs_le hp (n:=n)
    rw [h.links]
    refine hrefs ▸ ⟨by rw [hok.links_eq]; rfl,?_,?_⟩
    · rw [hok.closes_eq]
      exact if_congr (by omega) rfl rfl
    · rw [hok.frees_eq]
      exact if_congr (by omega) rfl rfl

/-- The calls after which every slot has a descriptor of its own: no open descriptor is
duplicated onto another number. -/
def Unshared (_ : Files) (l : FdList) : Call → Prop
  | .dup2 fd1 fd2 => 0 ≤ fd1 → l.IsOpen fd1.toNat → fd2 = fd1
  | _ => True

theorem step_alive (hs : s.Alive) (h : Step Unshared s t) : t.Alive := by
  obtain ⟨p,l,c,r,hp,hc,hcall⟩ := h
  cases c with
  | openFile lookup mode => exact sysOpen_alive hs hp hcall
  | close fd =>
    obtain ⟨⟨l',s'⟩,hclose,hret⟩ := Result.bind_eq_ok.mp hcall
    obtain ⟨-,rfl⟩ := Prod.mk.inj (Except.ok.inj hret)
    exact (closeFd_alive hs hp hclose).1
  | dup2 fd1 fd2 =>
    obtain rfl := (congrArg Prod.snd (Except.ok.inj hcall) : (s.sysDup2 p l fd1 fd2).2 = t)
    exact sysDup2_alive hs hp hc
  | fork =>
    obtain rfl := (congrArg Prod.snd (Except.ok.inj hcall) : (s.kProcProcessFork l).2 = t)
    exact fork_alive hs hp
  | exec =>
    obtain ⟨s',hexec,hret⟩ := Result.bind_eq_ok.mp hcall
    obtain ⟨-,rfl⟩ := Prod.mk.inj (Except.ok.inj hret)
    obtain ⟨⟨l',s2⟩,hclose,hret⟩ := Result.bind_eq_ok.mp hexec
    obtain rfl := Except.ok.inj hret
    exact (closeFds_alive false l.size hs hp le_rfl hclose).1
  | exit =>
    obtain ⟨s',hexit,hret⟩ := Result.bind_eq_ok.mp hcall
    obtain ⟨-,rfl⟩ := Prod.mk.inj (Except.ok.inj hret)
    obtain ⟨⟨l',s2⟩,hclose,hret⟩ := Result.bind_eq_ok.mp hexit
    obtain rfl := Except.ok.inj hret
    obtain ⟨h2,hp2,hsize,hnone⟩ := closeFds_alive true l.size hs hp le_rfl hclose
    exact h2.leave hp2 fun i hi => hnone rfl i (hi.trans_eq hsize)

theorem boot_alive : boot.Alive where
  tables := boot_tables
  process_lt := by
    intro p l hp
    by_cases h : p = 0
    · rw [h]
      exact Nat.one_pos
    · simp [boot,h] at hp
  slot_lt := by
    intro p l i f hp hi
    by_cases h : p = 0
    · subst h
      obtain rfl := Option.some.inj hp
      exact absurd hi (Nat.not_lt_zero _)
    · simp [boot,h] at hp
  node_lt := fun f hf => absurd hf (Nat.not_lt_zero f)
  ok := fun n hn => absurd hn (Nat.not_lt_zero n)

/-- In a run of such calls a node stays open while a slot in some process refers to it, and
from then on it is closed and freed, once. -/
theorem node_lives_with_its_slots (h : Relation.ReflTransGen (Step Unshared) boot s)
    (hn : n < s.nextNode) :
    (s.Refers n → (s.nodes n).closes = 0 ∧ (s.nodes n).frees = 0) ∧
      (¬ s.Refers n → (s.nodes n).closes = 1 ∧ (s.nodes n).frees = 1) := by
  have hs : s.Alive := reach_invariant (fun _ _ h1 h2 => step_alive h1 h2) boot_alive h
  have hok := hs.ok n hn
  refine ⟨fun href => ?_,fun href => ?_⟩
  · have hpos := hs.refs_pos_iff.mpr href
    rw [hok.closes_eq,hok.frees_eq,if_neg (by omega)]
    exact ⟨rfl,rfl⟩
  · have hzero : s.refs n = 0 := by
      by_contra hne
      exact href (hs.refs_pos_iff.mp (Nat.pos_of_ne_zero hne))
    rw [hok.closes_eq,hok.frees_eq,if_pos hzero]
    exact ⟨rfl,rfl⟩

theorem node_lives_with_its_slots_opened : opened.Refers 0 ∧ (opened.nodes 0).closes = 0 ∧
    (opened.nodes 0).frees = 0 := by
  have hrun : Relation.ReflTransGen (Step Unshared) boot opened :=
    .single ⟨0,_,.openFile .found O_WRONLY,_,rfl,trivial,boot_opened⟩
  have href : opened.Refers 0 := ⟨0,_,0,0,rfl,Nat.one_pos,rfl,rfl⟩
  exact ⟨href,(node_lives_with_its_slots hrun Nat.one_pos).1 href⟩

/-- One of two descriptors of a file is closed, and the node goes although the other one
still refers to it. -/
theorem closed_under_duplicate : ∃ s :
    Files, Relation.ReflTransGen (Step fun _ _ _ => True) boot s ∧
    s.Refers 0 ∧ (s.nodes 0).closes = 1 ∧ (s.nodes 0).frees = 1 := by
  have hopen : Step (fun _ _ _ => True) boot opened := ⟨0,_,_,_,rfl,trivial,boot_opened⟩
  have hdup : Step (fun _ _ _ => True) opened duplicated := ⟨0,_,_,_,rfl,trivial,opened_duplicated⟩
  have hclose : Step (fun _ _ _ => True) duplicated _ := ⟨0,_,.close 0,0,rfl,trivial,rfl⟩
  exact ⟨_,((Relation.ReflTransGen.single hopen).tail hdup).tail hclose,
    ⟨0,_,1,0,rfl,by decide,rfl,rfl⟩,rfl,rfl⟩

end Files
end ScalesOS
