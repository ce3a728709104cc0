import Mathlib.Data.Fintype.Basic
import Mathlib.Data.List.ProdSigma
import Mathlib.Algebra.BigOperators.Group.List.Basic
import ScalesOS.Calls

/-!
# Select

`sys_select` of `kernel/src/int/syscall.c` over the files of any device: which of the caller's
descriptors are ready, the queues a process waits on when none of them is, and what it looks at
when it runs again.
-/

namespace ScalesOS

def EBADF : ℕ := 9
def EFAULT : ℕ := 14

/-- The bits of an `fd_set`. -/
abbrev FdSet := Finset ℕ

inductive SelectEvent
  | read
  | write
  | except
  deriving DecidableEq

namespace SelectEvent

def code : SelectEvent → ℕ
  | .read => VFS_EVENT_READ
  | .write => VFS_EVENT_WRITE
  | .except => VFS_EVENT_EXCEPT

/-- In the order in which `sys_select` looks at them. -/
def all : List SelectEvent := [.read,.write,.except]

def ofCode (code : ℕ) : Option SelectEvent := all.find? fun event => event.code = code

theorem mem_all (event : SelectEvent) : event ∈ all := by
  cases event <;> decide

instance : Fintype SelectEvent := ⟨{.read,.write,.except},fun event => by cases event <;> decide⟩

end SelectEvent

structure SelectCall where
  n : ℤ
  sets : SelectEvent → Option FdSet
  tv : Option Sched.Timeout

/-- A set of the caller, if there is one, and the set of descriptors to wait for. -/
structure SelectSet where
  set : Option FdSet
  wait : FdSet

/-- A process waits in `sys_select`. -/
structure SelectProgress where
  call : SelectCall
  sets : SelectEvent → SelectSet

/-- What is returned, with the caller's sets, and which descriptors the device calls ready
at that moment. -/
structure SelectReturn where
  call : SelectCall
  sets : SelectEvent → Option FdSet
  result : ℤ
  ready : ℕ → SelectEvent → Bool

/-- The files of a device: the node behind a descriptor of a process, whether an event holds of
it, and the queue for those that wait for the event. -/
structure SelectFiles (D N : Type) where
  node : D → ℕ → ℕ → Option N
  check : D → N → SelectEvent → Bool
  queue : N → SelectEvent → ℕ

abbrev SelectStretch (D : Type) := Stretch D SelectCall SelectProgress SelectReturn

namespace SelectFiles

variable {D N : Type}

/-- `__select_for_event`: the sets, and the result, which is `none` for an error. The result of
`k_fs_vfs_check` is a `uint8_t` and never negative. -/
def selectForEvent (fd : ℕ) (ready : Option Bool) (x : SelectSet) : SelectSet × Option ℕ :=
  match x.set with
  | none => (x,some 0)
  | some set =>
    if fd ∈ set then
      match ready with
      | none => ({ x with set := some (set.erase fd) },none)
      | some false => (⟨some (set.erase fd),insert fd x.wait⟩,some 0)
      | some true => ({ x with set := some (insert fd (set.erase fd)) },some 1)
    else (x,some 0)

def testLoop (ready : ℕ → SelectEvent → Option Bool) :
    List (ℕ × SelectEvent) → (SelectEvent → SelectSet) → ℕ → (SelectEvent → SelectSet) × Option ℕ
  | [], x, hasResult => (x,some hasResult)
  | (fd,event) :: rest, x, hasResult =>
    match selectForEvent fd (ready fd event) (x event) with
    | (y,none) => (Function.update x event y,none)
    | (y,some r) => testLoop ready rest (Function.update x event y) (hasResult+r)

def tests (n : ℕ) : List (ℕ × SelectEvent) := (List.range n).product SelectEvent.all

variable (files : SelectFiles D N)

/-- What `k_fs_vfs_check` says of a descriptor, if there is a file behind it. -/
def checkFd (d : D) (p fd : ℕ) (event : SelectEvent) : Option Bool :=
  (files.node d p fd).map fun node => files.check d node event

def ready (d : D) (p fd : ℕ) (event : SelectEvent) : Bool := files.checkFd d p fd event = some true

def waitQueues (d : D) (p n : ℕ) (sets : SelectEvent → SelectSet) : List ℕ :=
  (tests n).filterMap fun (fd,event) =>
    (files.node d p fd).bind fun node => if fd ∈ (sets event).wait then
    some (files.queue node event) else none

def finish (d : D) (p : ℕ) (call : SelectCall) (sets : SelectEvent → SelectSet) (result : ℤ)
    (clears : Bool) :
    SelectStretch D where
  device := d
  wakes := []
  next := .finish ⟨call,fun event => (sets event).set,result,files.ready d p⟩
  clears := clears

/-- `sys_select` up to the switch. -/
def start (d : D) (p : ℕ) (call : SelectCall) : SelectStretch D :=
  let sets := fun event => ⟨call.sets event,∅⟩
  if call.n < 0 then files.finish d p call sets (-EINVAL) false
  else
    match testLoop (files.checkFd d p) (tests call.n.toNat) sets 0 with
    | (sets,none) => files.finish d p call sets (-EBADF) false
    | (sets,some hasResult) =>
      if hasResult ≠ 0 then files.finish d p call sets hasResult false
      else
        match call.tv with
        | none => ⟨d,[],.select (files.waitQueues d p call.n.toNat sets) none ⟨call,sets⟩,false⟩
        | some tv =>
          if 0 < tv.microseconds ∨ 0 < tv.seconds then
            ⟨d,[],.select (files.waitQueues d p call.n.toNat sets) (some tv) ⟨call,sets⟩,false⟩
          else files.finish d p call sets 0 false

/-- The first descriptor below `n` that is waited for and ready. -/
def firstReady (d : D) (p n : ℕ) (event : SelectEvent) (wait : FdSet) : Option ℕ :=
  (List.range n).find? fun fd => fd ∈ wait ∧ files.ready d p fd event = true

/-- `sys_select` after the switch. -/
def resume (d : D) (p : ℕ) (task : Task) (x : SelectProgress) : SelectStretch D :=
  if task.interrupted then files.finish d p x.call x.sets (-EINTR) false
  else if task.selectWaitNode.isNone then files.finish d p x.call x.sets 0 true
  else
    match SelectEvent.ofCode task.selectWaitEvent with
    | none => files.finish d p x.call x.sets (-EFAULT) true
    | some event =>
      match (x.sets event).set with
      | none => files.finish d p x.call x.sets (-EFAULT) true
      | some set =>
        match files.firstReady d p x.call.n.toNat event (x.sets event).wait with
        | none => files.finish d p x.call x.sets 0 true
        | some fd =>
          files.finish d p x.call
            (Function.update x.sets event { x.sets event with set := some (insert fd set) }) 1 true

end SelectFiles

section Embedding

variable {D D' C C' P P' R R' : Type}

namespace Sched.Event

def rename (queue node : ℕ → ℕ) : Sched.Event → Sched.Event
  | .sleepOnQueue q => .sleepOnQueue (queue q)
  | .select qs timeout => .select (qs.map queue) timeout
  | .wakeup q => .wakeup (queue q)
  | .wakeupSingle q => .wakeupSingle (queue q)
  | .wakeupSelect q n event => .wakeupSelect (queue q) (node n) event
  | e => e

end Sched.Event

namespace Next

def map (queue : ℕ → ℕ) (c : C → C') (p : P → P') (r : R → R') : Next C P R → Next C' P' R'
  | .sleep q progress => .sleep (queue q) (p progress)
  | .select qs timeout progress => .select (qs.map queue) timeout (p progress)
  | .goOn progress => .goOn (p progress)
  | .finish result => .finish (r result)
  | .interrupted call result => .interrupted (c call) (r result)

@[simp] theorem map_result (queue : ℕ → ℕ) (c : C → C') (p : P → P') (r : R → R') (x : Next C P R) :
    (x.map queue c p r).result = x.result.map r := by
  cases x <;> rfl

@[simp] theorem map_progress (queue : ℕ → ℕ) (c : C → C') (p : P → P') (r : R → R')
    (x : Next C P R) :
    (x.map queue c p r).progress = x.progress.map p := by
  cases x <;> rfl

@[simp] theorem map_joins (queue : ℕ → ℕ) (c : C → C') (p : P → P') (r : R → R') (x : Next C P R) :
    (x.map queue c p r).joins = x.joins.map queue := by
  cases x <;> rfl

end Next

namespace Stretch

def embed (device : D → D') (queue node : ℕ → ℕ) (c : C → C') (p : P → P') (r : R → R')
    (x : Stretch D C P R) :
    Stretch D' C' P' R' where
  device := device x.device
  wakes := x.wakes.map (Sched.Event.rename queue node)
  next := x.next.map queue c p r
  clears := x.clears

end Stretch

/-- The calls of a driver, and `sys_select`. -/
def Driver.withSelect {N : Type} (d : Driver D C P R) (files : SelectFiles D N) :
    Driver D (C ⊕ SelectCall) (P ⊕ SelectProgress) (R ⊕ SelectReturn) where
  start device p
    | .inl call => (d.start device p call).embed id id id .inl .inl .inl
    | .inr call => (files.start device p call).embed id id id .inr .inr .inr
  resume device p task
    | .inl x => (d.resume device p task x).embed id id id .inl .inl .inl
    | .inr x => (files.resume device p task x).embed id id id .inr .inr .inr

/-- The kernel with a device and `sys_select`. -/
abbrev SelectSystem (D C P R : Type) :=
  CallSystem D (C ⊕ SelectCall) (P ⊕ SelectProgress) (R ⊕ SelectReturn)

end Embedding

namespace SelectFiles

variable {ready : ℕ → SelectEvent → Option Bool} {x x' : SelectEvent → SelectSet} {has has' : ℕ}
  {tested : List (ℕ × SelectEvent)}

def isSet (x : SelectEvent → SelectSet) (t : ℕ × SelectEvent) : Bool :=
  (x t.2).set.any fun set => t.1 ∈ set

/-- One test: its bit is left if the descriptor is ready, and counted then. -/
theorem selectForEvent_spec {fd r : ℕ} {ready : Option Bool} {y z : SelectSet}
    (h : selectForEvent fd ready y = (z,some r)) :
    z.set = y.set.map (fun set => set.filter fun fd' => fd' = fd → ready = some true) ∧
      r = if (z.set.any fun set => fd ∈ set) = true then 1 else 0 := by
  obtain ⟨set,wait⟩ := y
  cases set with
  | none =>
    obtain ⟨rfl,hr⟩ := Prod.mk.inj h
    exact ⟨rfl,(Option.some.inj hr).symm⟩
  | some set =>
    rw [selectForEvent] at h
    dsimp only at h
    split at h
    · rename_i hfd
      rcases ready with _ | _ | _
      · cases (Prod.mk.inj h).2
      · obtain ⟨rfl,hr⟩ := Prod.mk.inj h
        obtain rfl := Option.some.inj hr
        refine ⟨congrArg some (Finset.ext fun fd' => ?_),?_⟩
        · simp only [Finset.mem_erase,Finset.mem_filter]
          exact ⟨fun hm => ⟨hm.2,fun heq => absurd heq hm.1⟩,fun hm =>
            ⟨fun heq => (by cases hm.2 heq),hm.1⟩⟩
        · simp
      · obtain ⟨rfl,hr⟩ := Prod.mk.inj h
        obtain rfl := Option.some.inj hr
        refine ⟨congrArg some ?_,?_⟩
        · rw [Finset.insert_erase hfd]
          simp
        · simp
    · rename_i hfd
      obtain ⟨rfl,hr⟩ := Prod.mk.inj h
      obtain rfl := Option.some.inj hr
      refine ⟨congrArg some (Finset.ext fun fd' => ?_),?_⟩
      · simp only [Finset.mem_filter]
        exact ⟨fun hm => ⟨hm,fun heq => absurd (heq ▸ hm) hfd⟩,And.left⟩
      · simp [hfd]

/-- The loop leaves the bits of those descriptors that are ready, and counts them. -/
theorem testLoop_spec (tested : List (ℕ × SelectEvent)) : ∀ {x : SelectEvent → SelectSet}
    {has : ℕ}, tested.Nodup → testLoop ready tested x has = (x',some has') →
    (∀ event, (x' event).set =
      (x event).set.map fun set => set.filter fun fd => (fd,event) ∈ tested →
      ready fd event = some true) ∧ has' = has+tested.countP (isSet x') := by
  induction tested with
  | nil =>
    intro x has _ h
    obtain ⟨rfl,hhas⟩ := Prod.mk.inj h
    obtain rfl := Option.some.inj hhas
    refine ⟨fun event => ?_,rfl⟩
    simp
  | cons t rest ih =>
    obtain ⟨fd,event⟩ := t
    intro x has hnodup h
    obtain ⟨hnot,hnodup⟩ := List.nodup_cons.mp hnodup
    rw [testLoop] at h
    split at h
    · cases (Prod.mk.inj h).2
    · rename_i y r hy
      obtain ⟨hset,hr⟩ := selectForEvent_spec hy
      obtain ⟨hsets,hhas⟩ := ih hnodup h
      have hsets' : ∀ event', (x' event').set =
          (x event').set.map fun set => set.filter fun fd' => (fd',event') ∈ (fd,event) :: rest →
          ready fd' event' = some true := by
        intro event'
        rw [hsets event']
        by_cases hevent : event' = event
        · subst hevent
          rw [Function.update_self,hset,Option.map_map]
          refine congrArg (Option.map · (x event').set) (funext fun set => Finset.ext fun fd' => ?_)
          simp only [Function.comp_apply,Finset.mem_filter,List.mem_cons,Prod.mk.injEq,and_true]
          constructor
          · rintro ⟨⟨hm,hhead⟩,hrest⟩
            exact ⟨hm,fun hor => hor.elim (fun heq => heq ▸ hhead heq) hrest⟩
          · rintro ⟨hm,hall⟩
            exact ⟨⟨hm,fun heq => heq ▸ hall (Or.inl heq)⟩,fun hrest => hall (Or.inr hrest)⟩
        · rw [Function.update_of_ne hevent]
          refine congrArg (Option.map · (x event').set) (funext fun set =>
            Finset.filter_congr fun fd' _ => ?_)
          simp only [List.mem_cons,Prod.mk.injEq,hevent,and_false,false_or]
      refine ⟨hsets',?_⟩
      -- the bit of this test is not touched again
      have hkeep : isSet x' (fd,event) = (y.set.any fun set => fd ∈ set) := by
        rw [isSet,hsets event,Function.update_self]
        cases y.set with
        | none => rfl
        | some set => simp [hnot]
      rw [hhas,hr,List.countP_cons,hkeep]
      omega

theorem countP_eq_sum {β : Type} (P : β → Bool) (m : List β) :
    m.countP P = (m.map fun b => if P b then 1 else 0).sum := by
  induction m with
  | nil => rfl
  | cons b m ih => rw [List.countP_cons,List.map_cons,List.sum_cons,ih,add_comm]

theorem countP_product {α β : Type} (P : α × β → Bool) (l : List α) (m : List β) :
    (l.product m).countP P = (m.map fun b => l.countP fun a => P (a,b)).sum := by
  induction l with
  | nil => simp
  | cons a l ih =>
    have hproduct : (a :: l).product m = m.map (Prod.mk a)++l.product m := rfl
    rw [hproduct,List.countP_append,List.countP_map,countP_eq_sum,ih,← List.sum_map_add]
    simp only [List.countP_cons,Function.comp_apply,add_comm]

theorem countP_range {n : ℕ} {set : FdSet} (h : ∀ fd ∈ set, fd < n) :
    ((List.range n).countP fun fd => fd ∈ set) = set.card := by
  have hset : ((List.range n).filter fun fd => fd ∈ set).toFinset = set := by
    ext fd
    simp only [List.mem_toFinset,List.mem_filter,List.mem_range,decide_eq_true_eq]
    exact ⟨And.right,fun hm => ⟨h fd hm,hm⟩⟩
  conv_rhs => rw [← hset]
  rw [List.toFinset_card_of_nodup (List.nodup_range.filter _),List.countP_eq_length_filter]

def countBits (sets : SelectEvent → Option FdSet) : ℕ :=
  (SelectEvent.all.map fun event => (sets event).elim 0 Finset.card).sum

theorem countP_tests {n : ℕ} (h : ∀ event, ∀ set ∈ (x event).set, ∀ fd ∈ set, fd < n) :
    (tests n).countP (isSet x) = countBits fun event => (x event).set := by
  rw [tests,countP_product,countBits]
  congr 1
  refine List.map_congr_left fun event _ => ?_
  have hevent := h event
  simp only [isSet]
  cases hset : (x event).set with
  | none => simp
  | some set => exact countP_range (hevent set hset)

theorem tests_nodup (n : ℕ) : (tests n).Nodup := List.nodup_range.product (by decide)

theorem mem_tests {n fd : ℕ} {event : SelectEvent} : (fd,event) ∈ tests n ↔ fd < n := by
  rw [tests,List.pair_mem_product,List.mem_range]
  exact and_iff_left (SelectEvent.mem_all event)

theorem selectForEvent_wait {fd fd' : ℕ} {ready : Option Bool} {y z : SelectSet} {r : Option ℕ}
    (h : selectForEvent fd ready y = (z,r)) (hfd : fd' ∈ z.wait) :
    fd' ∈ y.wait ∨ fd' = fd ∧ ready = some false := by
  rw [selectForEvent] at h
  split at h
  · obtain ⟨rfl,-⟩ := Prod.mk.inj h
    exact Or.inl hfd
  · split at h
    · split at h
      · obtain ⟨rfl,-⟩ := Prod.mk.inj h
        exact Or.inl hfd
      · obtain ⟨rfl,-⟩ := Prod.mk.inj h
        exact (Finset.mem_insert.mp hfd).symm.imp_right fun heq => ⟨heq,rfl⟩
      · obtain ⟨rfl,-⟩ := Prod.mk.inj h
        exact Or.inl hfd
    · obtain ⟨rfl,-⟩ := Prod.mk.inj h
      exact Or.inl hfd

theorem testLoop_wait (tested : List (ℕ × SelectEvent)) : ∀ {x : SelectEvent → SelectSet}
    {has : ℕ} {r : Option ℕ},
    testLoop ready tested x has = (x',r) → ∀ event, ∀ fd ∈ (x' event).wait,
      fd ∈ (x event).wait ∨ ready fd event = some false := by
  induction tested with
  | nil =>
    intro x has r h event fd hfd
    obtain ⟨rfl,-⟩ := Prod.mk.inj h
    exact Or.inl hfd
  | cons t rest ih =>
    obtain ⟨fd,event⟩ := t
    intro x has r h event' fd' hfd
    rw [testLoop] at h
    have hstep : ∀ {y : SelectSet} {r : Option ℕ},
      selectForEvent fd (ready fd event) (x event) = (y,r) →
        fd' ∈ (Function.update x event y event').wait → fd' ∈ (x event').wait ∨
        ready fd' event' = some false := by
      intro y r hy hm
      by_cases hevent : event' = event
      · subst hevent
        rw [Function.update_self] at hm
        rcases selectForEvent_wait hy hm with hm | ⟨rfl,hready⟩
        · exact Or.inl hm
        · exact Or.inr hready
      · rw [Function.update_of_ne hevent] at hm
        exact Or.inl hm
    split at h
    · rename_i y hy
      obtain ⟨rfl,-⟩ := Prod.mk.inj h
      exact hstep hy hfd
    · rename_i y r' hy
      exact (ih h event' fd' hfd).elim (hstep hy) Or.inr

section Calls

variable {D N : Type} {files : SelectFiles D N} {d : D} {p : ℕ} {task : Task} {c : SelectCall}
    {y : SelectProgress}

theorem mem_waitQueues {n q : ℕ} {sets : SelectEvent → SelectSet}
    (h : q ∈ files.waitQueues d p n sets) :
    ∃ fd event node, files.node d p fd = some node ∧ fd ∈ (sets event).wait ∧
        q = files.queue node event := by
  obtain ⟨⟨fd,event⟩,-,h⟩ := List.mem_filterMap.mp h
  obtain ⟨node,hnode,h⟩ := Option.bind_eq_some_iff.mp h
  split at h
  · rename_i hwait
    exact ⟨fd,event,node,hnode,hwait,(Option.some.inj h).symm⟩
  · cases h

/-- The process goes to sleep only on queues of events that do not hold. -/
theorem start_joins {q : ℕ} (h : q ∈ (files.start d p c).next.joins) :
    ∃ node event, q = files.queue node event ∧ files.check d node event = false := by
  rw [start] at h
  split at h
  · cases h
  · split at h
    · cases h
    · rename_i sets hasResult hloop
      have hwait : q ∈ files.waitQueues d p c.n.toNat sets →
          ∃ node event, q = files.queue node event ∧ files.check d node event = false := by
        intro hq
        obtain ⟨fd,event,node,hnode,hfd,rfl⟩ := mem_waitQueues hq
        rcases testLoop_wait _ hloop event fd hfd with hm | hm
        · cases hm
        · rw [checkFd,hnode] at hm
          exact ⟨node,event,rfl,Option.some.inj hm⟩
      split at h
      · cases h
      · split at h
        · exact hwait h
        · split at h
          · exact hwait h
          · cases h

theorem start_device : (files.start d p c).device = d ∧ (files.start d p c).wakes = [] := by
  rw [start]
  split
  · exact ⟨rfl,rfl⟩
  · split
    · exact ⟨rfl,rfl⟩
    · split
      · exact ⟨rfl,rfl⟩
      · split
        · exact ⟨rfl,rfl⟩
        · split <;> exact ⟨rfl,rfl⟩

theorem resume_device : (files.resume d p task y).device = d ∧
    (files.resume d p task y).wakes = [] ∧ (files.resume d p task y).next.joins = [] := by
  rw [resume]
  split
  · exact ⟨rfl,rfl,rfl⟩
  · split
    · exact ⟨rfl,rfl,rfl⟩
    · split
      · exact ⟨rfl,rfl,rfl⟩
      · split
        · exact ⟨rfl,rfl,rfl⟩
        · split <;> exact ⟨rfl,rfl,rfl⟩

end Calls

end SelectFiles
end ScalesOS
