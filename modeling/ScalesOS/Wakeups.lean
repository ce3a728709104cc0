import ScalesOS.SleepOrder
import ScalesOS.Scheduler

/-!
# What waking a process changes

All the ways to wake a process go through `k_proc_process_mark_ready`. They change the
process itself, take its block node off the queues it is on, and put it at the end of the
run queue; everything else stays.
-/

namespace ScalesOS

def Task.rest (t : Task) : Task :=
  { t with
    state := .running, interrupted := false, owners := [], waitNode := none, timeoutNode := none,
    selectWaitNode := none, selectWaitEvent := 0 }

/-- The process waits for the deadline of the node. -/
def Task.holds (t : Task) (n : ℕ) : Bool := t.waitNode = some n || t.timeoutNode = some n

namespace SleepQueue

variable {q q' : SleepQueue}

def SameProcesses (q q' : SleepQueue) : Prop := ∀ n, (q'.nodes n).process = (q.nodes n).process

theorem SameProcesses.trans {q'' : SleepQueue} (h : SameProcesses q q')
    (h' : SameProcesses q' q'') :
    SameProcesses q q'' := fun n => (h' n).trans (h n)

theorem setNext_same (q : SleepQueue) (n : ℕ) (next : Option ℕ) :
    SameProcesses q (q.setNext n next) := by
  intro m
  by_cases hm : m = n
  · subst hm
    simp [setNext]
  · simp [setNext,hm]

theorem remove_same {target : Option ℕ} (h : q.remove target = .ok q') : SameProcesses q q' := by
  cases target with
  | none =>
    obtain rfl := Except.ok.inj h
    exact fun _ => rfl
  | some target =>
    rw [remove,removeFromSleepQueue] at h
    cases hhead : q.head with
    | none =>
      rw [hhead] at h
      obtain rfl := Except.ok.inj h
      exact fun _ => rfl
    | some first =>
      simp only [hhead] at h
      obtain ⟨found,-,h⟩ := Result.bind_eq_ok.mp h
      cases found with
      | none =>
        obtain rfl := Except.ok.inj h
        exact fun _ => rfl
      | some prev =>
        simp only at h
        split at h
        · obtain rfl := Except.ok.inj h
          exact fun _ => rfl
        · obtain rfl := Except.ok.inj h
          exact setNext_same _ _ _

end SleepQueue

namespace Sched

variable {s t u : Sched} {p : ℕ} {q : Queue}

/-- Only a process, its block node and the links between timed sleepers change, and the
run queue. -/
structure Touches (s t : Sched) (p : ℕ) : Prop where
  tasks : ∀ x ≠ p, t.tasks x = s.tasks x
  rest : (t.tasks p).rest = (s.tasks p).rest
  count : ∀ q x, x ≠ p → (t.queues q).count x = (s.queues q).count x
  current_eq : t.current = s.current
  list_eq : t.processList = s.processList
  nextPid_eq : t.nextPid = s.nextPid
  destroyed_eq : t.destroyed = s.destroyed
  sleepers : SleepQueue.SameProcesses s.sleep t.sleep
  stale : t.staleUse = true → s.staleUse = true ∨ (s.tasks p).blockFreed = true

theorem Touches.refl (s : Sched) (p : ℕ) : Touches s s p :=
  ⟨fun _ _ => rfl,rfl,fun _ _ _ => rfl,rfl,rfl,rfl,rfl,fun _ => rfl,Or.inl⟩

theorem rest_freed {a b : Task} (h : a.rest = b.rest) : a.blockFreed = b.blockFreed :=
  (congrArg Task.blockFreed h : a.rest.blockFreed = b.rest.blockFreed)

theorem Touches.trans (h : Touches s t p) (h' : Touches t u p) : Touches s u p where
  tasks := fun x hx => (h'.tasks x hx).trans (h.tasks x hx)
  rest := h'.rest.trans h.rest
  count := fun q x hx => (h'.count q x hx).trans (h.count q x hx)
  current_eq := h'.current_eq.trans h.current_eq
  list_eq := h'.list_eq.trans h.list_eq
  nextPid_eq := h'.nextPid_eq.trans h.nextPid_eq
  destroyed_eq := h'.destroyed_eq.trans h.destroyed_eq
  sleepers := h.sleepers.trans h'.sleepers
  stale := by
    intro hu
    rcases h'.stale hu with ht | hp
    · exact h.stale ht
    · rw [rest_freed h.rest] at hp
      exact Or.inr hp

@[simp] theorem modify_self (s : Sched) (p : ℕ) (f : Task → Task) :
    (s.modify p f).tasks p = f (s.tasks p) := by
  simp [modify]

theorem modify_other (s : Sched) (f : Task → Task) {x : ℕ} (h : x ≠ p) :
    (s.modify p f).tasks x = s.tasks x := by
  simp [modify,h]

@[simp] theorem touch_tasks (s : Sched) (p : ℕ) : (s.touch p).tasks = s.tasks := rfl

@[simp] theorem touch_queues (s : Sched) (p : ℕ) : (s.touch p).queues = s.queues := rfl

theorem modify_touches (s : Sched) (p : ℕ) (f : Task → Task) (hf : ∀ t, (f t).rest = t.rest) :
    Touches s (s.modify p f) p where
  tasks := fun _ hx => modify_other s f hx
  rest := by rw [modify_self,hf]
  count := fun _ _ _ => rfl
  current_eq := rfl
  list_eq := rfl
  nextPid_eq := rfl
  destroyed_eq := rfl
  sleepers := fun _ => rfl
  stale := Or.inl

theorem touch_touches (s : Sched) (p : ℕ) : Touches s (s.touch p) p where
  tasks := fun _ _ => rfl
  rest := rfl
  count := fun _ _ _ => rfl
  current_eq := rfl
  list_eq := rfl
  nextPid_eq := rfl
  destroyed_eq := rfl
  sleepers := fun _ => rfl
  stale := fun h => by simpa [touch] using h

theorem setQueues_touches (s : Sched) {queues : Queue → List ℕ}
    (h : ∀ q x, x ≠ p → (queues q).count x = (s.queues q).count x) :
    Touches s (s.setQueues queues) p where
  tasks := fun _ _ => rfl
  rest := rfl
  count := h
  current_eq := rfl
  list_eq := rfl
  nextPid_eq := rfl
  destroyed_eq := rfl
  sleepers := fun _ => rfl
  stale := Or.inl

theorem setSleep_touches (s : Sched) {sleep : SleepQueue}
    (h : SleepQueue.SameProcesses s.sleep sleep) :
    Touches s (s.setSleep sleep) p where
  tasks := fun _ _ => rfl
  rest := rfl
  count := fun _ _ _ => rfl
  current_eq := rfl
  list_eq := rfl
  nextPid_eq := rfl
  destroyed_eq := rfl
  sleepers := h
  stale := Or.inl

theorem count_dropBlock (p : ℕ) (owners : List Queue) :
    ∀ queues q x, (dropBlock p owners queues q).count x =
    (queues q).count x-if x = p then owners.count q else 0 := by
  induction owners with
  | nil => simp [dropBlock]
  | cons o rest ih =>
    intro queues q x
    rw [dropBlock,ih]
    by_cases hx : x = p
    · subst hx
      by_cases hq : q = o
      · subst hq
        simp only [Function.update_self,List.count_erase_self,if_true,List.count_cons_self]
        omega
      · simp [hq,Ne.symm hq]
    · by_cases hq : q = o
      · subst hq
        simp [hx]
      · simp [hx,hq]

theorem releaseBlock_touches (s : Sched) (p : ℕ) : Touches s (s.kProcProcessReleaseBlock p) p := by
  refine (touch_touches s p).trans ((modify_touches _ p .release fun _ => rfl).trans
    (setQueues_touches _ fun q x hx => ?_))
  rw [count_dropBlock,if_neg hx]
  rfl

@[simp] theorem releaseBlock_task (s : Sched) (p : ℕ) :
    (s.kProcProcessReleaseBlock p).tasks p = (s.tasks p).release :=
  modify_self (s.touch p) p .release

def BlockOk (s : Sched) (p : ℕ) : Prop := ∀ q, (s.queues q).count p = (s.tasks p).owners.count q

theorem releaseBlock_count (h : s.BlockOk p) (q : Queue) :
    ((s.kProcProcessReleaseBlock p).queues q).count p = 0 := by
  change (dropBlock p (s.tasks p).owners.reverse s.queues q).count p = 0
  rw [count_dropBlock,if_pos rfl,List.count_reverse,h q,Nat.sub_self]

theorem releaseBlock_blockOk (h : s.BlockOk p) : (s.kProcProcessReleaseBlock p).BlockOk p := by
  intro q
  rw [releaseBlock_count h,releaseBlock_task,Task.release,List.count_nil]

theorem BlockOk.modify (h : s.BlockOk p) (f : Task → Task)
    (hf : (f (s.tasks p)).owners = (s.tasks p).owners) :
    (s.modify p f).BlockOk p := by
  intro q
  rw [modify_self,hf]
  exact h q

theorem BlockOk.setSleep (h : s.BlockOk p) (sleep : SleepQueue) : (s.setSleep sleep).BlockOk p := h

theorem invalidateLocks_spec (hb : s.BlockOk p) (h : s.kProcProcessInvalidateLocks p = .ok t) :
    Touches s t p ∧ t.tasks p = (s.tasks p).release.unlock ∧
      (∀ q, (t.queues q).count p = 0) ∧ t.readyQueue = s.readyQueue := by
  rw [kProcProcessInvalidateLocks] at h
  obtain ⟨sleep1,h1,h⟩ := Result.bind_eq_ok.mp h
  obtain ⟨sleep2,h2,h⟩ := Result.bind_eq_ok.mp h
  obtain rfl := Except.ok.inj h
  have hsame := (SleepQueue.remove_same h1).trans (SleepQueue.remove_same h2)
  refine ⟨(releaseBlock_touches s p).trans ((modify_touches _ p .unlock fun _ => rfl).trans
    (setSleep_touches _ hsame)),?_,releaseBlock_count hb,rfl⟩
  refine (modify_self (s.kProcProcessReleaseBlock p) p .unlock).trans ?_
  rw [releaseBlock_task]

/-- A process has been put at the end of the run queue, and waits for nothing. -/
structure Woken (s t : Sched) (p : ℕ) : Prop extends Touches s t p where
  state_eq : (t.tasks p).state = .running
  owners_eq : (t.tasks p).owners = []
  waitNode_eq : (t.tasks p).waitNode = none
  timeoutNode_eq : (t.tasks p).timeoutNode = none
  off_queues : ∀ q, (t.queues q).count p = 0
  ready_eq : t.readyQueue = s.readyQueue++[p]

structure SameTimers (s t : Sched) : Prop where
  sleep_eq : t.sleep = s.sleep
  wait_eq : ∀ x, (t.tasks x).waitNode = (s.tasks x).waitNode
  timeout_eq : ∀ x, (t.tasks x).timeoutNode = (s.tasks x).timeoutNode

theorem SameTimers.trans (h : SameTimers s t) (h' : SameTimers t u) : SameTimers s u where
  sleep_eq := h'.sleep_eq.trans h.sleep_eq
  wait_eq := fun x => (h'.wait_eq x).trans (h.wait_eq x)
  timeout_eq := fun x => (h'.timeout_eq x).trans (h.timeout_eq x)

theorem modify_timers (s : Sched) (p : ℕ) (f : Task → Task) (hw : ∀ t, (f t).waitNode = t.waitNode)
    (ht : ∀ t, (f t).timeoutNode = t.timeoutNode) : SameTimers s (s.modify p f) := by
  refine ⟨rfl,fun x => ?_,fun x => ?_⟩
  · by_cases hx : x = p
    · rw [hx,modify_self,hw]
    · rw [modify_other s f hx]
  · by_cases hx : x = p
    · rw [hx,modify_self,ht]
    · rw [modify_other s f hx]

theorem releaseBlock_timers (s : Sched) (p : ℕ) : SameTimers s (s.kProcProcessReleaseBlock p) := by
  have h := modify_timers (s.touch p) p .release (fun _ => rfl) fun _ => rfl
  exact ⟨rfl,h.wait_eq,h.timeout_eq⟩

theorem popBlock_timers (s : Sched) (q : Queue) (p : ℕ) : SameTimers s (s.popBlock q p) := by
  have h := modify_timers (s.touch p) p (.disown q) (fun _ => rfl) fun _ => rfl
  exact ⟨rfl,h.wait_eq,h.timeout_eq⟩

def Forgets (s t : Sched) (p : ℕ) : Prop := ∀ l, s.sleep.Queued l →
  t.sleep.Queued (l.filter fun n => !(s.tasks p).holds n) ∧ ∀ n,
  SleepQueue.SameNodes s.sleep t.sleep n

theorem SameTimers.holds (h : SameTimers s t) (x n : ℕ) :
    (t.tasks x).holds n = (s.tasks x).holds n := by
  rw [Task.holds,Task.holds,h.wait_eq,h.timeout_eq]

theorem SameTimers.forgets (h : SameTimers s t) (h' : Forgets t u p) : Forgets s u p := by
  intro l hl
  rw [← h.sleep_eq] at hl ⊢
  simp only [← h.holds p]
  exact h' l hl

theorem forgets_of_removes {first second : Option ℕ} {sleep₁ sleep₂ : SleepQueue}
    (h₁ : s.sleep.remove first = .ok sleep₁) (h₂ : sleep₁.remove second = .ok sleep₂)
    (ht : t.sleep = sleep₂)
    (hboth : ∀ n, (s.tasks p).holds n = (decide (first = some n) || decide (second = some n))) :
    Forgets s t p := by
  intro l hl
  obtain ⟨q₁,hq₁,hqueued₁,hsame₁,-⟩ := SleepQueue.remove_spec hl first
  obtain rfl := Except.ok.inj (h₁.symm.trans hq₁)
  obtain ⟨q₂,hq₂,hqueued₂,hsame₂,-⟩ := SleepQueue.remove_spec hqueued₁ second
  obtain rfl := Except.ok.inj (h₂.symm.trans hq₂)
  rw [ht]
  refine ⟨?_,fun n => (hsame₁ n).trans (hsame₂ n)⟩
  rw [List.filter_filter] at hqueued₂
  have hfilter : (fun n => !(s.tasks p).holds n) = fun n => decide (second ≠ some n) &&
      decide (first ≠ some n) := by
    funext n
    rw [hboth,Bool.not_or,Bool.and_comm]
    simp
  rw [hfilter]
  exact hqueued₂

theorem invalidateLocks_forgets (h : s.kProcProcessInvalidateLocks p = .ok t) : Forgets s t p := by
  rw [kProcProcessInvalidateLocks] at h
  obtain ⟨sleep₁,h₁,h⟩ := Result.bind_eq_ok.mp h
  obtain ⟨sleep₂,h₂,h⟩ := Result.bind_eq_ok.mp h
  obtain rfl := Except.ok.inj h
  refine (releaseBlock_timers s p).forgets (forgets_of_removes h₁ h₂ rfl fun n => ?_)
  rfl

theorem dropTimeout_forgets (h : s.dropTimeout p = .ok t) (h' : Forgets t u p) : Forgets s u p := by
  rw [dropTimeout] at h
  obtain ⟨sleep,hsleep,h⟩ := Result.bind_eq_ok.mp h
  obtain rfl := Except.ok.inj h
  intro l hl
  obtain ⟨q,hq,hqueued,hsame,-⟩ := SleepQueue.remove_spec hl (s.tasks p).timeoutNode
  obtain rfl := Except.ok.inj (hsleep.symm.trans hq)
  obtain ⟨hqueued',hsame'⟩ := h' _ hqueued
  refine ⟨?_,fun n => (hsame n).trans (hsame' n)⟩
  have hholds :
    ∀ n, (((s.modify p fun t => { t with timeoutNode := none }).setSleep sleep).tasks p).holds n =
      decide ((s.tasks p).waitNode = some n) := by
    intro n
    change (((s.modify p fun t => { t with timeoutNode := none }).tasks p).holds n) = _
    rw [modify_self]
    simp [Task.holds]
  have hfilter : (fun n => !(s.tasks p).holds n) = fun n =>
    !decide ((s.tasks p).waitNode = some n) &&
      decide ((s.tasks p).timeoutNode ≠ some n) := by
    funext n
    rw [Task.holds,Bool.not_or,decide_not]
  simp only [hholds] at hqueued'
  rw [List.filter_filter] at hqueued'
  rw [hfilter]
  exact hqueued'

theorem setReady_touches (s : Sched) (l : List ℕ) : Touches s (s.setReady l) p :=
  ⟨fun _ _ => rfl,rfl,fun _ _ _ => rfl,rfl,rfl,rfl,rfl,fun _ => rfl,Or.inl⟩

structure Roused (s t : Sched) (p : ℕ) : Prop extends Woken s t p where
  forgets : Forgets s t p

theorem markReady_forgets (h : s.kProcProcessMarkReady p = .ok t) : Forgets s t p := by
  rw [kProcProcessMarkReady] at h
  obtain ⟨u,hu,h⟩ := Result.bind_eq_ok.mp h
  obtain rfl := Except.ok.inj h
  exact fun l hl => (modify_timers s p (.ready _) (fun _ => rfl) fun _ =>
    rfl).forgets (invalidateLocks_forgets hu) l hl

theorem markReady_woken (hb : s.BlockOk p) (h : s.kProcProcessMarkReady p = .ok t) : Woken s t p ∧
    (t.tasks p).interrupted = ((s.tasks p).interrupted || s.kProcProcessHasLocks p) ∧
    (t.tasks p).selectWaitNode = (s.tasks p).selectWaitNode := by
  rw [kProcProcessMarkReady] at h
  obtain ⟨u,hu,h⟩ := Result.bind_eq_ok.mp h
  obtain rfl := Except.ok.inj h
  obtain ⟨htouch,htask,hoff,hready⟩ := invalidateLocks_spec (hb.modify _ rfl) hu
  rw [modify_self] at htask
  refine ⟨⟨((modify_touches s p (.ready _) fun _ => rfl).trans htouch).trans (setReady_touches _ _),
    ?_,?_,?_,?_,hoff,?_⟩,?_,?_⟩
  · exact congrArg Task.state htask
  · exact congrArg Task.owners htask
  · exact congrArg Task.waitNode htask
  · exact congrArg Task.timeoutNode htask
  · exact congrArg (· ++ [p]) hready
  · exact congrArg Task.interrupted htask
  · exact (congrArg Task.selectWaitNode htask).trans rfl

theorem Touches.woken (h : Touches s t p) (hready : t.readyQueue = s.readyQueue)
    (h' : Woken t u p) : Woken s u p :=
  { h.trans h'.toTouches with
    state_eq := h'.state_eq
    owners_eq := h'.owners_eq
    waitNode_eq := h'.waitNode_eq
    timeoutNode_eq := h'.timeoutNode_eq
    off_queues := h'.off_queues
    ready_eq := by rw [h'.ready_eq,hready] }

theorem markReady_roused (hb : s.BlockOk p)
    (h : s.kProcProcessMarkReady p = .ok t) : Roused s t p :=
  ⟨(markReady_woken hb h).1,markReady_forgets h⟩

theorem Touches.roused (h : Touches s t p) (hready : t.readyQueue = s.readyQueue)
    (htimers : SameTimers s t) (h' : Roused t u p) : Roused s u p :=
  ⟨h.woken hready h'.toWoken,htimers.forgets h'.forgets⟩

theorem Touches.blockOk (h : Touches s t p) (hb : ∀ x, s.BlockOk x) (hp : t.BlockOk p) :
    ∀ x, t.BlockOk x := by
  intro x q
  by_cases hx : x = p
  · subst hx
    exact hp q
  · rw [h.count q x hx,h.tasks x hx]
    exact hb x q

theorem Woken.blockOk (h : Woken s t p) (hb : ∀ x, s.BlockOk x) : ∀ x, t.BlockOk x :=
  h.toTouches.blockOk hb fun q => by rw [h.off_queues,h.owners_eq,List.count_nil]

theorem popBlock_touches (hq : (s.queues q).getLast? = some p) : Touches s (s.popBlock q p) p := by
  obtain ⟨l,hl⟩ := List.getLast?_eq_some_iff.mp hq
  refine (touch_touches s p).trans ((modify_touches _ p (.disown q) fun _ => rfl).trans
    (setQueues_touches _ fun q' x hx => ?_))
  by_cases hqq : q' = q
  · subst hqq
    change (Function.update s.queues q' (s.queues q').dropLast q').count x = (s.queues q').count x
    rw [Function.update_self,hl,List.dropLast_concat,List.count_append,List.count_singleton,
      if_neg (by simpa using Ne.symm hx),Nat.add_zero]
  · change (Function.update s.queues q (s.queues q).dropLast q').count x = (s.queues q').count x
    rw [Function.update_of_ne hqq]

theorem popBlock_blockOk (hb : s.BlockOk p) (hq : (s.queues q).getLast? = some p) :
    (s.popBlock q p).BlockOk p := by
  obtain ⟨l,hl⟩ := List.getLast?_eq_some_iff.mp hq
  intro q'
  have htask : (s.popBlock q p).tasks p = (s.tasks p).disown q :=
    modify_self (s.touch p) p (.disown q)
  rw [htask]
  change (Function.update s.queues q (s.queues q).dropLast q').count p =
    ((s.tasks p).owners.erase q).count q'
  by_cases hqq : q' = q
  · subst hqq
    rw [Function.update_self,List.count_erase_self,← hb q',hl,List.dropLast_concat,
      List.count_append,List.count_singleton_self]
    omega
  · rw [Function.update_of_ne hqq,List.count_erase_of_ne hqq]
    exact hb q'

end Sched
end ScalesOS
