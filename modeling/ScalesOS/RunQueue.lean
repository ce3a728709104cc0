import ScalesOS.Zombies

/-!
# The run queue

Without timed sleeps a process comes into `ready_queue` only when it is made, gives up the
core or is woken from sleep, and each of these finds it outside.
-/

namespace ScalesOS
namespace Sched

variable {s t u : Sched} {p : ℕ}

/-- Nobody sleeps for a time, and no terminal sends signals to processes that have
finished. -/
def Untimed (s : Sched) : Event → Prop
  | .sleep _ _ => False
  | .select _ timeout => timeout = none
  | .tick _ => False
  | e => s.SparesFinished e

instance (s : Sched) (e : Event) : Decidable (s.Untimed e) := by
  induction e using Event.casesOn <;> dsimp only [Untimed] <;> infer_instance

theorem Untimed.spares {e : Event} (h : s.Untimed e) : s.SparesFinished e := by
  cases e with
  | terminal pid sig => exact h
  | _ => trivial

structure Runnable (s : Sched) : Prop where
  nodup : s.readyQueue.Nodup
  schedulable : ∀ p ∈ s.readyQueue, (s.tasks p).isSchedulable = true

structure Waiting (s : Sched) : Prop extends Runnable s where
  current_not_mem : s.current ∉ s.readyQueue

theorem Runnable.not_mem (h : s.Runnable) (hs : (s.tasks p).isSchedulable = false) :
    p ∉ s.readyQueue := fun hm => by
  rw [h.schedulable p hm] at hs
  cases hs

theorem not_schedulable_of_sleeping {t : Task} (h : t.state = .sleeping) :
    t.isSchedulable = false := by
  rw [Task.isSchedulable,h]
  rfl

theorem Runnable.woken (h : s.Runnable) (hw : Woken s t p) (hp : p ∉ s.readyQueue) :
    t.Runnable where
  nodup := by
    rw [hw.ready_eq,List.nodup_append]
    refine ⟨h.nodup,List.nodup_singleton p,fun a ha b hb heq => hp ?_⟩
    rwa [heq,List.mem_singleton.mp hb] at ha
  schedulable := by
    intro x hx
    by_cases hxp : x = p
    · rw [hxp,Task.isSchedulable,hw.state_eq]
      rfl
    · rw [hw.ready_eq] at hx
      rw [hw.tasks x hxp]
      exact h.schedulable x ((List.mem_append.mp hx).resolve_right fun hm =>
        hxp (List.mem_singleton.mp hm))

theorem Waiting.woken (h : s.Waiting) (hw : Woken s t p) (hp : p ∉ s.readyQueue)
    (hcur : p ≠ s.current) : t.Waiting where
  toRunnable := h.toRunnable.woken hw hp
  current_not_mem := by
    rw [hw.current_eq,hw.ready_eq,List.mem_append]
    exact fun hm => hm.elim h.current_not_mem fun hm => hcur (List.mem_singleton.mp hm).symm

/-- A process that sleeps is neither in the run queue nor the current one. -/
theorem Waiting.wake (h : s.Waiting) (hcur : (s.tasks s.current).state ≠ .sleeping)
    (hw : Wake s t) :
    t.Waiting ∧ (t.tasks t.current).state ≠ .sleeping := by
  obtain ⟨p,hp,hw⟩ := hw
  have hne : p ≠ s.current := fun heq => hcur (heq ▸ hp)
  refine ⟨h.woken hw.toWoken (h.toRunnable.not_mem (not_schedulable_of_sleeping hp)) hne,?_⟩
  rw [hw.current_eq,hw.tasks _ (Ne.symm hne)]
  exact hcur

theorem Waiting.wakes (h : s.Waiting) (hcur : (s.tasks s.current).state ≠ .sleeping)
    (hw : Wakes s t) : t.Waiting := by
  have hrun : t.Waiting ∧ (t.tasks t.current).state ≠ .sleeping :=
    reach_invariant (I:=fun s => s.Waiting ∧ (s.tasks s.current).state ≠ .sleeping)
      (fun _ _ hs hw => hs.1.wake hs.2 hw)
      ⟨h,hcur⟩ hw
  exact hrun.1

theorem Waiting.sameQueues (h : s.Waiting) (hsame : SameQueues s t) : t.Waiting where
  nodup := by
    rw [hsame.ready_eq]
    exact h.nodup
  schedulable := by
    intro x hx
    rw [hsame.ready_eq] at hx
    rw [hsame.schedulable]
    exact h.schedulable x hx
  current_not_mem := by
    rw [hsame.current_eq,hsame.ready_eq]
    exact h.current_not_mem

theorem Waiting.sendSignal (h : s.Waiting) (hs : s.Core) (hp : p ∈ s.processList)
    (hf : (s.tasks p).state ≠ .finished) {sig : ℤ}
    (hret : s.kProcProcessSendSignal p sig = .ok t) : t.Waiting := by
  have hsame := signalled_same (s:=s) sig (hs.pos_lt hp).2
  rcases sendSignal_spec hs hp hf hret with rfl | rfl | ⟨hne,hsleep,hw⟩
  · exact h
  · exact h.sameQueues hsame
  · refine (h.sameQueues hsame).woken hw.toWoken (fun hm => ?_) hne
    exact h.toRunnable.not_mem (not_schedulable_of_sleeping hsleep) hm

theorem Runnable.switch (h : s.Runnable) (hs : s.Core) : s.kProcProcessSwitch.Waiting := by
  have hstate : ∀ x ∈ s.readyQueue, (s.kProcProcessSwitch.tasks x).isSchedulable = true := by
    intro x hx
    have hold := h.schedulable x hx
    refine schedulable_of (fun hc => ?_) fun hc => ?_
    · exact not_finished_of_schedulable hold ((hs.switch_state x).1.mp hc)
    · exact not_sleeping_of_schedulable hold ((hs.switch_state x).2.mp hc)
  rcases nextProcess_spec s.tasks s.readyQueue with ⟨-,hrest⟩ | ⟨-,before,heq⟩
  · refine ⟨⟨?_,fun x hx => ?_⟩,?_⟩
    · rw [switch_ready,hrest]
      exact List.nodup_nil
    · rw [switch_ready,hrest] at hx
      cases hx
    · rw [switch_ready,hrest]
      exact List.not_mem_nil
  · have hnodup := h.nodup
    rw [heq,List.nodup_append,List.nodup_cons] at hnodup
    refine ⟨⟨?_,fun x hx => hstate x (nextProcess_sub _ _ x hx)⟩,?_⟩
    · rw [switch_ready]
      exact hnodup.2.1.2
    · rw [switch_ready,switch_current]
      exact hnodup.2.1.1

theorem Waiting.asleep (h : s.Waiting) (ha : Asleep s u) : u.Runnable where
  nodup := by
    rw [ha.ready_eq]
    exact h.nodup
  schedulable := by
    intro x hx
    rw [ha.ready_eq] at hx
    rw [ha.tasks x fun heq => h.current_not_mem (heq ▸ hx)]
    exact h.schedulable x hx

theorem Waiting.yield (h : s.Waiting) (hs : s.Inv)
    (hret : s.kProcProcessYield = .ok t) : t.Waiting := by
  rcases yield_spec hs hret with ⟨-,rfl⟩ | ⟨u,hidle,hw,rfl⟩
  · exact h.toRunnable.switch hs.core
  · have hf := not_finished_of_schedulable hs.current_runs
    exact (h.toRunnable.woken hw.toWoken h.current_not_mem).switch
      (hs.core.woken hw.toWoken (hs.current_mem.resolve_left hidle) hf)

theorem Waiting.sleepOnQueue (h : s.Waiting) (hs : s.Inv) (hidle : s.current ≠ IDLE) {q : Queue}
    (hq : ∀ r, q = .wait r → r = s.current)
    (hret : s.kProcProcessSleepOnQueue q = .ok t) : t.Waiting := by
  obtain ⟨u,hu,rfl,-⟩ := sleepOnQueue_spec hs hidle hq hret
  exact (h.asleep hu).switch (hu.core hs hidle).1

theorem Waiting.create (h : s.Waiting) (hs : s.Inv) {task : Task} (hnew : Newborn task) {parent : ℕ}
    (hp : parent ∈ s.processList) (hret : s.create task parent = .ok t) : t.Waiting := by
  have hpos := hs.core.pos_lt hp
  have hne : parent ≠ s.nextPid := by omega
  have hlt : ∀ x ∈ s.readyQueue, x ≠ s.nextPid := fun x hx => by
    have := hs.core.ready x hx
    omega
  have hcur : s.nextPid ≠ s.current := by
    rcases hs.current_mem with hidle | hmem
    · omega
    · have := hs.core.pos_lt hmem
      omega
  have henter : (s.enter task parent).Waiting := by
    refine ⟨⟨h.nodup,fun x hx => ?_⟩,h.current_not_mem⟩
    rw [Task.isSchedulable,enter_field s task hne Task.state (fun _ _ => rfl) fun _ _ => rfl,
      if_neg (hlt x hx)]
    exact h.schedulable x hx
  exact henter.woken (create_spec hs.core hnew hp hret).toWoken (fun hm => hlt _ hm rfl) hcur

theorem Waiting.waitpidLoop (h : s.Waiting) (hs : s.Inv) (hidle : s.current ≠ IDLE)
    {pid options : ℤ} {r : Option ℤ}
    (hret : s.waitpidLoop pid options = .ok (r,t)) : t.Waiting := by
  rcases waitpidLoop_spec hret with rfl | ⟨c,-,-,-,rfl⟩ | ⟨-,hsleep⟩
  · exact h.sameQueues (hs.setWaiting hidle none).2
  · have hw := h.sameQueues (hs.setWaiting hidle none).2
    obtain ⟨-,-,-,-,hready,-,-,hcur⟩ := destroy_same (s.setWaiting none) c
    refine ⟨⟨?_,fun x hx => ?_⟩,?_⟩
    · rw [hready]
      exact hw.nodup
    · rw [hready] at hx
      rw [Task.isSchedulable,destroy_field _ c Task.state fun _ _ => rfl]
      exact hw.schedulable x hx
    · rw [hready,hcur]
      exact hw.current_not_mem
  · obtain ⟨hinv,hsame⟩ := hs.setWaiting hidle (some (pid,options))
    exact (h.sameQueues hsame).sleepOnQueue hinv hidle (fun r hr => (Queue.wait.inj hr).symm) hsleep

/-- The process that exits is not in the run queue, and its parent is woken at most once. -/
theorem Waiting.exit (h : s.Waiting) (hs : s.Inv) (hidle : s.current ≠ IDLE)
    (hret : s.kProcProcessExit = .ok t) :
    t.Waiting := by
  obtain ⟨v,w,he,rfl⟩ := exit_spec hs hidle hret
  have hfin : (s.modify s.current (.setState .finished)).Waiting := by
    refine ⟨⟨h.nodup,fun x hx => ?_⟩,h.current_not_mem⟩
    have hne : x ≠ s.current := fun heq => h.current_not_mem (heq ▸ hx)
    rw [modify_other s _ hne]
    exact h.schedulable x hx
  have hended := hfin.sameQueues he.same
  have hcur : (s.ended s.current).current = s.current := he.same.current_eq
  have hawake : ((s.ended s.current).tasks (s.ended s.current).current).state ≠ .sleeping := by
    rw [hcur,he.finished]
    decide
  have hvw : v.Waiting := by
    rcases notifyParent_spec he.core he.tree he.listed he.notified with ⟨-,rfl⟩ | ⟨q,u,hn⟩
    · exact hended
    · exact (hended.wakes hawake hn.woken.wakes).sendSignal hn.core hn.mem hn.alive hn.sent
  have hww : w.Runnable := by
    refine ⟨by rw [he.ready_eq]; exact hvw.nodup,fun x hx => ?_⟩
    rw [he.ready_eq] at hx
    have hxv := hvw.schedulable x hx
    rw [he.other x fun heq => not_finished_of_schedulable hxv (heq ▸ he.notified_finished)]
    exact hxv
  exact hww.switch he.freed_core

theorem Waiting.step (h : s.Waiting) (hs : s.Inv) {e : Event} (hen : s.Enabled e)
    (hok : s.Untimed e) (hret : s.step e = .ok t) : t.Waiting := by
  have hcur := not_sleeping_of_schedulable hs.current_runs
  cases e with
  | fork => exact h.create hs ⟨rfl,rfl,rfl,rfl,rfl⟩ (hs.current_mem.resolve_left hen.1) hret
  | tasklet => exact h.create hs ⟨rfl,rfl,rfl,rfl,rfl⟩ hs.tree.root_mem hret
  | yield => exact h.yield hs hret
  | sleepOnQueue q => exact h.sleepOnQueue hs hen.1 (fun r hr => by cases hr) hret
  | select qs timeout =>
    obtain rfl : timeout = none := hok
    obtain ⟨v,u,hstart,hinv,-,hu,-,-,rfl⟩ := select_spec hs hen.1 hret
    obtain rfl := Except.ok.inj hstart
    exact (h.asleep hu).switch (hu.core hs hen.1).1
  | sleep ticks microseconds => exact hok.elim
  | wakeup q => exact h.wakes hcur (wakeupQueue_spec hs.core hret).wakes
  | wakeupSingle q =>
    rcases wakeupSingle_spec hs.core hret with ⟨-,rfl⟩ | ⟨p,-,hsleep,hw⟩
    · exact h
    · exact (h.wake hcur ⟨p,hsleep,hw⟩).1
  | wakeupSelect q node event => exact h.wakes hcur (wakeupQueueSelect_spec hs.core hret).wakes
  | kill pid sig =>
    rcases kill_spec hret with rfl | ⟨p,hp,hpf,hsend⟩
    · exact h
    · exact h.sendSignal hs.core hp hpf hsend
  | terminal pid sig =>
    rcases terminal_spec hok hret with rfl | ⟨p,hp,hpf,hsend⟩
    · exact h
    · exact h.sendSignal hs.core hp hpf hsend
  | fault sig =>
    exact h.sendSignal hs.core (hs.current_mem.resolve_left hen.1)
      (not_finished_of_schedulable hs.current_runs) hret
  | tick ticks => exact hok.elim
  | exit => exact h.exit hs hen.1 hret
  | waitpid pid options =>
    rcases waitpid_spec hret with rfl | ⟨r,hv⟩
    · exact h
    · exact h.waitpidLoop hs hen.1 hv
  | resume =>
    rcases resume_spec hret with rfl | ⟨pid,options,r,hv⟩
    · exact h
    · exact h.waitpidLoop hs hen hv

/-- Nobody is twice in the run queue, the current process is not in it, who is in it can
run, and the block node of a process that sleeps is exactly on the queues of its owners. -/
theorem run_queue (h : Relation.ReflTransGen (Step Untimed) boot s) :
    s.readyQueue.Nodup ∧ s.current ∉ s.readyQueue ∧
    (∀ p ∈ s.readyQueue, (s.tasks p).state = .starting ∨ (s.tasks p).state = .running) ∧
    ∀ p, (s.tasks p).state = .sleeping → p ∉ s.readyQueue ∧ ∀ q, p ∈ s.queues q ↔
    q ∈ (s.tasks p).owners := by
  obtain ⟨hs,hw⟩ : s.Inv ∧ s.Waiting := by
    refine reach_invariant (I:=fun s => s.Inv ∧ s.Waiting) ?_ ⟨boot_inv,
      ⟨⟨List.nodup_nil,fun _ hp => ?_⟩,?_⟩⟩ h
    · rintro s t ⟨hs,hw⟩ ⟨e,hen,hal,hret⟩
      exact ⟨hs.step hen hal.spares hret,hw.step hs hen hal hret⟩
    · cases hp
    · exact List.not_mem_nil
  refine ⟨hw.nodup,hw.current_not_mem,fun p hp => ?_,fun p hp =>
    ⟨?_,fun q => hs.core.mem_queue_iff⟩⟩
  · have hrun := hw.schedulable p hp
    rw [Task.isSchedulable,Bool.or_eq_true] at hrun
    exact hrun.imp of_decide_eq_true of_decide_eq_true
  · exact hw.toRunnable.not_mem (not_schedulable_of_sleeping hp)

theorem run_queue_select : ∃ s : Sched, s.current = 2 ∧ (s.tasks ROOT).state = .sleeping ∧
    s.current ∉ s.readyQueue ∧ ∀ q, ROOT ∈ s.queues q ↔ q ∈ (s.tasks ROOT).owners := by
  obtain ⟨s,hs,hps⟩ := exists_of_run Untimed [.fork,.select [3,5,3] none] (s:=boot)
    (fun s => s.current = 2 ∧ (s.tasks ROOT).state = .sleeping) (by decide +kernel)
  obtain ⟨hcur,hsleep⟩ := of_decide_eq_true hps
  obtain ⟨-,hnot,-,hqueues⟩ := run_queue hs
  exact ⟨s,hcur,hsleep,hnot,(hqueues ROOT hsleep).2⟩

end Sched
end ScalesOS
