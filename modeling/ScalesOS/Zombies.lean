import ScalesOS.KernelSteps

/-!
# Finished processes

A process that has finished stays in memory until its parent waits for it. No step brings
it back, puts it in the run queue or touches its block node, except a signal from a
terminal, which is sent without a look at the state.
-/

namespace ScalesOS
namespace Sched

variable {s t u : Sched} {p : ℕ} {q : Queue}

/-- The same processes have finished, and none of them has come into the run queue. -/
structure Kept (s t : Sched) : Prop where
  finished : ∀ x, (t.tasks x).state = .finished ↔ (s.tasks x).state = .finished
  ready : ∀ x, (s.tasks x).state = .finished → t.readyQueue.count x ≤ s.readyQueue.count x

theorem Kept.refl (s : Sched) : Kept s s := ⟨fun _ => Iff.rfl,fun _ _ => le_rfl⟩

theorem Kept.trans (h : Kept s t) (h' : Kept t u) : Kept s u where
  finished := fun x => (h'.finished x).trans (h.finished x)
  ready := fun x hx => (h'.ready x ((h.finished x).mpr hx)).trans (h.ready x hx)

theorem kept_of_eq (hstate : ∀ x, (t.tasks x).state = (s.tasks x).state)
    (hready : t.readyQueue = s.readyQueue) :
    Kept s t := by
  refine ⟨fun x => by rw [hstate x],fun x _ => ?_⟩
  rw [hready]

theorem SameQueues.kept (h : SameQueues s t) : Kept s t := kept_of_eq h.state_eq h.ready_eq

theorem Woken.kept (h : Woken s t p) (hf : (s.tasks p).state ≠ .finished) : Kept s t := by
  constructor
  · intro x
    by_cases hx : x = p
    · rw [hx,h.state_eq]
      exact iff_of_false (by decide) hf
    · rw [h.tasks x hx]
  · intro x hx
    have hne : p ≠ x := fun heq => hf (heq ▸ hx)
    rw [h.ready_eq,List.count_append,List.count_singleton,if_neg (by simpa using hne),Nat.add_zero]

theorem Wake.kept (h : Wake s t) : Kept s t := by
  obtain ⟨p,hp,hw⟩ := h
  exact hw.kept (by rw [hp]; decide)

theorem Wakes.kept (h : Wakes s t) : Kept s t := by
  induction h with
  | refl => exact Kept.refl s
  | tail _ hw ih => exact ih.trans hw.kept

theorem sendSignal_kept (hs : s.Core) (hp : p ∈ s.processList)
    (hf : (s.tasks p).state ≠ .finished) {sig : ℤ}
    (h : s.kProcProcessSendSignal p sig = .ok t) : Kept s t := by
  have hsame := (signalled_same (s:=s) sig (hs.pos_lt hp).2).kept
  rcases sendSignal_spec hs hp hf h with rfl | rfl | ⟨-,-,hw⟩
  · exact Kept.refl _
  · exact hsame
  · exact hsame.trans (hw.kept fun hc => hf ((hsame.finished p).mp hc))

theorem Core.switch_kept (h : s.Core) : Kept s s.kProcProcessSwitch := by
  refine ⟨fun x => (h.switch_state x).1,fun x _ => ?_⟩
  rw [switch_ready]
  rcases nextProcess_spec s.tasks s.readyQueue with ⟨-,hrest⟩ | ⟨-,before,heq⟩
  · rw [hrest]
    exact Nat.zero_le _
  · have hsub : (nextProcess s.tasks s.readyQueue).2.Sublist
        (before++(nextProcess s.tasks s.readyQueue).1 :: (nextProcess s.tasks s.readyQueue).2) :=
      (List.sublist_cons_self _ _).trans (List.sublist_append_right _ _)
    rw [← heq] at hsub
    exact hsub.count_le x

theorem Asleep.kept (h : Asleep s t) (hs : s.Inv) : Kept s t := by
  refine ⟨fun x => ?_,fun x _ => by rw [h.ready_eq]⟩
  by_cases hx : x = s.current
  · rw [hx,h.state_eq]
    exact iff_of_false (by decide) (not_finished_of_schedulable hs.current_runs)
  · rw [h.tasks x hx]

theorem Asleep.switch_kept (h : Asleep s t) (hs : s.Inv) (hidle : s.current ≠ IDLE) :
    Kept s t.kProcProcessSwitch :=
  (h.kept hs).trans (h.core hs hidle).1.switch_kept

theorem sleepOnQueue_kept (hs : s.Inv) (hidle : s.current ≠ IDLE)
    (hq : ∀ r, q = .wait r → r = s.current)
    (h : s.kProcProcessSleepOnQueue q = .ok t) : Kept s t := by
  obtain ⟨u,hu,rfl,-⟩ := sleepOnQueue_spec hs hidle hq h
  exact hu.switch_kept hs hidle

theorem yield_kept (hs : s.Inv) (h : s.kProcProcessYield = .ok t) : Kept s t := by
  rcases yield_spec hs h with ⟨-,rfl⟩ | ⟨u,hidle,hw,rfl⟩
  · exact hs.core.switch_kept
  · have hf := not_finished_of_schedulable hs.current_runs
    exact (hw.kept hf).trans (hs.core.woken hw.toWoken
      (hs.current_mem.resolve_left hidle) hf).switch_kept

theorem create_kept (hs : s.Core) {task : Task} (hnew : Newborn task) {parent : ℕ}
    (hp : parent ∈ s.processList) (h : s.create task parent = .ok t) : Kept s t := by
  have hne : parent ≠ s.nextPid := by
    have := hs.pos_lt hp
    omega
  have hstate := enter_field s task hne Task.state (fun _ _ => rfl) fun _ _ => rfl
  have henter : Kept s (s.enter task parent) := by
    refine ⟨fun x => ?_,fun _ _ => le_rfl⟩
    rw [hstate]
    split
    · rename_i hx
      rw [hx,hs.fresh _ le_rfl,hnew.state_eq]
      exact Iff.rfl
    · exact Iff.rfl
  refine henter.trans ((create_spec hs hnew hp h).kept ?_)
  rw [hstate,if_pos rfl,hnew.state_eq]
  decide

theorem notifyParent_kept (hs : s.Core) (ht : s.Tree) (hp : p ∈ s.processList)
    (h : s.notifyParent p = .ok t) :
    Kept s t := by
  rcases notifyParent_spec hs ht hp h with ⟨-,rfl⟩ | ⟨q,v,hn⟩
  · exact Kept.refl _
  · exact hn.woken.wakes.kept.trans (sendSignal_kept hn.core hn.mem hn.alive hn.sent)

theorem Exiting.freed_kept {v w : Sched} (h : Exiting s v w) : Kept v w := by
  refine kept_of_eq (fun x => ?_) h.ready_eq
  by_cases hx : x = s.current
  · rw [hx,h.freed_finished,h.notified_finished]
  · rw [h.other x hx]

theorem exit_kept (h : s.Inv) (hidle : s.current ≠ IDLE) (hret : s.kProcProcessExit = .ok t) :
    Kept (s.modify s.current (.setState .finished)) t := by
  obtain ⟨v,w,he,rfl⟩ := exit_spec h hidle hret
  have hnotify := notifyParent_kept he.core he.tree he.listed he.notified
  exact ((he.same.kept.trans hnotify).trans he.freed_kept).trans he.freed_core.switch_kept

theorem timer_kept (f : Task → Task) (hf : ∀ t, (f t).state = t.state) (sl : SleepQueue) :
    Kept s ((s.modify p f).setSleep sl) := by
  refine kept_of_eq (fun x => ?_) rfl
  exact modify_field (f:=f) Task.state (hf _) x

theorem startTimeout_kept {timeout : Option Timeout}
    (h : s.startTimeout timeout = .ok t) : Kept s t := by
  cases timeout with
  | none =>
    obtain rfl := Except.ok.inj h
    exact Kept.refl s
  | some tv =>
    rw [startTimeout,kProcProcessTimeout] at h
    obtain ⟨⟨new,sl⟩,-,h⟩ := Result.bind_eq_ok.mp h
    obtain rfl := Except.ok.inj h
    exact timer_kept (fun t => { t with timeoutNode := some new }) (fun _ => rfl) sl

theorem wakeupTiming_kept {seconds microseconds : ℕ} (n : ℕ) : ∀ s, s.Inv →
    wakeupTiming seconds microseconds n s = .ok t → Kept s t := by
  induction n with
  | zero => exact fun s _ h => by cases h
  | succ n ih =>
    intro s hs h
    rw [wakeupTiming] at h
    cases hhead : s.sleep.head with
    | none =>
      rw [hhead] at h
      obtain rfl := Except.ok.inj h
      exact Kept.refl s
    | some node =>
      simp only [hhead] at h
      split at h
      · obtain ⟨v,hv,h⟩ := Result.bind_eq_ok.mp h
        have hinv := hs.setHead (s.sleep.nodes node).next
        have hhead' : Kept s (s.setSleep { s.sleep with head := (s.sleep.nodes node).next }) :=
          kept_of_eq (fun _ => rfl) rfl
        rcases wakeSleeper_spec (hinv.core.block _) hv with ⟨-,rfl⟩ | ⟨hf,hw⟩
        · exact hhead'.trans (ih _ hinv h)
        · have hpos := hs.core.sleepers node
          have hv' := hinv.woken hw (hinv.core.mem_of_alive hpos.1 hpos.2 hf) hf
          exact (hhead'.trans (hw.kept hf)).trans (ih v hv' h)
      · obtain rfl := Except.ok.inj h
        exact Kept.refl s

theorem waitpidLoop_kept (h : s.Inv) (hidle : s.current ≠ IDLE) {pid options : ℤ} {r : Option ℤ}
    (hret : s.waitpidLoop pid options = .ok (r,t)) : Kept s t := by
  rcases waitpidLoop_spec hret with rfl | ⟨c,-,-,-,rfl⟩ | ⟨-,hsleep⟩
  · exact (h.setWaiting hidle none).2.kept
  · obtain ⟨-,-,-,-,hready,-⟩ := destroy_same (s.setWaiting none) c
    exact (h.setWaiting hidle none).2.kept.trans
      (kept_of_eq (destroy_field _ c Task.state fun _ _ => rfl) hready)
  · obtain ⟨hinv,hsame⟩ := h.setWaiting hidle (some (pid,options))
    refine hsame.kept.trans (sleepOnQueue_kept hinv hidle (fun r hr => ?_) hsleep)
    exact (Queue.wait.inj hr).symm

def finishing (s : Sched) : Event → Sched
  | .exit => s.modify s.current (.setState .finished)
  | _ => s

/-- No step changes who has finished, but for the end of the current process, or makes such
a process ready. -/
theorem Inv.step_kept (h : s.Inv) {e : Event} (hen : s.Enabled e) (hok : s.SparesFinished e)
    (hret : s.step e = .ok t) : Kept (s.finishing e) t := by
  have hf := not_finished_of_schedulable h.current_runs
  cases e with
  | fork => exact create_kept h.core ⟨rfl,rfl,rfl,rfl,rfl⟩ (h.current_mem.resolve_left hen.1) hret
  | tasklet => exact create_kept h.core ⟨rfl,rfl,rfl,rfl,rfl⟩ h.tree.root_mem hret
  | yield => exact yield_kept h hret
  | sleepOnQueue q => exact sleepOnQueue_kept h hen.1 (fun r hr => by cases hr) hret
  | select qs timeout =>
    obtain ⟨v,u,hstart,hinv,hcur,hasleep,-,-,rfl⟩ := select_spec h hen.1 hret
    exact (startTimeout_kept hstart).trans (hasleep.switch_kept hinv (by rw [hcur]; exact hen.1))
  | sleep ticks microseconds =>
    obtain ⟨new,sl,u,-,hinv,hasleep,-,-,rfl⟩ := sleep_spec h hen.1 hret
    exact (timer_kept (.timed new) (fun _ => rfl) sl).trans (hasleep.switch_kept hinv hen.1)
  | wakeup q => exact (wakeupQueue_spec h.core hret).wakes.kept
  | wakeupSingle q =>
    rcases wakeupSingle_spec h.core hret with ⟨-,rfl⟩ | ⟨p,-,hsleep,hw⟩
    · exact Kept.refl t
    · exact Wake.kept ⟨p,hsleep,hw⟩
  | wakeupSelect q node event => exact (wakeupQueueSelect_spec h.core hret).wakes.kept
  | kill pid sig =>
    rcases kill_spec hret with rfl | ⟨p,hp,hpf,hsend⟩
    · exact Kept.refl t
    · exact sendSignal_kept h.core hp hpf hsend
  | terminal pid sig =>
    rcases terminal_spec hok hret with rfl | ⟨p,hp,hpf,hsend⟩
    · exact Kept.refl t
    · exact sendSignal_kept h.core hp hpf hsend
  | fault sig => exact sendSignal_kept h.core (h.current_mem.resolve_left hen.1) hf hret
  | tick ticks => exact wakeupTiming_kept _ s h hret
  | exit => exact exit_kept h hen.1 hret
  | waitpid pid options =>
    rcases waitpid_spec hret with rfl | ⟨r,hv⟩
    · exact Kept.refl _
    · exact waitpidLoop_kept h hen.1 hv
  | resume =>
    rcases resume_spec hret with rfl | ⟨pid,options,r,hv⟩
    · exact Kept.refl _
    · exact waitpidLoop_kept h hen hv

theorem Inv.step_finished (h : s.Inv) {e : Event} (hen : s.Enabled e) (hok : s.SparesFinished e)
    (hret : s.step e = .ok t) (hp : (s.tasks p).state = .finished) :
    (t.tasks p).state = .finished ∧ t.readyQueue.count p ≤ s.readyQueue.count p := by
  have hkept := h.step_kept hen hok hret
  by_cases hexit : e = .exit
  · subst hexit
    have hne : p ≠ s.current := fun heq => not_finished_of_schedulable h.current_runs (heq ▸ hp)
    have hp' : ((s.finishing .exit).tasks p).state = .finished := by
      rw [finishing,modify_other s _ hne]
      exact hp
    exact ⟨(hkept.finished p).mpr hp',hkept.ready p hp'⟩
  · have hsame : s.finishing e = s := by
      cases e <;> first | rfl | exact absurd rfl hexit
    rw [hsame] at hkept
    exact ⟨(hkept.finished p).mpr hp,hkept.ready p hp⟩

/-- As long as no terminal sends it a signal, a process that has finished stays finished, is
not put in the run queue again, and its block node is left alone. -/
theorem finished_stays_finished (hs : Relation.ReflTransGen (Step SparesFinished) boot s)
    (ht : Relation.ReflTransGen (Step SparesFinished) s t) (hp : (s.tasks p).state = .finished) :
    (t.tasks p).state = .finished ∧ t.readyQueue.count p ≤ s.readyQueue.count p ∧
    t.staleUse = false := by
  have hinv : ∀ {u}, Relation.ReflTransGen (Step SparesFinished) boot u → u.Inv :=
    reachable_inv fun _ _ hal => hal
  have hkept : (t.tasks p).state = .finished ∧ t.readyQueue.count p ≤ s.readyQueue.count p := by
    induction ht with
    | refl => exact ⟨hp,le_rfl⟩
    | tail hrun hstep ih =>
      obtain ⟨e,hen,hal,hret⟩ := hstep
      obtain ⟨hf,hle⟩ := (hinv (hs.trans hrun)).step_finished hen hal hret ih.1
      exact ⟨hf,hle.trans ih.2⟩
  exact ⟨hkept.1,hkept.2,(hinv (hs.trans ht)).core.stale⟩

def childEnds : List Event := [.fork,.yield,.exit]

theorem finished_stays_finished_child : ∃ s t : Sched, (s.tasks 2).state = .finished ∧
    t.current = IDLE ∧ (t.tasks 2).state = .finished ∧ t.staleUse = false := by
  obtain ⟨s,hs,hps⟩ := exists_of_run SparesFinished childEnds (s:=boot)
    (fun s => (s.tasks 2).state = .finished ∧
      (run SparesFinished [.tick 5,.kill 2 2,.sleepOnQueue 0] s).any (fun t =>
        t.current = IDLE)) (by decide +kernel)
  obtain ⟨hf,hrun⟩ := of_decide_eq_true hps
  obtain ⟨t,ht,hidle⟩ := exists_of_run _ _ _ hrun
  obtain ⟨hft,-,hst⟩ := finished_stays_finished hs ht hf
  exact ⟨s,t,hf,of_decide_eq_true hidle,hft,hst⟩

/-- The interrupt character of a terminal wakes its control process although it has ended. -/
theorem finished_runs_again : ∃ s t : Sched, Relation.ReflTransGen (Step fun _ _ => True) boot s ∧
    Step (fun _ _ => True) s t ∧ (s.tasks 2).state = .finished ∧ 2 ∈ s.processList ∧
    (t.tasks 2).state = .running ∧ 2 ∈ t.readyQueue ∧ 2 ∉ s.readyQueue ∧ t.staleUse = true := by
  obtain ⟨s,hs,hps⟩ := exists_of_run (fun _ _ => True) childEnds (s:=boot)
    (fun s => (s.tasks 2).state = .finished ∧ 2 ∈ s.processList ∧ 2 ∉ s.readyQueue ∧
      (match s.step (.terminal 2 2) with
        | .ok t => decide ((t.tasks 2).state = .running ∧ 2 ∈ t.readyQueue ∧ t.staleUse = true)
        | .error _ => false) = true) (by decide +kernel)
  obtain ⟨hf,hmem,hnot,hstep⟩ := of_decide_eq_true hps
  split at hstep
  · rename_i t ht
    obtain ⟨hrun,hready,hstale⟩ := of_decide_eq_true hstep
    exact ⟨s,t,hs,⟨.terminal 2 2,trivial,trivial,ht⟩,hf,hmem,hrun,hready,hnot,hstale⟩
  · cases hstep

end Sched
end ScalesOS
