import ScalesOS.KernelSteps

/-!
# Who comes onto a queue

A step puts nobody on a queue but the current process, and that only if it sleeps there.
-/

namespace ScalesOS
namespace Sched

variable {s t u : Sched} {p x : ℕ} {q : Queue}

def SleepsOn (s : Sched) : Event → Queue → Prop
  | .sleepOnQueue n, q => q = .other n
  | .select ns _, q => q ∈ ns.map Queue.other
  | .waitpid _ _, q => q = .wait s.current
  | .resume, q => q = .wait s.current
  | _, _ => False

instance (s : Sched) (e : Event) (q : Queue) : Decidable (s.SleepsOn e q) := by
  induction e using Event.casesOn <;> dsimp only [SleepsOn] <;> infer_instance

/-- Everybody on the queue was there before, or is the current process on a queue of a
kind. -/
def Joins (s t : Sched) (on : Queue → Prop) : Prop :=
  ∀ q x, x ∈ t.queues q → x ∈ s.queues q ∨ (x = s.current ∧ on q)

def Leaves (s t : Sched) : Prop := ∀ q, t.queues q ⊆ s.queues q

theorem Leaves.refl (s : Sched) : Leaves s s := fun _ _ => id

theorem Leaves.of_eq (h : t.queues = s.queues) : Leaves s t := fun _ _ hx => h ▸ hx

theorem Leaves.trans (h : Leaves s t) (h' : Leaves t u) : Leaves s u := fun q =>
    List.Subset.trans (h' q) (h q)

theorem Leaves.of_modify {f : Task → Task} (h : Leaves (s.modify p f) t) : Leaves s t := h

theorem Leaves.joins (h : Leaves s t) (on : Queue → Prop) :
    Joins s t on := fun q _ hx => Or.inl (h q hx)

theorem Joins.then {on : Queue → Prop} (h : Joins s t on) (h' : Leaves t u) : Joins s u on :=
  fun q x hx => h q x (h' q hx)

theorem Leaves.then {on : Queue → Prop} (h : Leaves s t) (hcur : t.current = s.current)
    (h' : Joins t u on) :
    Joins s u on := by
  intro q x hx
  rcases h' q x hx with hm | ⟨heq,hon⟩
  · exact Or.inl (h q hm)
  · exact Or.inr ⟨heq.trans hcur,hon⟩

theorem dropBlock_subset (p : ℕ) (owners : List Queue) : ∀ (queues : Queue → List ℕ) (q : Queue),
    dropBlock p owners queues q ⊆ queues q := by
  induction owners with
  | nil => exact fun _ _ _ => id
  | cons r rest ih =>
    intro queues q x hx
    have hm := ih _ q hx
    by_cases hq : q = r
    · subst hq
      rw [Function.update_self] at hm
      exact List.mem_of_mem_erase hm
    · rw [Function.update_of_ne hq] at hm
      exact hm

theorem releaseBlock_leaves (s : Sched) (p : ℕ) : Leaves s (s.kProcProcessReleaseBlock p) :=
  dropBlock_subset p _ s.queues

theorem invalidateLocks_leaves (h : s.kProcProcessInvalidateLocks p = .ok t) : Leaves s t := by
  obtain ⟨sl,-,h⟩ := Result.bind_eq_ok.mp h
  obtain ⟨sl',-,h⟩ := Result.bind_eq_ok.mp h
  obtain rfl := Except.ok.inj h
  exact releaseBlock_leaves s p

theorem markReady_leaves (h : s.kProcProcessMarkReady p = .ok t) : Leaves s t := by
  obtain ⟨v,hv,h⟩ := Result.bind_eq_ok.mp h
  obtain rfl := Except.ok.inj h
  have hleaves := invalidateLocks_leaves hv
  exact hleaves

theorem yield_leaves (h : s.kProcProcessYield = .ok t) : Leaves s t := by
  rw [kProcProcessYield] at h
  split at h
  · exact Except.ok.inj h ▸ Leaves.refl s
  · split at h
    · obtain rfl := Except.ok.inj h
      exact Leaves.of_eq rfl
    · split at h
      · obtain ⟨v,hv,h⟩ := Result.bind_eq_ok.mp h
        obtain rfl := Except.ok.inj h
        exact (markReady_leaves hv).trans (Leaves.of_eq rfl)
      · obtain rfl := Except.ok.inj h
        exact Leaves.of_eq rfl

theorem popBlock_leaves (s : Sched) (q : Queue) (p : ℕ) : Leaves s (s.popBlock q p) := by
  intro q' x hx
  change x ∈ Function.update s.queues q (s.queues q).dropLast q' at hx
  by_cases hq : q' = q
  · subst hq
    rw [Function.update_self] at hx
    exact List.mem_of_mem_dropLast hx
  · rw [Function.update_of_ne hq] at hx
    exact hx

theorem wakeupSingle_leaves (n : ℕ) : ∀ s, wakeupSingle q n s = .ok t → Leaves s t := by
  induction n with
  | zero => exact fun s h => Except.ok.inj h ▸ Leaves.refl s
  | succ n ih =>
    intro s h
    rw [wakeupSingle] at h
    split at h
    · exact Except.ok.inj h ▸ Leaves.refl s
    · rename_i p _
      have hpop := popBlock_leaves s q p
      dsimp only at h
      split at h
      · exact hpop.trans (Leaves.of_modify (markReady_leaves h))
      · exact hpop.trans (ih _ h)

theorem wakeupAll_leaves (n : ℕ) : ∀ s, wakeupAll q n s = .ok t → Leaves s t := by
  induction n with
  | zero => exact fun s h => Except.ok.inj h ▸ Leaves.refl s
  | succ n ih =>
    intro s h
    rw [wakeupAll] at h
    split at h
    · exact Except.ok.inj h ▸ Leaves.refl s
    · obtain ⟨v,hv,h⟩ := Result.bind_eq_ok.mp h
      exact (wakeupSingle_leaves _ s hv).trans (ih v h)

theorem dropTimeout_leaves (h : s.dropTimeout p = .ok t) : Leaves s t := by
  obtain ⟨sl,-,h⟩ := Result.bind_eq_ok.mp h
  obtain rfl := Except.ok.inj h
  exact Leaves.of_eq rfl

theorem wakeupSingleSelect_leaves {node event : ℕ} (n : ℕ) :
    ∀ s, wakeupSingleSelect q node event n s = .ok t → Leaves s t := by
  induction n with
  | zero => exact fun s h => Except.ok.inj h ▸ Leaves.refl s
  | succ n ih =>
    intro s h
    rw [wakeupSingleSelect] at h
    split at h
    · exact Except.ok.inj h ▸ Leaves.refl s
    · rename_i p _
      have hpop := (popBlock_leaves s q p).trans (releaseBlock_leaves _ p)
      dsimp only at h
      split at h
      · obtain ⟨v,hv,h⟩ := Result.bind_eq_ok.mp h
        have hdrop := dropTimeout_leaves hv
        exact hpop.trans (hdrop.of_modify.of_modify.trans (markReady_leaves h))
      · exact hpop.trans (ih _ h)

theorem wakeupAllSelect_leaves {node event : ℕ} (n : ℕ) :
    ∀ s, wakeupAllSelect q node event n s = .ok t → Leaves s t := by
  induction n with
  | zero => exact fun s h => Except.ok.inj h ▸ Leaves.refl s
  | succ n ih =>
    intro s h
    rw [wakeupAllSelect] at h
    split at h
    · exact Except.ok.inj h ▸ Leaves.refl s
    · obtain ⟨v,hv,h⟩ := Result.bind_eq_ok.mp h
      exact (wakeupSingleSelect_leaves _ s hv).trans (ih v h)

theorem wakeSleeper_leaves {node : ℕ} (h : s.wakeSleeper node p = .ok t) : Leaves s t := by
  rw [wakeSleeper] at h
  split at h
  · exact Except.ok.inj h ▸ Leaves.refl s
  · split at h
    · exact (releaseBlock_leaves s p).trans
        (Leaves.of_modify (Leaves.of_modify (markReady_leaves h)))
    · exact Leaves.of_modify (markReady_leaves h)

theorem wakeupTiming_leaves {seconds microseconds : ℕ} (n : ℕ) :
    ∀ s, wakeupTiming seconds microseconds n s = .ok t → Leaves s t := by
  induction n with
  | zero => exact fun s h => by cases h
  | succ n ih =>
    intro s h
    rw [wakeupTiming] at h
    split at h
    · exact Except.ok.inj h ▸ Leaves.refl s
    · split at h
      · obtain ⟨v,hv,h⟩ := Result.bind_eq_ok.mp h
        have hwake := wakeSleeper_leaves hv
        exact (Leaves.of_eq (s := s) rfl).trans (hwake.trans (ih v h))
      · exact Except.ok.inj h ▸ Leaves.refl s

theorem sendSignal_leaves {sig : ℤ} (h : s.kProcProcessSendSignal p sig = .ok t) : Leaves s t := by
  rw [kProcProcessSendSignal] at h
  split at h
  · exact Except.ok.inj h ▸ Leaves.refl s
  · rw [kProcProcessWakeupOnSignal] at h
    split at h
    · exact Leaves.of_modify (markReady_leaves h)
    · obtain rfl := Except.ok.inj h
      exact Leaves.of_eq rfl

theorem create_leaves {task : Task} {parent : ℕ} (h : s.create task parent = .ok t) :
    Leaves s t := by
  refine Leaves.trans ?_ (markReady_leaves h)
  intro q x hx
  change x ∈ Function.update s.queues (.wait s.nextPid) [] q at hx
  by_cases hq : q = .wait s.nextPid
  · subst hq
    rw [Function.update_self] at hx
    cases hx
  · rw [Function.update_of_ne hq] at hx
    exact hx

theorem reparent_queues (children : List ℕ) : ∀ s :
    Sched, (reparent children s).queues = s.queues := by
  induction children with
  | nil => exact fun _ => rfl
  | cons c rest ih => exact fun s => ih _

theorem exit_leaves (h : s.kProcProcessExit = .ok t) : Leaves s t := by
  rw [kProcProcessExit] at h
  split at h
  · cases h
  · obtain ⟨v,hv,h⟩ := Result.bind_eq_ok.mp h
    obtain ⟨w,hw,h⟩ := Result.bind_eq_ok.mp h
    obtain rfl := Except.ok.inj h
    have hend :
        Leaves s (reparent (s.tasks s.current).children
            (s.modify s.current (.setState .finished))) :=
      Leaves.of_eq (reparent_queues _ _)
    have hnotify :
        Leaves (reparent (s.tasks s.current).children (s.modify s.current (.setState .finished)))
            v := by
      rw [notifyParent] at hv
      split at hv
      · exact Except.ok.inj hv ▸ Leaves.refl _
      · obtain ⟨u,hu,hv⟩ := Result.bind_eq_ok.mp hv
        exact (wakeupAll_leaves _ _ hu).trans (sendSignal_leaves hv)
    have hfree : Leaves v w := by
      obtain ⟨w',hw',hw⟩ := Result.bind_eq_ok.mp hw
      obtain rfl := Except.ok.inj hw
      have hlocks := invalidateLocks_leaves hw'
      exact hlocks
    exact (hend.trans hnotify).trans hfree

theorem destroy_leaves (s : Sched) (p : ℕ) : Leaves s (s.kProcProcessDestroy p) := by
  rw [kProcProcessDestroy]
  dsimp only
  split <;> exact Leaves.of_eq rfl

theorem ownBlock_joins (s : Sched) (q : Queue) :
    Joins s (s.kProcProcessOwnBlock s.current q) fun q' => q' = q := by
  intro q' x hx
  change x ∈ Function.update s.queues q (s.queues q++[s.current]) q' at hx
  by_cases hq : q' = q
  · subst hq
    rw [Function.update_self] at hx
    rcases List.mem_append.mp hx with hx | hx
    · exact Or.inl hx
    · exact Or.inr ⟨List.mem_singleton.mp hx,rfl⟩
  · rw [Function.update_of_ne hq] at hx
    exact Or.inl hx

theorem sleepOnQueue_joins (h : s.kProcProcessSleepOnQueue q = .ok t) :
    Joins s t fun q' => q' = q :=
  Joins.then (ownBlock_joins s q) fun q' => yield_leaves h q'

theorem ownBlocks_joins (qs : List Queue) : ∀ s :
    Sched, Joins s (ownBlocks s.current qs s) fun q => q ∈ qs := by
  induction qs with
  | nil => exact fun s => (Leaves.refl s).joins _
  | cons q rest ih =>
    intro s q' x hx
    rw [ownBlocks] at hx
    split at hx
    · exact (ih s q' x hx).imp_right fun hjoin => ⟨hjoin.1,List.mem_cons_of_mem _ hjoin.2⟩
    · rcases ih (s.kProcProcessOwnBlock s.current q) q' x hx with hx | hjoin
      · exact (ownBlock_joins s q q' x hx).imp_right fun hjoin =>
          ⟨hjoin.1,List.mem_cons.mpr (Or.inl hjoin.2)⟩
      · exact Or.inr ⟨hjoin.1,List.mem_cons_of_mem _ hjoin.2⟩

theorem select_joins {qs : List Queue} {timeout : Option Timeout}
    (h : s.sysSelect qs timeout = .ok t) :
    Joins s t fun q => q ∈ qs := by
  obtain ⟨v,hv,h⟩ := Result.bind_eq_ok.mp h
  have hstart : v.queues = s.queues ∧ v.current = s.current := by
    cases timeout with
    | none =>
      obtain rfl := Except.ok.inj hv
      exact ⟨rfl,rfl⟩
    | some tv =>
      obtain ⟨⟨new,sl⟩,-,hv⟩ := Result.bind_eq_ok.mp hv
      obtain rfl := Except.ok.inj hv
      exact ⟨rfl,rfl⟩
  exact (Leaves.of_eq hstart.1).then hstart.2 (Joins.then (ownBlocks_joins qs v) fun q =>
    yield_leaves h q)

theorem waitpidLoop_joins {pid options : ℤ} {r : Option ℤ}
    (h : s.waitpidLoop pid options = .ok (r,t)) :
    Joins s t fun q => q = .wait s.current := by
  rw [waitpidLoop] at h
  split at h
  · obtain ⟨-,rfl⟩ := Prod.mk.inj (Except.ok.inj h)
    exact (Leaves.of_eq rfl).joins _
  · split at h
    · rename_i c _
      obtain ⟨-,rfl⟩ := Prod.mk.inj (Except.ok.inj h)
      have hdestroy := destroy_leaves (s.modify s.current fun t => { t with waiting := none }) c
      exact Leaves.joins hdestroy _
    · split at h
      · obtain ⟨v,hv,h⟩ := Result.bind_eq_ok.mp h
        obtain ⟨-,rfl⟩ := Prod.mk.inj (Except.ok.inj h)
        have hjoins := sleepOnQueue_joins hv
        exact hjoins
      · obtain ⟨-,rfl⟩ := Prod.mk.inj (Except.ok.inj h)
        exact (Leaves.of_eq rfl).joins _

theorem step_joins {e : Event} (h : s.step e = .ok t) : Joins s t (s.SleepsOn e) := by
  cases e with
  | fork => exact (create_leaves h).joins _
  | tasklet => exact (create_leaves h).joins _
  | yield => exact (yield_leaves h).joins _
  | sleepOnQueue n => exact sleepOnQueue_joins h
  | select ns timeout => exact select_joins h
  | sleep ticks microseconds =>
    obtain ⟨⟨new,sl⟩,-,h⟩ := Result.bind_eq_ok.mp h
    have hyield := yield_leaves h
    exact Leaves.joins hyield _
  | wakeup n => exact (wakeupAll_leaves _ s h).joins _
  | wakeupSingle n => exact (wakeupSingle_leaves _ s h).joins _
  | wakeupSelect n node event => exact (wakeupAllSelect_leaves _ s h).joins _
  | kill pid sig =>
    rcases kill_spec h with rfl | ⟨p,-,-,hsend⟩
    · exact (Leaves.refl _).joins _
    · exact (sendSignal_leaves hsend).joins _
  | terminal pid sig =>
    rw [Sched.step,terminalSignal] at h
    split at h
    · obtain rfl := Except.ok.inj h
      exact (Leaves.refl s).joins _
    · exact (sendSignal_leaves h).joins _
  | fault sig => exact (sendSignal_leaves h).joins _
  | tick ticks => exact (wakeupTiming_leaves _ s h).joins _
  | exit => exact (exit_leaves h).joins _
  | waitpid pid options =>
    rcases waitpid_spec h with rfl | ⟨r,hv⟩
    · exact (Leaves.refl _).joins _
    · exact waitpidLoop_joins hv
  | resume =>
    rcases resume_spec h with rfl | ⟨pid,options,r,hv⟩
    · exact (Leaves.refl _).joins _
    · exact waitpidLoop_joins hv

end Sched
end ScalesOS
