import ScalesOS.Zombies

/-!
# Exits of children

A process that sleeps in `k_proc_process_waitpid` is woken by the exit of a child. The
children of a process that exits go to the root, also those that have finished already, but
then only the parent of the process is woken.
-/

namespace ScalesOS
namespace Sched

variable {s t u : Sched} {p : ℕ} {q : Queue}

/-- The process sleeps in `k_proc_process_waitpid` although a child it waits for has
finished. -/
def Missed (s : Sched) (p : ℕ) : Prop :=
  p ∈ s.queues (.wait p) ∧ ∃ w ∈ (s.tasks p).waiting, ∃ c ∈ (s.tasks p).children,
    s.canPick c p w.1 = true ∧ (s.tasks c).state = .finished

/-- The exit of the current process gives the root, asleep in `k_proc_process_waitpid`, a
finished child that it waits for, and the root is not the parent that is woken. -/
def HandsOver (s : Sched) : Prop :=
  (s.tasks s.current).parent ≠ some ROOT ∧ ROOT ∈ s.queues (.wait ROOT) ∧
  ∃ w ∈ (s.tasks ROOT).waiting,
    ∃ c ∈ (s.tasks s.current).children, s.canPick c ROOT w.1 = true ∧ (s.tasks c).state = .finished

instance (s : Sched) : Decidable s.HandsOver := by
  dsimp only [HandsOver]
  infer_instance

/-- Any step but a signal from a terminal, and no exit of the kind above. -/
def ExitHeard (s : Sched) : Event → Prop
  | .terminal _ _ => False
  | .exit => ¬ s.HandsOver
  | _ => True

instance (s : Sched) (e : Event) : Decidable (s.ExitHeard e) := by
  induction e using Event.casesOn <;> dsimp only [ExitHeard] <;> infer_instance

theorem ExitHeard.spares {e : Event} (h : s.ExitHeard e) : s.SparesFinished e := by
  cases e with
  | terminal pid sig => exact h.elim
  | _ => trivial

def SameFamily (s t : Sched) : Prop := ∀ x, (t.tasks x).children = (s.tasks x).children ∧
  (t.tasks x).waiting = (s.tasks x).waiting ∧ (t.tasks x).groupId = (s.tasks x).groupId

theorem SameFamily.refl (s : Sched) : SameFamily s s := fun _ => ⟨rfl,rfl,rfl⟩

theorem SameFamily.trans (h : SameFamily s t) (h' : SameFamily t u) : SameFamily s u := fun x =>
  ⟨(h' x).1.trans (h x).1,(h' x).2.1.trans (h x).2.1,(h' x).2.2.trans (h x).2.2⟩

theorem Touches.family (h : Touches s t p) : SameFamily s t := fun x => by
  obtain ⟨hgroup,-,hchildren,hwaiting,-⟩ := rest_eq (h.rest_all x)
  exact ⟨hchildren,hwaiting,hgroup⟩

theorem Wakes.family (h : Wakes s t) : SameFamily s t := by
  induction h with
  | refl => exact SameFamily.refl s
  | tail _ hw ih =>
    obtain ⟨p,-,hw⟩ := hw
    exact ih.trans hw.family

theorem modify_family (f : Task → Task) (hc : ∀ t, (f t).children = t.children)
    (hw : ∀ t, (f t).waiting = t.waiting)
    (hg : ∀ t, (f t).groupId = t.groupId) : SameFamily s (s.modify p f) := fun x =>
  ⟨modify_field Task.children (hc _) x,modify_field Task.waiting (hw _) x,
    modify_field Task.groupId (hg _) x⟩

theorem switch_family (s : Sched) : SameFamily s s.kProcProcessSwitch := fun x =>
  ⟨switch_field Task.children (fun _ => rfl) x,switch_field Task.waiting (fun _ => rfl) x,
    switch_field Task.groupId (fun _ => rfl) x⟩

def Fewer (s t : Sched) : Prop := ∀ x, x ∈ t.queues (.wait x) → x ∈ s.queues (.wait x)

theorem Woken.fewer (h : Woken s t p) : Fewer s t := fun _ hx => (h.mem_queue.mp hx).1

theorem Wakes.fewer (h : Wakes s t) : Fewer s t := fun _ => by
  contrapose!
  exact h.off_queue

theorem Missed.of (hq : p ∈ t.queues (.wait p) → p ∈ s.queues (.wait p)) (hfam : SameFamily s t)
    (hkept : Kept s t) (h : t.Missed p) : s.Missed p := by
  obtain ⟨hp,w,hw,c,hc,hpick,hf⟩ := h
  refine ⟨hq hp,w,(hfam p).2.1 ▸ hw,c,(hfam p).1 ▸ hc,?_,(hkept.finished c).mp hf⟩
  rw [canPick,(hfam p).2.2,(hfam c).2.2] at hpick
  exact hpick

theorem Missed.of_woken (hw : Woken s t p) (hf : (s.tasks p).state ≠ .finished) {x : ℕ}
    (h : t.Missed x) : s.Missed x :=
  h.of (hw.fewer x) hw.family (hw.kept hf)

theorem Missed.of_wakes (hw : Wakes s t) {x : ℕ} (h : t.Missed x) : s.Missed x :=
  h.of (hw.fewer x) hw.family hw.kept

theorem Missed.of_switch (hs : s.Core) {x : ℕ} (h : s.kProcProcessSwitch.Missed x) :
    s.Missed x := by
  refine h.of ?_ (switch_family s) hs.switch_kept
  exact id

theorem Missed.of_signal (hs : s.Core) (hp : p ∈ s.processList)
    (hf : (s.tasks p).state ≠ .finished) {sig : ℤ}
    (hret : s.kProcProcessSendSignal p sig = .ok t) {x : ℕ} (h : t.Missed x) : s.Missed x := by
  have hsame : SameFamily s (s.modify p (signalled sig)) :=
    modify_family _ (fun _ => rfl) (fun _ => rfl) fun _ => rfl
  refine h.of ?_ ?_ (sendSignal_kept hs hp hf hret)
  · rcases sendSignal_spec hs hp hf hret with rfl | rfl | ⟨-,-,hw⟩
    · exact id
    · exact id
    · exact hw.fewer x
  · rcases sendSignal_spec hs hp hf hret with rfl | rfl | ⟨-,-,hw⟩
    · exact SameFamily.refl _
    · exact hsame
    · exact hsame.trans hw.family

theorem Asleep.mem_queue (h : Asleep s u) {x : ℕ} (hx : x ≠ s.current) (hm : x ∈ u.queues q) :
    x ∈ s.queues q := by
  rw [← List.count_pos_iff,h.count _ x hx] at hm
  exact List.count_pos_iff.mp hm

theorem Missed.of_asleep (ha : Asleep s u) (hs : s.Inv)
    (hown : .wait s.current ∉ (u.tasks s.current).owners) {x : ℕ}
    (h : u.Missed x) : s.Missed x := by
  refine h.of (fun hx => ?_) ha.family (ha.kept hs)
  by_cases hxc : x = s.current
  · subst hxc
    have hcount := ha.block (.wait s.current)
    rw [List.count_eq_zero.mpr hown] at hcount
    exact absurd hx (List.count_eq_zero.mp hcount)
  · exact ha.mem_queue hxc hx

theorem Missed.of_timer (f : Task → Task) (hc : ∀ t, (f t).children = t.children)
    (hw : ∀ t, (f t).waiting = t.waiting)
    (hg : ∀ t, (f t).groupId = t.groupId) (hf : ∀ t, (f t).state = t.state)
    {sl : SleepQueue} {x : ℕ} (h : ((s.modify p f).setSleep sl).Missed x) : s.Missed x := by
  refine h.of (t:=(s.modify p f).setSleep sl) ?_ ?_ (timer_kept f hf sl)
  · exact id
  · exact modify_family f hc hw hg

theorem Missed.of_wakeupTiming {seconds microseconds : ℕ} (n : ℕ) : ∀ s, s.Inv →
    wakeupTiming seconds microseconds n s = .ok t → t.Missed p → s.Missed p := by
  induction n with
  | zero => exact fun s _ h => by cases h
  | succ n ih =>
    intro s hs h hmiss
    rw [wakeupTiming] at h
    cases hhead : s.sleep.head with
    | none =>
      rw [hhead] at h
      obtain rfl := Except.ok.inj h
      exact hmiss
    | some node =>
      simp only [hhead] at h
      split at h
      · obtain ⟨v,hv,h⟩ := Result.bind_eq_ok.mp h
        have hinv := hs.setHead (s.sleep.nodes node).next
        rcases wakeSleeper_spec (hinv.core.block _) hv with ⟨-,rfl⟩ | ⟨hf,hw⟩
        · have hmiss' := ih _ hinv h hmiss
          exact hmiss'
        · have hpos := hs.core.sleepers node
          have hv' := hinv.woken hw (hinv.core.mem_of_alive hpos.1 hpos.2 hf) hf
          exact (ih v hv' h hmiss).of_woken hw hf
      · obtain rfl := Except.ok.inj h
        exact hmiss

theorem Missed.of_create (hs : s.Core) {task : Task} (hnew : Newborn task) {parent : ℕ}
    (hp : parent ∈ s.processList)
    (hret : s.create task parent = .ok t) (h : t.Missed p) : s.Missed p := by
  have hne : parent ≠ s.nextPid := by
    have := hs.pos_lt hp
    omega
  have hstate := enter_field s task hne Task.state (fun _ _ => rfl) fun _ _ => rfl
  have hwaiting := enter_field s task hne Task.waiting (fun _ _ => rfl) fun _ _ => rfl
  have htasks := enter_tasks s task hne
  have hborn : ((s.enter task parent).tasks s.nextPid).state ≠ .finished := by
    rw [hstate,if_pos rfl,hnew.state_eq]
    decide
  obtain ⟨hq,w,hw,c,hc,hpick,hf⟩ := h.of_woken (create_spec hs hnew hp hret).toWoken hborn
  have hpn : p ≠ s.nextPid := by
    rintro rfl
    rw [htasks,if_pos rfl] at hc
    cases hc
  have hq' : p ∈ s.queues (.wait p) := by
    change p ∈ Function.update s.queues (.wait s.nextPid) [] (.wait p) at hq
    rwa [Function.update_of_ne fun heq => hpn (Queue.wait.inj heq)] at hq
  have hcn : c ≠ s.nextPid := by
    rintro rfl
    exact hborn hf
  rw [hwaiting,if_neg hpn] at hw
  rw [hstate,if_neg hcn] at hf
  have hgroup : ∀ x, x ≠ s.nextPid →
      ((s.enter task parent).tasks x).groupId = (s.tasks x).groupId := by
    intro x hx
    rw [htasks,if_neg hx]
    split
    · rename_i hxp
      rw [hxp]
      rfl
    · rfl
  rw [canPick,hgroup c hcn,hgroup p hpn] at hpick
  refine ⟨hq',w,hw,c,?_,hpick,hf⟩
  rw [htasks,if_neg hpn] at hc
  split at hc
  · rename_i hpp
    rw [hpp]
    exact (List.mem_append.mp hc).resolve_right fun hm => hcn (List.mem_singleton.mp hm)
  · exact hc

theorem setWaiting_field {α : Type} {waiting : Option (ℤ × ℤ)} (g : Task → α)
    (hg : ∀ t w, g { t with waiting := w } = g t) (x : ℕ) :
    g ((s.setWaiting waiting).tasks x) = g (s.tasks x) := by
  rw [setWaiting]
  exact modify_field (f:=fun t => { t with waiting := waiting }) g (hg _ _) x

theorem Inv.current_awake (h : s.Inv) : s.current ∉ s.queues q := fun hm =>
  not_sleeping_of_schedulable h.current_runs (h.core.sleeping_of_mem hm)

theorem Missed.of_setWaiting {waiting : Option (ℤ × ℤ)} (hp : p ≠ s.current)
    (hm : (s.setWaiting waiting).Missed p) : s.Missed p := by
  obtain ⟨hq,w,hw,c,hc,hpick,hf⟩ := hm
  rw [canPick,setWaiting_field Task.groupId fun _ _ => rfl,setWaiting_field Task.groupId fun _ _ =>
    rfl] at hpick
  rw [setWaiting,modify_other s _ hp] at hw hc
  rw [setWaiting_field Task.state fun _ _ => rfl] at hf
  exact ⟨hq,w,hw,c,hc,hpick,hf⟩

theorem Missed.ne_current (h : s.Inv) (hm : s.Missed p) : p ≠ s.current := fun heq =>
  h.current_awake (heq ▸ hm.1)

theorem Missed.of_destroy {c : ℕ} (hm : (s.kProcProcessDestroy c).Missed p) : s.Missed p := by
  obtain ⟨hq,w,hw,d,hd,hpick,hf⟩ := hm
  obtain ⟨-,-,-,hqueues,-⟩ := destroy_same s c
  rw [hqueues] at hq
  rw [destroy_field s c Task.waiting fun _ _ => rfl] at hw
  rw [canPick,destroy_field s c Task.groupId fun _ _ => rfl,
    destroy_field s c Task.groupId fun _ _ => rfl] at hpick
  rw [destroy_field s c Task.state fun _ _ => rfl] at hf
  refine ⟨hq,w,hw,d,?_,hpick,hf⟩
  cases hpar : (s.tasks c).parent with
  | none =>
    rw [kProcProcessDestroy] at hd
    simpa only [hpar] using hd
  | some parent =>
    rw [destroy_children hpar] at hd
    split at hd
    · exact List.mem_of_mem_erase hd
    · exact hd

theorem Missed.of_waitpidLoop (h : s.Inv) (hidle : s.current ≠ IDLE)
    {pid options : ℤ} {r : Option ℤ}
    (hret : s.waitpidLoop pid options = .ok (r,t)) (hm : t.Missed p) : s.Missed p := by
  rcases waitpidLoop_spec hret with rfl | ⟨c,-,-,-,rfl⟩ | ⟨hnone,hsleep⟩
  · have hp : p ≠ s.current :=
      Missed.ne_current (s:=s.setWaiting none) (h.setWaiting hidle none).1 hm
    exact hm.of_setWaiting hp
  · have hp : p ≠ s.current :=
      Missed.ne_current (s:=s.setWaiting none) (h.setWaiting hidle none).1 hm.of_destroy
    exact hm.of_destroy.of_setWaiting hp
  · obtain ⟨hinv,hsame⟩ := h.setWaiting hidle (some (pid,options))
    obtain ⟨u,hu,rfl,howners,-⟩ :=
      sleepOnQueue_spec hinv hidle (fun r hr => (Queue.wait.inj hr).symm) hsleep
    have hm' := hm.of_switch (hu.core hinv hidle).1
    by_cases hp : p = s.current
    · -- it has just looked at its children
      subst hp
      obtain ⟨-,w,hw,c,hc,hpick,hf⟩ := hm'
      have hfam := hu.family
      rw [(hfam _).2.1,setWaiting,modify_self,Option.mem_some_iff] at hw
      subst hw
      rw [(hfam _).1,setWaiting_field Task.children fun _ _ => rfl] at hc
      rw [canPick,(hfam _).2.2,(hfam _).2.2,setWaiting_field Task.groupId fun _ _ => rfl,
        setWaiting_field Task.groupId fun _ _ => rfl] at hpick
      have hfin := ((hu.kept hinv).finished c).mp hf
      rw [setWaiting_field Task.state fun _ _ => rfl] at hfin
      exact absurd hfin (hnone c hc hpick)
    · exact Missed.of_setWaiting hp (hm'.of (hu.mem_queue hp) hu.family (hu.kept hinv))

theorem freeBlock_family (hb : s.BlockOk p) (h : s.freeBlock p = .ok t) : SameFamily s t := by
  rw [freeBlock] at h
  obtain ⟨u,hu,h⟩ := Result.bind_eq_ok.mp h
  obtain rfl := Except.ok.inj h
  exact (invalidateLocks_spec hb hu).1.family.trans (modify_family _ (fun _ => rfl) (fun _ =>
    rfl) fun _ => rfl)

/-- Who misses a child when the current process has ended and given its children away. -/
theorem Missed.of_ended (h : s.Inv) (hidle : s.current ≠ IDLE)
    (hroot : s.current = ROOT → (s.tasks s.current).children = []) (hnot : ¬ s.HandsOver)
    (hm : (s.ended s.current).Missed p) (hpar : (s.tasks s.current).parent ≠ some p) :
    s.Missed p := by
  have hp := h.current_mem.resolve_left hidle
  have hf := not_finished_of_schedulable h.current_runs
  obtain ⟨-,-,hsame⟩ := h.ended hidle hroot
  obtain ⟨hq,w,hw,c,hc,hpick,hcf⟩ := hm
  rw [hsame.queues_eq] at hq
  have hq' : p ∈ s.queues (.wait p) := hq
  have hpc : p ≠ s.current := fun heq => h.current_awake (heq ▸ hq')
  have hwaiting : ∀ x, ((s.ended s.current).tasks x).waiting = (s.tasks x).waiting := by
    intro x
    rw [ended,reparent_field _ Task.waiting (fun _ _ _ => rfl),modify_field Task.waiting rfl]
  have hgroup : ∀ x, ((s.ended s.current).tasks x).groupId = (s.tasks x).groupId := by
    intro x
    rw [ended,reparent_field _ Task.groupId (fun _ _ _ => rfl),modify_field Task.groupId rfl]
  rw [hwaiting] at hw
  rw [canPick,hgroup,hgroup] at hpick
  have hcf' : c = s.current ∨ (s.tasks c).state = .finished := by
    by_cases hcc : c = s.current
    · exact Or.inl hcc
    · rw [hsame.state_eq,modify_other s _ hcc] at hcf
      exact Or.inr hcf
  have hchildren : ((s.ended s.current).tasks p).children =
      if p = ROOT then (s.tasks p).children++(s.tasks s.current).children
      else (s.tasks p).children := by
    rw [ended,reparent_children,modify_field Task.children rfl]
  have hpmem := h.core.sleeping_mem (h.core.sleeping_of_mem hq')
  have hpf : (s.tasks p).state ≠ .finished := by
    rw [h.core.sleeping_of_mem hq']
    decide
  have hold : c ∈ (s.tasks p).children → s.Missed p := by
    intro hc
    refine ⟨hq',w,hw,c,hc,hpick,hcf'.resolve_left fun heq => hpar ?_⟩
    rw [← heq]
    exact (h.tree.child hpmem hpf hc).2.2
  rw [hchildren] at hc
  split at hc
  · rename_i hpr
    rcases List.mem_append.mp hc with hc' | hc'
    · exact hold hc'
    · -- a child that has changed its parent
      subst hpr
      have hcc : c ≠ s.current := fun heq => h.tree.not_own_child hp hf (heq ▸ hc')
      exact absurd ⟨hpar,hq',w,hw,c,hc',hpick,hcf'.resolve_left hcc⟩ hnot
  · exact hold hc

theorem Missed.of_exit (h : s.Inv) (hidle : s.current ≠ IDLE) (hnot : ¬ s.HandsOver)
    (hret : s.kProcProcessExit = .ok t) (hm : t.Missed p) : s.Missed p := by
  obtain ⟨v,w,he,rfl⟩ := exit_spec h hidle hret
  have hmw := hm.of_switch he.freed_core
  have hmv : v.Missed p := by
    refine hmw.of (fun hx => ?_)
      (freeBlock_family (he.notified_core.block _) he.freed) he.freed_kept
    have hne : p ≠ s.current := by
      rintro rfl
      have hself := he.freed_finished
      rw [he.freed_core.sleeping_of_mem hx] at hself
      cases hself
    rw [← List.count_pos_iff,he.count _ p hne] at hx
    exact List.count_pos_iff.mp hx
  have hparent : ((s.ended s.current).tasks s.current).parent = (s.tasks s.current).parent := by
    have hno :=
      h.tree.not_own_child (h.current_mem.resolve_left hidle)
        (not_finished_of_schedulable h.current_runs)
    rw [ended,reparent_parent,if_neg hno,modify_field Task.parent rfl]
  rcases notifyParent_spec he.core he.tree he.listed he.notified with ⟨hnone,rfl⟩ | ⟨q,u,hn⟩
  · refine Missed.of_ended h hidle he.root_childless hnot hmv ?_
    rw [← hparent,hnone]
    simp
  · have hmu := hmv.of_signal hn.core hn.mem hn.alive hn.sent
    refine Missed.of_ended h hidle he.root_childless hnot (hmu.of_wakes hn.woken.wakes) ?_
    rw [← hparent,hn.parent_eq]
    intro heq
    obtain rfl := Option.some.inj heq
    -- the parent has been woken
    have hgone := hmu.1
    rw [hn.woken.empty] at hgone
    cases hgone

theorem Missed.of_step (h : s.Inv) {e : Event} (hen : s.Enabled e) (hok : s.ExitHeard e)
    (hret : s.step e = .ok t) (hm : t.Missed p) : s.Missed p := by
  have hf := not_finished_of_schedulable h.current_runs
  cases e with
  | fork => exact hm.of_create h.core ⟨rfl,rfl,rfl,rfl,rfl⟩ (h.current_mem.resolve_left hen.1) hret
  | tasklet => exact hm.of_create h.core ⟨rfl,rfl,rfl,rfl,rfl⟩ h.tree.root_mem hret
  | yield =>
    rcases yield_spec h hret with ⟨-,rfl⟩ | ⟨u,hidle,hw,rfl⟩
    · exact hm.of_switch h.core
    · exact (hm.of_switch (h.core.woken hw.toWoken (h.current_mem.resolve_left hidle) hf)).of_woken
        hw.toWoken hf
  | sleepOnQueue q =>
    obtain ⟨u,hu,rfl,howners,-⟩ := sleepOnQueue_spec h hen.1 (fun r hr => by cases hr) hret
    refine Missed.of_asleep hu h ?_ (hm.of_switch (hu.core h hen.1).1)
    rw [howners]
    simp
  | select qs timeout =>
    obtain ⟨v,u,hstart,hinv,hcur,hu,hsub,-,rfl⟩ := select_spec h hen.1 hret
    have hno : .wait v.current ∉ (u.tasks v.current).owners := fun ho =>
      wait_not_mem_map qs (hsub _ ho)
    have hmv :=
      Missed.of_asleep hu hinv hno (hm.of_switch (hu.core hinv (by rw [hcur]; exact hen.1)).1)
    cases timeout with
    | none =>
      obtain rfl := Except.ok.inj hstart
      exact hmv
    | some tv =>
      obtain ⟨⟨new,sl⟩,-,hstart⟩ := Result.bind_eq_ok.mp hstart
      obtain rfl := Except.ok.inj hstart
      exact hmv.of_timer (fun t => { t with timeoutNode := some new }) (fun _ => rfl) (fun _ =>
        rfl) (fun _ => rfl)
        fun _ => rfl
  | sleep ticks microseconds =>
    obtain ⟨new,sl,u,-,hinv,hu,howners,-,rfl⟩ := sleep_spec h hen.1 hret
    have hno : .wait s.current ∉ (u.tasks s.current).owners := by
      rw [howners]
      exact List.not_mem_nil
    have hmv := Missed.of_asleep hu hinv hno (hm.of_switch (hu.core hinv hen.1).1)
    exact hmv.of_timer (.timed new) (fun _ => rfl) (fun _ => rfl) (fun _ => rfl) fun _ => rfl
  | wakeup q => exact hm.of_wakes (wakeupQueue_spec h.core hret).wakes
  | wakeupSingle q =>
    rcases wakeupSingle_spec h.core hret with ⟨-,rfl⟩ | ⟨x,-,hsleep,hw⟩
    · exact hm
    · exact hm.of_woken hw.toWoken (by rw [hsleep]; decide)
  | wakeupSelect q node event => exact hm.of_wakes (wakeupQueueSelect_spec h.core hret).wakes
  | kill pid sig =>
    rcases kill_spec hret with rfl | ⟨x,hx,hxf,hsend⟩
    · exact hm
    · exact hm.of_signal h.core hx hxf hsend
  | terminal pid sig => exact hok.elim
  | fault sig => exact hm.of_signal h.core (h.current_mem.resolve_left hen.1) hf hret
  | tick ticks => exact Missed.of_wakeupTiming _ s h hret hm
  | exit => exact hm.of_exit h hen.1 hok hret
  | waitpid pid options =>
    rcases waitpid_spec hret with rfl | ⟨r,hv⟩
    · exact hm
    · exact hm.of_waitpidLoop h hen.1 hv
  | resume =>
    rcases resume_spec hret with rfl | ⟨pid,options,r,hv⟩
    · exact hm
    · exact hm.of_waitpidLoop h hen hv

/-- While no exit hands a finished child to the waiting root behind its back, nobody sleeps
in `k_proc_process_waitpid` with a finished child that it waits for. -/
theorem no_child_missed (h : Relation.ReflTransGen (Step ExitHeard) boot s) (p : ℕ) :
    ¬ s.Missed p := by
  have hs : s.Inv ∧ ∀ p, ¬ s.Missed p := by
    refine reach_invariant (I:=fun s => s.Inv ∧ ∀ p, ¬ s.Missed p) ?_ ⟨boot_inv,fun p hm => ?_⟩ h
    · rintro s t ⟨hs,hno⟩ ⟨e,hen,hal,hret⟩
      exact ⟨hs.step hen hal.spares hret,fun p hm => hno p (hm.of_step hs hen hal hret)⟩
    · cases hm.1
  exact hs.2 p

theorem no_child_missed_root : ∃ s : Sched, ROOT ∈ s.queues (.wait ROOT) ∧
    (s.tasks ROOT).children = [2] ∧ ¬ s.Missed ROOT := by
  obtain ⟨s,hs,hps⟩ := exists_of_run ExitHeard [.fork,.waitpid (-1) 0] (s:=boot)
    (fun s => ROOT ∈ s.queues (.wait ROOT) ∧ (s.tasks ROOT).children = [2]) (by decide +kernel)
  obtain ⟨hq,hc⟩ := of_decide_eq_true hps
  exact ⟨s,hq,hc,no_child_missed hs ROOT⟩

instance (s : Sched) (p : ℕ) : Decidable (s.Missed p) := by
  dsimp only [Missed]
  infer_instance

/-- The root waits for any child while process 3, its grandchild, exits after its own child
4: now 4 is a finished child of the root, which sleeps on. -/
theorem child_missed : ∃ s : Sched, Relation.ReflTransGen (Step fun _ _ => True) boot s ∧
    s.Missed ROOT := by
  obtain ⟨s,hs,hps⟩ := exists_of_run (fun _ _ => True)
    [.fork,.waitpid (-1) 0,.fork,.yield,.fork,.yield,.yield,.exit,.exit] (s:=boot)
    (fun s => s.Missed ROOT) (by decide +kernel)
  exact ⟨s,hs,of_decide_eq_true hps⟩

end Sched
end ScalesOS
