import ScalesOS.KernelState

/-!
# The steps of the kernel

Every step between two states of the kernel keeps it in order, as long as no terminal
sends a signal to a process that has finished.
-/

namespace ScalesOS
namespace Sched

variable {s t u : Sched} {p : ℕ} {q : Queue}

theorem Inv.woken (h : s.Inv) (hw : Woken s t p) (hp : p ∈ s.processList)
    (hf : (s.tasks p).state ≠ .finished) :
    t.Inv where
  core := h.core.woken hw hp hf
  tree := h.tree.woken hw hf
  current_mem := by
    rw [hw.current_eq,hw.list_eq]
    exact h.current_mem
  current_runs := by
    rw [hw.current_eq]
    by_cases hc : s.current = p
    · rw [hc,Task.isSchedulable,hw.state_eq]
      rfl
    · rw [hw.tasks _ hc]
      exact h.current_runs

theorem Inv.wake (h : s.Inv) (hw : Wake s t) : t.Inv := by
  obtain ⟨p,hp,hw⟩ := hw
  exact h.woken hw.toWoken (h.core.sleeping_mem hp) (by rw [hp]; decide)

theorem Inv.wakes (h : s.Inv) (hw : Wakes s t) : t.Inv :=
  reach_invariant (fun _ _ hs hw => hs.wake hw) h hw

theorem Inv.sameQueues (h : s.Inv) (hsame : SameQueues s t) (ht : t.Tree) : t.Inv where
  core := hsame.core h.core
  tree := ht
  current_mem := by
    rw [hsame.current_eq,hsame.list_eq]
    exact h.current_mem
  current_runs := by
    rw [hsame.current_eq,hsame.schedulable]
    exact h.current_runs

theorem Inv.sendSignal (h : s.Inv) (hp : p ∈ s.processList)
    (hf : (s.tasks p).state ≠ .finished) {sig : ℤ}
    (hret : s.kProcProcessSendSignal p sig = .ok t) : t.Inv := by
  have hsame := signalled_same (s:=s) sig (h.core.pos_lt hp).2
  have hinv := h.sameQueues hsame (h.tree.modify _ (fun _ => rfl) (fun _ => rfl) fun _ => rfl)
  rcases sendSignal_spec h.core hp hf hret with rfl | rfl | ⟨-,hsleep,hw⟩
  · exact h
  · exact hinv
  · exact hinv.wake ⟨p,(hsame.state_eq p).trans hsleep,hw⟩

/-! ## Time -/

theorem sleep_spec (h : s.Inv) (hidle : s.current ≠ IDLE) {ticks microseconds : ℕ}
    (hret : s.kProcProcessSleep ticks microseconds = .ok t) :
    ∃ new sl u, s.sleep.insert s.current (sleepDeadline ticks microseconds) = .ok (new,sl) ∧
      ((s.modify s.current (.timed new)).setSleep sl).Inv ∧
      Asleep ((s.modify s.current (.timed new)).setSleep sl) u ∧ (u.tasks s.current).owners = [] ∧
      SameTimers ((s.modify s.current (.timed new)).setSleep sl) u ∧ t = u.kProcProcessSwitch := by
  rw [kProcProcessSleep] at hret
  obtain ⟨⟨new,sl⟩,hins,hret⟩ := Result.bind_eq_ok.mp hret
  have hinv := h.timer hidle hins (.timed new) (fun _ => rfl) (fun _ => rfl) fun _ => rfl
  have howners := hinv.core.awake _ (not_sleeping_of_schedulable hinv.current_runs)
  set v := (s.modify s.current (.timed new)).setSleep sl
  have hasleep : Asleep v (v.modify v.current (.setState .sleeping)) :=
    { modify_touches v v.current (.setState .sleeping) fun _ => rfl with
      state_eq := by rw [modify_self]; rfl
      block := (hinv.core.block _).modify _ rfl
      own_wait := by
        rw [modify_self]
        exact hinv.core.own_wait v.current
      ready_eq := rfl }
  refine ⟨new,sl,_,hins,hinv,hasleep,?_,modify_timers v v.current (.setState .sleeping) (fun _ =>
    rfl) fun _ => rfl,Except.ok.inj (hret.symm.trans (hasleep.yield hinv hidle))⟩
  exact (congrArg Task.owners (modify_self v v.current (.setState .sleeping))).trans howners

theorem Inv.sleep (h : s.Inv) (hidle : s.current ≠ IDLE) {ticks microseconds : ℕ}
    (hret : s.kProcProcessSleep ticks microseconds = .ok t) : t.Inv := by
  obtain ⟨new,sl,u,-,hinv,hasleep,-,-,rfl⟩ := sleep_spec h hidle hret
  obtain ⟨hcore,htree⟩ := hasleep.core hinv hidle
  exact hcore.switch_inv htree

theorem Inv.startTimeout (h : s.Inv) (hidle : s.current ≠ IDLE) {timeout : Option Timeout}
    (hret : s.startTimeout timeout = .ok t) : t.Inv ∧ t.current = s.current := by
  cases timeout with
  | none =>
    obtain rfl := Except.ok.inj hret
    exact ⟨h,rfl⟩
  | some tv =>
    rw [Sched.startTimeout,kProcProcessTimeout] at hret
    obtain ⟨⟨new,sl⟩,hins,hret⟩ := Result.bind_eq_ok.mp hret
    obtain rfl := Except.ok.inj hret
    exact ⟨h.timer hidle hins _ (fun _ => rfl) (fun _ => rfl) fun _ => rfl,rfl⟩

theorem wait_not_mem_map (qs : List ℕ) {r : ℕ} : .wait r ∉ qs.map Queue.other := fun hm => by
  obtain ⟨n,-,hn⟩ := List.mem_map.mp hm
  cases hn

theorem select_asleep (h : s.Inv) (qs : List ℕ) :
    Asleep s ((ownBlocks s.current (qs.map .other) s).modify s.current .fallAsleep) ∧
      ∀ q ∈ (((ownBlocks s.current (qs.map .other) s).modify s.current .fallAsleep).tasks
        s.current).owners, q ∈ qs.map .other := by
  obtain ⟨ht,hb,howners,hready⟩ := ownBlocks_spec s.current (qs.map .other) s (h.core.block _)
  have hsub : ∀ q ∈ ((ownBlocks s.current (qs.map .other) s).tasks s.current).owners,
      q ∈ qs.map .other := by
    intro q hq
    refine (howners q hq).resolve_left fun hm => ?_
    rw [h.core.awake _ (not_sleeping_of_schedulable h.current_runs)] at hm
    cases hm
  refine ⟨fallAsleep_asleep ht hb (fun r hr => absurd (hsub _ hr) (wait_not_mem_map qs)) hready,?_⟩
  rw [modify_self]
  exact hsub

theorem select_spec (h : s.Inv) (hidle : s.current ≠ IDLE) {qs : List ℕ} {timeout : Option Timeout}
    (hret : s.sysSelect (qs.map .other) timeout = .ok t) :
    ∃ v u, s.startTimeout timeout = .ok v ∧ v.Inv ∧ v.current = s.current ∧ Asleep v u ∧
      (∀ q ∈ (u.tasks v.current).owners, q ∈ qs.map .other) ∧ SameTimers v u ∧
      t = u.kProcProcessSwitch := by
  rw [sysSelect] at hret
  obtain ⟨v,hstart,hret⟩ := Result.bind_eq_ok.mp hret
  obtain ⟨hinv,hcur⟩ := h.startTimeout hidle hstart
  obtain ⟨hasleep,hsub⟩ := select_asleep hinv qs
  have hcur' : (ownBlocks v.current (qs.map .other) v).current = v.current :=
    (ownBlocks_spec v.current (qs.map .other) v (hinv.core.block _)).1.current_eq
  dsimp only at hret
  rw [hcur'] at hret
  have htimers := (ownBlocks_timers v.current (qs.map .other) v).trans
    (modify_timers _ v.current .fallAsleep (fun _ => rfl) fun _ => rfl)
  refine ⟨v,_,hstart,hinv,hcur,hasleep,hsub,htimers,
    Except.ok.inj (hret.symm.trans (hasleep.yield hinv ?_))⟩
  rw [hcur]
  exact hidle

theorem Inv.select (h : s.Inv) (hidle : s.current ≠ IDLE) {qs : List ℕ} {timeout : Option Timeout}
    (hret : s.sysSelect (qs.map .other) timeout = .ok t) : t.Inv := by
  obtain ⟨v,u,-,hinv,hcur,hasleep,-,-,rfl⟩ := select_spec h hidle hret
  obtain ⟨hcore,htree⟩ := hasleep.core hinv (by rw [hcur]; exact hidle)
  exact hcore.switch_inv htree

theorem wakeSleeper_spec (hb : s.BlockOk p) {node : ℕ} (h : s.wakeSleeper node p = .ok t) :
    ((s.tasks p).state = .finished ∧ t = s) ∨ ((s.tasks p).state ≠ .finished ∧ Woken s t p) := by
  rw [wakeSleeper] at h
  split at h
  · rename_i hf
    exact Or.inl ⟨hf,(Except.ok.inj h).symm⟩
  · rename_i hf
    refine Or.inr ⟨hf,?_⟩
    split at h
    · have hb' := ((releaseBlock_blockOk hb).modify (.select none 0) rfl).modify
        (fun t => { t with timeoutNode := none }) rfl
      exact (((releaseBlock_touches s p).trans (modify_touches _ p (.select none 0) fun _ =>
        rfl)).trans
        (modify_touches _ p (fun t => { t with timeoutNode := none }) fun _ =>
          rfl)).woken rfl (markReady_woken hb' h).1
    · exact (modify_touches s p (fun t => { t with waitNode := none }) fun _ => rfl).woken rfl
        (markReady_woken (hb.modify _ rfl) h).1

theorem Inv.setHead (h : s.Inv) (head : Option ℕ) :
    (s.setSleep { s.sleep with head := head }).Inv :=
  ⟨{ h.core with },{ h.tree with },h.current_mem,h.current_runs⟩

theorem Inv.wakeupTiming {seconds microseconds : ℕ} (n : ℕ) : ∀ s, s.Inv →
    Sched.wakeupTiming seconds microseconds n s = .ok t → t.Inv := by
  induction n with
  | zero => exact fun s _ h => by cases h
  | succ n ih =>
    intro s hs h
    rw [Sched.wakeupTiming] at h
    cases hhead : s.sleep.head with
    | none =>
      rw [hhead] at h
      obtain rfl := Except.ok.inj h
      exact hs
    | some node =>
      simp only [hhead] at h
      split at h
      · obtain ⟨v,hv,h⟩ := Result.bind_eq_ok.mp h
        have hinv := hs.setHead (s.sleep.nodes node).next
        refine ih v ?_ h
        rcases wakeSleeper_spec (hinv.core.block _) hv with ⟨-,rfl⟩ | ⟨hf,hw⟩
        · exact hinv
        · have hpos := hs.core.sleepers node
          exact hinv.woken hw (hinv.core.mem_of_alive hpos.1 hpos.2 hf) hf
      · obtain rfl := Except.ok.inj h
        exact hs

/-! ## New processes -/

structure Newborn (task : Task) : Prop where
  state_eq : task.state = .starting
  owners_eq : task.owners = []
  freed_eq : task.blockFreed = false
  wait_eq : task.waitNode = none
  timeout_eq : task.timeoutNode = none

def adopted (task : Task) (parent : ℕ) : Task :=
  { task with groupId := parent, parent := some parent, children := [] }

def withChild (c : ℕ) (t : Task) : Task := { t with children := t.children++[c] }

theorem enter_tasks (s : Sched) (task : Task) {parent : ℕ} (hne : parent ≠ s.nextPid) (x : ℕ) :
    (s.enter task parent).tasks x = if x = s.nextPid then adopted task parent
      else if x = parent then withChild s.nextPid (s.tasks parent) else s.tasks x := by
  change Function.update (Function.update (Function.update s.tasks s.nextPid task) s.nextPid _)
    parent _ x = _
  by_cases hx : x = s.nextPid
  · subst hx
    rw [if_pos rfl,Function.update_of_ne (Ne.symm hne),Function.update_self]
    change adopted (Function.update s.tasks s.nextPid task s.nextPid) parent = _
    rw [Function.update_self]
  · rw [if_neg hx]
    by_cases hp : x = parent
    · subst hp
      rw [if_pos rfl,Function.update_self]
      change withChild s.nextPid
        (Function.update (Function.update s.tasks s.nextPid task) s.nextPid _ x) = _
      rw [Function.update_of_ne hne,Function.update_of_ne hne]
    · rw [if_neg hp,Function.update_of_ne hp,Function.update_of_ne hx,Function.update_of_ne hx]

/-- The fields that say where a process is are those of the old ones, or of a newborn. -/
theorem enter_field {α : Type} (s : Sched) (task : Task) {parent : ℕ}
    (hne : parent ≠ s.nextPid) (g : Task → α)
    (hg : ∀ c t, g (withChild c t) = g t) (hg' : ∀ t q, g (adopted t q) = g t) (x : ℕ) :
    g ((s.enter task parent).tasks x) = if x = s.nextPid then g task else g (s.tasks x) := by
  rw [enter_tasks s task hne]
  split
  · exact hg' _ _
  · split
    · rename_i hp
      rw [hg,hp]
    · rfl

theorem Core.enter (h : s.Core) {task : Task} (hnew : Newborn task) {parent : ℕ}
    (hp : parent ∈ s.processList) :
    (s.enter task parent).Core := by
  have hpos := h.pos_lt hp
  have hne : parent ≠ s.nextPid := by omega
  have hstate := enter_field s task hne Task.state (fun _ _ => rfl) fun _ _ => rfl
  have howners := enter_field s task hne Task.owners (fun _ _ => rfl) fun _ _ => rfl
  have hfreed := enter_field s task hne Task.blockFreed (fun _ _ => rfl) fun _ _ => rfl
  have hfresh : (s.tasks s.nextPid).owners = [] := by
    rw [h.fresh _ le_rfl]
    rfl
  have hempty : ∀ x, (s.queues (.wait s.nextPid)).count x = 0 := by
    intro x
    rw [h.block x,List.count_eq_zero]
    intro hmem
    have hx := h.own_wait x _ hmem
    rw [← hx,hfresh] at hmem
    cases hmem
  refine ⟨fun x q => ?_,fun x => ?_,fun x => ?_,fun x => ?_,fun x hx => ?_,
    fun x h0 hlt => ?_,fun x hx => ?_,fun x hx => ?_,fun x hx => ?_,?_,fun n => ?_,h.stale⟩
  · have hqueue : ((s.enter task parent).queues q).count x = (s.queues q).count x := by
      change (Function.update s.queues (.wait s.nextPid) [] q).count x = _
      by_cases hq : q = .wait s.nextPid
      · subst hq
        rw [Function.update_self,hempty]
        rfl
      · rw [Function.update_of_ne hq]
    rw [hqueue,howners,h.block x]
    split
    · rename_i hx
      rw [hx,hfresh,hnew.owners_eq]
    · rfl
  · rw [hstate,howners]
    split
    · exact fun _ => hnew.owners_eq
    · exact h.awake x
  · rw [howners]
    split
    · rw [hnew.owners_eq]
      exact fun r hr => by cases hr
    · exact h.own_wait x
  · rw [hfreed,hstate]
    split
    · rw [hnew.freed_eq]
      exact fun hc => by cases hc
    · exact h.freed x
  · exact ⟨(h.ready x hx).1,Nat.lt_succ_of_lt (h.ready x hx).2⟩
  · have hlt' : x < s.nextPid+1 := hlt
    rcases Nat.lt_succ_iff_lt_or_eq.mp hlt' with hlt | rfl
    · exact (h.known x h0 hlt).imp_left (List.mem_append_left _)
    · exact Or.inl (List.mem_append_right _ (List.mem_singleton_self _))
  · rcases List.mem_append.mp hx with hx | hx
    · obtain ⟨h0,hlt,hd⟩ := h.listed x hx
      exact ⟨h0,Nat.lt_succ_of_lt hlt,hd⟩
    · obtain rfl := List.mem_singleton.mp hx
      refine ⟨by omega,Nat.lt_succ_self _,fun hd => ?_⟩
      have := (h.gone _ hd).2.1
      omega
  · obtain ⟨h0,hlt,hf⟩ := h.gone x hx
    rw [hstate,if_neg (by omega)]
    exact ⟨h0,Nat.lt_succ_of_lt hlt,hf⟩
  · have hx' : s.nextPid+1 ≤ x := hx
    rw [enter_tasks s task hne,if_neg (by omega),if_neg (by omega)]
    exact h.fresh x (by omega)
  · have hidle : ((s.enter task parent).tasks IDLE).state = (s.tasks IDLE).state := by
      rw [hstate,if_neg (by omega)]
    rw [Task.isSchedulable,hidle]
    exact h.idle
  · exact ⟨(h.sleepers n).1,Nat.lt_succ_of_lt (h.sleepers n).2⟩

theorem Tree.enter (ht : s.Tree) (h : s.Core) (task : Task) {parent : ℕ}
    (hp : parent ∈ s.processList) (hf : (s.tasks parent).state ≠ .finished) :
    (s.enter task parent).Tree := by
  have hpos := h.pos_lt hp
  have hne : parent ≠ s.nextPid := by omega
  have hlt : ∀ x ∈ s.processList, x ≠ s.nextPid := fun x hx => by
    have := (h.pos_lt hx).2
    omega
  have hstate := enter_field s task hne Task.state (fun _ _ => rfl) fun _ _ => rfl
  have hparent : ∀ x, ((s.enter task parent).tasks x).parent =
      if x = s.nextPid then some parent else (s.tasks x).parent := by
    intro x
    rw [enter_tasks s task hne]
    split
    · rfl
    · split
      · rename_i hx
        rw [hx]
        rfl
      · rfl
  have hchildren : ∀ x, x ≠ s.nextPid → ((s.enter task parent).tasks x).children =
      if x = parent then (s.tasks x).children++[s.nextPid] else (s.tasks x).children := by
    intro x hx
    rw [enter_tasks s task hne,if_neg hx]
    split
    · rename_i hxp
      rw [hxp]
      rfl
    · rfl
  have hmem : ∀ x, x ∈ (s.enter task parent).processList ↔ x ∈ s.processList ∨ x = s.nextPid := by
    intro x
    change x ∈ s.processList++[s.nextPid] ↔ _
    rw [List.mem_append,List.mem_singleton]
  refine ⟨(hmem _).mpr (Or.inl ht.root_mem),?_,?_,fun x hx hroot => ?_,fun q hq hqf c => ?_,
    fun q hq hqf => ?_⟩
  · rw [hparent,if_neg (hlt _ ht.root_mem)]
    exact ht.root_parent
  · change (s.processList++[s.nextPid]).Nodup
    rw [List.nodup_append]
    exact ⟨ht.nodup,List.nodup_singleton _,fun a ha b hb => by
      rw [List.mem_singleton.mp hb]
      exact hlt a ha⟩
  · rcases (hmem x).mp hx with hx | rfl
    · obtain ⟨q,hq,hqm,hqlt,hqf⟩ := ht.parent x hx hroot
      refine ⟨q,?_,(hmem q).mpr (Or.inl hqm),hqlt,?_⟩
      · rw [hparent,if_neg (hlt x hx)]
        exact hq
      · rw [hstate,if_neg (hlt q hqm)]
        exact hqf
    · refine ⟨parent,?_,(hmem parent).mpr (Or.inl hp),hpos.2,?_⟩
      · rw [hparent,if_pos rfl]
      · rw [hstate,if_neg hne]
        exact hf
  · rw [hmem,hparent]
    rcases (hmem q).mp hq with hq | rfl
    · rw [hstate,if_neg (hlt q hq)] at hqf
      have hold := ht.children q hq hqf
      rw [hchildren q (hlt q hq)]
      by_cases hc : c = s.nextPid
      · subst hc
        rw [if_pos rfl]
        have hno : s.nextPid ∉ (s.tasks q).children := fun hm => hlt _ ((hold _).mp hm).1 rfl
        by_cases hqp : q = parent
        · simp [hqp]
        · rw [if_neg hqp]
          exact iff_of_false hno fun hc => hqp (Option.some.inj hc.2).symm
      · rw [if_neg hc,or_iff_left hc,← hold c]
        split
        · simp [hc]
        · exact Iff.rfl
    · rw [enter_tasks s task hne,if_pos rfl]
      refine iff_of_false List.not_mem_nil fun hc => ?_
      by_cases hcn : c = s.nextPid
      · rw [if_pos hcn] at hc
        exact hne (Option.some.inj hc.2)
      · rw [if_neg hcn] at hc
        have hcm := hc.1.resolve_right hcn
        have hroot : c ≠ ROOT := fun heq => by
          rw [heq,ht.root_parent] at hc
          exact absurd hc.2 (by simp)
        obtain ⟨r,hr,hrm,-⟩ := ht.parent c hcm hroot
        rw [hr] at hc
        exact hlt r hrm (Option.some.inj hc.2)
  · rcases (hmem q).mp hq with hq | rfl
    · rw [hstate,if_neg (hlt q hq)] at hqf
      have hold := ht.children_nodup q hq hqf
      rw [hchildren q (hlt q hq)]
      split
      · rw [List.nodup_append]
        refine ⟨hold,List.nodup_singleton _,fun a ha b hb => ?_⟩
        rw [List.mem_singleton.mp hb]
        exact hlt a ((ht.children q hq hqf a).mp ha).1
      · exact hold
    · rw [enter_tasks s task hne,if_pos rfl]
      exact List.nodup_nil

theorem create_spec (hs : s.Core) {task : Task} (hnew : Newborn task) {parent : ℕ}
    (hp : parent ∈ s.processList)
    (h : s.create task parent = .ok t) : Roused (s.enter task parent) t s.nextPid :=
  markReady_roused ((hs.enter hnew hp).block _) h

theorem Inv.enter (h : s.Inv) {task : Task} (hnew : Newborn task) {parent : ℕ}
    (hp : parent ∈ s.processList)
    (hf : (s.tasks parent).state ≠ .finished) : (s.enter task parent).Inv where
  core := h.core.enter hnew hp
  tree := h.tree.enter h.core task hp hf
  current_mem := h.current_mem.imp_right (List.mem_append_left _)
  current_runs := by
    have hne : parent ≠ s.nextPid := by
      have := h.core.pos_lt hp
      omega
    have hcur : s.current ≠ s.nextPid := by
      rcases h.current_mem with hidle | hmem
      · have := h.core.pos_lt hp
        omega
      · have := h.core.pos_lt hmem
        omega
    change ((s.enter task parent).tasks s.current).isSchedulable = true
    rw [Task.isSchedulable,enter_field s task hne Task.state (fun _ _ => rfl) fun _ _ => rfl,
      if_neg hcur]
    exact h.current_runs

theorem Inv.create (h : s.Inv) {task : Task} (hnew : Newborn task) {parent : ℕ}
    (hp : parent ∈ s.processList)
    (hf : (s.tasks parent).state ≠ .finished) (hret : s.create task parent = .ok t) : t.Inv := by
  have hne : parent ≠ s.nextPid := by
    have := h.core.pos_lt hp
    omega
  refine (h.enter hnew hp hf).woken (create_spec h.core hnew hp hret).toWoken
    (List.mem_append_right _ List.mem_cons_self) ?_
  rw [enter_field s task hne Task.state (fun _ _ => rfl) fun _ _ => rfl,if_pos rfl,hnew.state_eq]
  decide

/-! ## The end of a process -/

theorem reparent_parent (cs : List ℕ) : ∀ (s : Sched) x, ((reparent cs s).tasks x).parent =
    if x ∈ cs then some ROOT else (s.tasks x).parent := by
  induction cs with
  | nil => simp [reparent]
  | cons c rest ih =>
    intro s x
    rw [reparent,ih,modify_field Task.parent rfl]
    by_cases hx : x = c
    · subst hx
      simp
    · rw [modify_other s _ hx]
      simp [hx]

theorem reparent_children (cs : List ℕ) : ∀ (s : Sched) x, ((reparent cs s).tasks x).children =
    if x = ROOT then (s.tasks x).children++cs else (s.tasks x).children := by
  induction cs with
  | nil => simp [reparent]
  | cons c rest ih =>
    intro s x
    rw [reparent,ih]
    by_cases hx : x = ROOT
    · subst hx
      rw [if_pos rfl,if_pos rfl,modify_self,modify_field Task.children rfl,List.append_assoc]
      rfl
    · rw [if_neg hx,if_neg hx,modify_other _ _ hx,modify_field Task.children rfl]

theorem reparent_field {α : Type} (cs : List ℕ) (g : Task → α)
    (hg : ∀ t parent children, g { t with parent := parent, children := children } = g t) :
    ∀ (s : Sched) x, g ((reparent cs s).tasks x) = g (s.tasks x) := by
  induction cs with
  | nil => exact fun _ _ => rfl
  | cons c rest ih =>
    intro s x
    rw [reparent,ih,modify_field g (hg _ _ _),modify_field g (hg _ _ _)]

theorem reparent_same (cs : List ℕ) : ∀ s : Sched, ROOT < s.nextPid → (∀ c ∈ cs, c < s.nextPid) →
    SameQueues s (reparent cs s) := by
  induction cs with
  | nil =>
    exact fun s _ _ => ⟨rfl,rfl,rfl,rfl,rfl,rfl,rfl,rfl,fun _ => rfl,fun _ => rfl,
      fun _ => rfl,fun _ _ => rfl⟩
  | cons c rest ih =>
    intro s hroot hcs
    rw [reparent]
    have h1 : SameQueues s (s.modify c fun t => { t with parent := some ROOT }) :=
      modify_same _ (hcs c List.mem_cons_self) (fun _ => rfl) (fun _ => rfl) fun _ => rfl
    have h2 : SameQueues (s.modify c fun t => { t with parent := some ROOT })
        ((s.modify c fun t => { t with parent := some ROOT }).modify ROOT (withChild c)) :=
      modify_same _ hroot (fun _ => rfl) (fun _ => rfl) fun _ => rfl
    exact (h1.trans h2).trans (ih _ hroot fun x hx => hcs x (List.mem_cons_of_mem _ hx))

/-- The current process ends: it has not slept, so that no queue knows it. -/
theorem Core.finish (h : s.Core) (hp : p ∈ s.processList)
    (hrun : (s.tasks p).isSchedulable = true) :
    (s.modify p (.setState .finished)).Core where
  block := fun x q => by
    rw [modify_field Task.owners rfl]
    exact h.block x q
  awake := fun x hx => by
    rw [modify_field Task.owners rfl]
    refine h.awake x fun hc => ?_
    have hne : x ≠ p := fun heq => not_sleeping_of_schedulable hrun (heq ▸ hc)
    rw [modify_other s _ hne] at hx
    exact hx hc
  own_wait := fun x => by
    rw [modify_field Task.owners rfl]
    exact h.own_wait x
  freed := fun x hx => by
    rw [modify_field Task.blockFreed rfl] at hx
    by_cases hxp : x = p
    · rw [hxp,modify_self]
      rfl
    · rw [modify_other s _ hxp]
      exact h.freed x hx
  ready := h.ready
  known := h.known
  listed := h.listed
  gone := fun x hx => by
    obtain ⟨h0,hlt,hf⟩ := h.gone x hx
    refine ⟨h0,hlt,?_⟩
    by_cases hxp : x = p
    · rw [hxp,modify_self]
      rfl
    · rw [modify_other s _ hxp]
      exact hf
  fresh := fun x hx => by
    have := (h.pos_lt hp).2
    have hx' : s.nextPid ≤ x := hx
    rw [modify_other s _ (show x ≠ p by omega)]
    exact h.fresh x hx
  idle := by
    have := (h.pos_lt hp).1
    rw [modify_other s _ (show IDLE ≠ p by omega)]
    exact h.idle
  sleepers := h.sleepers
  stale := h.stale

theorem Tree.root_alive (h : s.Tree) : ∀ p ∈ s.processList, p ≠ ROOT →
    (s.tasks ROOT).state ≠ .finished := by
  intro p
  induction p using Nat.strong_induction_on with
  | _ p ih =>
    intro hp hne
    obtain ⟨q,-,hq,hlt,hf⟩ := h.parent p hp hne
    by_cases hroot : q = ROOT
    · rw [← hroot]
      exact hf
    · exact ih q hlt hq hroot

theorem Tree.reparent (ht : s.Tree) (h : s.Core) (hp : p ∈ s.processList)
    (hf : (s.tasks p).state ≠ .finished) (hroot : p = ROOT → (s.tasks p).children = []) :
    (Sched.reparent (s.tasks p).children (s.modify p (.setState .finished))).Tree := by
  have hkids := ht.children p hp hf
  have hpos := h.pos_lt hp
  have hlt : ∀ c ∈ (s.tasks p).children, c < s.nextPid := fun c hc =>
    (h.pos_lt ((hkids c).mp hc).1).2
  have hsame :=
    reparent_same (s.tasks p).children (s.modify p (.setState .finished))
      (h.pos_lt ht.root_mem).2 hlt
  have hlist :
      (Sched.reparent (s.tasks p).children (s.modify p (.setState .finished))).processList =
      s.processList :=
    hsame.list_eq
  have hstate :
    ∀ x, ((Sched.reparent (s.tasks p).children (s.modify p (.setState .finished))).tasks x).state =
      if x = p then .finished else (s.tasks x).state := by
    intro x
    rw [hsame.state_eq]
    by_cases hx : x = p
    · rw [hx,modify_self,if_pos rfl]
      rfl
    · rw [modify_other s _ hx,if_neg hx]
  have hparent :
    ∀ x, ((Sched.reparent (s.tasks p).children (s.modify p (.setState .finished))).tasks x).parent =
      if x ∈ (s.tasks p).children then some ROOT else (s.tasks x).parent := by
    intro x
    rw [reparent_parent,modify_field Task.parent rfl]
  have hchildren :
    ∀ x, ((Sched.reparent (s.tasks p).children (s.modify p (.setState .finished))).tasks
      x).children =
      if x = ROOT then (s.tasks x).children++(s.tasks p).children else (s.tasks x).children := by
    intro x
    rw [reparent_children,modify_field Task.children rfl]
  have hnot : ROOT ∉ (s.tasks p).children := fun hc => by
    have := (hkids ROOT).mp hc
    rw [ht.root_parent] at this
    exact absurd this.2 (by simp)
  refine ⟨hlist ▸ ht.root_mem,?_,hlist ▸ ht.nodup,fun x hx hne => ?_,fun q hq hqf c => ?_,
    fun q hq hqf => ?_⟩
  · rw [hparent,if_neg hnot]
    exact ht.root_parent
  · rw [hlist] at hx ⊢
    by_cases hc : x ∈ (s.tasks p).children
    · have hpr : p ≠ ROOT := fun heq => by
        rw [hroot heq] at hc
        cases hc
      have hxpos := (h.pos_lt hx).1
      refine ⟨ROOT,by rw [hparent,if_pos hc],ht.root_mem,?_,?_⟩
      · simp only [ROOT,IDLE] at hne hxpos ⊢
        omega
      · rw [hstate,if_neg (Ne.symm hpr)]
        exact ht.root_alive x hx hne
    · obtain ⟨q,hq,hqm,hqlt,hqf⟩ := ht.parent x hx hne
      have hqp : q ≠ p := fun heq => hc ((hkids x).mpr ⟨hx,heq ▸ hq⟩)
      refine ⟨q,by rw [hparent,if_neg hc]; exact hq,hqm,hqlt,?_⟩
      rw [hstate,if_neg hqp]
      exact hqf
  · rw [hlist] at hq ⊢
    rw [hstate] at hqf
    have hqp : q ≠ p := fun heq => by
      rw [if_pos heq] at hqf
      exact hqf rfl
    rw [if_neg hqp] at hqf
    have hold := ht.children q hq hqf c
    rw [hparent,hchildren]
    by_cases hc : c ∈ (s.tasks p).children
    · have hcp := (hkids c).mp hc
      rw [if_pos hc]
      by_cases hqr : q = ROOT
      · subst hqr
        rw [if_pos rfl]
        exact iff_of_true (List.mem_append_right _ hc) ⟨hcp.1,rfl⟩
      · rw [if_neg hqr,hold,hcp.2]
        exact iff_of_false (fun h' => hqp (Option.some.inj h'.2).symm) fun h' =>
          hqr (Option.some.inj h'.2).symm
    · rw [if_neg hc]
      split
      · rw [List.mem_append,or_iff_left hc]
        exact hold
      · exact hold
  · rw [hlist] at hq
    rw [hstate] at hqf
    have hqp : q ≠ p := fun heq => by
      rw [if_pos heq] at hqf
      exact hqf rfl
    rw [if_neg hqp] at hqf
    have hold := ht.children_nodup q hq hqf
    rw [hchildren]
    split
    · refine List.nodup_append.mpr ⟨hold,ht.children_nodup p hp hf,fun a ha b hb heq => ?_⟩
      subst heq
      have h1 := ((ht.children q hq hqf a).mp ha).2
      rw [((hkids a).mp hb).2] at h1
      exact hqp (Option.some.inj h1).symm
    · exact hold

def ended (s : Sched) (p : ℕ) : Sched :=
  reparent (s.tasks p).children (s.modify p (.setState .finished))

theorem Inv.ended (h : s.Inv) (hidle : s.current ≠ IDLE)
    (hroot : s.current = ROOT → (s.tasks s.current).children = []) :
    (s.ended s.current).Core ∧ (s.ended s.current).Tree ∧
    SameQueues (s.modify s.current (.setState .finished))
      (s.ended s.current) := by
  have hp := h.current_mem.resolve_left hidle
  have hf := not_finished_of_schedulable h.current_runs
  have hlt : ∀ c ∈ (s.tasks s.current).children, c < s.nextPid :=
    fun c hc => (h.core.pos_lt ((h.tree.children _ hp hf c).mp hc).1).2
  have hsame :=
    reparent_same (s.tasks s.current).children (s.modify s.current (.setState .finished))
    (h.core.pos_lt h.tree.root_mem).2 hlt
  exact ⟨hsame.core (h.core.finish hp h.current_runs),h.tree.reparent h.core hp hf hroot,hsame⟩

/-- Nothing happens to a process that does not sleep when others are woken. -/
theorem Wakes.awake (h : Wakes s t) (hp : (s.tasks p).state ≠ .sleeping) :
    t.tasks p = s.tasks p := by
  induction h with
  | refl => rfl
  | tail _ hw ih =>
    obtain ⟨x,hx,hw⟩ := hw
    have hne : p ≠ x := fun heq => by
      rw [← heq,ih] at hx
      exact hp hx
    rw [hw.tasks p hne,ih]

theorem Wakes.same (h : Wakes s t) : t.current = s.current ∧ t.processList = s.processList ∧
    t.nextPid = s.nextPid := by
  induction h with
  | refl => exact ⟨rfl,rfl,rfl⟩
  | tail _ hw ih =>
    obtain ⟨x,-,hw⟩ := hw
    exact ⟨hw.current_eq.trans ih.1,hw.list_eq.trans ih.2.1,hw.nextPid_eq.trans ih.2.2⟩

theorem Wakes.finished (h : Wakes s t) (x : ℕ) : (t.tasks x).state = .finished ↔
    (s.tasks x).state = .finished := by
  induction h with
  | refl => exact Iff.rfl
  | tail _ hw ih =>
    obtain ⟨p,hp,hw⟩ := hw
    rw [← ih]
    by_cases hx : x = p
    · subst hx
      rw [hw.state_eq,hp]
      decide
    · rw [hw.tasks x hx]

theorem sendSignal_other (hs : s.Core) (hp : p ∈ s.processList)
    (hf : (s.tasks p).state ≠ .finished) {sig : ℤ}
    (h : s.kProcProcessSendSignal p sig = .ok t) {x : ℕ} (hx : x ≠ p) : t.tasks x = s.tasks x := by
  rcases sendSignal_spec hs hp hf h with rfl | rfl | ⟨-,-,hw⟩
  · rfl
  · exact modify_other s _ hx
  · rw [hw.tasks x hx]
    exact modify_other s _ hx

theorem sendSignal_same (hs : s.Core) (hp : p ∈ s.processList)
    (hf : (s.tasks p).state ≠ .finished) {sig : ℤ} (h : s.kProcProcessSendSignal p sig = .ok t) :
    t.current = s.current ∧ t.processList = s.processList := by
  rcases sendSignal_spec hs hp hf h with rfl | rfl | ⟨-,-,hw⟩
  · exact ⟨rfl,rfl⟩
  · exact ⟨rfl,rfl⟩
  · exact ⟨hw.current_eq,hw.list_eq⟩

/-- The parent `q` of `p` has been woken in `v` and gets a signal. -/
structure Notified (s v t : Sched) (p q : ℕ) : Prop where
  parent_eq : (s.tasks p).parent = some q
  woken : QueueWoken s v (.wait q)
  core : v.Core
  mem : q ∈ v.processList
  alive : (v.tasks q).state ≠ .finished
  sent : v.kProcProcessSendSignal q SIGCHLD = .ok t

theorem notifyParent_spec (hs : s.Core) (ht : s.Tree) (hp : p ∈ s.processList)
    (h : s.notifyParent p = .ok t) :
    ((s.tasks p).parent = none ∧ t = s) ∨ ∃ q v, Notified s v t p q := by
  rw [notifyParent] at h
  cases hpar : (s.tasks p).parent with
  | none =>
    rw [hpar] at h
    exact Or.inl ⟨rfl,(Except.ok.inj h).symm⟩
  | some q =>
    simp only [hpar] at h
    obtain ⟨v,hv,h⟩ := Result.bind_eq_ok.mp h
    have hne : p ≠ ROOT := fun heq => by
      rw [heq,ht.root_parent] at hpar
      cases hpar
    obtain ⟨r,hr,hrm,-,hrf⟩ := ht.parent p hp hne
    rw [hpar] at hr
    obtain rfl := Option.some.inj hr
    have hw := wakeupQueue_spec hs hv
    refine Or.inr ⟨q,v,hpar,hw,hw.wakes.core hs,?_,fun hc => hrf ((hw.wakes.finished q).mp hc),h⟩
    rw [hw.wakes.same.2.1]
    exact hrm

theorem notifyParent_core (hs : s.Core) (ht : s.Tree) (hp : p ∈ s.processList)
    (hf : (s.tasks p).state = .finished)
    (h : s.notifyParent p = .ok t) : t.Core ∧ t.Tree ∧ t.tasks p = s.tasks p ∧
    t.processList = s.processList := by
  rcases notifyParent_spec hs ht hp h with ⟨-,rfl⟩ | ⟨q,v,hn⟩
  · exact ⟨hs,ht,rfl,rfl⟩
  · have hw := hn.woken.wakes
    have hne : p ≠ q := fun heq => hn.alive ((hw.finished q).mpr (heq ▸ hf))
    obtain ⟨hc,htr⟩ := sendSignal_core hn.core (hw.tree ht) hn.mem hn.alive hn.sent
    refine ⟨hc,htr,?_,?_⟩
    · rw [sendSignal_other hn.core hn.mem hn.alive hn.sent hne]
      exact hw.awake (by rw [hf]; decide)
    · exact (sendSignal_same hn.core hn.mem hn.alive hn.sent).2.trans hw.same.2.1

theorem freeBlock_spec (hs : s.Core) (ht : s.Tree) (hp : p ∈ s.processList)
    (hf : (s.tasks p).state = .finished)
    (hb : (s.tasks p).blockFreed = false) (h : s.freeBlock p = .ok t) :
    t.Core ∧ t.Tree ∧ (∀ x ≠ p, t.tasks x = s.tasks x) ∧ (t.tasks p).state = .finished ∧
      t.readyQueue = s.readyQueue ∧ t.processList = s.processList ∧
      (∀ q x, x ≠ p → (t.queues q).count x = (s.queues q).count x) := by
  rw [freeBlock] at h
  obtain ⟨u,hu,h⟩ := Result.bind_eq_ok.mp h
  obtain rfl := Except.ok.inj h
  obtain ⟨htouch,htask,hoff,hready⟩ := invalidateLocks_spec (hs.block p) hu
  have hpos := hs.pos_lt hp
  have hother :
      ∀ x ≠ p, (u.modify p fun t => { t with blockFreed := true }).tasks x = s.tasks x := by
    intro x hx
    rw [modify_other u _ hx,htouch.tasks x hx]
  have hself : (u.modify p fun t => { t with blockFreed := true }).tasks p =
      { (s.tasks p).release.unlock with blockFreed := true } := by
    rw [modify_self,htask]
  have hstate : ∀ x, ((u.modify p fun t => { t with blockFreed := true }).tasks x).state =
      (s.tasks x).state := by
    intro x
    by_cases hx : x = p
    · rw [hx,hself]
      rfl
    · rw [hother x hx]
  refine ⟨⟨fun x q => ?_,fun x => ?_,fun x => ?_,fun x hx => ?_,?_,?_,?_,fun x hx => ?_,
    fun x hx => ?_,?_,fun n => ?_,?_⟩,?_,hother,?_,hready,htouch.list_eq,htouch.count⟩
  · by_cases hx : x = p
    · rw [hx,hself]
      exact hoff q
    · rw [hother x hx]
      exact (htouch.count q x hx).trans (hs.block x q)
  · rw [hstate]
    by_cases hx : x = p
    · rw [hx,hself]
      exact fun _ => rfl
    · rw [hother x hx]
      exact hs.awake x
  · by_cases hx : x = p
    · rw [hx,hself]
      exact fun r hr => by cases hr
    · rw [hother x hx]
      exact hs.own_wait x
  · rw [hstate]
    by_cases hxp : x = p
    · rw [hxp]
      exact hf
    · rw [hother x hxp] at hx
      exact hs.freed x hx
  · change ∀ x ∈ u.readyQueue, IDLE < x ∧ x < u.nextPid
    rw [hready,htouch.nextPid_eq]
    exact hs.ready
  · change ∀ x, IDLE < x → x < u.nextPid → x ∈ u.processList ∨ x ∈ u.destroyed
    rw [htouch.nextPid_eq,htouch.list_eq,htouch.destroyed_eq]
    exact hs.known
  · change ∀ x ∈ u.processList, IDLE < x ∧ x < u.nextPid ∧ x ∉ u.destroyed
    rw [htouch.nextPid_eq,htouch.list_eq,htouch.destroyed_eq]
    exact hs.listed
  · rw [hstate]
    change x ∈ u.destroyed at hx
    rw [htouch.destroyed_eq] at hx
    change IDLE < x ∧ x < u.nextPid ∧ _
    rw [htouch.nextPid_eq]
    exact hs.gone x hx
  · change u.nextPid ≤ x at hx
    rw [htouch.nextPid_eq] at hx
    rw [hother x (by omega)]
    exact hs.fresh x hx
  · rw [hother IDLE (by omega)]
    exact hs.idle
  · change IDLE < (u.sleep.nodes n).process ∧ (u.sleep.nodes n).process < u.nextPid
    rw [htouch.sleepers n,htouch.nextPid_eq]
    exact hs.sleepers n
  · change u.staleUse = false
    by_contra hst
    rcases htouch.stale (by simpa using hst) with h1 | h1
    · rw [hs.stale] at h1
      cases h1
    · rw [hb] at h1
      cases h1
  · refine ht.congr htouch.list_eq (fun x => ?_) (fun x => ?_) fun x => by rw [hstate]
    · by_cases hx : x = p
      · rw [hx,hself]
        rfl
      · rw [hother x hx]
    · by_cases hx : x = p
      · rw [hx,hself]
        rfl
      · rw [hother x hx]
  · rw [hstate]
    exact hf

/-- An exit up to the switch: in `v` the parent has heard of the end, in `w` the block node
is freed. -/
structure Exiting (s v w : Sched) : Prop where
  root_childless : s.current = ROOT → (s.tasks s.current).children = []
  core : (s.ended s.current).Core
  tree : (s.ended s.current).Tree
  same : SameQueues (s.modify s.current (.setState .finished)) (s.ended s.current)
  listed : s.current ∈ (s.ended s.current).processList
  finished : ((s.ended s.current).tasks s.current).state = .finished
  notified : (s.ended s.current).notifyParent s.current = .ok v
  notified_core : v.Core
  notified_finished : (v.tasks s.current).state = .finished
  freed : v.freeBlock s.current = .ok w
  freed_core : w.Core
  freed_tree : w.Tree
  freed_finished : (w.tasks s.current).state = .finished
  other : ∀ x ≠ s.current, w.tasks x = v.tasks x
  ready_eq : w.readyQueue = v.readyQueue
  count : ∀ q x, x ≠ s.current → (w.queues q).count x = (v.queues q).count x

theorem exit_spec (h : s.Inv) (hidle : s.current ≠ IDLE) (hret : s.kProcProcessExit = .ok t) :
    ∃ v w, Exiting s v w ∧ t = w.kProcProcessSwitch := by
  rw [kProcProcessExit] at hret
  split at hret
  · cases hret
  · rename_i hroot
    have hroot' : s.current = ROOT → (s.tasks s.current).children = [] := fun heq => by
      by_contra hne
      exact hroot ⟨heq,hne⟩
    obtain ⟨v,hv,hret⟩ := Result.bind_eq_ok.mp hret
    obtain ⟨w,hw,hret⟩ := Result.bind_eq_ok.mp hret
    obtain ⟨hcore,htree,hsame⟩ := h.ended hidle hroot'
    have hf : ((s.ended s.current).tasks s.current).state = .finished := by
      rw [hsame.state_eq,modify_self]
      rfl
    have hp : s.current ∈ (s.ended s.current).processList := by
      rw [hsame.list_eq]
      exact h.current_mem.resolve_left hidle
    obtain ⟨hvc,hvt,htask,hvl⟩ := notifyParent_core hcore htree hp hf hv
    have hb : (v.tasks s.current).blockFreed = false := by
      rw [htask,hsame.freed_eq,modify_field Task.blockFreed rfl]
      by_contra hbf
      exact not_finished_of_schedulable h.current_runs (h.core.freed _ (by simpa using hbf))
    have hfv : (v.tasks s.current).state = .finished := by
      rw [htask]
      exact hf
    obtain ⟨hwc,hwt,hother,hself,hready,-,hcount⟩ :=
      freeBlock_spec hvc hvt (by rw [hvl]; exact hp) hfv hb hw
    exact ⟨v,w,⟨hroot',hcore,htree,hsame,hp,hf,hv,hvc,hfv,hw,hwc,hwt,hself,hother,hready,hcount⟩,
      (Except.ok.inj hret).symm⟩

theorem Inv.exit (h : s.Inv) (hidle : s.current ≠ IDLE)
    (hret : s.kProcProcessExit = .ok t) : t.Inv := by
  obtain ⟨v,w,he,rfl⟩ := exit_spec h hidle hret
  exact he.freed_core.switch_inv he.freed_tree

/-! ## Waiting for children -/

theorem destroy_field {α : Type} (s : Sched) (c : ℕ) (g : Task → α)
    (hg : ∀ t l, g { t with children := l } = g t) (x : ℕ) :
    g ((s.kProcProcessDestroy c).tasks x) = g (s.tasks x) := by
  rw [kProcProcessDestroy]
  dsimp only
  cases (s.tasks c).parent with
  | none => rfl
  | some parent => exact modify_field (s:={ s with processList := _, destroyed := _ }) g (hg _ _) x

theorem destroy_children {parent c : ℕ} (hpar : (s.tasks c).parent = some parent) (x : ℕ) :
    ((s.kProcProcessDestroy c).tasks x).children =
      if x = parent then (s.tasks x).children.erase c else (s.tasks x).children := by
  rw [kProcProcessDestroy]
  dsimp only
  rw [hpar]
  change (Function.update s.tasks parent _ x).children = _
  by_cases hx : x = parent
  · subst hx
    rw [Function.update_self,if_pos rfl]
  · rw [Function.update_of_ne hx,if_neg hx]

theorem destroy_same (s : Sched) (c : ℕ) :
    (s.kProcProcessDestroy c).processList = s.processList.erase c ∧
    (s.kProcProcessDestroy c).destroyed = c :: s.destroyed ∧
    (s.kProcProcessDestroy c).nextPid = s.nextPid ∧ (s.kProcProcessDestroy c).queues = s.queues ∧
    (s.kProcProcessDestroy c).readyQueue = s.readyQueue ∧
    (s.kProcProcessDestroy c).sleep = s.sleep ∧ (s.kProcProcessDestroy c).staleUse = s.staleUse ∧
    (s.kProcProcessDestroy c).current = s.current := by
  rw [kProcProcessDestroy]
  dsimp only
  cases (s.tasks c).parent with
  | none => exact ⟨rfl,rfl,rfl,rfl,rfl,rfl,rfl,rfl⟩
  | some parent => exact ⟨rfl,rfl,rfl,rfl,rfl,rfl,rfl,rfl⟩

theorem Core.destroy (h : s.Core) (ht : s.Tree) {c : ℕ} (hc : c ∈ s.processList)
    (hf : (s.tasks c).state = .finished) (hroot : c ≠ ROOT) : (s.kProcProcessDestroy c).Core := by
  obtain ⟨hlist,hgone,hpid,hqueues,hready,hsleep,hstale,-⟩ := destroy_same s c
  have hstate := destroy_field s c Task.state fun _ _ => rfl
  have howners := destroy_field s c Task.owners fun _ _ => rfl
  have hfreed := destroy_field s c Task.blockFreed fun _ _ => rfl
  have hpos := h.listed c hc
  obtain ⟨parent,hpar,hparm,-⟩ := ht.parent c hc hroot
  refine ⟨fun x q => ?_,fun x => ?_,fun x => ?_,fun x => ?_,?_,fun x h0 hlt => ?_,
    fun x hx => ?_,fun x hx => ?_,fun x hx => ?_,?_,?_,hstale.trans h.stale⟩
  · rw [hqueues,howners]
    exact h.block x q
  · rw [hstate,howners]
    exact h.awake x
  · rw [howners]
    exact h.own_wait x
  · rw [hfreed,hstate]
    exact h.freed x
  · rw [hready,hpid]
    exact h.ready
  · rw [hpid] at hlt
    rw [hlist,hgone]
    by_cases hxc : x = c
    · exact Or.inr (List.mem_cons.mpr (Or.inl hxc))
    · exact (h.known x h0 hlt).imp (fun hm =>
        (List.mem_erase_of_ne hxc).mpr hm) (List.mem_cons_of_mem c)
  · rw [hlist] at hx
    rw [hpid,hgone]
    obtain ⟨hxc,hx⟩ := (List.Nodup.mem_erase_iff ht.nodup).mp hx
    obtain ⟨h0,hlt,hd⟩ := h.listed x hx
    exact ⟨h0,hlt,fun hm => (List.mem_cons.mp hm).elim hxc hd⟩
  · rw [hgone] at hx
    rw [hpid,hstate]
    rcases List.mem_cons.mp hx with rfl | hx
    · exact ⟨hpos.1,hpos.2.1,hf⟩
    · exact h.gone x hx
  · rw [hpid] at hx
    have hlt := (h.pos_lt hparm).2
    rw [kProcProcessDestroy]
    dsimp only
    rw [hpar]
    exact (Function.update_of_ne (show x ≠ parent by omega) _ _).trans (h.fresh x hx)
  · rw [Task.isSchedulable,hstate]
    exact h.idle
  · rw [hsleep,hpid]
    exact h.sleepers

theorem Tree.destroy (ht : s.Tree) {c : ℕ} (hc : c ∈ s.processList)
    (hf : (s.tasks c).state = .finished) (hroot : c ≠ ROOT) : (s.kProcProcessDestroy c).Tree := by
  obtain ⟨hlist,-⟩ := destroy_same s c
  have hstate := destroy_field s c Task.state fun _ _ => rfl
  have hparent := destroy_field s c Task.parent fun _ _ => rfl
  obtain ⟨parent,hpar,-⟩ := ht.parent c hc hroot
  have hchildren := destroy_children hpar
  have hmem : ∀ x, x ∈ (s.kProcProcessDestroy c).processList ↔ x ≠ c ∧ x ∈ s.processList := by
    intro x
    rw [hlist]
    exact List.Nodup.mem_erase_iff ht.nodup
  refine ⟨(hmem _).mpr ⟨Ne.symm hroot,ht.root_mem⟩,(hparent ROOT).trans ht.root_parent,?_,
    fun x hx hne => ?_,fun q hq hqf x => ?_,fun q hq hqf => ?_⟩
  · rw [hlist]
    exact ht.nodup.erase c
  · obtain ⟨q,hq,hqm,hlt,hqf⟩ := ht.parent x ((hmem x).mp hx).2 hne
    refine ⟨q,(hparent x).trans hq,(hmem q).mpr ⟨fun heq => hqf (heq ▸ hf),hqm⟩,hlt,?_⟩
    rw [hstate]
    exact hqf
  · rw [hstate] at hqf
    have hq' := ((hmem q).mp hq).2
    have hold := ht.children q hq' hqf x
    have hnodup := ht.children_nodup q hq' hqf
    rw [hmem,hparent,hchildren]
    by_cases hqp : q = parent
    · rw [if_pos hqp,hnodup.mem_erase_iff,hold,and_assoc]
    · rw [if_neg hqp,hold]
      refine ⟨fun hx => ⟨⟨fun heq => ?_,hx.1⟩,hx.2⟩,fun hx => ⟨hx.1.2,hx.2⟩⟩
      rw [heq,hpar] at hx
      exact hqp (Option.some.inj hx.2).symm
  · rw [hstate] at hqf
    have hnodup := ht.children_nodup q ((hmem q).mp hq).2 hqf
    rw [hchildren]
    split
    · exact hnodup.erase c
    · exact hnodup

/-- The process leaves `k_proc_process_waitpid`, or is about to sleep in it. -/
def setWaiting (s : Sched) (waiting : Option (ℤ × ℤ)) : Sched :=
  s.modify s.current fun t => { t with waiting := waiting }

theorem Inv.setWaiting (h : s.Inv) (hidle : s.current ≠ IDLE) (waiting : Option (ℤ × ℤ)) :
    (s.setWaiting waiting).Inv ∧ SameQueues s (s.setWaiting waiting) := by
  have hpos := h.core.pos_lt (h.current_mem.resolve_left hidle)
  have hsame : SameQueues s (s.setWaiting waiting) :=
    modify_same _ hpos.2 (fun _ => rfl) (fun _ => rfl) fun _ => rfl
  exact ⟨h.sameQueues hsame (h.tree.modify _ (fun _ => rfl) (fun _ => rfl) fun _ => rfl),hsame⟩

theorem waitpidLoop_spec {pid options : ℤ} {r : Option ℤ}
    (h : s.waitpidLoop pid options = .ok (r,t)) :
    (t = s.setWaiting none) ∨
      (∃ c ∈ (s.tasks s.current).children, s.canPick c s.current pid = true ∧
        (s.tasks c).state = .finished ∧ t = (s.setWaiting none).kProcProcessDestroy c) ∨
      ((∀ c ∈ (s.tasks s.current).children, s.canPick c s.current pid = true →
        (s.tasks c).state ≠ .finished) ∧
        (s.setWaiting (some (pid,options))).kProcProcessSleepOnQueue (.wait s.current) =
        .ok t) := by
  rw [waitpidLoop] at h
  split at h
  · obtain ⟨-,rfl⟩ := Prod.mk.inj (Except.ok.inj h)
    exact Or.inl rfl
  · split at h
    · rename_i c hfind
      obtain ⟨-,rfl⟩ := Prod.mk.inj (Except.ok.inj h)
      obtain ⟨hc,hpick⟩ := List.mem_filter.mp (List.mem_of_find?_eq_some hfind)
      have hdone := List.find?_some hfind
      exact Or.inr (Or.inl ⟨c,hc,hpick,of_decide_eq_true hdone,rfl⟩)
    · rename_i hfind
      split at h
      · obtain ⟨v,hv,h⟩ := Result.bind_eq_ok.mp h
        obtain ⟨-,rfl⟩ := Prod.mk.inj (Except.ok.inj h)
        refine Or.inr (Or.inr ⟨fun c hc hpick hf => ?_,hv⟩)
        have := List.find?_eq_none.mp hfind c (List.mem_filter.mpr ⟨hc,hpick⟩)
        exact this (decide_eq_true hf)
      · obtain ⟨-,rfl⟩ := Prod.mk.inj (Except.ok.inj h)
        exact Or.inl rfl

theorem Inv.destroy (h : s.Inv) {c : ℕ} (hc : c ∈ s.processList)
    (hf : (s.tasks c).state = .finished) (hroot : c ≠ ROOT) : (s.kProcProcessDestroy c).Inv where
  core := h.core.destroy h.tree hc hf hroot
  tree := h.tree.destroy hc hf hroot
  current_mem := by
    obtain ⟨hlist,-,-,-,-,-,-,hcur⟩ := destroy_same s c
    rw [hcur,hlist]
    refine h.current_mem.imp_right fun hm => (List.mem_erase_of_ne fun heq => ?_).mpr hm
    exact not_finished_of_schedulable h.current_runs (heq ▸ hf)
  current_runs := by
    obtain ⟨-,-,-,-,-,-,-,hcur⟩ := destroy_same s c
    rw [hcur,Task.isSchedulable,destroy_field s c Task.state fun _ _ => rfl]
    exact h.current_runs

theorem Tree.child (h : s.Tree) (hp : p ∈ s.processList)
    (hf : (s.tasks p).state ≠ .finished) {c : ℕ} (hc : c ∈ (s.tasks p).children) :
    c ∈ s.processList ∧ c ≠ ROOT ∧ (s.tasks c).parent = some p := by
  obtain ⟨hm,hpar⟩ := (h.children p hp hf c).mp hc
  refine ⟨hm,fun heq => ?_,hpar⟩
  rw [heq,h.root_parent] at hpar
  cases hpar

theorem Tree.not_own_child (h : s.Tree) (hp : p ∈ s.processList)
    (hf : (s.tasks p).state ≠ .finished) :
    p ∉ (s.tasks p).children := fun hc => by
  obtain ⟨-,hne,hpar⟩ := h.child hp hf hc
  obtain ⟨q,hq,-,hlt,-⟩ := h.parent p hp hne
  rw [hpar] at hq
  exact absurd (Option.some.inj hq) (by omega)

theorem Inv.waitpidLoop (h : s.Inv) (hidle : s.current ≠ IDLE) {pid options : ℤ} {r : Option ℤ}
    (hret : s.waitpidLoop pid options = .ok (r,t)) : t.Inv := by
  rcases waitpidLoop_spec hret with rfl | ⟨c,hc,-,hf,rfl⟩ | ⟨-,hsleep⟩
  · exact (h.setWaiting hidle none).1
  · obtain ⟨hinv,hsame⟩ := h.setWaiting hidle none
    have hfin := not_finished_of_schedulable h.current_runs
    obtain ⟨hcm,hroot,-⟩ := h.tree.child (h.current_mem.resolve_left hidle) hfin hc
    exact hinv.destroy hcm ((hsame.state_eq c).trans hf) hroot
  · refine (h.setWaiting hidle (some (pid,options))).1.sleepOnQueue hidle (fun r hr => ?_) hsleep
    exact (Queue.wait.inj hr).symm

theorem waitpid_spec {pid options : ℤ} (hret : s.step (.waitpid pid options) = .ok t) :
    t = s ∨ ∃ r, s.waitpidLoop pid options = .ok (r,t) := by
  obtain ⟨⟨r,v⟩,hv,hret⟩ := Result.bind_eq_ok.mp hret
  obtain rfl := Except.ok.inj hret
  rw [kProcProcessWaitpid] at hv
  split at hv
  · obtain ⟨-,rfl⟩ := Prod.mk.inj (Except.ok.inj hv)
    exact Or.inl rfl
  · exact Or.inr ⟨r,hv⟩

theorem resume_spec (hret : s.step .resume = .ok t) :
    t = s ∨ ∃ pid options r, s.waitpidLoop pid options = .ok (r,t) := by
  rw [Sched.step] at hret
  split at hret
  · exact Or.inl (Except.ok.inj hret).symm
  · rename_i pid options _
    obtain ⟨⟨r,v⟩,hv,hret⟩ := Result.bind_eq_ok.mp hret
    obtain rfl := Except.ok.inj hret
    exact Or.inr ⟨pid,options,r,hv⟩

/-! ## All steps -/

/-- The step is not a signal from a terminal to a process that has finished. -/
def SparesFinished (s : Sched) : Event → Prop
  | .terminal pid sig => 0 ≤ sig ∧ sig < MAX_SIGNAL → ∀ p ∈ s.kProcProcessFindByPid pid,
      (s.tasks p).state ≠ .finished
  | _ => True

instance (s : Sched) (e : Event) : Decidable (s.SparesFinished e) := by
  induction e using Event.casesOn <;> dsimp only [SparesFinished] <;> infer_instance

theorem findByPid_mem {pid : ℤ} (h : s.kProcProcessFindByPid pid = some p) : p ∈ s.processList :=
  List.mem_of_find?_eq_some h

theorem terminal_spec {pid sig : ℤ} (hok : s.SparesFinished (.terminal pid sig))
    (hret : s.terminalSignal pid sig = .ok t) :
    t = s ∨ ∃ p ∈ s.processList, (s.tasks p).state ≠ .finished ∧
        s.kProcProcessSendSignal p sig = .ok t := by
  rw [terminalSignal] at hret
  split at hret
  · exact Or.inl (Except.ok.inj hret).symm
  · rename_i p hp
    by_cases hsig : 0 ≤ sig ∧ sig < MAX_SIGNAL
    · exact Or.inr ⟨p,findByPid_mem hp,hok hsig p hp,hret⟩
    · rw [kProcProcessSendSignal,if_pos (by omega)] at hret
      exact Or.inl (Except.ok.inj hret).symm

theorem kill_spec {pid sig : ℤ} (hret : s.sysKill pid sig = .ok t) :
    t = s ∨ ∃ p ∈ s.processList, (s.tasks p).state ≠ .finished ∧
    s.kProcProcessSendSignal p sig = .ok t := by
  rw [sysKill] at hret
  split at hret
  · exact Or.inl (Except.ok.inj hret).symm
  · rename_i p hp
    split at hret
    · exact Or.inl (Except.ok.inj hret).symm
    · rename_i hf
      exact Or.inr ⟨p,findByPid_mem hp,hf,hret⟩

theorem Inv.root_alive (h : s.Inv) (hidle : s.current ≠ IDLE) :
    (s.tasks ROOT).state ≠ .finished := by
  have hf := not_finished_of_schedulable h.current_runs
  by_cases hroot : s.current = ROOT
  · rw [← hroot]
    exact hf
  · exact h.tree.root_alive _ (h.current_mem.resolve_left hidle) hroot

theorem Inv.step (h : s.Inv) {e : Event} (hen : s.Enabled e) (hok : s.SparesFinished e)
    (hret : s.step e = .ok t) :
    t.Inv := by
  have hf := not_finished_of_schedulable h.current_runs
  cases e with
  | fork => exact h.create ⟨rfl,rfl,rfl,rfl,rfl⟩ (h.current_mem.resolve_left hen.1) hf hret
  | tasklet => exact h.create ⟨rfl,rfl,rfl,rfl,rfl⟩ h.tree.root_mem (h.root_alive hen.1) hret
  | yield => exact h.yield hret
  | sleepOnQueue q => exact h.sleepOnQueue hen.1 (fun r hr => by cases hr) hret
  | select qs timeout => exact h.select hen.1 hret
  | sleep ticks microseconds => exact h.sleep hen.1 hret
  | wakeup q => exact h.wakes (wakeupQueue_spec h.core hret).wakes
  | wakeupSingle q =>
    rcases wakeupSingle_spec h.core hret with ⟨-,rfl⟩ | ⟨p,-,hsleep,hw⟩
    · exact h
    · exact h.wake ⟨p,hsleep,hw⟩
  | wakeupSelect q node event => exact h.wakes (wakeupQueueSelect_spec h.core hret).wakes
  | kill pid sig =>
    rcases kill_spec hret with rfl | ⟨p,hp,hpf,hsend⟩
    · exact h
    · exact h.sendSignal hp hpf hsend
  | terminal pid sig =>
    rcases terminal_spec hok hret with rfl | ⟨p,hp,hpf,hsend⟩
    · exact h
    · exact h.sendSignal hp hpf hsend
  | fault sig => exact h.sendSignal (h.current_mem.resolve_left hen.1) hf hret
  | tick ticks => exact Inv.wakeupTiming _ s h hret
  | exit => exact h.exit hen.1 hret
  | waitpid pid options =>
    rcases waitpid_spec hret with rfl | ⟨r,hv⟩
    · exact h
    · exact h.waitpidLoop hen.1 hv
  | resume =>
    rcases resume_spec hret with rfl | ⟨pid,options,r,hv⟩
    · exact h
    · exact h.waitpidLoop hen hv

theorem boot_inv : boot.Inv where
  core := by
    refine ⟨fun _ _ => rfl,fun _ _ => rfl,fun _ _ hr => absurd hr List.not_mem_nil,
      fun _ hb => Bool.noConfusion hb,
      fun _ hp => absurd hp List.not_mem_nil,fun p h0 hp => Or.inl ?_,fun p hp => ?_,
      fun _ hp => absurd hp List.not_mem_nil,fun _ _ => rfl,rfl,
      fun _ => ⟨Nat.zero_lt_one,Nat.one_lt_two⟩,rfl⟩
    · have hlt : p < 2 := hp
      have hone : p = ROOT := by
        simp only [IDLE,ROOT] at h0 ⊢
        omega
      rw [hone]
      exact List.mem_singleton_self _
    · rw [List.mem_singleton.mp hp]
      exact ⟨by decide,by decide,List.not_mem_nil⟩
  tree := by
    refine ⟨List.mem_singleton_self _,rfl,List.nodup_singleton _,
      fun p hp hne => absurd (List.mem_singleton.mp hp) hne,
      fun _ _ _ c => iff_of_false List.not_mem_nil fun hc => ?_,fun _ _ _ => List.nodup_nil⟩
    cases hc.2
  current_mem := Or.inr (List.mem_singleton_self _)
  current_runs := rfl

/-- The kernel is in order in all states it can reach while no terminal sends signals to
processes that have finished. -/
theorem reachable_inv {allowed : Sched → Event → Prop}
    (hsub : ∀ s e, allowed s e → s.SparesFinished e)
    (h : Relation.ReflTransGen (Step allowed) boot s) : s.Inv :=
  reach_invariant (fun _ _ hs ⟨_,hen,hal,hret⟩ => hs.step hen (hsub _ _ hal) hret) boot_inv h

end Sched
end ScalesOS
