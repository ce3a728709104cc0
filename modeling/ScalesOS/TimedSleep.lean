import ScalesOS.KernelSteps

/-!
# Timed sleep

The nodes on `sleep_queue` are those of the processes that wait for a time, each once, as
long as every new deadline finds the queue empty or a later one at its head. A tick finds
the processes whose time has come if the head is among them, or nobody is.
-/

namespace ScalesOS

open LinkedChain

def Task.Timeless (t : Task) : Prop := t.waitNode = none ∧ t.timeoutNode = none

theorem Task.holds_iff (t : Task) (n : ℕ) : t.holds n = true ↔ t.waitNode = some n ∨
    t.timeoutNode = some n := by
  rw [Task.holds,Bool.or_eq_true,decide_eq_true_eq,decide_eq_true_eq]

theorem Task.Timeless.holds {t : Task} (h : t.Timeless) (n : ℕ) : t.holds n = false := by
  rw [Task.holds,h.1,h.2]
  rfl

theorem Task.holds_unique {t : Task} (h : t.waitNode = none ∨ t.timeoutNode = none) {m n : ℕ}
    (hm : t.holds m = true) (hn : t.holds n = true) : m = n := by
  rw [Task.holds_iff] at hm hn
  rcases h with hnone | hnone
  · rw [hnone] at hm hn
    simp only [reduceCtorEq,false_or] at hm hn
    exact Option.some.inj (hm.symm.trans hn)
  · rw [hnone] at hm hn
    simp only [reduceCtorEq,or_false] at hm hn
    exact Option.some.inj (hm.symm.trans hn)

namespace Sched

variable {s t u : Sched} {p x : ℕ} {l : List ℕ}

/-- The queue of sleepers is this list of nodes, those that processes wait for. -/
structure Pending (s : Sched) (l : List ℕ) : Prop where
  queued : s.sleep.Queued l
  mem_iff : ∀ n, n ∈ l ↔ ∃ p, (s.tasks p).holds n = true
  owner : ∀ p n, (s.tasks p).holds n = true → (s.sleep.nodes n).process = p
  single : ∀ p, (s.tasks p).waitNode = none ∨ (s.tasks p).timeoutNode = none

structure Timed (s : Sched) : Prop where
  pending : ∃ l, s.Pending l
  awake : ∀ p, (s.tasks p).state ≠ .sleeping → (s.tasks p).Timeless

theorem Pending.same (h : s.Pending l) (hsame : SameTimers s t) : t.Pending l where
  queued := by
    rw [hsame.sleep_eq]
    exact h.queued
  mem_iff := by
    intro n
    simp only [hsame.holds]
    exact h.mem_iff n
  owner := by
    intro p n
    rw [hsame.holds,hsame.sleep_eq]
    exact h.owner p n
  single := by
    intro p
    rw [hsame.wait_eq,hsame.timeout_eq]
    exact h.single p

theorem SameTimers.timeless (h : SameTimers s t) (hp : (s.tasks p).Timeless) :
    (t.tasks p).Timeless :=
  ⟨(h.wait_eq p).trans hp.1,(h.timeout_eq p).trans hp.2⟩

theorem Timed.same (h : s.Timed) (hsame : SameTimers s t)
    (hstate : ∀ x, (s.tasks x).state = .sleeping → (t.tasks x).state = .sleeping) : t.Timed where
  pending := h.pending.imp fun _ hl => hl.same hsame
  awake := fun x hx => hsame.timeless (h.awake x fun hc => hx (hstate x hc))

theorem Pending.holder (h : s.Pending l) {n : ℕ} (hp : (s.tasks p).holds n = true)
    (hx : (s.tasks x).holds n = true) :
    x = p := (h.owner x n hx).symm.trans (h.owner p n hp)

theorem Pending.forgets (h : s.Pending l) (hf : Forgets s t p)
    (hother : ∀ x ≠ p, t.tasks x = s.tasks x)
    (hp : (t.tasks p).Timeless) : t.Pending (l.filter fun n => !(s.tasks p).holds n) := by
  obtain ⟨hqueued,hsame⟩ := hf l h.queued
  have hne : ∀ {x n}, (t.tasks x).holds n = true → x ≠ p := by
    rintro x n hx rfl
    rw [hp.holds] at hx
    cases hx
  refine ⟨hqueued,fun n => ?_,fun x n hx => ?_,fun x => ?_⟩
  · rw [List.mem_filter,h.mem_iff]
    constructor
    · rintro ⟨⟨x,hx⟩,hnot⟩
      have hxp : x ≠ p := by
        rintro rfl
        rw [hx] at hnot
        cases hnot
      refine ⟨x,?_⟩
      rw [hother x hxp]
      exact hx
    · rintro ⟨x,hx⟩
      have hxp := hne hx
      rw [hother x hxp] at hx
      refine ⟨⟨x,hx⟩,?_⟩
      by_contra hc
      have hpn : (s.tasks p).holds n = true := by simpa using hc
      exact hxp (h.holder hpn hx)
  · have hxp := hne hx
    rw [hother x hxp] at hx
    rw [(hsame n).1]
    exact h.owner x n hx
  · by_cases hxp : x = p
    · rw [hxp]
      exact Or.inl hp.1
    · rw [hother x hxp]
      exact h.single x

theorem Woken.timeless (h : Woken s t p) : (t.tasks p).Timeless := ⟨h.waitNode_eq,h.timeoutNode_eq⟩

theorem Timed.forgets (h : s.Timed) (hf : Forgets s t p) (hother : ∀ x ≠ p, t.tasks x = s.tasks x)
    (hp : (t.tasks p).Timeless) : t.Timed where
  pending := by
    obtain ⟨l,hl⟩ := h.pending
    exact ⟨_,hl.forgets hf hother hp⟩
  awake := by
    intro x hx
    by_cases hxp : x = p
    · rw [hxp]
      exact hp
    · rw [hother x hxp] at hx ⊢
      exact h.awake x hx

theorem Timed.roused (h : s.Timed) (hw : Roused s t p) : t.Timed :=
  h.forgets hw.forgets hw.tasks hw.toWoken.timeless

theorem Timed.wake (h : s.Timed) (hw : Wake s t) : t.Timed := by
  obtain ⟨p,-,hw⟩ := hw
  exact h.roused hw

theorem Timed.wakes (h : s.Timed) (hw : Wakes s t) : t.Timed :=
  reach_invariant (fun _ _ hs hw => hs.wake hw) h hw

theorem Timed.modify (h : s.Timed) (f : Task → Task) (hw : ∀ t, (f t).waitNode = t.waitNode)
    (ht : ∀ t, (f t).timeoutNode = t.timeoutNode) (hs : ∀ t, (f t).state = t.state) :
    (s.modify p f).Timed := by
  refine h.same (modify_timers s p f hw ht) fun x hx => ?_
  rw [modify_field Task.state (hs _)]
  exact hx

theorem Timed.sendSignal (h : s.Timed) (hs : s.Core) (hp : p ∈ s.processList)
    (hf : (s.tasks p).state ≠ .finished)
    {sig : ℤ} (hret : s.kProcProcessSendSignal p sig = .ok t) : t.Timed := by
  have hmod : (s.modify p (signalled sig)).Timed :=
    h.modify _ (fun _ => rfl) (fun _ => rfl) fun _ => rfl
  rcases sendSignal_spec hs hp hf hret with rfl | rfl | ⟨-,-,hw⟩
  · exact h
  · exact hmod
  · exact hmod.roused hw

theorem switch_timers (s : Sched) : SameTimers s s.kProcProcessSwitch :=
  ⟨rfl,switch_field Task.waitNode fun _ => rfl,switch_field Task.timeoutNode fun _ => rfl⟩

theorem Timed.switch (h : s.Timed) (hs : s.Core) : s.kProcProcessSwitch.Timed :=
  h.same (switch_timers s) fun x hx => (hs.switch_state x).2.mpr hx

theorem Pending.insert (h : s.Pending l) (hp : (s.tasks p).Timeless) {time : ℕ × ℕ}
    (hok : s.sleep.Accepts time)
    {new : ℕ} {sl : SleepQueue} (hins : s.sleep.insert p time = .ok (new,sl)) (f : Task → Task)
    (hnew : (f (s.tasks p)).holds new = true)
    (hsingle : (f (s.tasks p)).waitNode = none ∨ (f (s.tasks p)).timeoutNode = none) :
    ∃ l', ((s.modify p f).setSleep sl).Pending l' := by
  obtain ⟨q',l₁,l₂,rfl,hq',hqueued,hsame,hproc,-,-⟩ := SleepQueue.insert_spec h.queued hok p
  obtain ⟨rfl,rfl⟩ := Prod.mk.inj (Except.ok.inj (hins.symm.trans hq'))
  have hself : ∀ n, ((s.modify p f).tasks p).holds n = true ↔ n = s.sleep.nextNode := by
    intro n
    rw [modify_self]
    exact ⟨fun hn => Task.holds_unique hsingle hn hnew,fun hn => hn ▸ hnew⟩
  have hfresh : ∀ x, (s.tasks x).holds s.sleep.nextNode = false := by
    intro x
    by_contra hc
    have hmem := (h.mem_iff s.sleep.nextNode).mpr ⟨x,by simpa using hc⟩
    exact lt_irrefl _ (h.queued.lt _ hmem)
  have hmem : ∀ n, n ∈ l₁++s.sleep.nextNode :: l₂ ↔ n ∈ l₁++l₂ ∨ n = s.sleep.nextNode := by
    intro n
    simp only [List.mem_append,List.mem_cons]
    tauto
  refine ⟨_,hqueued,fun n => ?_,fun x n hx => ?_,fun x => ?_⟩
  · rw [hmem,h.mem_iff]
    constructor
    · rintro (⟨x,hx⟩ | rfl)
      · refine ⟨x,?_⟩
        have hxp : x ≠ p := fun heq => by
          rw [heq,hp.holds] at hx
          cases hx
        change ((s.modify p f).tasks x).holds n = true
        rw [modify_other s f hxp]
        exact hx
      · exact ⟨p,(hself _).mpr rfl⟩
    · rintro ⟨x,hx⟩
      change ((s.modify p f).tasks x).holds n = true at hx
      by_cases hxp : x = p
      · subst hxp
        exact Or.inr ((hself n).mp hx)
      · rw [modify_other s f hxp] at hx
        exact Or.inl ⟨x,hx⟩
  · change ((s.modify p f).tasks x).holds n = true at hx
    change (sl.nodes n).process = x
    by_cases hxp : x = p
    · subst hxp
      rw [(hself n).mp hx]
      exact hproc
    · rw [modify_other s f hxp] at hx
      have hn : n ≠ s.sleep.nextNode := fun heq => by
        rw [heq,hfresh] at hx
        cases hx
      rw [(hsame n hn).1]
      exact h.owner x n hx
  · change ((s.modify p f).tasks x).waitNode = none ∨ ((s.modify p f).tasks x).timeoutNode = none
    by_cases hxp : x = p
    · rw [hxp,modify_self]
      exact hsingle
    · rw [modify_other s f hxp]
      exact h.single x

theorem Timed.asleep {v : Sched} (hv : ∃ l, v.Pending l)
    (hawake : ∀ x ≠ v.current, (v.tasks x).state ≠ .sleeping →
    (v.tasks x).Timeless) (ha : Asleep v u) (htimers : SameTimers v u) : u.Timed where
  pending := hv.imp fun _ hl => hl.same htimers
  awake := by
    intro x hx
    by_cases hxc : x = v.current
    · rw [hxc,ha.state_eq] at hx
      exact absurd rfl hx
    · rw [ha.tasks x hxc] at hx ⊢
      exact hawake x hxc hx

theorem Timed.sleep (h : s.Timed) (hs : s.Inv) (hidle : s.current ≠ IDLE) {ticks microseconds : ℕ}
    (hok : s.sleep.Accepts (sleepDeadline ticks microseconds))
    (hret : s.kProcProcessSleep ticks microseconds = .ok t) :
    t.Timed := by
  obtain ⟨new,sl,u,hins,hinv,hasleep,-,htimers,rfl⟩ := sleep_spec hs hidle hret
  obtain ⟨l,hl⟩ := h.pending
  have hfree := h.awake _ (not_sleeping_of_schedulable hs.current_runs)
  have hv :=
    hl.insert hfree hok hins (.timed new) ((Task.holds_iff _ _).mpr (Or.inl rfl)) (Or.inr hfree.2)
  refine (Timed.asleep hv (fun x hx hstate => ?_) hasleep htimers).switch
    (hasleep.core hinv hidle).1
  have hother : ((s.modify s.current (.timed new)).setSleep sl).tasks x = s.tasks x :=
    modify_other s _ hx
  rw [hother] at hstate ⊢
  exact h.awake x hstate

/-- When the timeout of `select` is to end. -/
def Timeout.deadline (tv : Timeout) : ℕ × ℕ := ScalesOS.deadline tv.ticks tv.seconds tv.microseconds

theorem Timed.select (h : s.Timed) (hs : s.Inv) (hidle : s.current ≠ IDLE) {qs : List ℕ}
    {timeout : Option Timeout} (hok : ∀ tv ∈ timeout, s.sleep.Accepts tv.deadline)
    (hret : s.sysSelect (qs.map .other) timeout = .ok t) :
    t.Timed := by
  obtain ⟨v,u,hstart,hinv,hcur,hasleep,-,htimers,rfl⟩ := select_spec hs hidle hret
  have hfree := h.awake _ (not_sleeping_of_schedulable hs.current_runs)
  have hv : (∃ l, v.Pending l) ∧ ∀ x ≠ s.current, v.tasks x = s.tasks x := by
    cases timeout with
    | none =>
      obtain rfl := Except.ok.inj hstart
      exact ⟨h.pending,fun _ _ => rfl⟩
    | some tv =>
      obtain ⟨⟨new,sl⟩,hins,hstart⟩ := Result.bind_eq_ok.mp hstart
      obtain rfl := Except.ok.inj hstart
      obtain ⟨l,hl⟩ := h.pending
      exact ⟨hl.insert hfree (hok tv rfl) hins (fun t => { t with timeoutNode := some new })
        ((Task.holds_iff _ _).mpr (Or.inr rfl)) (Or.inl hfree.1),
        fun x hx => modify_other s (fun t => { t with timeoutNode := some new }) hx⟩
  refine (Timed.asleep hv.1 (fun x hx hstate => ?_) hasleep htimers).switch
    (hasleep.core hinv (by rw [hcur]; exact hidle)).1
  rw [hcur] at hx
  rw [hv.2 x hx] at hstate ⊢
  exact h.awake x hstate

theorem Timed.yield (h : s.Timed) (hs : s.Inv) (hret : s.kProcProcessYield = .ok t) : t.Timed := by
  rcases yield_spec hs hret with ⟨-,rfl⟩ | ⟨u,hidle,hw,rfl⟩
  · exact h.switch hs.core
  · have hf := not_finished_of_schedulable hs.current_runs
    exact (h.roused hw).switch (hs.core.woken hw.toWoken (hs.current_mem.resolve_left hidle) hf)

theorem Timed.sleepOnQueue (h : s.Timed) (hs : s.Inv) (hidle : s.current ≠ IDLE) {q : Queue}
    (hq : ∀ r, q = .wait r → r = s.current)
    (hret : s.kProcProcessSleepOnQueue q = .ok t) : t.Timed := by
  obtain ⟨u,hu,rfl,-,-,htimers⟩ := sleepOnQueue_spec hs hidle hq hret
  exact (Timed.asleep h.pending (fun x _ => h.awake x) hu htimers).switch (hu.core hs hidle).1

theorem Timed.create (h : s.Timed) (hs : s.Core) {task : Task} (hnew : Newborn task) {parent : ℕ}
    (hp : parent ∈ s.processList) (hret : s.create task parent = .ok t) : t.Timed := by
  have hne : parent ≠ s.nextPid := by
    have := hs.pos_lt hp
    omega
  have hfresh := hs.fresh s.nextPid le_rfl
  have hfield : ∀ {α : Type} (g : Task → α), (∀ c t, g (withChild c t) = g t) →
    (∀ t q, g (adopted t q) = g t) →
      g task = g .empty → ∀ x, g ((s.enter task parent).tasks x) = g (s.tasks x) := by
    intro α g hg hg' hempty x
    rw [enter_field s task hne g hg hg']
    split
    · rename_i hx
      rw [hx,hfresh,hempty]
    · rfl
  have hsame : SameTimers s (s.enter task parent) :=
    ⟨rfl,hfield Task.waitNode (fun _ _ => rfl) (fun _ _ => rfl) hnew.wait_eq,
      hfield Task.timeoutNode (fun _ _ => rfl) (fun _ _ => rfl) hnew.timeout_eq⟩
  have hstate := hfield Task.state (fun _ _ => rfl) (fun _ _ => rfl) hnew.state_eq
  exact (h.same hsame fun x hx => (hstate x).trans hx).roused (create_spec hs hnew hp hret)

theorem Timed.waitpidLoop (h : s.Timed) (hs : s.Inv) (hidle : s.current ≠ IDLE)
    {pid options : ℤ} {r : Option ℤ} (hret : s.waitpidLoop pid options = .ok (r,t)) : t.Timed := by
  have hset : ∀ waiting, (s.setWaiting waiting).Timed := fun waiting =>
    h.modify (fun t => { t with waiting := waiting }) (fun _ => rfl) (fun _ => rfl) fun _ => rfl
  rcases waitpidLoop_spec hret with rfl | ⟨c,-,-,-,rfl⟩ | ⟨-,hsleep⟩
  · exact hset none
  · obtain ⟨-,-,-,-,-,hsl,-⟩ := destroy_same (s.setWaiting none) c
    refine (hset none).same ⟨hsl,destroy_field _ c Task.waitNode fun _ _ => rfl,
      destroy_field _ c Task.timeoutNode fun _ _ => rfl⟩ fun x hx => ?_
    exact (destroy_field _ c Task.state (fun _ _ => rfl) x).trans hx
  · exact (hset _).sleepOnQueue (hs.setWaiting hidle _).1 hidle (fun r hr =>
      (Queue.wait.inj hr).symm) hsleep

theorem Timed.freeBlock (h : s.Timed) (hb : s.BlockOk p)
    (hret : s.freeBlock p = .ok t) : t.Timed := by
  rw [Sched.freeBlock] at hret
  obtain ⟨u,hu,hret⟩ := Result.bind_eq_ok.mp hret
  obtain rfl := Except.ok.inj hret
  obtain ⟨htouch,htask,-,-⟩ := invalidateLocks_spec hb hu
  have hu' : u.Timed := by
    refine h.forgets (invalidateLocks_forgets hu) htouch.tasks ?_
    rw [htask]
    exact ⟨rfl,rfl⟩
  exact hu'.modify (fun t => { t with blockFreed := true }) (fun _ => rfl) (fun _ => rfl) fun _ =>
    rfl

theorem Timed.exit (h : s.Timed) (hs : s.Inv) (hidle : s.current ≠ IDLE)
    (hret : s.kProcProcessExit = .ok t) :
    t.Timed := by
  obtain ⟨v,w,he,rfl⟩ := exit_spec hs hidle hret
  have hrun := not_sleeping_of_schedulable hs.current_runs
  have hended : (s.ended s.current).Timed := by
    refine h.same ⟨he.same.sleep_eq,fun x => ?_,fun x => ?_⟩ fun x hx => ?_
    · exact (reparent_field _ Task.waitNode (fun _ _ _ => rfl) _ x).trans
        (modify_field Task.waitNode rfl x)
    · exact (reparent_field _ Task.timeoutNode (fun _ _ _ => rfl) _ x).trans
        (modify_field Task.timeoutNode rfl x)
    · have hne : x ≠ s.current := fun heq => hrun (heq ▸ hx)
      rw [he.same.state_eq,modify_other s _ hne]
      exact hx
  have hvt : v.Timed := by
    rcases notifyParent_spec he.core he.tree he.listed he.notified with ⟨-,rfl⟩ | ⟨q,u,hn⟩
    · exact hended
    · exact (hended.wakes hn.woken.wakes).sendSignal hn.core hn.mem hn.alive hn.sent
  exact (hvt.freeBlock (he.notified_core.block _) he.freed).switch he.freed_core

/-- The time in seconds and microseconds. -/
def clock (ticks : ℕ) : ℕ × ℕ := (ticks/MICROSECONDS_PER_SECOND,ticks%MICROSECONDS_PER_SECOND)

def isDue (s : Sched) (now : ℕ × ℕ) (p : ℕ) : Bool :=
  (s.tasks p).waitNode.any (fun n => (s.sleep.nodes n).due now.1 now.2) ||
    (s.tasks p).timeoutNode.any fun n => (s.sleep.nodes n).due now.1 now.2

theorem isDue_iff {now : ℕ × ℕ} : s.isDue now p = true ↔
    ∃ n, (s.tasks p).holds n = true ∧ (s.sleep.nodes n).due now.1 now.2 = true := by
  simp only [isDue,Bool.or_eq_true,Option.any_eq_true,Task.holds_iff]
  constructor
  · rintro (⟨n,hn,hdue⟩ | ⟨n,hn,hdue⟩)
    · exact ⟨n,Or.inl hn,hdue⟩
    · exact ⟨n,Or.inr hn,hdue⟩
  · rintro ⟨n,hn | hn,hdue⟩
    · exact Or.inl ⟨n,hn,hdue⟩
    · exact Or.inr ⟨n,hn,hdue⟩

/-- Nothing has to be taken off the queue for a process that waits for no time. -/
theorem invalidateLocks_timeless (h : (s.tasks p).Timeless) :
    ∃ t, s.kProcProcessInvalidateLocks p = .ok t ∧ t.sleep = s.sleep := by
  have hfree := (releaseBlock_timers s p).timeless h
  refine ⟨((s.kProcProcessReleaseBlock p).modify p .unlock).setSleep s.sleep,?_,rfl⟩
  rw [kProcProcessInvalidateLocks,hfree.1,hfree.2]
  rfl

theorem markReady_timeless (h : (s.tasks p).Timeless) : ∃ t, s.kProcProcessMarkReady p = .ok t ∧
    t.sleep = s.sleep := by
  have hready :=
    (modify_timers s p (.ready (s.kProcProcessHasLocks p)) (fun _ => rfl) fun _ => rfl).timeless h
  obtain ⟨u,hu,hsleep⟩ := invalidateLocks_timeless hready
  exact ⟨u.setReady (u.readyQueue++[p]),Result.bind_eq_ok.mpr ⟨u,hu,rfl⟩,hsleep⟩

theorem wakeSleeper_returns {n : ℕ} (hf : (s.tasks p).state ≠ .finished)
    (hn : (s.tasks p).holds n = true)
    (hsingle : (s.tasks p).waitNode = none ∨ (s.tasks p).timeoutNode = none) :
    ∃ t, s.wakeSleeper n p = .ok t ∧ t.sleep = s.sleep := by
  rw [wakeSleeper,if_neg hf]
  split
  · rename_i htimeout
    have hwait : (s.tasks p).waitNode = none := hsingle.resolve_right fun hc => by
      rw [hc] at htimeout
      cases htimeout
    refine markReady_timeless ⟨?_,?_⟩
    · rw [modify_self,modify_self]
      exact ((releaseBlock_timers s p).wait_eq p).trans hwait
    · rw [modify_self]
  · rename_i htimeout
    have hwait := ((s.tasks p).holds_iff n).mp hn |>.resolve_right htimeout
    have hnone : (s.tasks p).timeoutNode = none := hsingle.resolve_left fun hc => by
      rw [hc] at hwait
      cases hwait
    refine markReady_timeless ⟨?_,?_⟩
    · rw [modify_self]
    · rw [modify_self]
      exact hnone

theorem Timed.holder_sleeps (h : s.Timed) {n : ℕ} (hn : (s.tasks p).holds n = true) :
    (s.tasks p).state = .sleeping := by
  by_contra hns
  rw [(h.awake p hns).holds] at hn
  cases hn

theorem Timed.pop (h : s.Timed) (hs : s.Core) {n : ℕ} (hl : s.Pending (n :: l)) :
    ∃ p t, (s.tasks p).holds n = true ∧
    (s.setSleep { s.sleep with head := (s.sleep.nodes n).next }).wakeSleeper n
      (s.sleep.nodes n).process = .ok t ∧ Roused s t p ∧ t.Pending l := by
  obtain ⟨p,hp⟩ := (hl.mem_iff n).mp List.mem_cons_self
  have hsleep := h.holder_sleeps hp
  have hf : (s.tasks p).state ≠ .finished := by
    rw [hsleep]
    decide
  rw [hl.owner p n hp]
  obtain ⟨t,ht,hsl⟩ :=
    wakeSleeper_returns (s:=s.setSleep { s.sleep with head := (s.sleep.nodes n).next }) hf
      hp (hl.single p)
  have hb : (s.setSleep { s.sleep with head := (s.sleep.nodes n).next }).BlockOk p := hs.block p
  have hw := ((wakeSleeper_spec hb ht).resolve_left fun hc => hf hc.1).2
  have hnodup := List.nodup_cons.mp hl.queued.nodup
  have hfilter : (n :: l).filter (fun m => !(s.tasks p).holds m) = l := by
    rw [List.filter_cons_of_neg (by simp [hp])]
    refine List.filter_eq_self.mpr fun m hm => ?_
    by_contra hc
    have hpm : (s.tasks p).holds m = true := by simpa using hc
    exact hnodup.1 (Task.holds_unique (hl.single p) hpm hp ▸ hm)
  have hqueued : t.sleep.Queued l := by
    rw [hsl]
    exact ⟨hl.queued.segment.2,(List.pairwise_cons.mp hl.queued.sorted).2,
      fun m hm => hl.queued.lt m (List.mem_cons_of_mem n hm)⟩
  have hforgets : Forgets s t p := by
    intro l' hl'
    rw [hl'.unique hl.queued,hfilter]
    refine ⟨hqueued,fun m => ?_⟩
    rw [hsl]
    exact ⟨rfl,rfl⟩
  have hwoken : Woken s t p := { hw with sleepers := hw.sleepers, stale := hw.stale }
  have hpending := hl.forgets hforgets hwoken.tasks hwoken.timeless
  rw [hfilter] at hpending
  exact ⟨p,t,hp,ht,⟨hwoken,hforgets⟩,hpending⟩

/-- Everybody on the queue is woken if the time of all of them has come. -/
theorem Timed.expire (now : ℕ × ℕ) : ∀ (l : List ℕ) (s : Sched) (fuel : ℕ), s.Timed →
    s.Core → s.Pending l → l.length < fuel → (∀ n ∈ l, (s.sleep.nodes n).due now.1 now.2 = true) →
    ∃ t, wakeupTiming now.1 now.2 fuel s = .ok t ∧ t.Pending [] ∧
      t.readyQueue = s.readyQueue++l.map (fun n => (s.sleep.nodes n).process) ∧
      (∀ n ∈ l, (t.tasks (s.sleep.nodes n).process).state = .running) ∧
      ∀ x, (∀ n, (s.tasks x).holds n = false) → t.tasks x = s.tasks x := by
  intro l
  induction l with
  | nil =>
    intro s fuel _ _ hl hlen _
    have hhead : s.sleep.head = none := hl.queued.segment
    obtain ⟨fuel,rfl⟩ : ∃ m, fuel = m+1 := ⟨fuel-1,by simp at hlen; omega⟩
    refine ⟨s,?_,hl,by simp,fun n hn => absurd hn List.not_mem_nil,fun _ _ => rfl⟩
    rw [wakeupTiming,hhead]
    rfl
  | cons n l ih =>
    intro s fuel h hs hl hlen hdue
    obtain ⟨fuel,rfl⟩ : ∃ m, fuel = m+1 := ⟨fuel-1,by simp at hlen; omega⟩
    have hhead : s.sleep.head = some n := hl.queued.segment.1
    obtain ⟨p,u,hp,hu,hw,hpending⟩ := h.pop hs hl
    have hsleep := h.holder_sleeps hp
    have hcore : u.Core := hs.woken hw.toWoken (hs.sleeping_mem hsleep) (by rw [hsleep]; decide)
    have hnodes := hw.forgets _ hl.queued
    have hsame : ∀ m, (u.sleep.nodes m).process = (s.sleep.nodes m).process := hw.sleepers
    obtain ⟨t,ht,htl,hready,hrun,hother⟩ :=
      ih u fuel (h.roused hw) hcore hpending (by simpa using hlen) fun m hm => by
      rw [WaitNode.due_iff,(hnodes.2 m).2,← WaitNode.due_iff]
      exact hdue m (List.mem_cons_of_mem n hm)
    simp only [hsame] at hready hrun
    refine ⟨t,?_,htl,?_,fun m hm => ?_,fun x hx => ?_⟩
    · rw [wakeupTiming]
      simp only [hhead,hdue n List.mem_cons_self,if_true]
      exact Result.bind_eq_ok.mpr ⟨u,hu,ht⟩
    · rw [hready,hw.ready_eq,List.append_assoc,List.map_cons,hl.owner p n hp]
      rfl
    · rcases List.mem_cons.mp hm with rfl | hm
      · rw [hl.owner p m hp,hother p hw.toWoken.timeless.holds]
        exact hw.state_eq
      · exact hrun m hm
    · have hxp : x ≠ p := fun heq => by
        rw [heq] at hx
        exact Bool.false_ne_true ((hx n).symm.trans hp)
      rw [← hw.tasks x hxp]
      refine hother x fun m => ?_
      rw [hw.tasks x hxp]
      exact hx m

/-- Exactly the processes whose time has come have been made ready. -/
structure Expired (s t : Sched) (now : ℕ × ℕ) : Prop where
  ready : ∃ woken : List ℕ, t.readyQueue = s.readyQueue++woken ∧ woken.Nodup ∧ ∀ p, p ∈ woken ↔
    s.isDue now p = true
  ran : ∀ p, s.isDue now p = true → (t.tasks p).state = .running ∧ ∀ n, (t.tasks p).holds n = false
  other : ∀ p, s.isDue now p = false → t.tasks p = s.tasks p

/-- The first node on the queue is due, or no process in the list waits for a time that has
come. -/
def HeadFirst (s : Sched) (now : ℕ × ℕ) : Prop :=
  (∃ p ∈ s.processList, s.isDue now p = true) → ∀ first ∈ s.sleep.head,
  (s.sleep.nodes first).due now.1 now.2 = true

instance (s : Sched) (now : ℕ × ℕ) : Decidable (s.HeadFirst now) := by
  dsimp only [HeadFirst]
  infer_instance

theorem Pending.all_due (h : s.Pending (p :: l)) {now : ℕ × ℕ}
    (hdue : (s.sleep.nodes p).due now.1 now.2 = true) :
    ∀ n ∈ p :: l, (s.sleep.nodes n).due now.1 now.2 = true := by
  intro n hn
  rcases List.mem_cons.mp hn with rfl | hn
  · exact hdue
  · rw [WaitNode.due_iff] at hdue ⊢
    exact ((List.pairwise_cons.mp h.queued.sorted).1 n hn).trans hdue

theorem Expired.refl {now : ℕ × ℕ} (h : ∀ p, s.isDue now p = false) : Expired s s now where
  ready := ⟨[],by simp,List.nodup_nil,fun p => by simp [h p]⟩
  ran := fun p hp => by
    rw [h p] at hp
    cases hp
  other := fun _ _ => rfl

theorem Timed.tick (h : s.Timed) (hs : s.Core) (hl : s.Pending l) {ticks : ℕ}
    (hfirst : s.HeadFirst (clock ticks)) :
    ∃ t, s.kProcProcessUpdateTimings ticks = .ok t ∧ Expired s t (clock ticks) ∧
      t.Pending (l.filter fun n => !(s.sleep.nodes n).due (clock ticks).1 (clock ticks).2) := by
  have hmem : ∀ n ∈ l, ∃ p ∈ s.processList, (s.tasks p).holds n = true := by
    intro n hn
    obtain ⟨p,hp⟩ := (hl.mem_iff n).mp hn
    exact ⟨p,hs.sleeping_mem (h.holder_sleeps hp),hp⟩
  rw [kProcProcessUpdateTimings]
  by_cases hall : ∀ n ∈ l, (s.sleep.nodes n).due (clock ticks).1 (clock ticks).2 = true
  · have hfuel : l.length < (s.sleep.nextNode+1)*(s.sleep.nextNode+1) := by
      have := hl.queued.length_le
      nlinarith
    obtain ⟨t,ht,htl,hready,hrun,hother⟩ := Timed.expire (clock ticks) l s _ h hs hl hfuel hall
    have hdue : ∀ p, s.isDue (clock ticks) p = true ↔ ∃ n ∈ l, (s.sleep.nodes n).process = p := by
      intro p
      rw [isDue_iff]
      constructor
      · rintro ⟨n,hn,-⟩
        exact ⟨n,(hl.mem_iff n).mpr ⟨p,hn⟩,hl.owner p n hn⟩
      · rintro ⟨n,hn,rfl⟩
        obtain ⟨p,hp⟩ := (hl.mem_iff n).mp hn
        rw [hl.owner p n hp]
        exact ⟨n,hp,hall n hn⟩
    refine ⟨t,ht,⟨⟨_,hready,?_,fun p => ?_⟩,fun p hp => ?_,fun p hp => ?_⟩,?_⟩
    · refine hl.queued.nodup.map_on fun m hm n hn heq => ?_
      obtain ⟨p,hp⟩ := (hl.mem_iff m).mp hm
      obtain ⟨x,hx⟩ := (hl.mem_iff n).mp hn
      rw [hl.owner p m hp,hl.owner x n hx] at heq
      exact Task.holds_unique (hl.single p) hp (heq ▸ hx)
    · rw [List.mem_map,hdue]
    · obtain ⟨n,hn,rfl⟩ := (hdue p).mp hp
      refine ⟨hrun n hn,fun m => ?_⟩
      by_contra hc
      exact absurd ((htl.mem_iff m).mpr ⟨_,by simpa using hc⟩) List.not_mem_nil
    · refine hother p fun n => ?_
      by_contra hc
      have hpn : (s.tasks p).holds n = true := by simpa using hc
      rw [(hdue p).mpr ⟨n,(hl.mem_iff n).mpr ⟨p,hpn⟩,hl.owner p n hpn⟩] at hp
      cases hp
    · have hnil : l.filter (fun n => !(s.sleep.nodes n).due (clock ticks).1 (clock ticks).2) = [] :=
        List.filter_eq_nil_iff.mpr fun n hn => by simp [hall n hn]
      rw [hnil]
      exact htl
  · -- the first node is not due, and so nobody is
    obtain ⟨n,l',rfl⟩ : ∃ n l', l = n :: l' := by
      cases l with
      | nil => exact absurd (fun n hn => absurd hn List.not_mem_nil) hall
      | cons n l' => exact ⟨n,l',rfl⟩
    have hhead : s.sleep.head = some n := hl.queued.segment.1
    have hnot : (s.sleep.nodes n).due (clock ticks).1 (clock ticks).2 = false := by
      by_contra hc
      exact hall (hl.all_due (by simpa using hc))
    have hnone : ∀ p, s.isDue (clock ticks) p = false := by
      intro p
      by_contra hc
      have hp : s.isDue (clock ticks) p = true := by simpa using hc
      obtain ⟨m,hm,-⟩ := isDue_iff.mp hp
      have hdue := hfirst ⟨p,hs.sleeping_mem (h.holder_sleeps hm),hp⟩ n hhead
      rw [hnot] at hdue
      cases hdue
    refine ⟨s,?_,Expired.refl hnone,?_⟩
    · obtain ⟨fuel,hfuel⟩ : ∃ m, (s.sleep.nextNode+1)*(s.sleep.nextNode+1) = m+1 :=
        ⟨_,Nat.succ_mul _ _⟩
      rw [hfuel,wakeupTiming]
      simp only [hhead]
      exact if_neg (by simpa [clock] using hnot)
    · rw [List.filter_eq_self.mpr fun m hm => ?_]
      · exact hl
      · obtain ⟨p,-,hp⟩ := hmem m hm
        by_contra hc
        have hp' := isDue_iff.mpr ⟨m,hp,by simpa using hc⟩
        rw [hnone p] at hp'
        cases hp'

/-- New deadlines find the queue empty or a later one at its head, at a tick the head is due
or nobody is, and no terminal sends signals to processes that have finished. -/
def Timely (s : Sched) : Event → Prop
  | .sleep ticks microseconds => s.sleep.Accepts (sleepDeadline ticks microseconds)
  | .select _ timeout => ∀ tv ∈ timeout, s.sleep.Accepts tv.deadline
  | .tick ticks => s.HeadFirst (clock ticks)
  | e => s.SparesFinished e

instance (s : Sched) (e : Event) : Decidable (s.Timely e) := by
  induction e using Event.casesOn <;> dsimp only [Timely] <;> infer_instance

theorem Timely.spares {e : Event} (h : s.Timely e) : s.SparesFinished e := by
  cases e with
  | terminal pid sig => exact h
  | _ => trivial

theorem Timed.step (h : s.Timed) (hs : s.Inv) {e : Event} (hen : s.Enabled e) (hok : s.Timely e)
    (hret : s.step e = .ok t) : t.Timed := by
  have hf := not_finished_of_schedulable hs.current_runs
  cases e with
  | fork => exact h.create hs.core ⟨rfl,rfl,rfl,rfl,rfl⟩ (hs.current_mem.resolve_left hen.1) hret
  | tasklet => exact h.create hs.core ⟨rfl,rfl,rfl,rfl,rfl⟩ hs.tree.root_mem hret
  | yield => exact h.yield hs hret
  | sleepOnQueue q => exact h.sleepOnQueue hs hen.1 (fun r hr => by cases hr) hret
  | select qs timeout => exact h.select hs hen.1 hok hret
  | sleep ticks microseconds => exact h.sleep hs hen.1 hok hret
  | wakeup q => exact h.wakes (wakeupQueue_spec hs.core hret).wakes
  | wakeupSingle q =>
    rcases wakeupSingle_spec hs.core hret with ⟨-,rfl⟩ | ⟨p,-,-,hw⟩
    · exact h
    · exact h.roused hw
  | wakeupSelect q node event => exact h.wakes (wakeupQueueSelect_spec hs.core hret).wakes
  | kill pid sig =>
    rcases kill_spec hret with rfl | ⟨p,hp,hpf,hsend⟩
    · exact h
    · exact h.sendSignal hs.core hp hpf hsend
  | terminal pid sig =>
    rcases terminal_spec hok hret with rfl | ⟨p,hp,hpf,hsend⟩
    · exact h
    · exact h.sendSignal hs.core hp hpf hsend
  | fault sig => exact h.sendSignal hs.core (hs.current_mem.resolve_left hen.1) hf hret
  | tick ticks =>
    obtain ⟨l,hl⟩ := h.pending
    obtain ⟨u,hu,hexpired,hul⟩ := h.tick hs.core hl hok
    obtain rfl := Except.ok.inj (hret.symm.trans hu)
    refine ⟨⟨_,hul⟩,fun x hx => ?_⟩
    by_cases hdue : s.isDue (clock ticks) x = true
    · have hfree := (hexpired.ran x hdue).2
      refine ⟨Option.eq_none_iff_forall_ne_some.mpr fun n hn => ?_,
        Option.eq_none_iff_forall_ne_some.mpr fun n hn => ?_⟩
      · exact absurd ((Task.holds_iff _ n).mpr (Or.inl hn)) (by simp [hfree n])
      · exact absurd ((Task.holds_iff _ n).mpr (Or.inr hn)) (by simp [hfree n])
    · rw [hexpired.other x (by simpa using hdue)] at hx ⊢
      exact h.awake x hx
  | exit => exact h.exit hs hen.1 hret
  | waitpid pid options =>
    rcases waitpid_spec hret with rfl | ⟨r,hv⟩
    · exact h
    · exact h.waitpidLoop hs hen.1 hv
  | resume =>
    rcases resume_spec hret with rfl | ⟨pid,options,r,hv⟩
    · exact h
    · exact h.waitpidLoop hs hen hv

theorem boot_timed : boot.Timed where
  pending := by
    refine ⟨[],⟨rfl,List.Pairwise.nil,fun _ hn => absurd hn List.not_mem_nil⟩,fun n => ?_,
      fun p n hp => ?_,fun _ => Or.inl rfl⟩
    · refine iff_of_false List.not_mem_nil ?_
      rintro ⟨p,hp⟩
      cases hp
    · cases hp
  awake := fun _ _ => ⟨rfl,rfl⟩

/-- The queue of sleepers ends, it holds the nodes of the processes that wait for a time, each
once, and a tick makes ready exactly those whose time has come. -/
theorem timed_sleep (h : Relation.ReflTransGen (Step Timely) boot s) :
    ∃ l, Segment s.sleep.next s.sleep.head l none ∧ l.Nodup ∧
    (∀ n, n ∈ l ↔ ∃ p, (s.tasks p).holds n = true) ∧
      ∀ ticks, s.Timely (.tick ticks) → ∃ t, s.kProcProcessUpdateTimings ticks = .ok t ∧
      Expired s t (clock ticks) ∧ Segment t.sleep.next t.sleep.head
          (l.filter fun n => !(s.sleep.nodes n).due (clock ticks).1 (clock ticks).2) none := by
  obtain ⟨hs,ht⟩ : s.Inv ∧ s.Timed := by
    refine reach_invariant (I:=fun s => s.Inv ∧ s.Timed) ?_ ⟨boot_inv,boot_timed⟩ h
    rintro s t ⟨hs,ht⟩ ⟨e,hen,hal,hret⟩
    exact ⟨hs.step hen hal.spares hret,ht.step hs hen hal hret⟩
  obtain ⟨l,hl⟩ := ht.pending
  refine ⟨l,hl.queued.segment,hl.queued.nodup,hl.mem_iff,fun ticks hok => ?_⟩
  obtain ⟨t,hret,hexpired,htl⟩ := ht.tick hs.core hl hok
  exact ⟨t,hret,hexpired,htl.queued.segment⟩

/-- The root sleeps for 5 ms and its child for 1 ms; after 2 ms the root is still the first in
the queue, after 6 ms both are woken. -/
theorem timed_sleep_two : ∃ s t : Sched, ¬ s.Timely (.tick 2000) ∧ s.Timely (.tick 6000) ∧
    s.kProcProcessUpdateTimings 6000 = .ok t ∧ (t.tasks ROOT).state = .running ∧
    (t.tasks 2).state = .running ∧
    ∃ l, Segment s.sleep.next s.sleep.head l none ∧ l.Nodup ∧ ∀ n, n ∈ l ↔
    ∃ p, (s.tasks p).holds n = true := by
  obtain ⟨s,hs,hps⟩ := exists_of_run Timely [.fork,.sleep 0 5000,.sleep 0 1000] (s:=boot)
    (fun s => ¬ s.Timely (.tick 2000) ∧ s.Timely (.tick 6000) ∧ s.isDue (clock 6000) ROOT = true ∧
      s.isDue (clock 6000) 2 = true) (by decide +kernel)
  obtain ⟨hlate,hok,hroot,hchild⟩ := of_decide_eq_true hps
  obtain ⟨l,hseg,hnodup,hmem,htick⟩ := timed_sleep hs
  obtain ⟨t,hret,hexpired,-⟩ := htick 6000 hok
  exact ⟨s,t,hlate,hok,hret,(hexpired.ran _ hroot).1,(hexpired.ran _ hchild).1,l,hseg,hnodup,hmem⟩

/-- The child sleeps longer than the root, so that its node comes in behind the root's and
points back to it. -/
theorem timed_sleep_circular : ∃ s : Sched, Relation.ReflTransGen (Step fun _ _ => True) boot s ∧
    ∀ l, ¬ Segment s.sleep.next s.sleep.head l none := by
  obtain ⟨s,hs,hps⟩ := exists_of_run (fun _ _ => True) [.fork,.sleep 0 1000,.sleep 0 5000] (s:=boot)
    (fun s => s.sleep.head = some 0 ∧ s.sleep.next 0 = some 1 ∧ s.sleep.next 1 = some 0) (by
      decide +kernel)
  obtain ⟨hhead,hzero,hone⟩ := of_decide_eq_true hps
  refine ⟨s,hs,fun l hl => ?_⟩
  rw [hhead] at hl
  -- from the first node the links lead through both nodes back to it
  have hround : Segment s.sleep.next (some 0) (0 :: 1 :: l) none := ⟨rfl,hzero,hone ▸ hl⟩
  have hlength : l.length = l.length+2 := congrArg List.length (hl.unique hround)
  omega

end Sched
end ScalesOS
