import ScalesOS.Wakeups

/-!
# The state of the kernel between steps

What holds of processes, queues and the process tree whenever the kernel is left, and in
the middle of a call up to the process that makes it. A process that is not asleep is on no
queue, a finished process is on none and has no block node any more, and its children have
been handed to the root.
-/

namespace ScalesOS
namespace Sched

variable {s t : Sched} {p : ℕ} {q : Queue}

/-- The part about processes and queues. It does not mention the current process. -/
structure Core (s : Sched) : Prop where
  block : ∀ p, s.BlockOk p
  awake : ∀ p, (s.tasks p).state ≠ .sleeping → (s.tasks p).owners = []
  own_wait : ∀ p r, .wait r ∈ (s.tasks p).owners → r = p
  freed : ∀ p, (s.tasks p).blockFreed = true → (s.tasks p).state = .finished
  ready : ∀ p ∈ s.readyQueue, IDLE < p ∧ p < s.nextPid
  known : ∀ p, IDLE < p → p < s.nextPid → p ∈ s.processList ∨ p ∈ s.destroyed
  listed : ∀ p ∈ s.processList, IDLE < p ∧ p < s.nextPid ∧ p ∉ s.destroyed
  gone : ∀ p ∈ s.destroyed, IDLE < p ∧ p < s.nextPid ∧ (s.tasks p).state = .finished
  fresh : ∀ p, s.nextPid ≤ p → s.tasks p = .empty
  idle : (s.tasks IDLE).isSchedulable = true
  sleepers : ∀ n, IDLE < (s.sleep.nodes n).process ∧ (s.sleep.nodes n).process < s.nextPid
  stale : s.staleUse = false

structure Tree (s : Sched) : Prop where
  root_mem : ROOT ∈ s.processList
  root_parent : (s.tasks ROOT).parent = none
  nodup : s.processList.Nodup
  parent : ∀ p ∈ s.processList, p ≠ ROOT → ∃ q, (s.tasks p).parent = some q ∧
    q ∈ s.processList ∧ q < p ∧ (s.tasks q).state ≠ .finished
  children : ∀ q ∈ s.processList, (s.tasks q).state ≠ .finished → ∀ c,
    c ∈ (s.tasks q).children ↔ c ∈ s.processList ∧ (s.tasks c).parent = some q
  children_nodup : ∀ q ∈ s.processList, (s.tasks q).state ≠ .finished → (s.tasks q).children.Nodup

structure Inv (s : Sched) : Prop where
  core : s.Core
  tree : s.Tree
  current_mem : s.current = IDLE ∨ s.current ∈ s.processList
  current_runs : (s.tasks s.current).isSchedulable = true

theorem not_finished_of_schedulable {t : Task} (h : t.isSchedulable = true) :
    t.state ≠ .finished := by
  intro hf
  rw [Task.isSchedulable,hf] at h
  cases h

theorem not_sleeping_of_schedulable {t : Task} (h : t.isSchedulable = true) :
    t.state ≠ .sleeping := by
  intro hf
  rw [Task.isSchedulable,hf] at h
  cases h

theorem schedulable_of {t : Task} (hf : t.state ≠ .finished) (hs : t.state ≠ .sleeping) :
    t.isSchedulable = true := by
  rw [Task.isSchedulable]
  cases h : t.state with
  | starting => rfl
  | running => rfl
  | finished => exact absurd h hf
  | sleeping => exact absurd h hs

theorem Core.pos_lt (h : s.Core) (hp : p ∈ s.processList) : IDLE < p ∧ p < s.nextPid :=
  ⟨(h.listed p hp).1,(h.listed p hp).2.1⟩

/-- A process that has been created and has not finished is in the list. -/
theorem Core.mem_of_alive (h : s.Core) (h0 : IDLE < p) (hp : p < s.nextPid)
    (hf : (s.tasks p).state ≠ .finished) :
    p ∈ s.processList := by
  rcases h.known p h0 hp with hmem | hgone
  · exact hmem
  · exact absurd (h.gone p hgone).2.2 hf

theorem Core.sleeping_mem (h : s.Core) (hs : (s.tasks p).state = .sleeping) :
    p ∈ s.processList := by
  have h0 : IDLE < p := by
    rcases Nat.eq_zero_or_pos p with rfl | hpos
    · exact absurd hs (not_sleeping_of_schedulable h.idle)
    · exact hpos
  have hlt : p < s.nextPid := by
    by_contra hge
    rw [h.fresh p (by omega)] at hs
    cases hs
  exact h.mem_of_alive h0 hlt (by rw [hs]; decide)

theorem Core.sleeping_of_mem (h : s.Core) (hp : p ∈ s.queues q) :
    (s.tasks p).state = .sleeping := by
  by_contra hns
  have hcount := h.block p q
  rw [h.awake p hns,List.count_nil] at hcount
  exact List.count_eq_zero.mp hcount hp

theorem Core.mem_queue_iff (h : s.Core) : p ∈ s.queues q ↔ q ∈ (s.tasks p).owners := by
  rw [← List.count_pos_iff,← List.count_pos_iff,h.block p q]

/-! ## Changes that keep it -/

theorem rest_eq {a b : Task} (h : a.rest = b.rest) : a.groupId = b.groupId ∧ a.parent = b.parent ∧
    a.children = b.children ∧ a.waiting = b.waiting ∧ a.signals = b.signals :=
  ⟨(congrArg Task.groupId h : a.rest.groupId = b.rest.groupId),
    (congrArg Task.parent h : a.rest.parent = b.rest.parent),
    (congrArg Task.children h : a.rest.children = b.rest.children),
    (congrArg Task.waiting h : a.rest.waiting = b.rest.waiting),
    (congrArg Task.signals h : a.rest.signals = b.rest.signals)⟩

theorem Touches.rest_all (h : Touches s t p) (x : ℕ) : (t.tasks x).rest = (s.tasks x).rest := by
  by_cases hx : x = p
  · rw [hx]
    exact h.rest
  · rw [h.tasks x hx]

theorem Tree.congr (h : s.Tree) (hlist : t.processList = s.processList)
    (hparent : ∀ x, (t.tasks x).parent = (s.tasks x).parent)
    (hchildren : ∀ x, (t.tasks x).children = (s.tasks x).children)
    (hstate : ∀ x, (t.tasks x).state = .finished ↔ (s.tasks x).state = .finished) : t.Tree where
  root_mem := hlist ▸ h.root_mem
  root_parent := (hparent ROOT).trans h.root_parent
  nodup := hlist ▸ h.nodup
  parent := by
    intro x hx hne
    rw [hlist] at hx
    obtain ⟨q,hq,hmem,hlt,hf⟩ := h.parent x hx hne
    exact ⟨q,(hparent x).trans hq,hlist ▸ hmem,hlt,fun hc => hf ((hstate q).mp hc)⟩
  children := by
    intro q hq hf c
    rw [hlist] at hq ⊢
    rw [hchildren,hparent]
    exact h.children q hq (fun hc => hf ((hstate q).mpr hc)) c
  children_nodup := by
    intro q hq hf
    rw [hlist] at hq
    rw [hchildren]
    exact h.children_nodup q hq fun hc => hf ((hstate q).mpr hc)

/-- A change to one process that has not finished and does not finish. -/
theorem Core.touches (h : s.Core) (ht : Touches s t p) (hp : p ∈ s.processList)
    (hf : (s.tasks p).state ≠ .finished) (hf' : (t.tasks p).state ≠ .finished) (hb : t.BlockOk p)
    (hawake : (t.tasks p).state ≠ .sleeping → (t.tasks p).owners = [])
    (hwait : ∀ r, .wait r ∈ (t.tasks p).owners → r = p)
    (hready : ∀ x ∈ t.readyQueue, x ∈ s.readyQueue ∨ x = p) : t.Core := by
  have hpos := h.pos_lt hp
  have hstate : ∀ x, (t.tasks x).state = .finished ↔ (s.tasks x).state = .finished := by
    intro x
    by_cases hx : x = p
    · subst hx
      exact iff_of_false hf' hf
    · rw [ht.tasks x hx]
  refine ⟨ht.blockOk h.block hb,fun x => ?_,fun x => ?_,fun x hx => ?_,fun x hx => ?_,?_,?_,?_,
    fun x hx => ?_,?_,fun n => ?_,?_⟩
  · by_cases hx : x = p
    · subst hx
      exact hawake
    · rw [ht.tasks x hx]
      exact h.awake x
  · by_cases hx : x = p
    · subst hx
      exact hwait
    · rw [ht.tasks x hx]
      exact h.own_wait x
  · rw [rest_freed (ht.rest_all x)] at hx
    exact (hstate x).mpr (h.freed x hx)
  · rw [ht.nextPid_eq]
    rcases hready x hx with hmem | rfl
    · exact h.ready x hmem
    · exact hpos
  · rw [ht.list_eq,ht.nextPid_eq,ht.destroyed_eq]
    exact h.known
  · rw [ht.list_eq,ht.nextPid_eq,ht.destroyed_eq]
    exact h.listed
  · rw [ht.destroyed_eq,ht.nextPid_eq]
    exact fun x hx => ⟨(h.gone x hx).1,(h.gone x hx).2.1,(hstate x).mpr (h.gone x hx).2.2⟩
  · rw [ht.nextPid_eq] at hx
    rw [ht.tasks x (by omega)]
    exact h.fresh x hx
  · rw [ht.tasks IDLE (by omega)]
    exact h.idle
  · rw [ht.sleepers n,ht.nextPid_eq]
    exact h.sleepers n
  · by_contra hstale
    rcases ht.stale (by simpa using hstale) with hs | hs
    · rw [h.stale] at hs
      cases hs
    · exact hf (h.freed p hs)

theorem Tree.touches (h : s.Tree) (ht : Touches s t p) (hf : (s.tasks p).state ≠ .finished)
    (hf' : (t.tasks p).state ≠ .finished) : t.Tree := by
  refine h.congr ht.list_eq (fun x => (rest_eq (ht.rest_all x)).2.1) (fun x =>
    (rest_eq (ht.rest_all x)).2.2.1)
    fun x => ?_
  by_cases hx : x = p
  · subst hx
    exact iff_of_false hf' hf
  · rw [ht.tasks x hx]

theorem Core.woken (h : s.Core) (ht : Woken s t p) (hp : p ∈ s.processList)
    (hf : (s.tasks p).state ≠ .finished) :
    t.Core := by
  have hrun := ht.state_eq
  refine h.touches ht.toTouches hp hf (by
    rw [hrun]; decide) (ht.blockOk h.block p) (fun _ => ht.owners_eq)
    (fun r hr => ?_) fun x hx => ?_
  · rw [ht.owners_eq] at hr
    cases hr
  rw [ht.ready_eq,List.mem_append,List.mem_singleton] at hx
  exact hx

theorem Tree.woken (h : s.Tree) (ht : Woken s t p) (hf : (s.tasks p).state ≠ .finished) : t.Tree :=
  h.touches ht.toTouches hf (by rw [ht.state_eq]; decide)

def Wake (s t : Sched) : Prop := ∃ p, (s.tasks p).state = .sleeping ∧ Roused s t p

theorem Wake.core (h : Wake s t) (hs : s.Core) : t.Core := by
  obtain ⟨p,hp,hw⟩ := h
  exact hs.woken hw.toWoken (hs.sleeping_mem hp) (by rw [hp]; decide)

theorem Wake.tree (h : Wake s t) (hs : s.Tree) : t.Tree := by
  obtain ⟨p,hp,hw⟩ := h
  exact hs.woken hw.toWoken (by rw [hp]; decide)

/-! ## Waking a queue -/

def Wakes : Sched → Sched → Prop := Relation.ReflTransGen Wake

theorem Wakes.core (h : Wakes s t) (hs : s.Core) : t.Core :=
  reach_invariant (fun _ _ hs hw => hw.core hs) hs h

theorem Wakes.tree (h : Wakes s t) (hs : s.Tree) : t.Tree :=
  reach_invariant (fun _ _ hs hw => hw.tree hs) hs h

theorem length_lt_of_count {l l' : List ℕ} (hle : ∀ x, l'.count x ≤ l.count x)
    (hlt : l'.count p < l.count p) :
    l'.length < l.length := by
  have hsub : (l' : Multiset ℕ) ≤ l := Multiset.le_iff_count.mpr fun x => by simpa using hle x
  have hne : (l' : Multiset ℕ) ≠ l := fun heq => by
    have := congrArg (Multiset.count p) heq
    simp at this
    omega
  simpa using Multiset.card_lt_card (lt_of_le_of_ne hsub hne)

theorem Woken.length_lt (h : Woken s t p) (hp : p ∈ s.queues q) :
    (t.queues q).length < (s.queues q).length := by
  refine length_lt_of_count (p:=p) (fun x => ?_) ?_
  · by_cases hx : x = p
    · rw [hx,h.off_queues]
      exact Nat.zero_le _
    · exact (h.count q x hx).le
  · rw [h.off_queues]
    exact List.count_pos_iff.mpr hp

theorem Woken.mem_queue (h : Woken s t p) {x : ℕ} : x ∈ t.queues q ↔ x ∈ s.queues q ∧ x ≠ p := by
  by_cases hx : x = p
  · subst hx
    refine iff_of_false (List.count_eq_zero.mp (h.off_queues q)) fun hc => hc.2 rfl
  · rw [← List.count_pos_iff,h.count q x hx,List.count_pos_iff]
    exact ⟨fun hm => ⟨hm,hx⟩,fun hm => hm.1⟩

theorem wakeupSingle_spec (hs : s.Core) (h : s.kProcProcessWakeupQueueSingle q = .ok t) :
    (s.queues q = [] ∧ t = s) ∨ ∃ p, (s.queues q).getLast? = some p ∧
    (s.tasks p).state = .sleeping ∧ Roused s t p := by
  rw [kProcProcessWakeupQueueSingle] at h
  cases hq : s.queues q with
  | nil =>
    rw [hq] at h
    exact Or.inl ⟨rfl,(Except.ok.inj h).symm⟩
  | cons a l =>
    have hlast : ∃ p, (s.queues q).getLast? = some p :=
      ⟨_,List.getLast?_eq_some_getLast (by rw [hq]; simp)⟩
    obtain ⟨p,hp⟩ := hlast
    have hsleep := hs.sleeping_of_mem (List.mem_of_getLast? hp)
    rw [hq,List.length_cons,wakeupSingle,hp] at h
    dsimp only at h
    have htask : (s.popBlock q p).tasks p = (s.tasks p).disown q :=
      modify_self (s.touch p) p (.disown q)
    have hwake : (s.popBlock q p).isWakeable p = true := by
      rw [isWakeable,htask,Task.disown,Task.isSchedulable,hsleep]
      rfl
    rw [if_pos hwake] at h
    have hb := popBlock_blockOk (hs.block p) hp
    have hroused := markReady_roused (hb.modify (.setState .running) rfl) h
    refine Or.inr ⟨p,by rw [← hq]; exact hp,hsleep,?_⟩
    exact ((popBlock_touches hp).trans (modify_touches _ p (.setState .running) fun _ =>
      rfl)).roused rfl
      ((popBlock_timers s q p).trans (modify_timers _ p (.setState .running) (fun _ =>
        rfl) fun _ => rfl)) hroused

structure QueueWoken (s t : Sched) (q : Queue) : Prop where
  wakes : Wakes s t
  empty : t.queues q = []
  other : ∀ x, x ∉ s.queues q → t.tasks x = s.tasks x
  off : ∀ x ∈ s.queues q, (t.tasks x).state = .running ∧ ∀ q', x ∉ t.queues q'
  current_eq : t.current = s.current

theorem QueueWoken.refl (h : s.queues q = []) : QueueWoken s s q :=
  ⟨.refl,h,fun _ _ => rfl,fun x hx => absurd hx (by rw [h]; exact List.not_mem_nil),rfl⟩

theorem QueueWoken.head {u : Sched} (hp : p ∈ s.queues q) (hsleep : (s.tasks p).state = .sleeping)
    (hw : Roused s u p)
    (h : QueueWoken u t q) (hother : ∀ x q', x ∉ u.queues q' → x ∉ t.queues q') :
    QueueWoken s t q where
  wakes := .head ⟨p,hsleep,hw⟩ h.wakes
  empty := h.empty
  other := by
    intro x hx
    have hne : x ≠ p := fun heq => hx (heq ▸ hp)
    rw [h.other x fun hm => hx (hw.mem_queue.mp hm).1,hw.tasks x hne]
  off := by
    intro x hx
    by_cases hxp : x = p
    · subst hxp
      have hout : ∀ q', x ∉ u.queues q' := fun q' => List.count_eq_zero.mp (hw.off_queues q')
      rw [h.other x (hout q)]
      exact ⟨hw.state_eq,fun q' => hother x q' (hout q')⟩
    · exact h.off x (hw.mem_queue.mpr ⟨hx,hxp⟩)
  current_eq := h.current_eq.trans hw.current_eq

theorem Wakes.off_queue (h : Wakes s t) {x : ℕ} (hx : x ∉ s.queues q) : x ∉ t.queues q := by
  induction h with
  | refl => exact hx
  | tail _ hw ih =>
    obtain ⟨p,-,hw⟩ := hw
    exact fun hm => ih (hw.mem_queue.mp hm).1

theorem QueueWoken.next {u : Sched} {n : ℕ} (hs : s.Core) (hq : s.queues q ≠ [])
    (hlen : (s.queues q).length ≤ n+1)
    (hone : (s.queues q = [] ∧ u = s) ∨ ∃ p, (s.queues q).getLast? = some p ∧
      (s.tasks p).state = .sleeping ∧ Roused s u p)
    (hrest : u.Core → (u.queues q).length ≤ n → QueueWoken u t q) : QueueWoken s t q := by
  rcases hone with ⟨hnil,-⟩ | ⟨p,hp,hsleep,hw⟩
  · exact absurd hnil hq
  · have hmem := List.mem_of_getLast? hp
    have hlt := hw.length_lt hmem
    have hwoken := hrest (Wake.core ⟨p,hsleep,hw⟩ hs) (by omega)
    exact .head hmem hsleep hw hwoken fun x q' hx => hwoken.wakes.off_queue hx

theorem wakeupAll_spec (n : ℕ) : ∀ s, s.Core → (s.queues q).length ≤ n → wakeupAll q n s = .ok t →
    QueueWoken s t q := by
  induction n with
  | zero =>
    intro s _ hlen h
    obtain rfl := Except.ok.inj h
    exact QueueWoken.refl (List.length_eq_zero_iff.mp (by omega))
  | succ n ih =>
    intro s hs hlen h
    rw [wakeupAll] at h
    split at h
    · rename_i hq
      obtain rfl := Except.ok.inj h
      exact QueueWoken.refl hq
    · rename_i hq
      obtain ⟨u,hu,h⟩ := Result.bind_eq_ok.mp h
      exact .next hs hq hlen (wakeupSingle_spec hs hu) fun hu hle => ih u hu hle h

theorem wakeupQueue_spec (hs : s.Core) (h : s.kProcProcessWakeupQueue q = .ok t) :
    QueueWoken s t q :=
  wakeupAll_spec _ s hs le_rfl h

theorem wakeupSingleSelect_spec (hs : s.Core) {node event : ℕ}
    (h : s.kProcProcessWakeupQueueSingleSelect q node event = .ok t) :
    (s.queues q = [] ∧ t = s) ∨ ∃ p, (s.queues q).getLast? = some p ∧
    (s.tasks p).state = .sleeping ∧ Roused s t p := by
  rw [kProcProcessWakeupQueueSingleSelect] at h
  cases hq : s.queues q with
  | nil =>
    rw [hq] at h
    exact Or.inl ⟨rfl,(Except.ok.inj h).symm⟩
  | cons a l =>
    obtain ⟨p,hp⟩ : ∃ p, (s.queues q).getLast? = some p :=
      ⟨_,List.getLast?_eq_some_getLast (by rw [hq]; simp)⟩
    have hsleep := hs.sleeping_of_mem (List.mem_of_getLast? hp)
    rw [hq,List.length_cons,wakeupSingleSelect,hp] at h
    dsimp only at h
    have htask :
        ((s.popBlock q p).kProcProcessReleaseBlock p).tasks p = ((s.tasks p).disown q).release := by
      rw [releaseBlock_task]
      exact congrArg Task.release (modify_self (s.touch p) p (.disown q))
    have hwake : ((s.popBlock q p).kProcProcessReleaseBlock p).isWakeable p = true := by
      rw [isWakeable,htask,Task.release,Task.disown,Task.isSchedulable,hsleep]
      rfl
    rw [if_pos hwake] at h
    obtain ⟨u,hu,h⟩ := Result.bind_eq_ok.mp h
    have htimers := (((popBlock_timers s q p).trans (releaseBlock_timers _ p)).trans
      (modify_timers _ p (.setState .running) (fun _ => rfl) fun _ => rfl)).trans
      (modify_timers _ p (.select (some node) event) (fun _ => rfl) fun _ => rfl)
    have hforgets := htimers.forgets (dropTimeout_forgets hu (markReady_forgets h))
    obtain ⟨sleep,hsl,hret⟩ := Result.bind_eq_ok.mp hu
    obtain rfl := Except.ok.inj hret
    have htouch : Touches s _ p := ((((popBlock_touches hp).trans (releaseBlock_touches _ p)).trans
      (modify_touches _ p (.setState .running) fun _ => rfl)).trans
      (modify_touches _ p (.select (some node) event) fun _ => rfl)).trans
      ((modify_touches _ p (fun t => { t with timeoutNode := none }) fun _ => rfl).trans
      (setSleep_touches _ (SleepQueue.remove_same hsl)))
    have hb := releaseBlock_blockOk (popBlock_blockOk (hs.block p) hp)
    have hb' :=
      (((hb.modify (.setState .running) rfl).modify (.select (some node) event) rfl).modify
      (fun t => { t with timeoutNode := none }) rfl).setSleep sleep
    have hwoken := (markReady_woken hb' h).1
    exact Or.inr ⟨p,by rw [← hq]; exact hp,hsleep,htouch.woken rfl hwoken,hforgets⟩

theorem wakeupAllSelect_spec {node event : ℕ} (n : ℕ) : ∀ s, s.Core → (s.queues q).length ≤ n →
    wakeupAllSelect q node event n s = .ok t → QueueWoken s t q := by
  induction n with
  | zero =>
    intro s _ hlen h
    obtain rfl := Except.ok.inj h
    exact QueueWoken.refl (List.length_eq_zero_iff.mp (by omega))
  | succ n ih =>
    intro s hs hlen h
    rw [wakeupAllSelect] at h
    split at h
    · rename_i hq
      obtain rfl := Except.ok.inj h
      exact QueueWoken.refl hq
    · rename_i hq
      obtain ⟨u,hu,h⟩ := Result.bind_eq_ok.mp h
      exact .next hs hq hlen (wakeupSingleSelect_spec hs hu) fun hu hle => ih u hu hle h

theorem wakeupQueueSelect_spec (hs : s.Core) {node event : ℕ}
    (h : s.kProcProcessWakeupQueueSelect q node event = .ok t) :
    QueueWoken s t q :=
  wakeupAllSelect_spec _ s hs le_rfl h

/-! ## Other fields of a process -/

/-- Two states that differ only in fields of processes that have nothing to do with
queues. -/
structure SameQueues (s t : Sched) : Prop where
  queues_eq : t.queues = s.queues
  ready_eq : t.readyQueue = s.readyQueue
  current_eq : t.current = s.current
  list_eq : t.processList = s.processList
  nextPid_eq : t.nextPid = s.nextPid
  destroyed_eq : t.destroyed = s.destroyed
  sleep_eq : t.sleep = s.sleep
  stale_eq : t.staleUse = s.staleUse
  state_eq : ∀ x, (t.tasks x).state = (s.tasks x).state
  owners_eq : ∀ x, (t.tasks x).owners = (s.tasks x).owners
  freed_eq : ∀ x, (t.tasks x).blockFreed = (s.tasks x).blockFreed
  fresh_eq : ∀ x, s.nextPid ≤ x → t.tasks x = s.tasks x

theorem modify_field {α : Type} (g : Task → α) {f : Task → Task}
    (h : g (f (s.tasks p)) = g (s.tasks p)) (x : ℕ) :
    g ((s.modify p f).tasks x) = g (s.tasks x) := by
  by_cases hx : x = p
  · subst hx
    rw [modify_self,h]
  · rw [modify_other s f hx]

theorem modify_same (f : Task → Task) (hp : p < s.nextPid) (hs : ∀ t, (f t).state = t.state)
    (ho : ∀ t, (f t).owners = t.owners) (hf : ∀ t, (f t).blockFreed = t.blockFreed) :
    SameQueues s (s.modify p f) where
  queues_eq := rfl
  ready_eq := rfl
  current_eq := rfl
  list_eq := rfl
  nextPid_eq := rfl
  destroyed_eq := rfl
  sleep_eq := rfl
  stale_eq := rfl
  state_eq := modify_field Task.state (hs _)
  owners_eq := modify_field Task.owners (ho _)
  freed_eq := modify_field Task.blockFreed (hf _)
  fresh_eq := fun x hx => modify_other s f (show x ≠ p by omega)

theorem SameQueues.trans {u : Sched} (h : SameQueues s t) (h' : SameQueues t u) :
    SameQueues s u where
  queues_eq := h'.queues_eq.trans h.queues_eq
  ready_eq := h'.ready_eq.trans h.ready_eq
  current_eq := h'.current_eq.trans h.current_eq
  list_eq := h'.list_eq.trans h.list_eq
  nextPid_eq := h'.nextPid_eq.trans h.nextPid_eq
  destroyed_eq := h'.destroyed_eq.trans h.destroyed_eq
  sleep_eq := h'.sleep_eq.trans h.sleep_eq
  stale_eq := h'.stale_eq.trans h.stale_eq
  state_eq := fun x => (h'.state_eq x).trans (h.state_eq x)
  owners_eq := fun x => (h'.owners_eq x).trans (h.owners_eq x)
  freed_eq := fun x => (h'.freed_eq x).trans (h.freed_eq x)
  fresh_eq := fun x hx => (h'.fresh_eq x (by rw [h.nextPid_eq]; exact hx)).trans (h.fresh_eq x hx)

theorem SameQueues.schedulable (h : SameQueues s t) (x : ℕ) :
    (t.tasks x).isSchedulable = (s.tasks x).isSchedulable := by
  rw [Task.isSchedulable,Task.isSchedulable,h.state_eq]

theorem SameQueues.core (h : SameQueues s t) (hs : s.Core) : t.Core where
  block := fun x q => by rw [h.queues_eq,h.owners_eq]; exact hs.block x q
  awake := fun x hx => by
    rw [h.owners_eq]
    exact hs.awake x (h.state_eq x ▸ hx)
  own_wait := fun x => by
    rw [h.owners_eq]
    exact hs.own_wait x
  freed := fun x hx => by
    rw [h.state_eq]
    exact hs.freed x (h.freed_eq x ▸ hx)
  ready := fun x hx => by
    rw [h.nextPid_eq]
    exact hs.ready x (h.ready_eq ▸ hx)
  known := by
    rw [h.nextPid_eq,h.list_eq,h.destroyed_eq]
    exact hs.known
  listed := by
    rw [h.nextPid_eq,h.list_eq,h.destroyed_eq]
    exact hs.listed
  gone := fun x hx => by
    rw [h.nextPid_eq,h.state_eq]
    exact hs.gone x (h.destroyed_eq ▸ hx)
  fresh := fun x hx => by
    rw [h.nextPid_eq] at hx
    rw [h.fresh_eq x hx]
    exact hs.fresh x hx
  idle := by
    rw [h.schedulable]
    exact hs.idle
  sleepers := by
    rw [h.sleep_eq,h.nextPid_eq]
    exact hs.sleepers
  stale := h.stale_eq.trans hs.stale

theorem Tree.modify (h : s.Tree) (f : Task → Task) (hs : ∀ t, (f t).state = t.state)
    (hp : ∀ t, (f t).parent = t.parent) (hc : ∀ t, (f t).children = t.children) :
    (s.modify p f).Tree :=
  h.congr rfl (modify_field Task.parent (hp _)) (modify_field Task.children (hc _))
    fun x => by rw [modify_field Task.state (hs _) x]

/-! ## Signals -/

def signalled (sig : ℤ) (t : Task) : Task := { t with signals := t.signals.sendSignal sig }

theorem signalled_same (sig : ℤ) (hp : p < s.nextPid) : SameQueues s (s.modify p (signalled sig)) :=
  modify_same (signalled sig) hp (fun _ => rfl) (fun _ => rfl) fun _ => rfl

theorem sendSignal_spec (hs : s.Core) (hp : p ∈ s.processList)
    (hf : (s.tasks p).state ≠ .finished) {sig : ℤ} (h : s.kProcProcessSendSignal p sig = .ok t) :
    t = s ∨ t = s.modify p (signalled sig) ∨ (p ≠ s.current ∧ (s.tasks p).state = .sleeping ∧
      Roused (s.modify p (signalled sig)) t p) := by
  have hpos := hs.pos_lt hp
  rw [kProcProcessSendSignal] at h
  split at h
  · exact Or.inl (Except.ok.inj h).symm
  · rw [kProcProcessWakeupOnSignal] at h
    change (if p ≠ s.current ∧ !((s.modify p (signalled sig)).tasks p).isSchedulable then _
      else _) = _ at h
    split at h
    · rename_i hc
      have hns : (s.tasks p).state = .sleeping := by
        by_contra hns
        rw [(signalled_same sig hpos.2).schedulable p,schedulable_of hf hns] at hc
        exact absurd hc.2 (by decide)
      have hb := ((signalled_same sig hpos.2).core hs).block p
      exact Or.inr (Or.inr ⟨hc.1,hns,markReady_roused hb h⟩)
    · exact Or.inr (Or.inl (Except.ok.inj h).symm)

/-- Signals to processes that have not finished keep the state in order. -/
theorem sendSignal_core (hs : s.Core) (ht : s.Tree) (hp : p ∈ s.processList)
    (hf : (s.tasks p).state ≠ .finished) {sig : ℤ}
    (h : s.kProcProcessSendSignal p sig = .ok t) : t.Core ∧ t.Tree := by
  have hpos := hs.pos_lt hp
  have hsame := signalled_same (s:=s) sig hpos.2
  have htree : (s.modify p (signalled sig)).Tree :=
    ht.modify _ (fun _ => rfl) (fun _ => rfl) fun _ => rfl
  rcases sendSignal_spec hs hp hf h with rfl | rfl | ⟨-,hsleep,hw⟩
  · exact ⟨hs,ht⟩
  · exact ⟨hsame.core hs,htree⟩
  · have hsleep' : ((s.modify p (signalled sig)).tasks p).state = .sleeping :=
      (hsame.state_eq p).trans hsleep
    exact ⟨Wake.core ⟨p,hsleep',hw⟩ (hsame.core hs),Wake.tree ⟨p,hsleep',hw⟩ htree⟩

/-! ## Switching -/

theorem nextProcess_spec (tasks : ℕ → Task) (l : List ℕ) :
    ((nextProcess tasks l).1 = IDLE ∧ (nextProcess tasks l).2 = []) ∨
      ((tasks (nextProcess tasks l).1).isSchedulable = true ∧
        ∃ before, l = before++(nextProcess tasks l).1 :: (nextProcess tasks l).2) := by
  induction l with
  | nil => exact Or.inl ⟨rfl,rfl⟩
  | cons p rest ih =>
    rw [nextProcess]
    split
    · rename_i hp
      exact Or.inr ⟨hp,[],rfl⟩
    · rcases ih with h | ⟨h,before,heq⟩
      · exact Or.inl h
      · refine Or.inr ⟨h,p :: before,?_⟩
        rw [List.cons_append,← heq]

theorem nextProcess_sub (tasks : ℕ → Task) (l : List ℕ) : ∀ p ∈ (nextProcess tasks l).2, p ∈ l := by
  intro p hp
  rcases nextProcess_spec tasks l with ⟨-,h⟩ | ⟨-,before,h⟩
  · rw [h] at hp
    cases hp
  · rw [h]
    exact List.mem_append_right _ (List.mem_cons_of_mem _ hp)

@[simp] theorem switch_current (s : Sched) :
    s.kProcProcessSwitch.current = (nextProcess s.tasks s.readyQueue).1 := rfl

@[simp] theorem switch_ready (s : Sched) :
    s.kProcProcessSwitch.readyQueue = (nextProcess s.tasks s.readyQueue).2 := rfl

theorem Core.next_schedulable (h : s.Core) :
    (s.tasks (nextProcess s.tasks s.readyQueue).1).isSchedulable = true := by
  rcases nextProcess_spec s.tasks s.readyQueue with ⟨hidle,-⟩ | ⟨hs,-⟩
  · rw [hidle]
    exact h.idle
  · exact hs

theorem Core.next_mem (h : s.Core) : (nextProcess s.tasks s.readyQueue).1 = IDLE ∨
    (nextProcess s.tasks s.readyQueue).1 ∈ s.processList := by
  rcases nextProcess_spec s.tasks s.readyQueue with ⟨hidle,-⟩ | ⟨hs,before,heq⟩
  · exact Or.inl hidle
  · have hmem : (nextProcess s.tasks s.readyQueue).1 ∈
        before++(nextProcess s.tasks s.readyQueue).1 :: (nextProcess s.tasks s.readyQueue).2 :=
      List.mem_append_right _ List.mem_cons_self
    rw [← heq] at hmem
    have hpos := h.ready _ hmem
    exact Or.inr (h.mem_of_alive hpos.1 hpos.2 (not_finished_of_schedulable hs))

@[simp] theorem switch_tasks (s : Sched) : s.kProcProcessSwitch.tasks =
    (s.modify (nextProcess s.tasks s.readyQueue).1 (.setState .running)).tasks := rfl

theorem Core.switch_state (h : s.Core) (x : ℕ) :
    ((s.kProcProcessSwitch.tasks x).state = .finished ↔ (s.tasks x).state = .finished) ∧
      ((s.kProcProcessSwitch.tasks x).state = .sleeping ↔ (s.tasks x).state = .sleeping) := by
  by_cases hx : x = (nextProcess s.tasks s.readyQueue).1
  · have hs := h.next_schedulable
    rw [← hx] at hs
    rw [switch_tasks,← hx,modify_self]
    exact ⟨iff_of_false (by simp [Task.setState]) (not_finished_of_schedulable hs),
      iff_of_false (by simp [Task.setState]) (not_sleeping_of_schedulable hs)⟩
  · rw [switch_tasks,modify_other s _ hx]
    exact ⟨Iff.rfl,Iff.rfl⟩

theorem switch_field {α : Type} (g : Task → α) (hg : ∀ t, g (t.setState .running) = g t) (x : ℕ) :
    g (s.kProcProcessSwitch.tasks x) = g (s.tasks x) := by
  rw [switch_tasks]
  exact modify_field g (hg _) x

theorem Core.switch (h : s.Core) : s.kProcProcessSwitch.Core where
  block := fun x q => by
    rw [switch_field Task.owners fun _ => rfl]
    exact h.block x q
  awake := fun x hx => by
    rw [switch_field Task.owners fun _ => rfl]
    exact h.awake x fun hc => hx ((h.switch_state x).2.mpr hc)
  own_wait := fun x => by
    rw [switch_field Task.owners fun _ => rfl]
    exact h.own_wait x
  freed := fun x hx => by
    rw [switch_field Task.blockFreed fun _ => rfl] at hx
    exact (h.switch_state x).1.mpr (h.freed x hx)
  ready := fun x hx => h.ready x (nextProcess_sub _ _ x hx)
  known := h.known
  listed := h.listed
  gone := fun x hx => ⟨(h.gone x hx).1,(h.gone x hx).2.1,(h.switch_state x).1.mpr (h.gone x hx).2.2⟩
  fresh := fun x hx => by
    have hx' : s.nextPid ≤ x := hx
    have hne : x ≠ (nextProcess s.tasks s.readyQueue).1 := by
      rcases h.next_mem with hidle | hmem
      · have := h.sleepers 0
        rw [hidle]
        omega
      · have := (h.pos_lt hmem).2
        omega
    rw [switch_tasks,modify_other s _ hne]
    exact h.fresh x hx
  idle := by
    refine schedulable_of (fun hc => ?_) fun hc => ?_
    · exact not_finished_of_schedulable h.idle ((h.switch_state IDLE).1.mp hc)
    · exact not_sleeping_of_schedulable h.idle ((h.switch_state IDLE).2.mp hc)
  sleepers := h.sleepers
  stale := h.stale

theorem Tree.switch (ht : s.Tree) (h : s.Core) : s.kProcProcessSwitch.Tree :=
  ht.congr rfl (switch_field Task.parent fun _ => rfl) (switch_field Task.children fun _ => rfl)
    fun x => (h.switch_state x).1

theorem Core.switch_inv (h : s.Core) (ht : s.Tree) : s.kProcProcessSwitch.Inv where
  core := h.switch
  tree := ht.switch h
  current_mem := h.next_mem
  current_runs := by
    rw [switch_current,switch_tasks,modify_self]
    rfl

/-- `k_proc_process_yield` of a process that has gone to sleep is a switch. -/
theorem yield_asleep (hlist : s.processList ≠ []) (hidle : s.current ≠ IDLE)
    (hs : (s.tasks s.current).isSchedulable = false) :
    s.kProcProcessYield = .ok s.kProcProcessSwitch := by
  rw [kProcProcessYield,if_neg hlist,if_neg hidle,hs]
  rfl

theorem Tree.list_ne (h : s.Tree) : s.processList ≠ [] := fun hc => by
  have := h.root_mem
  rw [hc] at this
  cases this

/-- A process that gives up the core goes to the end of the run queue. -/
theorem yield_spec (h : s.Inv) (hy : s.kProcProcessYield = .ok t) :
    (s.current = IDLE ∧ t = s.kProcProcessSwitch) ∨
      ∃ u, s.current ≠ IDLE ∧ Roused s u s.current ∧ t = u.kProcProcessSwitch := by
  rw [kProcProcessYield,if_neg h.tree.list_ne] at hy
  by_cases hidle : s.current = IDLE
  · rw [if_pos hidle] at hy
    exact Or.inl ⟨hidle,(Except.ok.inj hy).symm⟩
  · rw [if_neg hidle,if_pos h.current_runs] at hy
    obtain ⟨u,hu,hret⟩ := Result.bind_eq_ok.mp hy
    exact Or.inr ⟨u,hidle,markReady_roused (h.core.block _) hu,(Except.ok.inj hret).symm⟩

theorem Inv.yield (h : s.Inv) (hy : s.kProcProcessYield = .ok t) : t.Inv := by
  rcases yield_spec h hy with ⟨-,rfl⟩ | ⟨u,hidle,hw,rfl⟩
  · exact h.core.switch_inv h.tree
  · have hmem := h.current_mem.resolve_left hidle
    have hf := not_finished_of_schedulable h.current_runs
    exact (h.core.woken hw.toWoken hmem hf).switch_inv (h.tree.woken hw.toWoken hf)

/-! ## Falling asleep -/

theorem ownBlock_touches (s : Sched) (p : ℕ) (q : Queue) :
    Touches s (s.kProcProcessOwnBlock p q) p := by
  refine (touch_touches s p).trans ((modify_touches _ p (.own q) fun _ => rfl).trans
    (setQueues_touches _ fun q' x hx => ?_))
  by_cases hq : q' = q
  · subst hq
    change (Function.update s.queues q' (s.queues q'++[p]) q').count x = (s.queues q').count x
    rw [Function.update_self,List.count_append,List.count_singleton,
      if_neg (by simpa using Ne.symm hx),Nat.add_zero]
  · change (Function.update s.queues q (s.queues q++[p]) q').count x = (s.queues q').count x
    rw [Function.update_of_ne hq]

theorem ownBlock_task (s : Sched) (p : ℕ) (q : Queue) :
    (s.kProcProcessOwnBlock p q).tasks p = (s.tasks p).own q :=
  modify_self (s.touch p) p (.own q)

theorem ownBlock_blockOk (h : s.BlockOk p) (q : Queue) :
    (s.kProcProcessOwnBlock p q).BlockOk p := by
  intro q'
  rw [ownBlock_task]
  change (Function.update s.queues q (s.queues q++[p]) q').count p =
    ((s.tasks p).owners++[q]).count q'
  by_cases hq : q' = q
  · subst hq
    rw [Function.update_self,List.count_append,List.count_append,h q',List.count_singleton_self,
      List.count_singleton_self]
  · rw [Function.update_of_ne hq,List.count_append,h q',List.count_singleton,
      if_neg (by simpa using Ne.symm hq),Nat.add_zero]

theorem ownBlock_timers (s : Sched) (p : ℕ) (q : Queue) :
    SameTimers s (s.kProcProcessOwnBlock p q) := by
  have h := modify_timers (s.touch p) p (.own q) (fun _ => rfl) fun _ => rfl
  exact ⟨rfl,h.wait_eq,h.timeout_eq⟩

theorem ownBlocks_timers (p : ℕ) (qs : List Queue) : ∀ s :
    Sched, SameTimers s (ownBlocks p qs s) := by
  induction qs with
  | nil => exact fun s => ⟨rfl,fun _ => rfl,fun _ => rfl⟩
  | cons q rest ih =>
    intro s
    rw [ownBlocks]
    split
    · exact ih s
    · exact (ownBlock_timers s p q).trans (ih _)

theorem ownBlocks_spec (p : ℕ) (qs : List Queue) : ∀ s : Sched, s.BlockOk p →
    Touches s (ownBlocks p qs s) p ∧ (ownBlocks p qs s).BlockOk p ∧
      (∀ q ∈ ((ownBlocks p qs s).tasks p).owners, q ∈ (s.tasks p).owners ∨ q ∈ qs) ∧
      (ownBlocks p qs s).readyQueue = s.readyQueue := by
  induction qs with
  | nil => exact fun s hb => ⟨Touches.refl s p,hb,fun q hq => Or.inl hq,rfl⟩
  | cons q rest ih =>
    intro s hb
    rw [ownBlocks]
    split
    · obtain ⟨ht,hb',howners,hready⟩ := ih s hb
      exact ⟨ht,hb',fun q' hq' => (howners q' hq').imp_right (List.mem_cons_of_mem q),hready⟩
    · obtain ⟨ht,hb',howners,hready⟩ := ih _ (ownBlock_blockOk hb q)
      refine ⟨(ownBlock_touches s p q).trans ht,hb',fun q' hq' => ?_,hready⟩
      rcases howners q' hq' with h | h
      · rw [ownBlock_task] at h
        rcases List.mem_append.mp h with h | h
        · exact Or.inl h
        · exact Or.inr (List.mem_cons.mpr (Or.inl (List.mem_singleton.mp h)))
      · exact Or.inr (List.mem_cons_of_mem q h)

/-- The current process has gone to sleep, on some queues or for some time. -/
structure Asleep (s t : Sched) : Prop extends Touches s t s.current where
  state_eq : (t.tasks s.current).state = .sleeping
  block : t.BlockOk s.current
  own_wait : ∀ r, .wait r ∈ (t.tasks s.current).owners → r = s.current
  ready_eq : t.readyQueue = s.readyQueue

theorem Asleep.yield (h : Asleep s t) (hs : s.Inv) (hidle : s.current ≠ IDLE) :
    t.kProcProcessYield = .ok t.kProcProcessSwitch := by
  refine yield_asleep ?_ ?_ ?_
  · rw [h.list_eq]
    exact hs.tree.list_ne
  · rw [h.current_eq]
    exact hidle
  · rw [h.current_eq,Task.isSchedulable,h.state_eq]
    rfl

theorem Asleep.core (h : Asleep s t) (hs : s.Inv) (hidle : s.current ≠ IDLE) : t.Core ∧ t.Tree := by
  have hf := not_finished_of_schedulable hs.current_runs
  have hf' : (t.tasks s.current).state ≠ .finished := by
    rw [h.state_eq]
    decide
  refine ⟨hs.core.touches h.toTouches (hs.current_mem.resolve_left hidle) hf hf' h.block
    (fun hns => absurd h.state_eq hns) h.own_wait fun x hx => Or.inl ?_,
    hs.tree.touches h.toTouches hf hf'⟩
  rwa [h.ready_eq] at hx

theorem fallAsleep_asleep {u : Sched} (ht : Touches s u s.current) (hb : u.BlockOk s.current)
    (hwait : ∀ r, .wait r ∈ (u.tasks s.current).owners → r = s.current)
    (hr : u.readyQueue = s.readyQueue) : Asleep s (u.modify s.current .fallAsleep) :=
  { ht.trans (modify_touches u s.current .fallAsleep fun _ => rfl) with
    state_eq := by rw [modify_self]; rfl
    block := hb.modify _ rfl
    own_wait := by
      rw [modify_self]
      exact hwait
    ready_eq := hr }

theorem sleepOnQueue_spec (hs : s.Inv) (hidle : s.current ≠ IDLE)
    (hq : ∀ r, q = .wait r → r = s.current) (h : s.kProcProcessSleepOnQueue q = .ok t) :
    ∃ u, Asleep s u ∧ t = u.kProcProcessSwitch ∧ (u.tasks s.current).owners = [q] ∧
      (u.tasks s.current).interrupted = false ∧ SameTimers s u := by
  have howners : ((s.tasks s.current).own q).owners = [q] := by
    change (s.tasks s.current).owners++[q] = [q]
    rw [hs.core.awake _ (not_sleeping_of_schedulable hs.current_runs)]
    rfl
  have hasleep : Asleep s ((s.kProcProcessOwnBlock s.current q).modify s.current .fallAsleep) := by
    refine fallAsleep_asleep (ownBlock_touches s s.current q)
      (ownBlock_blockOk (hs.core.block _) q) (fun r hr => ?_) rfl
    rw [ownBlock_task,howners,List.mem_singleton] at hr
    exact hq r hr.symm
  refine ⟨_,hasleep,?_,?_,?_,
    (ownBlock_timers s s.current q).trans (modify_timers _ s.current .fallAsleep (fun _ =>
      rfl) fun _ => rfl)⟩
  · exact Except.ok.inj (h.symm.trans (hasleep.yield hs hidle))
  · rw [modify_self,ownBlock_task]
    exact howners
  · rw [modify_self]
    rfl

theorem Inv.sleepOnQueue (hs : s.Inv) (hidle : s.current ≠ IDLE)
    (hq : ∀ r, q = .wait r → r = s.current) (h : s.kProcProcessSleepOnQueue q = .ok t) : t.Inv := by
  obtain ⟨u,hu,rfl,-⟩ := sleepOnQueue_spec hs hidle hq h
  obtain ⟨hcore,htree⟩ := hu.core hs hidle
  exact hcore.switch_inv htree

/-! ## Time -/

theorem insert_process {sl sl' : SleepQueue} {time : ℕ × ℕ} {new : ℕ}
    (h : sl.insert p time = .ok (new,sl')) (n : ℕ) :
    (sl'.nodes n).process = p ∨ (sl'.nodes n).process = (sl.nodes n).process := by
  have hnew : ∀ m, (Function.update sl.nodes sl.nextNode ⟨p,time.1,time.2,none⟩ m).process = p ∨
      (Function.update sl.nodes sl.nextNode ⟨p,time.1,time.2,none⟩ m).process =
      (sl.nodes m).process := by
    intro m
    by_cases hm : m = sl.nextNode
    · subst hm
      exact Or.inl (by rw [Function.update_self])
    · exact Or.inr (by rw [Function.update_of_ne hm])
  rw [SleepQueue.insert] at h
  dsimp only at h
  cases hhead : sl.head with
  | none =>
    rw [hhead] at h
    obtain ⟨-,rfl⟩ := Prod.mk.inj (Except.ok.inj h)
    exact hnew n
  | some first =>
    rw [hhead] at h
    obtain ⟨⟨prev,node⟩,-,h⟩ := Result.bind_eq_ok.mp h
    obtain ⟨-,rfl⟩ := Prod.mk.inj (Except.ok.inj h)
    rw [(SleepQueue.setNext_same _ _ _).trans (SleepQueue.setNext_same _ _ _) n]
    exact hnew n

theorem Inv.timer (hs : s.Inv) (hidle : s.current ≠ IDLE) {time : ℕ × ℕ} {new : ℕ} {sl : SleepQueue}
    (h : s.sleep.insert s.current time = .ok (new,sl)) (f : Task → Task)
    (hf : ∀ t, (f t).rest = t.rest)
    (hstate : ∀ t, (f t).state = t.state) (howners : ∀ t, (f t).owners = t.owners) :
    ((s.modify s.current f).setSleep sl).Inv := by
  have hpos := hs.core.pos_lt (hs.current_mem.resolve_left hidle)
  have hsame : SameQueues s (s.modify s.current f) := modify_same f hpos.2 hstate howners fun t =>
    rest_freed (hf t)
  have hcore := hsame.core hs.core
  refine ⟨{ hcore with sleepers := fun n => ?_ },?_,hs.current_mem,?_⟩
  · change IDLE < (sl.nodes n).process ∧ (sl.nodes n).process < s.nextPid
    rcases insert_process h n with heq | heq
    · rw [heq]
      exact hpos
    · rw [heq]
      exact hs.core.sleepers n
  · exact (hs.tree.modify (p:=s.current) f hstate (fun t => (rest_eq (hf t)).2.1) fun t =>
      (rest_eq (hf t)).2.2.1).congr
      rfl (fun _ => rfl) (fun _ => rfl) fun _ => Iff.rfl
  · exact (hsame.schedulable s.current).trans hs.current_runs

end Sched
end ScalesOS
