import ScalesOS.RingCalls

/-!
# System calls of a driver

The calls that processes make on a device. The code of a call runs in stretches: one stretch
goes on, without another process in between, until the call sleeps, returns or is left for a
moment in which only interrupts come. A driver says what a stretch does.
-/

namespace ScalesOS

def EAGAIN : ℕ := 11

def VFS_EVENT_READ : ℕ := 1
def VFS_EVENT_WRITE : ℕ := 2
def VFS_EVENT_EXCEPT : ℕ := 4

/-- How a stretch ends. A call that returns `-ERESTARTSYS` may be made again. -/
inductive Next (C P R : Type)
  | sleep (queue : ℕ) (progress : P)
  | select (queues : List ℕ) (timeout : Option Sched.Timeout) (progress : P)
  | goOn (progress : P)
  | finish (result : R)
  | interrupted (call : C) (result : R)
  deriving DecidableEq

structure Stretch (D C P R : Type) where
  device : D
  wakes : List Sched.Event
  next : Next C P R
  /-- `select_wait_node` and `select_wait_event` of the process are cleared -/
  clears : Bool := false

/-- The code behind the calls: what a process does that makes a call, and what it does when
it runs again in a call. -/
structure Driver (D C P R : Type) where
  start : D → ℕ → C → Stretch D C P R
  resume : D → ℕ → Task → P → Stretch D C P R

/-- The kernel with a device. -/
structure CallSystem (D C P R : Type) where
  sched : Sched
  device : D
  /-- the calls that processes are in, with what they have done so far -/
  calls : ℕ → Option P
  /-- `interrupted_syscall` -/
  interruptedSyscall : ℕ → Option C
  returns : List (ℕ × R)

inductive CallEvent (C : Type)
  | call (call : C)
  | resume
  /-- `k_proc_process_return_from_signal`, with the flag `SA_RESTART` of the handler -/
  | returnFromSignal (saRestart : Bool)
  | other (e : Sched.Event)
  deriving DecidableEq

variable {D C P R : Type}

namespace Next

def progress : Next C P R → Option P
  | .sleep _ progress => some progress
  | .select _ _ progress => some progress
  | .goOn progress => some progress
  | .finish _ => none
  | .interrupted _ _ => none

def result : Next C P R → Option R
  | .finish result => some result
  | .interrupted _ result => some result
  | _ => none

def again : Next C P R → Option C
  | .interrupted call _ => some call
  | _ => none

def events : Next C P R → List Sched.Event
  | .sleep queue _ => [.sleepOnQueue queue]
  | .select queues timeout _ => [.select queues timeout]
  | _ => []

def joins : Next C P R → List ℕ
  | .sleep queue _ => [queue]
  | .select queues _ _ => queues
  | _ => []

end Next

/-- One event after the other. -/
def Sched.perform : List Sched.Event → Sched → Result Sched
  | [], s => pure s
  | e :: es, s => do
    let s ← s.step e
    perform es s

namespace Sched

variable {s t u : Sched} {q : Queue}

theorem perform_append (es es' : List Event) : ∀ s t : Sched,
    s.perform (es++es') = .ok t ↔ ∃ u, s.perform es = .ok u ∧ u.perform es' = .ok t := by
  induction es with
  | nil =>
    intro s t
    exact ⟨fun h => ⟨s,rfl,h⟩,fun ⟨u,hu,h⟩ => Except.ok.inj hu ▸ h⟩
  | cons e es ih =>
    intro s t
    constructor
    · intro h
      obtain ⟨v,hv,h⟩ := Result.bind_eq_ok.mp h
      obtain ⟨u,hu,h⟩ := (ih v t).mp h
      exact ⟨u,Result.bind_eq_ok.mpr ⟨v,hv,hu⟩,h⟩
    · rintro ⟨u,hu,h⟩
      obtain ⟨v,hv,hu⟩ := Result.bind_eq_ok.mp hu
      exact Result.bind_eq_ok.mpr ⟨v,hv,(ih v t).mpr ⟨u,hu,h⟩⟩

theorem perform_one {e : Event} (h : s.perform [e] = .ok t) : s.step e = .ok t := by
  obtain ⟨v,hv,h⟩ := Result.bind_eq_ok.mp h
  exact Except.ok.inj h ▸ hv

theorem perform_queue (es : List Event) : ∀ s t :
    Sched, (∀ e ∈ es, ∀ u : Sched, ¬ u.SleepsOn e q) → s.perform es = .ok t →
    t.queues q ⊆ s.queues q := by
  induction es with
  | nil =>
    intro s t _ h
    obtain rfl := Except.ok.inj h
    exact fun _ => id
  | cons e es ih =>
    intro s t hes h x hx
    obtain ⟨v,hv,h⟩ := Result.bind_eq_ok.mp h
    have hm := ih v t (fun e' he' => hes e' (List.mem_cons_of_mem _ he')) h hx
    exact (step_joins hv q x hm).resolve_right fun hjoin => hes e List.mem_cons_self s hjoin.2

theorem sleepOnQueue_members (hs : s.Inv) (hidle : s.current ≠ IDLE)
    (hq : ∀ r, q = .wait r → r = s.current)
    (h : s.kProcProcessSleepOnQueue q = .ok t) (x : ℕ) : x ∈ t.queues q ↔
    x ∈ s.queues q ∨ x = s.current := by
  obtain ⟨u,hu,rfl,howners,-⟩ := sleepOnQueue_spec hs hidle hq h
  change x ∈ u.queues q ↔ _
  have hnot : s.current ∉ s.queues q := fun hm =>
    not_sleeping_of_schedulable hs.current_runs (hs.core.sleeping_of_mem hm)
  by_cases hx : x = s.current
  · refine iff_of_true ?_ (Or.inr hx)
    rw [← List.count_pos_iff,hx,hu.block q,howners]
    exact List.count_pos_iff.mpr (List.mem_singleton_self _)
  · rw [← List.count_pos_iff,hu.count q x hx,List.count_pos_iff]
    exact ⟨Or.inl,fun hm => hm.resolve_right hx⟩

end Sched

namespace CallSystem

def process (s : CallSystem D C P R) : ℕ := s.sched.current

def after (s : CallSystem D C P R) (sched : Sched) (x : Stretch D C P R) : CallSystem D C P R where
  sched := sched
  device := x.device
  calls := Function.update s.calls s.process x.next.progress
  interruptedSyscall :=
    match x.next.again with
    | some call => Function.update s.interruptedSyscall s.process (some call)
    | none => s.interruptedSyscall
  returns := s.returns++(x.next.result.map fun r => (s.process,r)).toList

def cleared (s : CallSystem D C P R) (x : Stretch D C P R) : Sched :=
  if x.clears then s.sched.modify s.process (.select none 0) else s.sched

def advance (s : CallSystem D C P R) (x : Stretch D C P R) : Result (CallSystem D C P R) := do
  let sched ← (s.cleared x).perform (x.wakes++x.next.events)
  pure (s.after sched x)

/-- `__k_proc_process_try_restart_syscalls`: `interrupted_syscall` is cleared. -/
def clearInterrupted (s : CallSystem D C P R) : CallSystem D C P R :=
  { s with interruptedSyscall := Function.update s.interruptedSyscall s.process none }

def setSched (s : CallSystem D C P R) (sched : Sched) : CallSystem D C P R :=
  { s with sched := sched }

variable (d : Driver D C P R)

def stretch (s : CallSystem D C P R) : CallEvent C → Option (Stretch D C P R)
  | .call call => some (d.start s.device s.process call)
  | .resume => (s.calls s.process).map (d.resume s.device s.process (s.sched.tasks s.process))
  | .returnFromSignal true => (s.interruptedSyscall s.process).map (d.start s.device s.process)
  | _ => none

def started (s : CallSystem D C P R) : CallEvent C → Option C
  | .call call => some call
  | .returnFromSignal true => s.interruptedSyscall s.process
  | _ => none

/-- What an event does before its stretch. -/
def before (s : CallSystem D C P R) : CallEvent C → Result (CallSystem D C P R)
  | .returnFromSignal _ => pure s.clearInterrupted
  | .other e => do
    let sched ← s.sched.step e
    pure (s.setSched sched)
  | _ => pure s

def step (s : CallSystem D C P R) (e : CallEvent C) : Result (CallSystem D C P R) := do
  let t ← s.before e
  match s.stretch d e with
  | none => pure t
  | some x => t.advance x

/-- A process makes one call at a time, and sleeps on the queues of the device only in
calls. -/
def Enabled (own : ℕ → Bool) (s : CallSystem D C P R) : CallEvent C → Prop
  | .call _ | .returnFromSignal _ =>
    s.process ≠ IDLE ∧ (s.sched.tasks s.process).waiting = none ∧ (s.calls s.process).isNone
  | .resume => (s.sched.tasks s.process).waiting = none
  | .other e => s.sched.Enabled e ∧ s.sched.SparesFinished e ∧
      (RingSystem.isInterrupt e = true ∨ (s.calls s.process).isNone) ∧
      match e with
      | .sleepOnQueue q => own q = false
      | .select qs _ => ∀ q ∈ qs, own q = false
      | _ => True

instance (own : ℕ → Bool) (s : CallSystem D C P R) (e : CallEvent C) :
    Decidable (s.Enabled own e) := by
  induction e using CallEvent.casesOn with
  | other e =>
    induction e using Sched.Event.casesOn <;> dsimp only [Enabled] <;> infer_instance
  | _ =>
    dsimp only [Enabled]
    infer_instance

/-- The kernel with a device that nobody has used. -/
def boot (device : D) : CallSystem D C P R where
  sched := .boot
  device := device
  calls := fun _ => none
  interruptedSyscall := fun _ => none
  returns := []

variable {d : Driver D C P R} {s t : CallSystem D C P R} {x : Stretch D C P R} {e : CallEvent C}
    {own : ℕ → Bool}

/-- The device, the calls and what has been returned are the same. -/
structure Same (s t : CallSystem D C P R) : Prop where
  device_eq : t.device = s.device
  calls_eq : t.calls = s.calls
  returns_eq : t.returns = s.returns

structure Ran (s t : CallSystem D C P R) (x : Stretch D C P R) : Prop where
  device_eq : t.device = x.device
  calls_eq : t.calls = Function.update s.calls s.process x.next.progress
  returns_eq : t.returns = s.returns++(x.next.result.map fun r => (s.process,r)).toList

theorem Ran.calls_self (h : Ran s t x) : t.calls s.process = x.next.progress := by
  rw [h.calls_eq,Function.update_self]

theorem Ran.calls_other (h : Ran s t x) {p : ℕ} (hp : p ≠ s.process) : t.calls p = s.calls p := by
  rw [h.calls_eq,Function.update_of_ne hp]

theorem advance_ran (h : s.advance x = .ok t) : Ran s t x := by
  obtain ⟨sched,-,h⟩ := Result.bind_eq_ok.mp h
  obtain rfl := Except.ok.inj h
  exact ⟨rfl,rfl,rfl⟩

theorem before_same (h : s.before e = .ok t) : Same s t := by
  cases e with
  | other e =>
    obtain ⟨sched,-,h⟩ := Result.bind_eq_ok.mp h
    obtain rfl := Except.ok.inj h
    exact ⟨rfl,rfl,rfl⟩
  | _ =>
    obtain rfl := Except.ok.inj h
    exact ⟨rfl,rfl,rfl⟩

theorem before_process (hx : s.stretch d e = some x) (h : s.before e = .ok t) :
    t.sched = s.sched := by
  cases e with
  | other e => cases hx
  | _ =>
    obtain rfl := Except.ok.inj h
    rfl

theorem step_stretch (hx : s.stretch d e = some x) (h : s.step d e = .ok t) : Ran s t x := by
  obtain ⟨u,hu,h⟩ := Result.bind_eq_ok.mp h
  simp only [hx] at h
  have hsame := before_same hu
  have hran := advance_ran h
  have hprocess : u.process = s.process := congrArg Sched.current (before_process hx hu)
  refine ⟨hran.device_eq,?_,?_⟩
  · rw [hran.calls_eq,hsame.calls_eq,hprocess]
  · rw [hran.returns_eq,hsame.returns_eq,hprocess]

theorem step_none (hx : s.stretch d e = none) (h : s.step d e = .ok t) : Same s t := by
  obtain ⟨u,hu,h⟩ := Result.bind_eq_ok.mp h
  simp only [hx] at h
  obtain rfl := Except.ok.inj h
  exact before_same hu

theorem step_sched (hx : s.stretch d e = some x) (h : s.step d e = .ok t) :
    ∃ u, (s.cleared x).perform x.wakes = .ok u ∧ u.perform x.next.events = .ok t.sched := by
  obtain ⟨v,hv,h⟩ := Result.bind_eq_ok.mp h
  simp only [hx] at h
  obtain ⟨sched,hsched,h⟩ := Result.bind_eq_ok.mp h
  obtain rfl := Except.ok.inj h
  have heq := before_process hx hv
  rw [Sched.perform_append,cleared,process,heq] at hsched
  exact hsched

/-- Who is on a queue after a stretch was there before, or has gone to sleep on it. -/
theorem step_queue {n y : ℕ} (hx : s.stretch d e = some x)
    (hwakes : ∀ e ∈ x.wakes, ∀ u : Sched, ¬ u.SleepsOn e (.other n))
    (h : s.step d e = .ok t) (hy : y ∈ t.sched.queues (.other n)) : y ∈ s.sched.queues (.other n) ∨
    n ∈ x.next.joins := by
  obtain ⟨u,hu,ht⟩ := step_sched hx h
  have hleaves := Sched.perform_queue (q := .other n) x.wakes _ u hwakes hu
  have hcleared : (s.cleared x).queues = s.sched.queues := by
    rw [cleared]
    split <;> rfl
  have hback : y ∈ u.queues (.other n) → y ∈ s.sched.queues (.other n) := fun hm =>
    hcleared ▸ hleaves hm
  cases hnext : x.next with
  | sleep queue progress =>
    rw [hnext] at ht
    rcases Sched.step_joins (Sched.perform_one ht) _ y hy with hm | hm
    · exact Or.inl (hback hm)
    · exact Or.inr (List.mem_singleton.mpr (Queue.other.inj hm.2))
  | select queues timeout progress =>
    rw [hnext] at ht
    rcases Sched.step_joins (Sched.perform_one ht) _ y hy with hm | hm
    · exact Or.inl (hback hm)
    · obtain ⟨m,hm,heq⟩ := List.mem_map.mp hm.2
      exact Or.inr (Queue.other.inj heq ▸ hm)
  | _ =>
    rw [hnext] at ht
    obtain rfl := Except.ok.inj ht
    exact Or.inl (hback hy)

theorem stretch_cases (hen : s.Enabled own e) (hx : s.stretch d e = some x) :
    ((s.calls s.process).isNone ∧ ∃ call, s.started e = some call ∧
      x = d.start s.device s.process call) ∨
      (e = .resume ∧ ∃ progress, s.calls s.process = some progress ∧
        x = d.resume s.device s.process (s.sched.tasks s.process) progress) := by
  cases e with
  | call call =>
    obtain rfl := Option.some.inj hx
    exact Or.inl ⟨hen.2.2,call,rfl,rfl⟩
  | resume =>
    obtain ⟨progress,hprogress,rfl⟩ := Option.map_eq_some_iff.mp hx
    exact Or.inr ⟨rfl,progress,hprogress,rfl⟩
  | returnFromSignal saRestart =>
    cases saRestart with
    | false => cases hx
    | true =>
      obtain ⟨call,hcall,rfl⟩ := Option.map_eq_some_iff.mp hx
      exact Or.inl ⟨hen.2.2,call,hcall,rfl⟩
  | other e => cases hx

theorem started_none (hx : s.stretch d e = none) : s.started e = none := by
  cases e with
  | call call => cases hx
  | returnFromSignal saRestart =>
    cases saRestart with
    | false => rfl
    | true => exact Option.map_eq_none_iff.mp hx
  | _ => rfl

theorem Enabled.not_own {q : ℕ} {e : Sched.Event} (h : s.Enabled own (.other e))
    (hq : own q = true) :
    ¬ s.sched.SleepsOn e (.other q) := by
  intro hsleep
  obtain ⟨-,-,-,hown⟩ := h
  cases e with
  | sleepOnQueue n =>
    have hn : q = n := Queue.other.inj hsleep
    have hown' : own n = false := hown
    rw [hn,hown'] at hq
    cases hq
  | select ns timeout =>
    obtain ⟨n,hn,heq⟩ := List.mem_map.mp hsleep
    have hown' : own n = false := hown n hn
    rw [← Queue.other.inj heq,hown'] at hq
    cases hq
  | waitpid pid options => cases hsleep
  | resume => cases hsleep
  | _ => exact hsleep

/-- The steps of a kind. -/
def Step (d : Driver D C P R) (own : ℕ → Bool) (allowed : CallSystem D C P R → CallEvent C → Prop)
    (s t : CallSystem D C P R) : Prop :=
  ∃ e, s.Enabled own e ∧ allowed s e ∧ s.step d e = .ok t

/-- A run that can be carried out, to a state that can be looked at. -/
theorem exists_run (own : ℕ → Bool) (allowed : CallSystem D C P R → CallEvent C → Prop)
    [∀ s e, Decidable (allowed s e)]
    (es : List (CallEvent C)) {s : CallSystem D C P R} (P' : CallSystem D C P R → Bool)
    (h : (runAll (fun s e => s.Enabled own e ∧ allowed s e) (step d) es s).any P' = true) :
    ∃ t, Relation.ReflTransGen (Step d own allowed) s t ∧ P' t = true := by
  obtain ⟨t,ht,hp⟩ := exists_of_runAll P' h
  have hsub : ∀ a b, (∃ e, (Enabled own a e ∧ allowed a e) ∧ a.step d e = .ok b) →
      Step d own allowed a b :=
    fun _ _ ⟨e,hmay,hret⟩ => ⟨e,hmay.1,hmay.2,hret⟩
  exact ⟨t,Relation.ReflTransGen.mono hsub _ _ ht,hp⟩

/-- Every step. -/
def anyStep (_ : CallSystem D C P R) (_ : CallEvent C) : Prop := True

instance (s : CallSystem D C P R) (e : CallEvent C) : Decidable (anyStep s e) :=
  inferInstanceAs (Decidable True)

end CallSystem
end ScalesOS
