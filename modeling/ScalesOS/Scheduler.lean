import ScalesOS.Mmap
import ScalesOS.SleepQueue
import ScalesOS.Signals

/-!
# The scheduler

Processes, their states and the queues they wait on: `kernel/src/proc/process.c`, as far as
it decides who runs. There is one core and kernel code is not preempted, so that a system
call is one step up to the point where it sleeps. A process is named by its pid, the idle
process by 0; the block node of a process is named by the process. What a process does
after it has slept is the next step, except in `k_proc_process_waitpid`, which goes on
looking at the children.
-/

namespace ScalesOS

inductive ProcessState
  | starting
  | running
  | finished
  | sleeping
  deriving DecidableEq, Repr

/-- The lists processes sleep on: the `wait_queue` of a process, and those of files,
pipes, devices and mutexes. -/
inductive Queue
  | wait (process : ℕ)
  | other (name : ℕ)
  deriving DecidableEq, Repr

def IDLE : ℕ := 0
def ROOT : ℕ := 1

def ECHILD : ℕ := 10
def EINTR : ℕ := 4

def PROCESS_WAITPID_WUNTRACED : ℤ := 2

/-- `process_t`, with its block node and its node in the process tree. -/
structure Task where
  groupId : ℕ
  state : ProcessState
  interrupted : Bool
  owners : List Queue
  /-- the block node has been freed -/
  blockFreed : Bool
  waitNode : Option ℕ
  timeoutNode : Option ℕ
  selectWaitNode : Option ℕ
  selectWaitEvent : ℕ
  signals : SignalState
  parent : Option ℕ
  children : List ℕ
  /-- the arguments of `k_proc_process_waitpid` while the process is in it -/
  waiting : Option (ℤ × ℤ)

namespace Task

def isSchedulable (t : Task) : Bool := t.state = .starting || t.state = .running

/-- A process that `k_calloc` has just made. -/
def empty : Task where
  groupId := 0
  state := .starting
  interrupted := false
  owners := []
  blockFreed := false
  waitNode := none
  timeoutNode := none
  selectWaitNode := none
  selectWaitEvent := 0
  signals := .empty
  parent := none
  children := []
  waiting := none

def setState (state : ProcessState) (t : Task) : Task := { t with state := state }

def own (q : Queue) (t : Task) : Task := { t with owners := t.owners++[q] }

def disown (q : Queue) (t : Task) : Task := { t with owners := t.owners.erase q }

def release (t : Task) : Task := { t with owners := [] }

def unlock (t : Task) : Task := { t with waitNode := none, timeoutNode := none }

def ready (locks : Bool) (t : Task) : Task :=
  { t with interrupted := t.interrupted || locks, state := .running }

def timed (node : ℕ) (t : Task) : Task := { t with waitNode := some node }

def fallAsleep (t : Task) : Task := { t with interrupted := false, state := .sleeping }

def select (node : Option ℕ) (event : ℕ) (t : Task) : Task :=
  { t with selectWaitNode := node, selectWaitEvent := event }

end Task

structure Sched where
  tasks : ℕ → Task
  readyQueue : List ℕ
  queues : Queue → List ℕ
  current : ℕ
  sleep : SleepQueue
  processList : List ℕ
  nextPid : ℕ
  /-- the processes that `k_proc_process_destroy` has freed -/
  destroyed : List ℕ
  /-- a block node was used after it had been freed -/
  staleUse : Bool

namespace Sched

def modify (s : Sched) (p : ℕ) (f : Task → Task) : Sched :=
  { s with tasks := Function.update s.tasks p (f (s.tasks p)) }

def setQueue (s : Sched) (q : Queue) (l : List ℕ) : Sched :=
  { s with queues := Function.update s.queues q l }

def setQueues (s : Sched) (queues : Queue → List ℕ) : Sched := { s with queues := queues }

def setReady (s : Sched) (l : List ℕ) : Sched := { s with readyQueue := l }

def setSleep (s : Sched) (sleep : SleepQueue) : Sched := { s with sleep := sleep }

def touch (s : Sched) (p : ℕ) : Sched := { s with staleUse := s.staleUse || (s.tasks p).blockFreed }

def kProcProcessOwnBlock (s : Sched) (p : ℕ) (q : Queue) : Sched :=
  ((s.touch p).modify p (.own q)).setQueue q (s.queues q++[p])

def dropBlock (p : ℕ) : List Queue → (Queue → List ℕ) → Queue → List ℕ
  | [], queues => queues
  | q :: rest, queues => dropBlock p rest (Function.update queues q ((queues q).erase p))

def kProcProcessReleaseBlock (s : Sched) (p : ℕ) : Sched :=
  ((s.touch p).modify p .release).setQueues (dropBlock p (s.tasks p).owners.reverse s.queues)

def kProcProcessHasLocks (s : Sched) (p : ℕ) : Bool :=
  !(s.tasks p).owners.isEmpty || (s.tasks p).timeoutNode.isSome || (s.tasks p).waitNode.isSome

def kProcProcessInvalidateLocks (s : Sched) (p : ℕ) : Result Sched := do
  let s := s.kProcProcessReleaseBlock p
  let sleep ← s.sleep.remove (s.tasks p).waitNode
  let sleep ← sleep.remove (s.tasks p).timeoutNode
  pure ((s.modify p .unlock).setSleep sleep)

def kProcProcessMarkReady (s : Sched) (p : ℕ) : Result Sched := do
  let s ← (s.modify p (.ready (s.kProcProcessHasLocks p))).kProcProcessInvalidateLocks p
  pure (s.setReady (s.readyQueue++[p]))

/-- The loop around `k_proc_process_next`. The idle process can always run. -/
def nextProcess (tasks : ℕ → Task) : List ℕ → ℕ × List ℕ
  | [] => (IDLE,[])
  | p :: rest => if (tasks p).isSchedulable then (p,rest) else nextProcess tasks rest

def kProcProcessSwitch (s : Sched) : Sched :=
  let (p,rest) := nextProcess s.tasks s.readyQueue
  { s with readyQueue := rest, current := p }.modify p (.setState .running)

def kProcProcessYield (s : Sched) : Result Sched :=
  if s.processList = [] then pure s
  else if s.current = IDLE then pure s.kProcProcessSwitch
  else if (s.tasks s.current).isSchedulable then do
    let s ← s.kProcProcessMarkReady s.current
    pure s.kProcProcessSwitch
  else pure s.kProcProcessSwitch

/-- `k_proc_process_sleep_on_queue` up to the switch; what it returns is the flag when the
process runs again. -/
def kProcProcessSleepOnQueue (s : Sched) (q : Queue) : Result Sched :=
  let s := s.kProcProcessOwnBlock s.current q
  (s.modify s.current .fallAsleep).kProcProcessYield

def popBlock (s : Sched) (q : Queue) (p : ℕ) : Sched :=
  ((s.touch p).modify p (.disown q)).setQueue q (s.queues q).dropLast

def isWakeable (s : Sched) (p : ℕ) : Bool :=
  (s.tasks p).state != .finished && !(s.tasks p).isSchedulable

/-- `k_proc_process_wakeup_queue_single`; `n` is the size of the queue. -/
def wakeupSingle (q : Queue) : ℕ → Sched → Result Sched
  | 0, s => pure s
  | n+1, s =>
    match (s.queues q).getLast? with
    | none => pure s
    | some p =>
      let s := s.popBlock q p
      if s.isWakeable p then (s.modify p (.setState .running)).kProcProcessMarkReady p
      else wakeupSingle q n s

def kProcProcessWakeupQueueSingle (s : Sched) (q : Queue) : Result Sched :=
  wakeupSingle q (s.queues q).length s

def wakeupAll (q : Queue) : ℕ → Sched → Result Sched
  | 0, s => pure s
  | n+1, s =>
    if s.queues q = [] then pure s
    else do
      let s ← s.kProcProcessWakeupQueueSingle q
      wakeupAll q n s

def kProcProcessWakeupQueue (s : Sched) (q : Queue) : Result Sched :=
  wakeupAll q (s.queues q).length s

def dropTimeout (s : Sched) (p : ℕ) : Result Sched := do
  let sleep ← s.sleep.remove (s.tasks p).timeoutNode
  pure ((s.modify p fun t => { t with timeoutNode := none }).setSleep sleep)

/-- `k_proc_process_wakeup_queue_single_select`. -/
def wakeupSingleSelect (q : Queue) (node event : ℕ) : ℕ → Sched → Result Sched
  | 0, s => pure s
  | n+1, s =>
    match (s.queues q).getLast? with
    | none => pure s
    | some p =>
      let s := (s.popBlock q p).kProcProcessReleaseBlock p
      if s.isWakeable p then do
        let s ← ((s.modify p (.setState .running)).modify p
          (.select (some node) event)).dropTimeout p
        s.kProcProcessMarkReady p
      else wakeupSingleSelect q node event n s

def kProcProcessWakeupQueueSingleSelect (s : Sched) (q : Queue) (node event : ℕ) : Result Sched :=
  wakeupSingleSelect q node event (s.queues q).length s

def wakeupAllSelect (q : Queue) (node event : ℕ) : ℕ → Sched → Result Sched
  | 0, s => pure s
  | n+1, s =>
    if s.queues q = [] then pure s
    else do
      let s ← s.kProcProcessWakeupQueueSingleSelect q node event
      wakeupAllSelect q node event n s

def kProcProcessWakeupQueueSelect (s : Sched) (q : Queue) (node event : ℕ) : Result Sched :=
  wakeupAllSelect q node event (s.queues q).length s

def kProcProcessTimeout (s : Sched) (p ticks seconds microseconds : ℕ) : Result Sched := do
  let (new,sleep) ← s.sleep.insert p (deadline ticks seconds microseconds)
  pure ((s.modify p fun t => { t with timeoutNode := some new }).setSleep sleep)

/-- When `k_proc_process_sleep` is to end. -/
def sleepDeadline (ticks microseconds : ℕ) : ℕ × ℕ :=
  deadline ticks (microseconds/MICROSECONDS_PER_SECOND) (microseconds%MICROSECONDS_PER_SECOND)

/-- `k_proc_process_sleep` up to the switch. -/
def kProcProcessSleep (s : Sched) (ticks microseconds : ℕ) : Result Sched := do
  let (new,sleep) ← s.sleep.insert s.current (sleepDeadline ticks microseconds)
  let s := (s.modify s.current (.timed new)).setSleep sleep
  (s.modify s.current (.setState .sleeping)).kProcProcessYield

/-- What `__k_proc_process_wakeup_timing` does with the process of a node that is due. -/
def wakeSleeper (s : Sched) (node p : ℕ) : Result Sched :=
  if (s.tasks p).state = .finished then pure s
  else if (s.tasks p).timeoutNode = some node then
    (((s.kProcProcessReleaseBlock p).modify p (.select none 0)).modify p fun t =>
      { t with timeoutNode := none }).kProcProcessMarkReady p
  else (s.modify p fun t => { t with waitNode := none }).kProcProcessMarkReady p

/-- The loop of `__k_proc_process_wakeup_timing`. After so many rounds it has come back to
a node in the same state. -/
def wakeupTiming (seconds microseconds : ℕ) : ℕ → Sched → Result Sched
  | 0, _ => throw .loop
  | fuel+1, s =>
    match s.sleep.head with
    | none => pure s
    | some node =>
      if (s.sleep.nodes node).due seconds microseconds then do
        let s ← (s.setSleep { s.sleep with head := (s.sleep.nodes node).next }).wakeSleeper node
          (s.sleep.nodes node).process
        wakeupTiming seconds microseconds fuel s
      else pure s

/-- The timer callback, `ticks` microseconds after the start. -/
def kProcProcessUpdateTimings (s : Sched) (ticks : ℕ) : Result Sched :=
  wakeupTiming (ticks/MICROSECONDS_PER_SECOND) (ticks%MICROSECONDS_PER_SECOND)
    ((s.sleep.nextNode+1)*(s.sleep.nextNode+1)) s

/-- The queues of the files that `sys_select` has to wait for. -/
def ownBlocks (p : ℕ) : List Queue → Sched → Sched
  | [], s => s
  | q :: rest, s => ownBlocks p rest (if p ∈ s.queues q then s else s.kProcProcessOwnBlock p q)

/-- The time `tv` after `ticks`. -/
structure Timeout where
  ticks : ℕ
  seconds : ℕ
  microseconds : ℕ
  deriving DecidableEq

def startTimeout (s : Sched) : Option Timeout → Result Sched
  | none => pure s
  | some tv => s.kProcProcessTimeout s.current tv.ticks tv.seconds tv.microseconds

/-- `sys_select` on files none of which is ready, up to the switch. -/
def sysSelect (s : Sched) (queues : List Queue) (timeout : Option Timeout) : Result Sched := do
  let s ← s.startTimeout timeout
  let s := ownBlocks s.current queues s
  (s.modify s.current .fallAsleep).kProcProcessYield

def kProcProcessWakeupOnSignal (s : Sched) (p : ℕ) : Result Sched :=
  if p ≠ s.current ∧ !(s.tasks p).isSchedulable then s.kProcProcessMarkReady p else pure s

def kProcProcessSendSignal (s : Sched) (p : ℕ) (sig : ℤ) : Result Sched :=
  if sig < 0 ∨ MAX_SIGNAL ≤ sig then pure s
  else (s.modify p fun t => { t with signals := t.signals.sendSignal sig
    }).kProcProcessWakeupOnSignal p

def kProcProcessFindByPid (s : Sched) (pid : ℤ) : Option ℕ :=
  s.processList.find? fun p => (p : ℤ) = pid

def sysKill (s : Sched) (pid sig : ℤ) : Result Sched :=
  match s.kProcProcessFindByPid pid with
  | none => pure s
  | some p => if (s.tasks p).state = .finished then pure s else s.kProcProcessSendSignal p sig

/-- A signal from a terminal to its control process, or to the process of a virtual
terminal when it is switched. -/
def terminalSignal (s : Sched) (pid sig : ℤ) : Result Sched :=
  match s.kProcProcessFindByPid pid with
  | none => pure s
  | some p => s.kProcProcessSendSignal p sig

def kProcProcessSpawn (s : Sched) (new parent : ℕ) : Sched :=
  { (s.modify new fun t => { t with groupId := parent, parent := some parent, children :=
  [] }).modify parent
      fun t => { t with children := t.children++[new] } with
    processList := s.processList++[new] }

def enter (s : Sched) (task : Task) (parent : ℕ) : Sched :=
  let new := s.nextPid
  { (s.modify new fun _ => task).setQueue (.wait new) [] with nextPid := new+1 }.kProcProcessSpawn
  new parent

def create (s : Sched) (task : Task) (parent : ℕ) : Result Sched :=
  (s.enter task parent).kProcProcessMarkReady s.nextPid

/-- `k_proc_process_fork` and `k_proc_process_clone`. -/
def kProcProcessFork (s : Sched) : Result Sched :=
  s.create { s.tasks s.current with
    state := .starting, signals := .empty, waitNode := none, timeoutNode := none, owners :=
      [], blockFreed := false }
    s.current

def kProcProcessCreateTasklet (s : Sched) : Result Sched := s.create .empty ROOT

def reparent : List ℕ → Sched → Sched
  | [], s => s
  | c :: rest, s => reparent rest ((s.modify c fun t => { t with parent := some ROOT }).modify ROOT
      fun t => { t with children := t.children++[c] })

def notifyParent (s : Sched) (p : ℕ) : Result Sched :=
  match (s.tasks p).parent with
  | none => pure s
  | some parent => do
    let s ← s.kProcProcessWakeupQueue (.wait parent)
    s.kProcProcessSendSignal parent SIGCHLD

def freeBlock (s : Sched) (p : ℕ) : Result Sched := do
  let s ← s.kProcProcessInvalidateLocks p
  pure (s.modify p fun t => { t with blockFreed := true })

/-- `k_proc_process_exit` of the current process. The root would hand its children over to
itself, one after the other without an end. -/
def kProcProcessExit (s : Sched) : Result Sched :=
  let p := s.current
  if p = ROOT ∧ (s.tasks p).children ≠ [] then throw .loop
  else do
    let s ← (reparent (s.tasks p).children (s.modify p (.setState .finished))).notifyParent p
    let s ← s.freeBlock p
    pure s.kProcProcessSwitch

/-- `k_proc_process_destroy`, with `tree_remove_node`. -/
def kProcProcessDestroy (s : Sched) (p : ℕ) : Sched :=
  let s := { s with processList := s.processList.erase p, destroyed := p :: s.destroyed }
  match (s.tasks p).parent with
  | none => s
  | some parent => s.modify parent fun t => { t with children := t.children.erase p }

def canPick (s : Sched) (c p : ℕ) (pid : ℤ) : Bool :=
  if pid < -1 then (c : ℤ) = -pid
  else if pid = 0 then (s.tasks c).groupId = (s.tasks p).groupId
  else if pid > 0 then (c : ℤ) = pid
  else true

/-- One round of the loop in `k_proc_process_waitpid`: its result, unless the process goes
to sleep. -/
def waitpidLoop (s : Sched) (pid options : ℤ) : Result (Option ℤ × Sched) :=
  let p := s.current
  let candidates := (s.tasks p).children.filter fun c => s.canPick c p pid
  let done := s.modify p fun t => { t with waiting := none }
  if candidates = [] then pure (some (-ECHILD),done)
  else
    match candidates.find? fun c => (s.tasks c).state = .finished with
    | some c => pure (some c,done.kProcProcessDestroy c)
    | none =>
      if options%2 = 0 then do
        let s ← (s.modify p fun t =>
          { t with waiting := some (pid,options) }).kProcProcessSleepOnQueue (.wait p)
        pure (none,s)
      else pure (some (-EINTR),done)

def kProcProcessWaitpid (s : Sched) (pid options : ℤ) : Result (Option ℤ × Sched) :=
  if options > PROCESS_WAITPID_WUNTRACED then pure (some (-EINVAL),s) else s.waitpidLoop pid options

inductive Event
  | fork
  | tasklet
  | yield
  | sleepOnQueue (queue : ℕ)
  | select (queues : List ℕ) (timeout : Option Timeout)
  | sleep (ticks microseconds : ℕ)
  | wakeup (queue : ℕ)
  | wakeupSingle (queue : ℕ)
  | wakeupSelect (queue node event : ℕ)
  | kill (pid sig : ℤ)
  | terminal (pid sig : ℤ)
  | fault (sig : ℤ)
  | tick (ticks : ℕ)
  | exit
  | waitpid (pid options : ℤ)
  | resume
  deriving DecidableEq

/-- What the current process, or an interrupt on top of it, does. -/
def step (s : Sched) : Event → Result Sched
  | .fork => s.kProcProcessFork
  | .tasklet => s.kProcProcessCreateTasklet
  | .yield => s.kProcProcessYield
  | .sleepOnQueue q => s.kProcProcessSleepOnQueue (.other q)
  | .select qs timeout => s.sysSelect (qs.map .other) timeout
  | .sleep ticks microseconds => s.kProcProcessSleep ticks microseconds
  | .wakeup q => s.kProcProcessWakeupQueue (.other q)
  | .wakeupSingle q => s.kProcProcessWakeupQueueSingle (.other q)
  | .wakeupSelect q node event => s.kProcProcessWakeupQueueSelect (.other q) node event
  | .kill pid sig => s.sysKill pid sig
  | .terminal pid sig => s.terminalSignal pid sig
  | .fault sig => s.kProcProcessSendSignal s.current sig
  | .tick ticks => s.kProcProcessUpdateTimings ticks
  | .exit => s.kProcProcessExit
  | .waitpid pid options => do
    let (_,s) ← s.kProcProcessWaitpid pid options
    pure s
  | .resume =>
    match (s.tasks s.current).waiting with
    | none => pure s
    | some (pid,options) => do
      let (_,s) ← s.waitpidLoop pid options
      pure s

/-- System calls are made by processes, not by the idle process, and not from inside
`k_proc_process_waitpid`. -/
def Enabled (s : Sched) : Event → Prop
  | .fork | .tasklet | .sleepOnQueue _ | .select _ _ | .sleep _ _ | .fault
      _ | .exit | .waitpid _ _ =>
    s.current ≠ IDLE ∧ (s.tasks s.current).waiting = none
  | .yield => (s.tasks s.current).waiting = none
  | .resume => s.current ≠ IDLE
  | _ => True

/-- The steps of a kind. -/
def Step (allowed : Sched → Event → Prop) (s t : Sched) : Prop :=
  ∃ e, s.Enabled e ∧ allowed s e ∧ s.step e = .ok t

instance (s : Sched) (e : Event) : Decidable (s.Enabled e) := by
  induction e using Event.casesOn <;> dsimp only [Enabled] <;> infer_instance

/-- The state after some events, if each of them is a step of the kind. -/
def run (allowed : Sched → Event → Prop) [∀ s e, Decidable (allowed s e)] :
    List Event → Sched → Option Sched :=
  runAll (fun s e => s.Enabled e ∧ allowed s e) step

theorem exists_of_run (allowed : Sched → Event → Prop) [∀ s e, Decidable (allowed s e)]
    (es : List Event) {s : Sched} (P : Sched → Bool) (h : (run allowed es s).any P = true) :
    ∃ t, Relation.ReflTransGen (Step allowed) s t ∧ P t = true := by
  obtain ⟨t,ht,hp⟩ := exists_of_runAll P h
  have hsub : ∀ a b, (∃ e, (a.Enabled e ∧ allowed a e) ∧ a.step e = .ok b) → Step allowed a b :=
    fun _ _ ⟨e,hmay,hret⟩ => ⟨e,hmay.1,hmay.2,hret⟩
  exact ⟨t,Relation.ReflTransGen.mono hsub s t ht,hp⟩

/-- The kernel has started, and the root process runs. -/
def boot : Sched where
  tasks := fun _ => .empty
  readyQueue := []
  queues := fun _ => []
  current := ROOT
  sleep := ⟨none,fun _ => ⟨ROOT,0,0,none⟩,0⟩
  processList := [ROOT]
  nextPid := 2
  destroyed := []
  staleUse := false

end Sched
end ScalesOS
