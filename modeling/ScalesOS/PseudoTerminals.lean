import ScalesOS.Select
import ScalesOS.Terminal

/-!
# Select on terminals

Masters and slaves of pseudo terminals, read, written and selected by any number of processes.
Nothing in `kernel/src/dev/tty.c` wakes those that select, so that they sleep on when something
goes into an empty ring buffer, or out of a full one.
-/

namespace ScalesOS

/-- One end of a terminal. -/
structure PtyNode where
  pty : ℕ
  master : Bool
  deriving DecidableEq

inductive PtyCall
  | read (node : PtyNode) (size : ℕ)
  | write (node : PtyNode) (data : List Byte)
  deriving DecidableEq

/-- How far a call has come, and whether it sleeps in the ring buffer. -/
inductive PtyProgress
  | reading (node : PtyNode) (size asked : ℕ) (slept : Bool)
  | writing (node : PtyNode) (data : List Byte) (todo : List TtyOp) (slept : Bool)

structure PtyReturn where
  call : PtyCall
  result : ℤ
  moved : List Byte

/-- The terminals, and the descriptors of the processes. -/
structure Ptys where
  ptys : ℕ → Pty
  fds : ℕ → ℕ → Option PtyNode

abbrev PtyStretch := Stretch Ptys PtyCall PtyProgress PtyReturn
abbrev PtySystem := SelectSystem Ptys PtyCall PtyProgress PtyReturn

/-- The queues of terminal `i`: those of its ring buffers, and those for select. -/
def inReadQueue (i : ℕ) : ℕ := 11*i
def inWriteQueue (i : ℕ) : ℕ := 11*i+1
def outReadQueue (i : ℕ) : ℕ := 11*i+2
def outWriteQueue (i : ℕ) : ℕ := 11*i+3

namespace PtyNode

/-- `master_sel_queues` and `slave_sel_queues`. -/
def selQueue (node : PtyNode) (event : SelectEvent) : ℕ :=
  11*node.pty+(if node.master then 4 else 7)+
    match event with
    | .read => 0
    | .write => 1
    | .except => 2

def other (node : PtyNode) : PtyNode := { node with master := !node.master }

end PtyNode

namespace Pty

def kDevTtyCheckMaster (d : Pty) : SelectEvent → Bool
  | .read => 0 < d.outBuffer.readAvailable
  | .write => 0 < d.inBuffer.writeAvailable
  | .except => false

def kDevTtyCheckSlave (d : Pty) : SelectEvent → Bool
  | .read => 0 < d.inBuffer.readAvailable
  | .write => 0 < d.outBuffer.writeAvailable
  | .except => false

def readBuffer (d : Pty) (master : Bool) : Ringbuffer := if master then d.outBuffer else d.inBuffer

end Pty

namespace Ptys

def setPty (d : Ptys) (i : ℕ) (pty : Pty) : Ptys := { d with ptys := Function.update d.ptys i pty }

def setIn (d : Ptys) (i : ℕ) (rb : Ringbuffer) : Ptys := d.setPty i { d.ptys i with inBuffer := rb }

def setOut (d : Ptys) (i : ℕ) (rb : Ringbuffer) : Ptys :=
  d.setPty i { d.ptys i with outBuffer := rb }

def setTty (d : Ptys) (i : ℕ) (tty : Tty) : Ptys := d.setPty i { d.ptys i with tty := tty }

def kDevTtyCheck (d : Ptys) (node : PtyNode) : SelectEvent → Bool :=
  if node.master then (d.ptys node.pty).kDevTtyCheckMaster else (d.ptys node.pty).kDevTtyCheckSlave

/-- A call is made; nothing has been moved yet. -/
def start (d : Ptys) (_ : ℕ) : PtyCall → PtyStretch
  | .read node size =>
    let pty := d.ptys node.pty
    let asked := if node.master then size else pty.tty.readSize pty.inBuffer.readAvailable size
    ⟨d,[],.goOn (.reading node size asked false),false⟩
  | .write node data =>
    ⟨d,[],.goOn (.writing node data (if node.master then Tty.kDevTtyPtyWriteMaster data
      else Tty.kDevTtyPtyWriteSlave data) false),false⟩

/-- A round of `ringbuffer_read`. -/
def readRound (d : Ptys) (node : PtyNode) (size asked : ℕ) : PtyStretch :=
  let (rb,bytes) := ((d.ptys node.pty).readBuffer node.master).takeLoop asked
  let writeQueue := if node.master then outWriteQueue node.pty else inWriteQueue node.pty
  let readQueue := if node.master then outReadQueue node.pty else inReadQueue node.pty
  let device := if node.master then d.setOut node.pty rb else d.setIn node.pty rb
  if bytes = [] then ⟨device,[.wakeup writeQueue],
    .sleep readQueue (.reading node size asked true),false⟩
  else ⟨device,[.wakeup writeQueue,.wakeup writeQueue],
    .finish ⟨.read node size,bytes.length,bytes⟩,false⟩

/-- The next operation of a write. A process that is interrupted while it waits for room loses
its character. -/
def writeRound (d : Ptys) (node : PtyNode) (data : List Byte) (interrupted : Bool) :
    List TtyOp → PtyStretch
  | [] => ⟨d,[],.finish ⟨.write node data,data.length,[]⟩,false⟩
  | .putIn c :: rest =>
    let rb := (d.ptys node.pty).inBuffer
    if interrupted then ⟨d,[],.goOn (.writing node data rest false),false⟩
    else if rb.writeAvailable = 0 then
      ⟨d,[.wakeup (inReadQueue node.pty)],
        .sleep (inWriteQueue node.pty) (.writing node data (.putIn c :: rest) true),false⟩
    else
      ⟨d.setIn node.pty (rb.store c),
        [.wakeup (inReadQueue node.pty),.wakeup (inReadQueue node.pty)],
        .goOn (.writing node data rest false),false⟩
  | .putOut c :: rest =>
    let rb := (d.ptys node.pty).outBuffer
    if interrupted then ⟨d,[],.goOn (.writing node data rest false),false⟩
    else if rb.writeAvailable = 0 then
      ⟨d,[.wakeup (outReadQueue node.pty)],
        .sleep (outWriteQueue node.pty) (.writing node data (.putOut c :: rest) true),false⟩
    else
      ⟨d.setOut node.pty (rb.store c),
        [.wakeup (outReadQueue node.pty),.wakeup (outReadQueue node.pty)],
        .goOn (.writing node data rest false),false⟩
  | .signal sig :: rest =>
    let process := (d.ptys node.pty).tty.process
    ⟨d,if 0 < process then [.terminal process sig]
      else [],.goOn (.writing node data rest false),false⟩
  | op :: rest =>
    let tty := (d.ptys node.pty).tty
    ⟨d.setTty node.pty (tty.exec op).1,[],.goOn (.writing node data ((tty.exec op).2++rest) false),
      false⟩

def resume (d : Ptys) (_ : ℕ) (task : Task) : PtyProgress → PtyStretch
  | .reading node size asked slept =>
    if slept && task.interrupted then
      ⟨d,[],.interrupted (.read node size) ⟨.read node size,-ERESTARTSYS,[]⟩,false⟩
    else d.readRound node size asked
  | .writing node data todo slept => d.writeRound node data (slept && task.interrupted) todo

def driver : Driver Ptys PtyCall PtyProgress PtyReturn := ⟨start,resume⟩

def files : SelectFiles Ptys PtyNode where
  node d p fd := d.fds p fd
  check := kDevTtyCheck
  queue := PtyNode.selQueue

def isOwn (q : ℕ) : Bool := q%11 ≠ 10

/-- Those that have registered for an event at an end. -/
def registered (s : PtySystem) (node : PtyNode) (event : SelectEvent) : List ℕ :=
  s.sched.queues (.other (node.selQueue event))

/-- A character goes into an empty ring buffer, or characters out of a full one, only while
nobody waits for that at the end where it can be noticed. -/
def Unnoticed (s : PtySystem) (e : CallEvent (PtyCall ⊕ SelectCall)) : Prop :=
  match e, s.calls s.process with
  | .resume, some (.inl (.reading node _ asked slept)) =>
    (slept && (s.sched.tasks s.process).interrupted) = true ∨ asked = 0 ∨
      ((s.device.ptys node.pty).readBuffer node.master).writeAvailable ≠ 0 ∨
      registered s node.other .write = []
  | .resume, some (.inl (.writing node _ (.putIn _ :: _) slept)) =>
    (slept && (s.sched.tasks s.process).interrupted) = true ∨
    (s.device.ptys node.pty).inBuffer.readAvailable ≠ 0 ∨
      (s.device.ptys node.pty).inBuffer.writeAvailable = 0 ∨
      registered s ⟨node.pty,false⟩ .read = []
  | .resume, some (.inl (.writing node _ (.putOut _ :: _) slept)) =>
    (slept && (s.sched.tasks s.process).interrupted) = true ∨
    (s.device.ptys node.pty).outBuffer.readAvailable ≠ 0 ∨
      (s.device.ptys node.pty).outBuffer.writeAvailable = 0 ∨
      registered s ⟨node.pty,true⟩ .read = []
  | _, _ => True

instance (s : PtySystem) (e : CallEvent (PtyCall ⊕ SelectCall)) : Decidable (Unnoticed s e) := by
  unfold Unnoticed
  split <;> infer_instance

def Step (allowed : PtySystem → CallEvent (PtyCall ⊕ SelectCall) → Prop) :
    PtySystem → PtySystem → Prop :=
  CallSystem.Step (driver.withSelect files) isOwn allowed

variable {d : Ptys} {s t : PtySystem} {e : CallEvent (PtyCall ⊕ SelectCall)} {node : PtyNode}
    {event : SelectEvent}

theorem check_setPty (d : Ptys) (i : ℕ) (pty : Pty) (node : PtyNode) (event : SelectEvent) :
    (d.setPty i pty).kDevTtyCheck node event =
      if node.pty = i then (if node.master then pty.kDevTtyCheckMaster event
      else pty.kDevTtyCheckSlave event)
      else d.kDevTtyCheck node event := by
  rw [kDevTtyCheck,setPty]
  by_cases h : node.pty = i
  · rw [if_pos h,h]
    dsimp only
    rw [Function.update_self]
    split <;> rfl
  · rw [if_neg h]
    dsimp only
    rw [Function.update_of_ne h,kDevTtyCheck]

theorem check_setTty (d : Ptys) (i : ℕ) (tty : Tty) (node : PtyNode) (event : SelectEvent) :
    (d.setTty i tty).kDevTtyCheck node event = d.kDevTtyCheck node event := by
  rw [setTty,check_setPty]
  split
  · rename_i h
    subst h
    rw [kDevTtyCheck]
    split <;> cases event <;> rfl
  · rfl

/-- The input buffer of a terminal is noticed by those that read its slave and write its
master. -/
theorem check_setIn {i : ℕ} {rb : Ringbuffer} (hcheck : d.kDevTtyCheck node event = false)
    (hread : node = ⟨i,false⟩ → event = .read → rb.readAvailable = 0)
    (hwrite : node = ⟨i,true⟩ → event = .write → rb.writeAvailable = 0) :
    (d.setIn i rb).kDevTtyCheck node event = false := by
  rw [setIn,check_setPty]
  obtain ⟨pty,master⟩ := node
  split
  · rename_i h
    have h : pty = i := h
    subst h
    cases master with
    | true =>
      cases event with
      | write =>
        change decide (0 < rb.writeAvailable) = false
        rw [hwrite rfl rfl]
        rfl
      | _ => exact hcheck
    | false =>
      cases event with
      | read =>
        change decide (0 < rb.readAvailable) = false
        rw [hread rfl rfl]
        rfl
      | _ => exact hcheck
  · exact hcheck

theorem check_setOut {i : ℕ} {rb : Ringbuffer} (hcheck : d.kDevTtyCheck node event = false)
    (hread : node = ⟨i,true⟩ → event = .read → rb.readAvailable = 0)
    (hwrite : node = ⟨i,false⟩ → event = .write → rb.writeAvailable = 0) :
    (d.setOut i rb).kDevTtyCheck node event = false := by
  rw [setOut,check_setPty]
  obtain ⟨pty,master⟩ := node
  split
  · rename_i h
    have h : pty = i := h
    subst h
    cases master with
    | true =>
      cases event with
      | read =>
        change decide (0 < rb.readAvailable) = false
        rw [hread rfl rfl]
        rfl
      | _ => exact hcheck
    | false =>
      cases event with
      | write =>
        change decide (0 < rb.writeAvailable) = false
        rw [hwrite rfl rfl]
        rfl
      | _ => exact hcheck
  · exact hcheck

theorem available_of_check {rb : Ringbuffer} (h : decide (0 < rb.readAvailable) = false) :
    rb.readAvailable = 0 :=
  Nat.eq_zero_of_not_pos (of_decide_eq_false h)

theorem room_of_check {rb : Ringbuffer} (h : decide (0 < rb.writeAvailable) = false) :
    rb.writeAvailable = 0 :=
  Nat.eq_zero_of_not_pos (of_decide_eq_false h)

theorem takeLoop_empty {rb : Ringbuffer} (n : ℕ) (h : rb.readAvailable = 0) :
    rb.takeLoop n = (rb,[]) := by
  cases n with
  | zero => rfl
  | succ n => rw [Ringbuffer.takeLoop,if_pos h]

theorem readRound_check {end' : PtyNode} {size asked : ℕ}
    (hcheck : d.kDevTtyCheck node event = false)
    (hquiet : node = end'.other → event = .write →
      asked = 0 ∨ ((d.ptys end'.pty).readBuffer end'.master).writeAvailable ≠ 0) :
    (d.readRound end' size asked).device.kDevTtyCheck node event = false := by
  have hdevice : (d.readRound end' size asked).device =
      if end'.master then d.setOut end'.pty
        (((d.ptys end'.pty).readBuffer end'.master).takeLoop asked).1
      else d.setIn end'.pty (((d.ptys end'.pty).readBuffer end'.master).takeLoop asked).1 := by
    rw [readRound]
    dsimp only
    split <;> rfl
  rw [hdevice]
  obtain ⟨i,master⟩ := end'
  cases master with
  | true =>
    refine check_setOut hcheck ?_ ?_
    · rintro rfl rfl
      have hempty : (d.ptys i).outBuffer.readAvailable = 0 := available_of_check hcheck
      change (((d.ptys i).outBuffer).takeLoop asked).1.readAvailable = 0
      rw [takeLoop_empty asked hempty]
      exact hempty
    · rintro rfl rfl
      have hfull : (d.ptys i).outBuffer.writeAvailable = 0 := room_of_check hcheck
      rcases hquiet rfl rfl with h | h
      · rw [h]
        exact hfull
      · exact absurd hfull h
  | false =>
    refine check_setIn hcheck ?_ ?_
    · rintro rfl rfl
      have hempty : (d.ptys i).inBuffer.readAvailable = 0 := available_of_check hcheck
      change (((d.ptys i).inBuffer).takeLoop asked).1.readAvailable = 0
      rw [takeLoop_empty asked hempty]
      exact hempty
    · rintro rfl rfl
      have hfull : (d.ptys i).inBuffer.writeAvailable = 0 := room_of_check hcheck
      rcases hquiet rfl rfl with h | h
      · rw [h]
        exact hfull
      · exact absurd hfull h

theorem writeRound_check {end' : PtyNode} {data : List Byte} {interrupted : Bool}
    {todo : List TtyOp} (hcheck : d.kDevTtyCheck node event = false)
    (hin : ∀ c rest, todo = .putIn c :: rest → node = ⟨end'.pty,false⟩ → event = .read →
      interrupted = true ∨ (d.ptys end'.pty).inBuffer.readAvailable ≠ 0 ∨
      (d.ptys end'.pty).inBuffer.writeAvailable = 0)
    (hout : ∀ c rest, todo = .putOut c :: rest → node = ⟨end'.pty,true⟩ → event = .read →
      interrupted = true ∨ (d.ptys end'.pty).outBuffer.readAvailable ≠ 0 ∨
      (d.ptys end'.pty).outBuffer.writeAvailable = 0) :
    (d.writeRound end' data interrupted todo).device.kDevTtyCheck node event = false := by
  cases todo with
  | nil => exact hcheck
  | cons op rest =>
    cases op with
    | putIn c =>
      rw [writeRound]
      split
      · exact hcheck
      · rename_i hinterrupted
        split
        · exact hcheck
        · rename_i hroom
          refine check_setIn hcheck ?_ ?_
          · rintro rfl rfl
            rcases hin c rest rfl rfl rfl with h | h | h
            · exact absurd h hinterrupted
            · exact absurd (available_of_check hcheck) h
            · exact absurd h hroom
          · rintro rfl rfl
            exact absurd (room_of_check hcheck) hroom
    | putOut c =>
      rw [writeRound]
      split
      · exact hcheck
      · rename_i hinterrupted
        split
        · exact hcheck
        · rename_i hroom
          refine check_setOut hcheck ?_ ?_
          · rintro rfl rfl
            rcases hout c rest rfl rfl rfl with h | h | h
            · exact absurd h hinterrupted
            · exact absurd (available_of_check hcheck) h
            · exact absurd h hroom
          · rintro rfl rfl
            exact absurd (room_of_check hcheck) hroom
    | signal sig => exact hcheck
    | _ =>
      change (d.setTty end'.pty _).kDevTtyCheck node event = false
      rw [check_setTty]
      exact hcheck

theorem resume_check {y : PtyProgress} (hcalls : s.calls s.process = some (.inl y))
    (hal : Unnoticed s .resume)
    (hreg : registered s node event ≠ []) (hcheck : s.device.kDevTtyCheck node event = false) :
    (resume s.device s.process (s.sched.tasks s.process) y).device.kDevTtyCheck node event =
    false := by
  cases y with
  | reading end' size asked slept =>
    simp only [Unnoticed,hcalls] at hal
    rw [resume]
    split
    · exact hcheck
    · rename_i hslept
      refine readRound_check hcheck ?_
      rintro rfl rfl
      rcases hal with h | h | h | h
      · exact absurd h hslept
      · exact Or.inl h
      · exact Or.inr h
      · exact absurd h hreg
  | writing end' data todo slept =>
    rw [resume]
    refine writeRound_check hcheck ?_ ?_
    · rintro c rest rfl rfl rfl
      simp only [Unnoticed,hcalls] at hal
      rcases hal with h | h | h | h
      · exact Or.inl h
      · exact Or.inr (Or.inl h)
      · exact Or.inr (Or.inr h)
      · exact absurd h hreg
    · rintro c rest rfl rfl rfl
      simp only [Unnoticed,hcalls] at hal
      rcases hal with h | h | h | h
      · exact Or.inl h
      · exact Or.inr (Or.inl h)
      · exact Or.inr (Or.inr h)
      · exact absurd h hreg

theorem selQueue_range (node : PtyNode) (event : SelectEvent) :
    11*node.pty+4 ≤ node.selQueue event ∧ node.selQueue event ≤ 11*node.pty+9 := by
  obtain ⟨pty,master⟩ := node
  cases master <;> cases event <;> simp [PtyNode.selQueue]

theorem selQueue_own (node : PtyNode) (event : SelectEvent) :
    isOwn (node.selQueue event) = true := by
  have hrange := selQueue_range node event
  refine decide_eq_true ?_
  omega

theorem selQueue_injective {node node' : PtyNode} {event event' : SelectEvent}
    (h : node.selQueue event = node'.selQueue event') : node = node' ∧ event = event' := by
  have hrange := selQueue_range node event
  have hrange' := selQueue_range node' event'
  have hpty : node.pty = node'.pty := by omega
  obtain ⟨pty,master⟩ := node
  obtain ⟨pty',master'⟩ := node'
  obtain rfl : pty = pty' := hpty
  cases master <;> cases master' <;> cases event <;> cases event' <;> simp [PtyNode.selQueue] at h ⊢

structure Reserved (x : PtyStretch) : Prop where
  wakes : ∀ e ∈ x.wakes, ∀ (u : Sched) q, ¬ u.SleepsOn e q
  joins : ∀ q ∈ x.next.joins, q%11 < 4

theorem start_reserved (d : Ptys) (p : ℕ) (call : PtyCall) : Reserved (start d p call) := by
  cases call <;> exact ⟨fun _ he => (by cases he),fun _ hq => (by cases hq)⟩

theorem wakeup_sleeps {n : ℕ} {e : Sched.Event}
    (he : e ∈ [Sched.Event.wakeup n,Sched.Event.wakeup n]) (u : Sched) (q : Queue) :
    ¬ u.SleepsOn e q := by
  rcases List.mem_pair.mp he with rfl | rfl <;> exact id

theorem readRound_reserved (d : Ptys) (node : PtyNode) (size asked : ℕ) :
    Reserved (d.readRound node size asked) := by
  rw [readRound]
  dsimp only
  split
  · refine ⟨fun e he => wakeup_sleeps (List.mem_cons_of_mem _ he),fun q hq => ?_⟩
    rw [List.mem_singleton.mp hq,outReadQueue,inReadQueue]
    split <;> omega
  · exact ⟨fun e he => wakeup_sleeps he,fun q hq => by cases hq⟩

theorem writeRound_reserved (d : Ptys) (node : PtyNode) (data : List Byte) (interrupted : Bool)
    (todo : List TtyOp) :
    Reserved (d.writeRound node data interrupted todo) := by
  cases todo with
  | nil => exact ⟨fun _ he => (by cases he),fun _ hq => (by cases hq)⟩
  | cons op rest =>
    cases op with
    | putIn c =>
      rw [writeRound]
      split
      · exact ⟨fun _ he => (by cases he),fun _ hq => (by cases hq)⟩
      · split
        · refine ⟨fun e he => wakeup_sleeps (List.mem_cons_of_mem _ he),fun q hq => ?_⟩
          rw [List.mem_singleton.mp hq,inWriteQueue]
          omega
        · exact ⟨fun e he => wakeup_sleeps he,fun q hq => by cases hq⟩
    | putOut c =>
      rw [writeRound]
      split
      · exact ⟨fun _ he => (by cases he),fun _ hq => (by cases hq)⟩
      · split
        · refine ⟨fun e he => wakeup_sleeps (List.mem_cons_of_mem _ he),fun q hq => ?_⟩
          rw [List.mem_singleton.mp hq,outWriteQueue]
          omega
        · exact ⟨fun e he => wakeup_sleeps he,fun q hq => by cases hq⟩
    | signal sig =>
      refine ⟨fun e he u q => ?_,fun q hq => by cases hq⟩
      change e ∈ (if 0 < (d.ptys node.pty).tty.process then
        [Sched.Event.terminal _ sig] else []) at he
      split at he
      · rw [List.mem_singleton.mp he]
        exact id
      · cases he
    | _ => exact ⟨fun _ he => (by cases he),fun _ hq => (by cases hq)⟩

theorem resume_reserved (d : Ptys) (p : ℕ) (task : Task) (y : PtyProgress) :
    Reserved (resume d p task y) := by
  cases y with
  | reading node size asked slept =>
    rw [resume]
    split
    · exact ⟨fun _ he => (by cases he),fun _ hq => (by cases hq)⟩
    · exact readRound_reserved d node size asked
  | writing node data todo slept => exact writeRound_reserved d node data _ todo

def NoneReady (s : PtySystem) : Prop :=
  ∀ node event, ∀ p ∈ registered s node event, s.device.kDevTtyCheck node event = false

/-- A read or a write goes on without an end becoming ready at which somebody waits. -/
theorem NoneReady.own (hs : NoneReady s) {x : PtyStretch}
    (hx : s.stretch (driver.withSelect files) e = some (x.embed id id id .inl .inl .inl))
    (hx' : Reserved x) (hcheck : ∀ node event, registered s node event ≠ [] →
      s.device.kDevTtyCheck node event = false → x.device.kDevTtyCheck node event = false)
    (hret : s.step (driver.withSelect files) e = .ok t) : NoneReady t := by
  intro node event p hp
  have hran := CallSystem.step_stretch hx hret
  have hwakes : ∀ e ∈ x.wakes.map (Sched.Event.rename id id), ∀ u :
      Sched, ¬ u.SleepsOn e (.other (node.selQueue event)) := by
    intro e he u hsleep
    obtain ⟨e',he',rfl⟩ := List.mem_map.mp he
    refine hx'.wakes e' he' u (.other (node.selQueue event)) ?_
    cases e' with
    | select qs timeout =>
      rw [Sched.Event.rename,List.map_id] at hsleep
      exact hsleep
    | _ => exact hsleep
  rcases CallSystem.step_queue hx hwakes hret hp with hm | hjoin
  · have hreg : registered s node event ≠ [] := List.ne_nil_of_mem hm
    rw [hran.device_eq]
    exact hcheck node event hreg (hs node event p hm)
  · -- the queues of the ring buffers are others
    have hjoin' : node.selQueue event ∈ (x.next.map id Sum.inl Sum.inl Sum.inl :
        Next (PtyCall ⊕ SelectCall) (PtyProgress ⊕ SelectProgress)
          (PtyReturn ⊕ SelectReturn)).joins := hjoin
    rw [Next.map_joins,List.map_id] at hjoin'
    have hlt := hx'.joins _ hjoin'
    have hrange := selQueue_range node event
    omega

theorem NoneReady.select (hs : NoneReady s) {x : SelectStretch Ptys}
    (hx : s.stretch (driver.withSelect files) e = some (x.embed id id id .inr .inr .inr))
    (hdevice : x.device = s.device)
    (hwakes : x.wakes = []) (hjoins : ∀ q ∈ x.next.joins, ∃ node event,
      q = files.queue node event ∧ files.check s.device node event = false)
    (hret : s.step (driver.withSelect files) e = .ok t) : NoneReady t := by
  intro node event p hp
  have hran := CallSystem.step_stretch hx hret
  have hsame : t.device = s.device := hran.device_eq.trans hdevice
  have hnone : ∀ e ∈ x.wakes.map (Sched.Event.rename id id), ∀ u :
      Sched, ¬ u.SleepsOn e (.other (node.selQueue event)) := by
    intro e he
    rw [hwakes] at he
    cases he
  rw [hsame]
  rcases CallSystem.step_queue hx hnone hret hp with hm | hjoin
  · exact hs node event p hm
  · have hjoin' : node.selQueue event ∈ (x.next.map id Sum.inr Sum.inr Sum.inr :
        Next (PtyCall ⊕ SelectCall) (PtyProgress ⊕ SelectProgress)
          (PtyReturn ⊕ SelectReturn)).joins := hjoin
    rw [Next.map_joins,List.map_id] at hjoin'
    obtain ⟨node',event',hq,hcheck⟩ := hjoins _ hjoin'
    obtain ⟨rfl,rfl⟩ := selQueue_injective hq
    exact hcheck

theorem NoneReady.step (hs : NoneReady s) (hstep : Step Unnoticed s t) : NoneReady t := by
  obtain ⟨e,hen,hal,hret⟩ := hstep
  cases hx : s.stretch (driver.withSelect files) e with
  | none =>
    intro node event p hp
    have hsame := CallSystem.step_none hx hret
    rw [hsame.device_eq]
    obtain ⟨u,hu,hret⟩ := Result.bind_eq_ok.mp hret
    simp only [hx] at hret
    obtain rfl := Except.ok.inj hret
    cases e with
    | other e =>
      obtain ⟨sched,hsched,hu⟩ := Result.bind_eq_ok.mp hu
      obtain rfl := Except.ok.inj hu
      have hm := (Sched.step_joins hsched _ p hp).resolve_right fun h =>
        hen.not_own (selQueue_own node event) h.2
      exact hs node event p hm
    | _ =>
      obtain rfl := Except.ok.inj hu
      exact hs node event p hp
  | some x =>
    rcases CallSystem.stretch_cases hen hx with ⟨-,call,-,rfl⟩ | ⟨rfl,progress,hprogress,rfl⟩
    · cases call with
      | inl call => exact hs.own hx (start_reserved s.device s.process call) (fun node event _
          hcheck => by cases call <;> exact hcheck) hret
      | inr c => exact hs.select hx SelectFiles.start_device.1 SelectFiles.start_device.2 (fun q =>
        SelectFiles.start_joins) hret
    · cases progress with
      | inl y => exact hs.own hx (resume_reserved s.device s.process
          (s.sched.tasks s.process) y) (fun node event => resume_check hprogress hal) hret
      | inr y =>
        refine hs.select hx SelectFiles.resume_device.1 SelectFiles.resume_device.2.1 (fun q hq =>
          ?_) hret
        rw [SelectFiles.resume_device.2.2] at hq
        cases hq

/-- In a run in which no end becomes ready unnoticed, nobody waits for what holds already. -/
theorem select_on_terminals (device : Ptys)
    (h : Relation.ReflTransGen (Step Unnoticed) (CallSystem.boot device) s) (node : PtyNode)
    (event : SelectEvent) :
    ∀ p ∈ registered s node event, s.device.kDevTtyCheck node event = false :=
  reach_invariant (I := NoneReady) (fun _ _ hs hstep =>
    hs.step hstep) (fun _ _ _ hp => by cases hp) h node event

def oneTerminal : Ptys := ⟨fun _ => .create .sane (fun _ => 0) (fun _ => 0) (fun _ => 0),
  fun _ fd => if fd = 0 then some ⟨0,false⟩ else none⟩

def selectLine : SelectCall := ⟨1,fun event => if event = .read then some {0} else none,none⟩

def waitThenWrite (data : List Byte) (rounds : ℕ) : List (CallEvent (PtyCall ⊕ SelectCall)) :=
  [.other .fork,.other .yield,.call (.inr selectLine),
    .call (.inl (.write ⟨0,true⟩ data))]++List.replicate rounds .resume

/-- The process sleeps on although the line is there. -/
theorem sleeper_left_behind : ¬ ∀ (device : Ptys) (s : PtySystem),
    Relation.ReflTransGen (Step CallSystem.anyStep) (CallSystem.boot device) s →
      ∀ node event, ∀ p ∈ registered s node event, s.device.kDevTtyCheck node event = false := by
  intro hall
  have hrun : ∃ s, Relation.ReflTransGen (Step CallSystem.anyStep) (CallSystem.boot oneTerminal) s ∧
      (!(registered s ⟨0,false⟩ .read).isEmpty && s.device.kDevTtyCheck ⟨0,false⟩ .read) = true :=
    CallSystem.exists_run isOwn CallSystem.anyStep (waitThenWrite [LINE_FEED] 7) _ (by
      decide +kernel)
  obtain ⟨s,hs,hany⟩ := hrun
  rw [Bool.and_eq_true] at hany
  cases hreg : registered s ⟨0,false⟩ .read with
  | nil =>
    rw [hreg] at hany
    cases hany.1
  | cons p rest =>
    have hcheck := hall oneTerminal s hs ⟨0,false⟩ .read p (by rw [hreg]; exact List.mem_cons_self)
    rw [hcheck] at hany
    cases hany.2

/-- A character without the end of its line does not concern the process that waits. -/
theorem select_on_terminals_pending : ∃ s : PtySystem, ∃ p,
    Relation.ReflTransGen (Step Unnoticed) (CallSystem.boot oneTerminal) s ∧
      p ∈ registered s ⟨0,false⟩ .read ∧ s.device.kDevTtyCheck ⟨0,false⟩ .read = false := by
  have hrun : ∃ s, Relation.ReflTransGen (Step Unnoticed) (CallSystem.boot oneTerminal) s ∧
      (!(registered s ⟨0,false⟩ .read).isEmpty) = true :=
    CallSystem.exists_run isOwn Unnoticed (waitThenWrite [0x61] 4) _ (by decide +kernel)
  obtain ⟨s,hs,hany⟩ := hrun
  cases hreg : registered s ⟨0,false⟩ .read with
  | nil =>
    rw [hreg] at hany
    cases hany
  | cons p rest =>
    refine ⟨s,p,hs,by rw [hreg]; exact List.mem_cons_self,?_⟩
    exact select_on_terminals oneTerminal hs ⟨0,false⟩ .read p (by
      rw [hreg]; exact List.mem_cons_self)

end Ptys
end ScalesOS
