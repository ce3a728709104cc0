import ScalesOS.RingBuffer
import ScalesOS.QueueMembers

/-!
# Calls of a ring buffer

`ringbuffer_write` and `ringbuffer_read` by any number of processes. A call is one step up to
the point where it sleeps or returns; a process that is in a call goes on with it when it
runs again. What each call has moved and returned is recorded.
-/

namespace ScalesOS

def ERESTARTSYS : ℕ := 512

/-- `read_wait_queue` and `write_wait_queue`. -/
def READ_WAIT_QUEUE : Queue := .other 0
def WRITE_WAIT_QUEUE : Queue := .other 1

inductive RingCall
  | write (data : List Byte)
  | read (size : ℕ)
  deriving DecidableEq

/-- A call that has returned, and the bytes it moved. -/
structure Return where
  call : RingCall
  result : ℤ
  moved : List Byte
  deriving DecidableEq

namespace Return

/-- The bytes that a successful write has accepted. -/
def accepted (r : Return) : List Byte :=
  match r.call with
  | .write data => data.take r.result.toNat
  | .read _ => []

/-- The bytes that a successful read has delivered. -/
def delivered (r : Return) : List Byte :=
  match r.call with
  | .write _ => []
  | .read _ => if r.result < 0 then [] else r.moved

end Return

structure RingSystem where
  sched : Sched
  rb : Ringbuffer
  /-- the calls that processes are in -/
  calls : ℕ → Option RingCall
  /-- what the call of a process has moved so far -/
  moved : ℕ → List Byte
  returns : List Return

namespace RingCall

/-- The size that is asked for. -/
def size : RingCall → ℕ
  | .write data => data.length
  | .read size => size

end RingCall

namespace RingSystem

def process (s : RingSystem) : ℕ := s.sched.current

def copied (s : RingSystem) (rb : Ringbuffer) (bytes : List Byte) : RingSystem :=
  { s with rb := rb, moved := Function.update s.moved s.process (s.moved s.process++bytes) }

def setSched (s : RingSystem) (sched : Sched) : RingSystem := { s with sched := sched }

/-- The call of process `p` returns. -/
def finish (s : RingSystem) (p : ℕ) (call : RingCall) (result : ℤ) : RingSystem :=
  { s with calls := Function.update s.calls p none, returns := s.returns++[⟨call,
    result,s.moved p⟩] }

/-- The rest of a round: the other side is woken, and the call sleeps if it has moved
nothing, and returns otherwise. -/
def settle (s : RingSystem) (call : RingCall) (n : ℕ) (wake sleep : Queue) : Result RingSystem := do
  let p := s.process
  let sched ← s.sched.kProcProcessWakeupQueue wake
  if n = 0 then do
    let sched ← sched.kProcProcessSleepOnQueue sleep
    pure { s.setSched sched with calls := Function.update s.calls p (some call) }
  else do
    let sched ← sched.kProcProcessWakeupQueue wake
    pure ((s.setSched sched).finish p call n)

/-- One round of the outer loop of `ringbuffer_write`. -/
def ringbufferWrite (s : RingSystem) (data : List Byte) : Result RingSystem :=
  let (rb,rest) := Ringbuffer.storeLoop data s.rb
  let written := data.length-rest.length
  (s.copied rb (data.take written)).settle (.write data) written READ_WAIT_QUEUE WRITE_WAIT_QUEUE

/-- One round of the outer loop of `ringbuffer_read`. -/
def ringbufferRead (s : RingSystem) (size : ℕ) : Result RingSystem :=
  let (rb,bytes) := Ringbuffer.takeLoop size s.rb
  (s.copied rb bytes).settle (.read size) bytes.length WRITE_WAIT_QUEUE READ_WAIT_QUEUE

def round (s : RingSystem) : RingCall → Result RingSystem
  | .write data => s.ringbufferWrite data
  | .read size => s.ringbufferRead size

/-- A call begins. -/
def start (s : RingSystem) (call : RingCall) : Result RingSystem :=
  { s with moved := Function.update s.moved s.process [] }.round call

def resume (s : RingSystem) : Result RingSystem :=
  match s.calls s.process with
  | none => pure s
  | some call =>
    if (s.sched.tasks s.process).interrupted then pure (s.finish s.process call (-ERESTARTSYS))
    else s.round call

inductive Event
  | call (call : RingCall)
  | resume
  | other (e : Sched.Event)
  deriving DecidableEq

def isInterrupt : Sched.Event → Bool
  | .wakeup _ => true
  | .wakeupSingle _ => true
  | .wakeupSelect _ _ _ => true
  | .kill _ _ => true
  | .terminal _ _ => true
  | .tick _ => true
  | _ => false

/-- A process makes one call at a time, for at least one byte, and sleeps on the queues of
the buffer only in calls. -/
def Enabled (s : RingSystem) : Event → Prop
  | .call call => s.process ≠ IDLE ∧ (s.sched.tasks s.process).waiting = none ∧
      s.calls s.process = none ∧ 1 ≤ call.size
  | .resume => True
  | .other e => s.sched.Enabled e ∧ s.sched.SparesFinished e ∧
      (isInterrupt e = true ∨ s.calls s.process = none) ∧
      ¬ s.sched.SleepsOn e READ_WAIT_QUEUE ∧ ¬ s.sched.SleepsOn e WRITE_WAIT_QUEUE

instance (s : RingSystem) (e : Event) : Decidable (s.Enabled e) := by
  induction e using Event.casesOn <;> dsimp only [Enabled] <;> infer_instance

def step (s : RingSystem) : Event → Result RingSystem
  | .call call => s.start call
  | .resume => s.resume
  | .other e => do
    let sched ← s.sched.step e
    pure (s.setSched sched)

def Step (s t : RingSystem) : Prop := ∃ e, s.Enabled e ∧ s.step e = .ok t

/-- The kernel with a buffer that has just been made. -/
def boot (size : ℕ) (memory : ℕ → Byte) : RingSystem where
  sched := .boot
  rb := .create size memory
  calls := fun _ => none
  moved := fun _ => []
  returns := []

end RingSystem
end ScalesOS
