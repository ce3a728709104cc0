import ScalesOS.Machine

/-!
# The queue of timed sleepers

The singly linked list `sleep_queue` of `kernel/src/proc/process.c`: insertion by deadline
and removal. Nodes live in the kernel heap and are named by numbers. A walk that has seen
more nodes than were ever made goes round in circles and does not end.
-/

namespace ScalesOS

def MICROSECONDS_PER_SECOND : ℕ := 1000000

/-- `wait_node_t`. -/
structure WaitNode where
  process : ℕ
  seconds : ℕ
  microseconds : ℕ
  next : Option ℕ

structure SleepQueue where
  head : Option ℕ
  nodes : ℕ → WaitNode
  nextNode : ℕ

/-- The time, in seconds and microseconds, a span after `ticks` microseconds. -/
def deadline (ticks seconds microseconds : ℕ) : ℕ × ℕ :=
  let curSeconds := (ticks/MICROSECONDS_PER_SECOND+seconds)%W64
  let curMicroseconds := (ticks%MICROSECONDS_PER_SECOND+microseconds)%W64
  if MICROSECONDS_PER_SECOND ≤ curMicroseconds then
    ((curSeconds+curMicroseconds/MICROSECONDS_PER_SECOND)%W64,
      curMicroseconds%MICROSECONDS_PER_SECOND)
  else (curSeconds,curMicroseconds)

namespace WaitNode

def later (node : WaitNode) (seconds microseconds : ℕ) : Bool :=
  node.seconds > seconds || (node.seconds = seconds && node.microseconds > microseconds)

/-- The node's deadline has come. -/
def due (node : WaitNode) (seconds microseconds : ℕ) : Bool :=
  node.seconds < seconds || (node.seconds = seconds && node.microseconds ≤ microseconds)

end WaitNode

namespace SleepQueue

def setNext (q : SleepQueue) (n : ℕ) (next : Option ℕ) : SleepQueue :=
  { q with nodes := Function.update q.nodes n { q.nodes n with next := next } }

/-- The walk to `target`; the node before it, or the node itself if it is the first. -/
def findNode (q : SleepQueue) (target : ℕ) : ℕ → ℕ → Option ℕ → Result (Option ℕ)
  | _, _, none => pure none
  | 0, _, some _ => throw .loop
  | fuel+1, prev, some n => if n = target then pure (some prev)
      else q.findNode target fuel n (q.nodes n).next

def removeFromSleepQueue (q : SleepQueue) (target : ℕ) : Result SleepQueue :=
  match q.head with
  | none => pure q
  | some first => do
    let found ← q.findNode target (q.nextNode+1) first (some first)
    match found with
    | none => pure q
    | some prev =>
      if target = first then pure { q with head := (q.nodes target).next }
      else pure (q.setNext prev (q.nodes target).next)

/-- `__k_proc_process_remove_from_sleep_queue`, which may be given a null pointer. -/
def remove (q : SleepQueue) : Option ℕ → Result SleepQueue
  | none => pure q
  | some target => q.removeFromSleepQueue target

def findLater (q : SleepQueue) (seconds microseconds : ℕ) : ℕ → ℕ → Option ℕ → Result (ℕ × Option ℕ)
  | _, prev, none => pure (prev,none)
  | 0, _, some _ => throw .loop
  | fuel+1, prev, some n =>
    if (q.nodes n).later seconds microseconds then
      q.findLater seconds microseconds fuel n (q.nodes n).next
    else pure (prev,some n)

def insert (q : SleepQueue) (process : ℕ) (time : ℕ × ℕ) : Result (ℕ × SleepQueue) :=
  let new := q.nextNode
  let q :=
    { q with nodes := Function.update q.nodes new ⟨process,time.1,time.2,none⟩, nextNode := new+1 }
  match q.head with
  | none => pure (new,{ q with head := some new })
  | some first => do
    let (prev,node) ← q.findLater time.1 time.2 (new+1) first (some first)
    pure (new,(q.setNext prev (some new)).setNext new node)

end SleepQueue
end ScalesOS
