import ScalesOS.Calls

/-!
# Pipes

`kernel/src/fs/pipe.c`. The functions on the pointers of a pipe are those of a ring buffer.
Readers and writers sleep on one queue, `wait_queue`; a transfer goes byte by byte, and the
queue is woken when it is over. Which process stored and took each byte is recorded.
-/

namespace ScalesOS

/-- `wait_queue` and `sel_queues`. -/
def PIPE_WAIT_QUEUE : ℕ := 0
def PIPE_SEL_QUEUE_R : ℕ := 1
def PIPE_SEL_QUEUE_W : ℕ := 2
def PIPE_SEL_QUEUE_E : ℕ := 3

def PIPE_NODE : ℕ := 0

/-- A call with its arguments: the bytes to write, or how many to read, and whether the node
has `O_NOBLOCK`. -/
inductive PipeCall
  | write (noblock : Bool) (data : List Byte)
  | read (noblock : Bool) (size : ℕ)
  deriving DecidableEq

/-- A call and the bytes it has moved. -/
structure PipeProgress where
  call : PipeCall
  moved : List Byte
  deriving DecidableEq

structure PipeReturn where
  call : PipeCall
  result : ℤ
  moved : List Byte
  deriving DecidableEq

/-- `pipe_t`, and who stored and took which bytes. -/
structure Pipe where
  ring : Ringbuffer
  stored : List (ℕ × Byte)
  taken : List (ℕ × Byte)

abbrev PipeStretch := Stretch Pipe PipeCall PipeProgress PipeReturn
abbrev PipeSystem := CallSystem Pipe PipeCall PipeProgress PipeReturn

namespace Pipe

def create (size : ℕ) : Pipe := ⟨.create size fun _ => 0,[],[]⟩

/-- Process `p` has stored bytes. -/
def store (d : Pipe) (p : ℕ) (ring : Ringbuffer) (bytes : List Byte) : Pipe :=
  { d with ring := ring, stored := d.stored++bytes.map fun b => (p,b) }

/-- Process `p` has taken bytes. -/
def take (d : Pipe) (p : ℕ) (ring : Ringbuffer) (bytes : List Byte) : Pipe :=
  { d with ring := ring, taken := d.taken++bytes.map fun b => (p,b) }

/-- The end of a call: `wait_queue` is woken, and those that select for the event. -/
def finish (d : Pipe) (call : PipeCall) (moved : List Byte) (queue event : ℕ) : PipeStretch where
  device := d
  wakes := [.wakeup PIPE_WAIT_QUEUE,.wakeupSelect queue PIPE_NODE event]
  next := .finish ⟨call,moved.length,moved⟩

def sleep (d : Pipe) (call : PipeCall) (moved : List Byte) : PipeStretch where
  device := d
  wakes := []
  next := .sleep PIPE_WAIT_QUEUE ⟨call,moved⟩

/-- The loop of `__k_fs_pipe_write`, when the bytes `moved` have been written. -/
def kFsPipeWrite (d : Pipe) (p : ℕ) (noblock : Bool) (data moved : List Byte) : PipeStretch :=
  let rest := data.drop moved.length
  let (ring,left) := Ringbuffer.storeLoop rest d.ring
  let bytes := rest.take (rest.length-left.length)
  if left = [] ∨ noblock then
    (d.store p ring bytes).finish (.write noblock data)
    (moved++bytes) PIPE_SEL_QUEUE_R VFS_EVENT_READ
  else (d.store p ring bytes).sleep (.write noblock data) (moved++bytes)

/-- The loop of `__k_fs_pipe_read`, when the bytes `moved` have been read. -/
def readLoop (d : Pipe) (p : ℕ) (noblock : Bool) (size : ℕ) (moved : List Byte) : PipeStretch :=
  let (ring,bytes) := Ringbuffer.takeLoop (size-moved.length) d.ring
  if moved.length+bytes.length = size then
    (d.take p ring bytes).finish (.read noblock size)
    (moved++bytes) PIPE_SEL_QUEUE_W VFS_EVENT_WRITE
  else (d.take p ring bytes).sleep (.read noblock size) (moved++bytes)

def kFsPipeRead (d : Pipe) (p : ℕ) (noblock : Bool) (size : ℕ) : PipeStretch :=
  if noblock ∧ d.ring.readAvailable < size then ⟨d,[],.finish ⟨.read noblock size,-EAGAIN,[]⟩,false⟩
  else d.readLoop p noblock size []

def start (d : Pipe) (p : ℕ) : PipeCall → PipeStretch
  | .write noblock data => d.kFsPipeWrite p noblock data []
  | .read noblock size => d.kFsPipeRead p noblock size

def resume (d : Pipe) (p : ℕ) (task : Task) (x : PipeProgress) : PipeStretch :=
  if task.interrupted then ⟨d,[],.interrupted x.call ⟨x.call,-ERESTARTSYS,x.moved⟩,false⟩
  else
    match x.call with
    | .write noblock data => d.kFsPipeWrite p noblock data x.moved
    | .read noblock size => d.readLoop p noblock size x.moved

def driver : Driver Pipe PipeCall PipeProgress PipeReturn := ⟨start,resume⟩

def isOwn (q : ℕ) : Bool := q ≤ PIPE_SEL_QUEUE_E

variable {d : Pipe} {p : ℕ} {noblock : Bool}

theorem create_valid {size : ℕ} (hsize : 2 ≤ size) : (create size).ring.Valid :=
  ⟨hsize,by change 0 < size; omega,by change 0 < size; omega⟩

theorem storeLoop_rest (hv : d.ring.Valid) (rest : List Byte) :
    rest.take (rest.length-(Ringbuffer.storeLoop rest d.ring).2.length) =
    rest.take d.ring.writeAvailable := by
  obtain ⟨-,-,-,hrest⟩ := Ringbuffer.storeLoop_spec rest d.ring hv
  rw [hrest,List.length_drop]
  conv_rhs => rw [List.take_eq_take_min]
  congr 1
  omega

/-- A write stores what there is room for, and returns unless it has to wait for room. -/
theorem kFsPipeWrite_eq (hv : d.ring.Valid) (data moved : List Byte) :
    d.kFsPipeWrite p noblock data moved =
      let rest := data.drop moved.length
      let bytes := rest.take d.ring.writeAvailable
      let device := d.store p (Ringbuffer.storeLoop rest d.ring).1 bytes
      if rest.length ≤ d.ring.writeAvailable ∨ noblock then
        device.finish (.write noblock data) (moved++bytes) PIPE_SEL_QUEUE_R VFS_EVENT_READ
      else device.sleep (.write noblock data) (moved++bytes) := by
  obtain ⟨-,-,-,hrest⟩ := Ringbuffer.storeLoop_spec (data.drop moved.length) d.ring hv
  have hleft : (Ringbuffer.storeLoop (data.drop moved.length) d.ring).2 = [] ↔
      (data.drop moved.length).length ≤ d.ring.writeAvailable := by
    rw [hrest,List.drop_eq_nil_iff]
  rw [kFsPipeWrite]
  dsimp only
  rw [storeLoop_rest hv]
  simp only [hleft]

/-- A read takes what there is, and returns unless it has to wait for more. -/
theorem readLoop_eq (hv : d.ring.Valid) (size : ℕ) (moved : List Byte) (hm : moved.length ≤ size) :
    d.readLoop p noblock size moved =
      let bytes := d.ring.contents.take (size-moved.length)
      let device := d.take p (Ringbuffer.takeLoop (size-moved.length) d.ring).1 bytes
      if size-moved.length ≤ d.ring.readAvailable then
        device.finish (.read noblock size) (moved++bytes) PIPE_SEL_QUEUE_W VFS_EVENT_WRITE
      else device.sleep (.read noblock size) (moved++bytes) := by
  obtain ⟨-,-,-,hbytes⟩ := Ringbuffer.takeLoop_spec (size-moved.length) d.ring hv
  have hall : moved.length+(d.ring.contents.take (size-moved.length)).length = size ↔
      size-moved.length ≤ d.ring.readAvailable := by
    rw [List.length_take,Ringbuffer.readAvailable_eq]
    omega
  rw [readLoop]
  dsimp only
  rw [hbytes]
  simp only [hall]

end Pipe
end ScalesOS
