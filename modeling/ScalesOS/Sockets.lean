import ScalesOS.Calls
import ScalesOS.Paths

/-!
# Local sockets

`kernel/src/fs/socket.c`, with the system calls over it. A socket is named by a number, in
the order in which they are made. A socket is open for as long as it has descriptors; its
structure stays where it is when the last of them is closed.
-/

namespace ScalesOS

def AF_LOCAL : ℕ := 0
def SOCKET_MAX_BUFFER_SIZE : ℕ := 256*256
def SOCKET_INIT_BUFFER_SIZE : ℕ := 4096

def ENOBUFS : ℕ := 105
def ECONNREFUSED : ℕ := 111
def EISCONN : ℕ := 127
def ENOTCONN : ℕ := 128
def ENOTSUP : ℕ := 134

/-- The queues of socket `sd`: `blocked_processes`, `cnn_blocked_processes`, the one of the
mutex, and `sel_queues`. -/
def blockedProcesses (sd : ℕ) : ℕ := 6*sd
def cnnBlockedProcesses (sd : ℕ) : ℕ := 6*sd+1
def lockQueue (sd : ℕ) : ℕ := 6*sd+2
def SOCK_SEL_QUEUE_R (sd : ℕ) : ℕ := 6*sd+3
def SOCK_SEL_QUEUE_W (sd : ℕ) : ℕ := 6*sd+4
def SOCK_SEL_QUEUE_E (sd : ℕ) : ℕ := 6*sd+5

/-- `socket_t` and the node it belongs to. -/
structure Socket where
  domain : ℕ
  /-- `SOCK_NONBLOCK` in the type, and so `O_NOBLOCK` in the mode of the node -/
  nonblock : Bool
  addr : Option Path
  bind : Bool
  connect : Option ℕ
  listening : Bool
  backlog : List ℕ
  buffer : ℕ → Byte
  bufferSize : ℕ
  availableData : ℕ
  /-- the owner of `lock` -/
  lock : Option ℕ
  isOpen : Bool

/-- The sockets that have been made, and under which names the tree of files has them. -/
structure Sockets where
  sockets : ℕ → Socket
  count : ℕ
  bound : List Path → Option ℕ

inductive SocketCall
  | create (domain : ℕ) (nonblock : Bool)
  | bind (sd : ℕ) (path : Path)
  | listen (sd : ℕ)
  | connect (sd : ℕ) (path : Path)
  | accept (sd : ℕ)
  | read (sd : ℕ) (size : UInt32)
  | write (sd : ℕ) (data : List Byte)
  | close (sd : ℕ)
  deriving DecidableEq

/-- How far a read or a write has come: what is left of the size, the bytes that were
taken out of a buffer or put into one, and what has been stored at the positions of the
caller's buffer. -/
structure SocketCopy where
  left : ℕ
  moved : List Byte
  out : ℕ → Option Byte

inductive SocketProgress
  | connecting (sd : ℕ) (path : Path) (server : ℕ)
  | accepting (sd : ℕ)
  | reading (sd : ℕ) (size : UInt32) (copy : SocketCopy)
  | readLocking (sd : ℕ) (size : UInt32) (toRead : ℕ) (copy : SocketCopy)
  | writeLocking (sd client : ℕ) (data : List Byte)
  | writing (sd client : ℕ) (data : List Byte) (copy : SocketCopy)

/-- What a call returns; a read or a write also the socket whose buffer it works on. -/
structure SocketReturn where
  call : SocketCall
  result : ℤ
  peer : ℕ
  moved : List Byte
  out : ℕ → Option Byte

abbrev SocketStretch := Stretch Sockets SocketCall SocketProgress SocketReturn
abbrev SocketSystem := CallSystem Sockets SocketCall SocketProgress SocketReturn

namespace Socket

/-- The bytes in the receive buffer. -/
def contents (s : Socket) : List Byte := (List.range s.availableData).map s.buffer

/-- What `k_fs_socket_create` makes of a socket. -/
def new (domain : ℕ) (nonblock : Bool) : Socket where
  domain := domain
  nonblock := nonblock
  addr := none
  bind := false
  connect := none
  listening := false
  backlog := []
  buffer := fun _ => 0
  bufferSize := SOCKET_INIT_BUFFER_SIZE
  availableData := 0
  lock := none
  isOpen := true

/-- The first `toRead` bytes are taken out, and the others moved to the front. -/
def takeOut (s : Socket) (toRead : ℕ) : Socket :=
  let left := sub32 s.availableData toRead
  { s with
    availableData := left
    buffer := if left = 0 then s.buffer else fun i => if i < left then s.buffer (i+toRead)
      else s.buffer i }

/-- The first `sz` bytes of the caller's buffer are put behind what is there. -/
def append (s : Socket) (data : List Byte) (sz : ℕ) : Socket :=
  { s with
    buffer := fun i => if s.availableData ≤ i ∧ i < s.availableData+sz then
      data.getD (i-s.availableData) 0 else s.buffer i
    availableData := s.availableData+sz }

def grow (s : Socket) : Socket := { s with bufferSize := s.bufferSize+SOCKET_INIT_BUFFER_SIZE }

end Socket

namespace SocketCopy

def start (size : ℕ) : SocketCopy := ⟨size,[],fun _ => none⟩

/-- Bytes are stored at the front of the caller's buffer. -/
def read (x : SocketCopy) (buffer : ℕ → Byte) (toRead : ℕ) : SocketCopy where
  left := sub32 x.left toRead
  moved := x.moved++(List.range toRead).map buffer
  out := fun i => if i < toRead then some (buffer i) else x.out i

def wrote (x : SocketCopy) (data : List Byte) (sz : ℕ) : SocketCopy :=
  { x with left := x.left-sz, moved := x.moved++data.take sz }

end SocketCopy

namespace Sockets

/-- No socket has been made. -/
def init : Sockets := ⟨fun _ => { Socket.new 0 false with isOpen := false },0,fun _ => none⟩

def modify (d : Sockets) (sd : ℕ) (f : Socket → Socket) : Sockets :=
  { d with sockets := Function.update d.sockets sd (f (d.sockets sd)) }

def done (d : Sockets) (call : SocketCall) (result : ℤ) (wakes : List Sched.Event) :
    SocketStretch where
  device := d
  wakes := wakes
  next := .finish ⟨call,result,0,[],fun _ => none⟩

def mutexLock (d : Sockets) (sd p : ℕ) : Sockets := d.modify sd fun s => { s with lock := some p }

def mutexUnlock (d : Sockets) (sd : ℕ) : Sockets := d.modify sd fun s => { s with lock := none }

/-- The end of `__k_fs_socket_read`. -/
def readDone (d : Sockets) (sd : ℕ) (size : UInt32) (x : SocketCopy) (wakes : List Sched.Event) :
    SocketStretch where
  device := d
  wakes := wakes++[.wakeupSelect (SOCK_SEL_QUEUE_W sd) sd VFS_EVENT_WRITE]
  next := .finish ⟨.read sd size,sub32 size.toNat x.left,sd,x.moved,x.out⟩

def readChunk (d : Sockets) (p sd toRead : ℕ) : Sockets :=
  ((d.mutexLock sd p).modify sd (Socket.takeOut · toRead)).mutexUnlock sd

/-- The loop of `__k_fs_socket_read`. Every turn takes bytes out of the buffer, so that
there are at most as many turns as there are bytes. -/
def readLoop (p sd : ℕ) (size : UInt32) : ℕ → Sockets → SocketCopy →
    List Sched.Event → SocketStretch
  | 0, d, x, wakes => d.readDone sd size x wakes
  | fuel+1, d, x, wakes =>
    if x.left = 0 then d.readDone sd size x wakes
    else if (d.sockets sd).availableData = 0 then
      if (d.sockets sd).nonblock then d.readDone sd size x wakes
      else ⟨d,wakes,.sleep (blockedProcesses sd) (.reading sd size x),false⟩
    else
      let toRead := if size.toNat < (d.sockets sd).availableData then size.toNat
        else (d.sockets sd).availableData
      if (d.sockets sd).lock.isSome then
        ⟨d,wakes,.sleep (lockQueue sd) (.readLocking sd size toRead x),false⟩
      else readLoop p sd size fuel (d.readChunk p sd toRead) (x.read (d.sockets sd).buffer toRead)
        (wakes++[.wakeupSingle (lockQueue sd)])

def kFsSocketRead (d : Sockets) (p sd : ℕ) (size : UInt32) (x : SocketCopy)
    (wakes : List Sched.Event) : SocketStretch :=
  readLoop p sd size ((d.sockets sd).availableData+1) d x wakes

/-- The end of `__k_fs_socket_write`. -/
def writeDone (d : Sockets) (sd client : ℕ) (data : List Byte) (x : SocketCopy)
    (wakes : List Sched.Event) : SocketStretch where
  device := d.mutexUnlock client
  wakes := wakes++[.wakeupSingle (lockQueue client)]
  next := .finish ⟨.write sd data,data.length,client,x.moved,x.out⟩

def writeBlocked (d : Sockets) (sd client : ℕ) (data : List Byte) (x : SocketCopy)
    (wakes : List Sched.Event) : SocketStretch :=
  if (d.sockets sd).nonblock then
    ⟨d,wakes++[.wakeupSelect (SOCK_SEL_QUEUE_E sd) sd VFS_EVENT_EXCEPT],
      .finish ⟨.write sd data,-ENOBUFS,client,x.moved,x.out⟩,false⟩
  else ⟨d,wakes,.sleep (blockedProcesses sd) (.writing sd client data x),false⟩

def makeRoom (d : Sockets) (client : ℕ) : Sockets :=
  if (d.sockets client).bufferSize ≤ (d.sockets client).availableData then
    d.modify client .grow else d

def chunkSize (d : Sockets) (client : ℕ) (x : SocketCopy) : ℕ :=
  let room := sub32 (d.sockets client).bufferSize (d.sockets client).availableData
  if room < x.left then room else x.left

/-- The peer and those that select on it are woken for what has been written. -/
def written (client : ℕ) : List Sched.Event :=
  [.wakeup (blockedProcesses client),.wakeupSelect (SOCK_SEL_QUEUE_R client) client VFS_EVENT_READ]

/-- The loop of `__k_fs_socket_write`. Every turn writes something. -/
def writeLoop (sd client : ℕ) (data : List Byte) : ℕ → Sockets → SocketCopy →
    List Sched.Event → SocketStretch
  | 0, d, x, wakes => d.writeDone sd client data x wakes
  | fuel+1, d, x, wakes =>
    if x.left = 0 then d.writeDone sd client data x wakes
    else if (d.sockets client).bufferSize ≤ (d.sockets client).availableData ∧
        SOCKET_MAX_BUFFER_SIZE ≤ (d.sockets client).availableData then
        d.writeBlocked sd client data x wakes
    else
      let sz := (d.makeRoom client).chunkSize client x
      writeLoop sd client data fuel ((d.makeRoom client).modify client (Socket.append · data sz))
        (x.wrote data sz)
        (wakes++written client)

def writeLocked (d : Sockets) (p sd client : ℕ) (data : List Byte) : SocketStretch :=
  if (d.sockets client).lock.isSome then
    ⟨d,[],.sleep (lockQueue client) (.writeLocking sd client data),false⟩
  else writeLoop sd client data data.length (d.mutexLock client p) (.start data.length) []

def kFsSocketWrite (d : Sockets) (p sd : ℕ) (data : List Byte) : SocketStretch :=
  if (d.sockets sd).domain ≠ AF_LOCAL then d.done (.write sd data) (-EINVAL) []
  else
    match (d.sockets sd).connect with
    | none => d.done (.write sd data) (-ENOTCONN) []
    | some client => d.writeLocked p sd client data

/-- A write has slept because the peer had no room. Its buffer grows, whether or not there
is room in it now. -/
def writeResumed (d : Sockets) (sd client : ℕ) (data : List Byte) (x : SocketCopy) :
    SocketStretch :=
  if SOCKET_MAX_BUFFER_SIZE ≤ (d.sockets client).availableData then
    d.writeBlocked sd client data x []
  else
    let sz := (d.modify client .grow).chunkSize client x
    writeLoop sd client data x.left
      ((d.modify client .grow).modify client (Socket.append · data sz)) (x.wrote data sz)
      (written client)

def kFsSocketCreate (d : Sockets) (domain : ℕ) (nonblock : Bool) : Sockets :=
  { d with sockets := Function.update d.sockets d.count (.new domain nonblock), count := d.count+1 }

/-- The socket is mounted in the tree of files. -/
def mount (d : Sockets) (names : List Path) (sd : ℕ) : Sockets :=
  { d with bound := Function.update d.bound names (some sd) }

def kFsSocketBind (d : Sockets) (sd : ℕ) (path : Path) : SocketStretch :=
  if (d.sockets sd).bind then d.done (.bind sd path) (-EINVAL) []
  else if (d.sockets sd).domain = AF_LOCAL then
    ((d.mount (Path.names path) sd).modify sd fun s =>
      { s with addr := some path, bind := true }).done (.bind sd path) 0 []
  else d.done (.bind sd path) (-EINVAL) []

def kFsSocketListen (d : Sockets) (sd : ℕ) : SocketStretch :=
  (d.modify sd fun s => { s with listening := true }).done (.listen sd) 0 []

/-- The loop in which `k_fs_socket_connect` waits. -/
def connectLoop (d : Sockets) (sd : ℕ) (path : Path) (server : ℕ) (wakes : List Sched.Event) :
    SocketStretch :=
  if (d.sockets sd).connect.isSome then d.done (.connect sd path) 0 wakes
  else if (d.sockets sd).nonblock then d.done (.connect sd path) (-EAGAIN) wakes
  else ⟨d,wakes,.sleep (cnnBlockedProcesses server) (.connecting sd path server),false⟩

def enqueue (d : Sockets) (sd : ℕ) (path : Path) (server : ℕ) : Sockets :=
  (d.modify sd fun s => { s with addr := some path }).modify server fun s =>
  { s with backlog := s.backlog++[sd] }

def kFsSocketConnect (d : Sockets) (sd : ℕ) (path : Path) : SocketStretch :=
  if (d.sockets sd).connect.isSome then d.done (.connect sd path) (-EISCONN) []
  else if (d.sockets sd).domain = AF_LOCAL then
    match d.bound (Path.names path) with
    | none => d.done (.connect sd path) (-ENOENT) []
    | some server =>
      if !(d.sockets server).listening then d.done (.connect sd path) (-ECONNREFUSED) []
      else
        (d.enqueue sd path server).connectLoop sd path server
          [.wakeupSelect (SOCK_SEL_QUEUE_R server) server VFS_EVENT_READ,
            .wakeup (blockedProcesses server)]
  else d.done (.connect sd path) (-EINVAL) []

def acceptSocket (d : Sockets) (sd : ℕ) (rest : List ℕ) : Sockets :=
  (d.modify sd fun s => { s with backlog := rest }).kFsSocketCreate (d.sockets sd).domain
  (d.sockets sd).nonblock

def acceptFirst (d : Sockets) (sd client : ℕ) (rest : List ℕ) : Sockets :=
  ((d.acceptSocket sd rest).modify client fun s =>
    { s with connect := some d.count }).modify d.count
    fun s => { s with connect := some client, addr := (d.sockets client).addr }

def kFsSocketAccept (d : Sockets) (sd : ℕ) : SocketStretch :=
  if (d.sockets sd).domain = AF_LOCAL then
    match (d.sockets sd).backlog with
    | [] =>
      if (d.sockets sd).nonblock then d.done (.accept sd) (-EAGAIN) []
      else ⟨d,[],.sleep (blockedProcesses sd) (.accepting sd),false⟩
    | client :: rest => (d.acceptFirst sd client rest).done
        (.accept sd) 0 [.wakeup (cnnBlockedProcesses sd)]
  else d.done (.accept sd) (-ENOTSUP) []

def kFsSocketClose (d : Sockets) (sd : ℕ) : Sockets :=
  match (d.sockets sd).connect with
  | none => d
  | some other => (d.modify sd fun s => { s with connect := none }).modify other fun s =>
    { s with connect := none }

def kFsVfsClose (d : Sockets) (sd : ℕ) : SocketStretch :=
  ((d.kFsSocketClose sd).modify sd fun s => { s with isOpen := false }).done (.close sd) 0 []

def startOpen (d : Sockets) (p : ℕ) : SocketCall → SocketStretch
  | .create domain nonblock =>
    if domain ≠ AF_LOCAL then d.done (.create domain nonblock) (-EINVAL) []
    else (d.kFsSocketCreate domain nonblock).done (.create domain nonblock) 0 []
  | .bind sd path => d.kFsSocketBind sd path
  | .listen sd => d.kFsSocketListen sd
  | .connect sd path => d.kFsSocketConnect sd path
  | .accept sd => d.kFsSocketAccept sd
  | .read sd size => d.kFsSocketRead p sd size (.start size.toNat) []
  | .write sd data => d.kFsSocketWrite p sd data
  | .close sd => d.kFsVfsClose sd

end Sockets

namespace SocketCall

def socket : SocketCall → Option ℕ
  | .create _ _ => none
  | .bind sd _ => some sd
  | .listen sd => some sd
  | .connect sd _ => some sd
  | .accept sd => some sd
  | .read sd _ => some sd
  | .write sd _ => some sd
  | .close sd => some sd

end SocketCall

namespace Sockets

def Has (d : Sockets) (call : SocketCall) : Prop := ∀ sd ∈ call.socket, (d.sockets sd).isOpen = true

instance (d : Sockets) (call : SocketCall) : Decidable (d.Has call) := by
  unfold Has
  infer_instance

def start (d : Sockets) (p : ℕ) (call : SocketCall) : SocketStretch :=
  if d.Has call then d.startOpen p call else d.done call (-ENOENT) []

def resume (d : Sockets) (p : ℕ) (_ : Task) : SocketProgress → SocketStretch
  | .connecting sd path server => d.connectLoop sd path server []
  | .accepting sd => d.kFsSocketAccept sd
  | .reading sd size x => d.kFsSocketRead p sd size x []
  | .readLocking sd size toRead x =>
    if (d.sockets sd).lock.isSome then
      ⟨d,[],.sleep (lockQueue sd) (.readLocking sd size toRead x),false⟩
    else (d.readChunk p sd toRead).kFsSocketRead p sd size (x.read (d.sockets sd).buffer toRead)
      [.wakeupSingle (lockQueue sd)]
  | .writeLocking sd client data => d.writeLocked p sd client data
  | .writing sd client data x => d.writeResumed sd client data x

def driver : Driver Sockets SocketCall SocketProgress SocketReturn := ⟨start,resume⟩

end Sockets
end ScalesOS
