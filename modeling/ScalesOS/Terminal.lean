import ScalesOS.Calls

/-!
# Terminals

The line discipline of `kernel/src/dev/tty.c`. Storing a character in one of the ring buffers
may put the writer to sleep, so a function is translated into what it does at once and the
operations that it leaves to be done, in their order.
-/

namespace ScalesOS

def PTY_BUFFER_SIZE : ℕ := 4096

/-- `ts.c_iflag`. -/
def BRKINT : BitVec 32 := 1 <<< 1
def ISTRIP : BitVec 32 := 1 <<< 5
def INLCR : BitVec 32 := 1 <<< 6
def IGNCR : BitVec 32 := 1 <<< 7
def ICRNL : BitVec 32 := 1 <<< 8
def IUCLC : BitVec 32 := 1 <<< 9

/-- `ts.c_oflag`. -/
def OPOST : BitVec 32 := 1 <<< 0
def OLCUC : BitVec 32 := 1 <<< 1
def ONLCR : BitVec 32 := 1 <<< 2
def OCRNL : BitVec 32 := 1 <<< 3
def ONLRET : BitVec 32 := 1 <<< 5

/-- `ts.c_lflag`. -/
def ISIG : BitVec 32 := 1 <<< 0
def ICANON : BitVec 32 := 1 <<< 1
def ECHO : BitVec 32 := 1 <<< 3
def ECHOE : BitVec 32 := 1 <<< 4
def ECHOK : BitVec 32 := 1 <<< 5
def ECHONL : BitVec 32 := 1 <<< 6
def ECHOCTL : BitVec 32 := 1 <<< 7
def IEXTEN : BitVec 32 := 1 <<< 15

/-- The places in `ts.c_cc`. -/
def VINTR : ℕ := 1
def VQUIT : ℕ := 2
def VERASE : ℕ := 3
def VKILL : ℕ := 4
def VEOF : ℕ := 5
def VMIN : ℕ := 6
def VEOL : ℕ := 7
def VSTART : ℕ := 11
def VSTOP : ℕ := 12
def VSUSP : ℕ := 13
def VLNEXT : ℕ := 15
def VWERASE : ℕ := 16

def SIGINT : ℕ := 2
def SIGQUIT : ℕ := 3

def LINE_FEED : Byte := 0x0A
def CARRIAGE_RETURN : Byte := 0x0D
def BACKSPACE : Byte := 0x08
def SPACE : Byte := 0x20
def CARET : Byte := 0x5E

def iscntrl (c : Byte) : Bool := c.toInt = 0x7F ∨ 0 ≤ c.toInt ∧ c.toInt ≤ 0x1F

def islower (c : Byte) : Bool := 0x61 ≤ c.toInt ∧ c.toInt ≤ 0x7A

def isupper (c : Byte) : Bool := 0x41 ≤ c.toInt ∧ c.toInt ≤ 0x5A

def tolower (c : Byte) : Byte := if isupper c then c-0x41+0x61 else c

structure Termios where
  cIflag : BitVec 32
  cOflag : BitVec 32
  cLflag : BitVec 32
  cCc : ℕ → Byte

namespace Termios

def iflag (ts : Termios) (flag : BitVec 32) : Bool := ts.cIflag &&& flag ≠ 0

def oflag (ts : Termios) (flag : BitVec 32) : Bool := ts.cOflag &&& flag ≠ 0

def lflag (ts : Termios) (flag : BitVec 32) : Bool := ts.cLflag &&& flag ≠ 0

/-- The character is the one at a place of `c_cc`. -/
def isCc (ts : Termios) (place : ℕ) (c : Byte) : Bool := c.toInt = (ts.cCc place).toNat

/-- `__k_dev_tty_sane_ts`, in a terminal that `k_calloc` has made. -/
def sane : Termios where
  cIflag := ICRNL ||| BRKINT
  cOflag := ONLCR ||| OPOST
  cLflag := ECHO ||| ECHOE ||| ECHOK ||| ICANON ||| ISIG ||| IEXTEN
  cCc := fun place =>
    if place = VEOF then 4
    else if place = VERASE then 0x7F
    else if place = VINTR then 3
    else if place = VKILL then 21
    else if place = VMIN then 1
    else if place = VQUIT then 28
    else if place = VSTART then 17
    else if place = VSTOP then 19
    else if place = VSUSP then 26
    else if place = VLNEXT then 22
    else if place = VWERASE then 23
    else 0

end Termios

/-- `tty_t` without its nodes, queues and ring buffers. -/
structure Tty where
  ts : Termios
  lineBuffer : ℕ → Byte
  lineLength : ℕ
  /-- `TTY_FLAG_NEXTL` -/
  nextl : Bool
  process : ℤ

/-- What is left to be done by a writer: calls, loops in the middle, and the characters that
go into the ring buffers. -/
inductive TtyOp
  | input (c : Byte)
  | output (c : Byte)
  | erase (amount : ℕ)
  | eraseLoop (amount : ℕ)
  /-- the loop for `VWERASE` -/
  | eraseWord
  /-- the terminator becomes the last character, and the line is flushed -/
  | terminate (c : Byte)
  /-- the loop of `__k_dev_tty_line_flush` -/
  | flush (i : ℕ)
  /-- the rest of a round of that loop -/
  | advance (i : ℕ)
  | signal (sig : ℕ)
  | putIn (c : Byte)
  | putOut (c : Byte)
  deriving DecidableEq

namespace Tty

def create (ts : Termios) (memory : ℕ → Byte) : Tty := ⟨ts,memory,0,false,0⟩

def last (t : Tty) : ℕ := sub32 t.lineLength 1

def setLine (t : Tty) (i : ℕ) (c : Byte) : Tty :=
  { t with lineBuffer := Function.update t.lineBuffer i c }

def kDevTtyLinePutc (t : Tty) (c : Byte) : Tty :=
  if t.lineLength < PTY_BUFFER_SIZE then
    { t.setLine t.lineLength c with lineLength := t.lineLength+1 } else t

/-- `process_output`. -/
def kDevTtyPtyProcessOutputChar (t : Tty) (c : Byte) : List TtyOp :=
  if t.ts.oflag OPOST then
    let before := if c = LINE_FEED ∧ t.ts.oflag ONLCR then [.putOut CARRIAGE_RETURN] else []
    let c := if c = LINE_FEED ∧ !t.ts.oflag ONLCR ∧ t.ts.oflag OCRNL then CARRIAGE_RETURN else c
    if c = CARRIAGE_RETURN ∧ t.ts.oflag ONLRET then before
    else
      -- the source writes what `isupper` returns
      let c := if t.ts.oflag OLCUC ∧ islower c then (if isupper c then 1 else 0) else c
      before++[.putOut c]
  else [.putOut c]

/-- `('@' + c) % 128`. -/
def caret (c : Byte) : Byte := BitVec.ofInt 8 ((0x40+c.toInt).tmod 128)

def echoCaret (c : Byte) : List TtyOp := [.output CARET,.output (caret c)]

def echoCtl (t : Tty) (c : Byte) : List TtyOp := if t.ts.lflag ECHOCTL then echoCaret c else []

def echo (t : Tty) (c : Byte) : List TtyOp :=
  if t.ts.lflag ECHO then (if t.ts.lflag ECHOCTL ∧ iscntrl c then echoCaret c else [.output c])
  else []

def signalOf (t : Tty) (c : Byte) : Option ℕ :=
  if t.ts.lflag ISIG then
    if t.ts.isCc VINTR c then some SIGINT
    else if t.ts.isCc VQUIT c then some SIGQUIT
    else if t.ts.isCc VSUSP c then some SIGTSTP
    else none
  else none

/-- The branch for `ICANON`. -/
def canonical (t : Tty) (c : Byte) : Tty × List TtyOp :=
  if t.ts.isCc VLNEXT c ∧ t.ts.lflag IEXTEN then
    ({ t with nextl := true },[.output CARET,.output BACKSPACE])
  else
    let c := if t.ts.iflag IUCLC ∧ t.ts.lflag IEXTEN ∧ isupper c then tolower c else c
    if t.ts.lflag ECHOE ∧ t.ts.isCc VERASE c then (t,[.erase 1])
    else if t.ts.lflag ECHOE ∧ t.ts.isCc VWERASE c then
      if t.ts.lflag IEXTEN then (t,[.eraseWord]) else (t,echoCaret c)
    else if !t.ts.lflag ECHOE ∧ t.ts.lflag ECHOCTL ∧ (t.ts.isCc VERASE c ∨ t.ts.isCc VWERASE c)
      then (t,echoCaret c)
    else if t.ts.isCc VKILL c then
      if t.ts.lflag ECHOK then (t,[.erase t.lineLength]) else (t,t.echoCtl c)
    else if t.ts.isCc VEOF c then (t,[.flush 0])
    else if c = LINE_FEED ∨ t.ts.isCc VEOL c then
      (t.kDevTtyLinePutc c,
        t.echo c++(if !t.ts.lflag ECHO ∧ t.ts.lflag ECHONL then [.output c]
          else [])++[.terminate c])
    else (t.kDevTtyLinePutc c,t.echo c)

def kDevTtyPtyProcessInputChar (t : Tty) (c : Byte) : Tty × List TtyOp :=
  if t.nextl then ({ t with nextl := false }.kDevTtyLinePutc c,t.echo c)
  else
    match t.signalOf c with
    | some sig => (t,t.echoCtl c++[.signal sig])
    | none =>
      let c := if t.ts.iflag ISTRIP then c &&& 0x7F else c
      if t.ts.iflag IGNCR ∧ c = CARRIAGE_RETURN then (t,[])
      else
        let c :=
          if t.ts.iflag INLCR ∧ c = LINE_FEED then CARRIAGE_RETURN
          else if t.ts.iflag ICRNL ∧ c = CARRIAGE_RETURN then LINE_FEED
          else c
        if t.ts.lflag ICANON then t.canonical c
        else (t,(if t.ts.lflag ECHO then [.output c] else [])++[.putIn c])

def shorten (t : Tty) : Tty := { t.setLine t.last 0 with lineLength := t.last }

/-- What one character of `__k_dev_tty_erase` writes. -/
def eraseEcho (t : Tty) : List TtyOp :=
  if t.ts.lflag ECHO then
    List.replicate (if t.ts.lflag ECHOCTL ∧ iscntrl (t.lineBuffer t.last) then 2
      else 1) (.output BACKSPACE)
  else []

def exec (t : Tty) : TtyOp → Tty × List TtyOp
  | .input c => t.kDevTtyPtyProcessInputChar c
  | .output c => (t,t.kDevTtyPtyProcessOutputChar c)
  | .erase amount => (t,[.eraseLoop (if t.lineLength < amount then t.lineLength else amount)])
  | .eraseLoop 0 => (t,[])
  | .eraseLoop (n+1) => (t.shorten,t.eraseEcho++[.eraseLoop n])
  | .eraseWord =>
    if t.lineLength ≠ 0 ∧ t.lineBuffer t.last ≠ SPACE then (t,[.erase 1,.eraseWord]) else (t,[])
  | .terminate c => (t.setLine t.last c,[.flush 0])
  | .flush i => if t.lineLength = 0 then (t,[]) else (t,[.putIn (t.lineBuffer i),.advance i])
  | .advance i => ({ t with lineLength := t.last },[.flush (i+1)])
  | .signal _ => (t,[])
  | .putIn _ => (t,[])
  | .putOut _ => (t,[])

/-- The loop of `__k_dev_tty_pty_write_master`. -/
def kDevTtyPtyWriteMaster (data : List Byte) : List TtyOp := data.map .input

/-- The loop of `__k_dev_tty_pty_write_slave`. -/
def kDevTtyPtyWriteSlave (data : List Byte) : List TtyOp := data.map .output

/-- How many bytes `__k_dev_tty_pty_read_slave` asks for, when so many are available. -/
def readSize (t : Tty) (available size : ℕ) : ℕ :=
  if t.ts.lflag ICANON then size
  else if t.ts.cCc VMIN = 0 then (if size < available then available else size)
  else if size < (t.ts.cCc VMIN).toNat then (t.ts.cCc VMIN).toNat
  else size

end Tty

structure Pty where
  tty : Tty
  inBuffer : Ringbuffer
  outBuffer : Ringbuffer

namespace Pty

/-- `__k_dev_tty_create_pty`. The memory of the buffers is not cleared. -/
def create (ts : Termios) (line input output : ℕ → Byte) : Pty where
  tty := .create ts line
  inBuffer := .create PTY_BUFFER_SIZE input
  outBuffer := .create PTY_BUFFER_SIZE output

end Pty

/-- A writer on the master side, and readers on both sides. -/
structure TtySession where
  pty : Pty
  todo : List TtyOp
  /-- what has been read on the slave side -/
  received : List Byte

namespace TtySession

/-- The next operation of the writer, if it does not have to wait for room. -/
def write (s : TtySession) : Option TtySession :=
  match s.todo with
  | [] => none
  | .putIn c :: rest =>
    if s.pty.inBuffer.writeAvailable = 0 then none
    else some { s with pty := { s.pty with inBuffer := s.pty.inBuffer.store c }, todo := rest }
  | .putOut c :: rest =>
    if s.pty.outBuffer.writeAvailable = 0 then none
    else some { s with pty := { s.pty with outBuffer := s.pty.outBuffer.store c }, todo := rest }
  | op :: rest =>
    some { s with pty := { s.pty with tty := (s.pty.tty.exec op).1 }, todo :=
      (s.pty.tty.exec op).2++rest }

def readSlave (s : TtySession) (size : ℕ) : TtySession :=
  let (rb,bytes) := s.pty.inBuffer.takeLoop (s.pty.tty.readSize s.pty.inBuffer.readAvailable size)
  { s with pty := { s.pty with inBuffer := rb }, received := s.received++bytes }

def readMaster (s : TtySession) (size : ℕ) : TtySession :=
  { s with pty := { s.pty with outBuffer := (s.pty.outBuffer.takeLoop size).1 } }

inductive Event
  | write
  | readSlave (size : ℕ)
  | readMaster (size : ℕ)

def step (s : TtySession) : Event → Option TtySession
  | .write => s.write
  | .readSlave size => some (s.readSlave size)
  | .readMaster size => some (s.readMaster size)

def Step (s t : TtySession) : Prop := ∃ e, s.step e = some t

/-- A terminal with the default settings, and a writer with its input. -/
def boot (line input output : ℕ → Byte) (data : List Byte) : TtySession where
  pty := .create .sane line input output
  todo := Tty.kDevTtyPtyWriteMaster data
  received := []

end TtySession
end ScalesOS
