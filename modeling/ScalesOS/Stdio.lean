import ScalesOS.ByteMemory
import ScalesOS.Machine

/-!
# Buffered reading

`fread`, `fseek` and `ftell` of `libc/src/stdio/stdio.c` on a stream that `fopen` has
opened for reading, with `sys_seek` and `sys_read` behind them. The position of a stream
is kept in four places: the offset of the descriptor, the offset at the last refill, the
read pointer and the fill mark of the buffer. Offsets are 32-bit words.
-/

namespace ScalesOS
namespace Stdio

open ByteMemory

def BUFSIZE : ℕ := 512

abbrev Bytes := List (BitVec 8)

/-- A `FILE` without what only writers use, and the offset of its descriptor. -/
structure Stream where
  readBuffer : Mem
  readPtr : ℕ
  readBufferOffset : ℕ
  available : ℕ
  realOffset : ℕ
  eof : Bool
  offset : ℕ

inductive Whence
  | set
  | cur
  | fromEnd
  deriving DecidableEq

/-- `fdopen`: all fields are zero, the buffer is whatever `malloc` returns. -/
def fdopen (memory : Mem) : Stream := ⟨memory,0,0,0,0,false,0⟩

/-- `sys_seek`, from the offset of the descriptor. -/
def sysSeek (data : Bytes) (current offset : ℕ) : Whence → ℕ
  | .cur => (current+offset)%W32
  | .set => offset%W32
  | .fromEnd => (data.length+offset)%W32

/-- The bytes that `sys_read` stores: those of the file from the offset on. -/
def sysRead (data : Bytes) (current count : ℕ) : Bytes := (data.drop current).take count

/-- The last steps of `fseek`. -/
def Stream.reset (s : Stream) (offset : ℕ) : Stream :=
  { s with readPtr := 0, available := 0, eof := false, offset := offset }

def fseek (data : Bytes) (s : Stream) (offset : ℕ) (whence : Whence) : ℕ × Stream :=
  let result :=
    if s.readPtr ≠ 0 ∧ whence = .cur then sysSeek data s.offset (offset+s.realOffset+s.readPtr) .set
    else sysSeek data s.offset offset whence
  (result,s.reset result)

def ftell (data : Bytes) (s : Stream) : ℕ × Stream := fseek data s 0 .cur

/-- `read` into the buffer behind the fill mark. -/
def Stream.fill (data : Bytes) (s : Stream) : Stream :=
  let bytes := sysRead data s.offset (BUFSIZE-s.readBufferOffset)
  { s with
    offset := (s.offset+bytes.length)%W32
    readBuffer := store s.readBuffer s.readBufferOffset bytes
    readPtr := s.readBufferOffset
    readBufferOffset := s.readBufferOffset+bytes.length
    available := bytes.length }

/-- What `fread` does when nothing is available. -/
def refill (data : Bytes) (s : Stream) : Stream :=
  let s := if s.readBufferOffset = BUFSIZE then { s with readBufferOffset := 0 } else s
  let r := fseek data s 0 .cur
  Stream.fill data { r.2 with realOffset := r.1 }

/-- The loop of `fread` for `len` bytes. -/
def freadLoop (data : Bytes) : ℕ → Stream → Bytes × Stream
  | 0, s => ([],s)
  | len+1, s =>
    let s := if s.available = 0 then refill data s else s
    if s.available ≠ 0 then
      let r := freadLoop data len { s with readPtr := s.readPtr+1, available := s.available-1 }
      (s.readBuffer s.readPtr::r.1,r.2)
    else ([],{ s with eof := true })

def fread (data : Bytes) (s : Stream) (size nmemb : ℕ) : Bytes × Stream :=
  freadLoop data (size*nmemb%W32) s

/-- The buffer was filled from its start: it holds the bytes of the file from `realOffset`
to the fill mark, and the position is `realOffset + read_ptr`. -/
structure Buffered (data : Bytes) (s : Stream) (pos : ℕ) : Prop where
  here : s.realOffset+s.readPtr = pos
  mark : s.readPtr+s.available = s.readBufferOffset
  size : s.readBufferOffset ≤ BUFSIZE
  offset : s.offset = s.realOffset+s.readBufferOffset
  file : pos+s.available ≤ data.length
  bytes : ∀ i < s.available, data[pos+i]? = some (s.readBuffer (s.readPtr+i))

/-- Nothing is buffered, and the descriptor has the position. -/
structure Clean (s : Stream) (pos : ℕ) : Prop where
  ptr : s.readPtr = 0
  available : s.available = 0
  offset : s.offset = pos
  mark : s.readBufferOffset ≤ BUFSIZE

/-- Between two calls the stream stands at `pos`. -/
inductive At (data : Bytes) (s : Stream) (pos : ℕ) : Prop
  | clean (h : Clean s pos) (hpos : pos < W32)
  | buffered (h : Buffered data s pos) (hptr : 0 < s.readPtr)

/-- A read of `len` bytes refills the buffer only from its start: there is enough in the
buffer, or the fill mark is at the start or the end, and the read stops before the end of
the file, or a whole number of buffers is left up to there. -/
def FillsFromStart (data : Bytes) (s : Stream) (pos len : ℕ) : Prop :=
  len ≤ s.available ∨
  (s.readBufferOffset = 0 ∨ s.readBufferOffset = BUFSIZE) ∧
    (pos+len ≤ data.length ∨ BUFSIZE ∣ data.length-(pos+s.available))

section
variable {data : Bytes} {s : Stream} {pos : ℕ}

theorem At.lt (hdata : data.length < W32) (h : At data s pos) : pos < W32 := by
  cases h with
  | clean _ hpos => exact hpos
  | buffered h _ =>
    have := h.file
    omega

theorem At.mark_le (h : At data s pos) : s.readBufferOffset ≤ BUFSIZE := by
  cases h with
  | clean h _ => exact h.mark
  | buffered h _ => exact h.size

theorem At.fseek_cur (h : At data s pos) (offset : ℕ) :
    fseek data s offset .cur = ((pos+offset)%W32,s.reset ((pos+offset)%W32)) := by
  have hresult :
    (if s.readPtr ≠ 0 ∧ Whence.cur = .cur then
      sysSeek data s.offset (offset+s.realOffset+s.readPtr) .set
      else sysSeek data s.offset offset .cur) = (pos+offset)%W32 := by
    cases h with
    | clean h _ =>
      rw [if_neg (fun hc => hc.1 h.ptr),sysSeek,h.offset]
    | buffered h hptr =>
      rw [if_pos ⟨hptr.ne',rfl⟩,sysSeek,← h.here]
      exact congrArg (·%W32) (by ring)
  rw [fseek,hresult]

theorem reset_at (hmark : s.readBufferOffset ≤ BUFSIZE) (hpos : pos < W32) :
    At data (s.reset pos) pos :=
  .clean ⟨rfl,rfl,rfl,hmark⟩ hpos

theorem At.refilled (hdata : data.length < W32) (h : At data s pos)
    (hmark : s.readBufferOffset = 0 ∨ s.readBufferOffset = BUFSIZE) :
    (refill data s).readPtr = 0 ∧ (refill data s).available = min BUFSIZE (data.length-pos) ∧
    (refill data s).offset = pos+(refill data s).available ∧ (refill data s).realOffset = pos ∧
    (refill data s).readBufferOffset = (refill data s).available ∧
    ∀ i < (refill data s).available, data[pos+i]? = some ((refill data s).readBuffer i) := by
  have hpos : (pos+0)%W32 = pos := Nat.mod_eq_of_lt (h.lt hdata)
  have hseek : (fseek data s 0 .cur).1 = pos := by rw [h.fseek_cur,hpos]
  -- the descriptor goes to the position and the fill mark to the start
  have heq : refill data s = Stream.fill data
      { s.reset pos with realOffset := pos, readBufferOffset := 0 } := by
    have hcong : refill data s = Stream.fill data { s.reset (fseek data s 0 .cur).1 with
        realOffset := (fseek data s 0 .cur).1, readBufferOffset := 0 } := by
      have hstart : (if s.readBufferOffset = BUFSIZE then { s with readBufferOffset := 0 } else s) =
          { s with readBufferOffset := 0 } := by
        rcases hmark with hm | hm
        · rw [if_neg (by rw [hm]; decide),← hm]
        · exact if_pos hm
      rw [refill,hstart]
      rfl
    rw [hcong,hseek]
  have hlen : (sysRead data pos BUFSIZE).length = min BUFSIZE (data.length-pos) := by
    simp [sysRead]
  rw [heq]
  simp only [Stream.fill,Stream.reset,Nat.sub_zero,Nat.zero_add,true_and]
  refine ⟨hlen,?_,fun i hi => ?_⟩
  · rw [hlen]
    have hlt := h.lt hdata
    exact Nat.mod_eq_of_lt (by omega)
  · have hin := store_inside s.readBuffer 0 hi
    rw [Nat.zero_add] at hin
    rw [hin,List.getD_eq_getElem?_getD]
    have hget : (sysRead data pos BUFSIZE)[i]? = data[pos+i]? := by
      rw [hlen] at hi
      rw [sysRead,List.getElem?_take_of_lt (by omega),List.getElem?_drop]
    have hsome : pos+i < data.length := by
      rw [hlen] at hi
      omega
    rw [hget,List.getElem?_eq_getElem hsome,Option.getD_some]

theorem Buffered.next (h : Buffered data s pos) (havail : s.available ≠ 0) :
    data[pos]? = some (s.readBuffer s.readPtr) ∧
    At data { s with readPtr := s.readPtr+1, available := s.available-1 } (pos+1) := by
  have hmark := h.mark
  have hhere := h.here
  have hfile := h.file
  refine ⟨h.bytes 0 (Nat.pos_of_ne_zero havail),
    .buffered ⟨?_,?_,h.size,h.offset,?_,fun i hi => ?_⟩ (Nat.succ_pos _)⟩
  · simp only
    omega
  · simp only
    omega
  · simp only
    omega
  · simp only at hi
    have hb := h.bytes (i+1) (by omega)
    rw [show pos+1+i = pos+(i+1) by omega,hb]
    change some (s.readBuffer (s.readPtr+(i+1))) = some (s.readBuffer (s.readPtr+1+i))
    rw [Nat.add_comm i 1,Nat.add_assoc]

theorem freadLoop_spec (hdata : data.length < W32) (len : ℕ) : ∀ {s : Stream}
    {pos : ℕ}, At data s pos → FillsFromStart data s pos len →
    (freadLoop data len s).1 = sysRead data pos len ∧
    At data (freadLoop data len s).2 (pos+(sysRead data pos len).length) := by
  induction len with
  | zero =>
    intro s pos h _
    simpa [freadLoop,sysRead] using h
  | succ len ih =>
    intro s pos h hfills
    -- a byte that is buffered, and the rest of the loop
    have hstep : ∀ s' : Stream, Buffered data s' pos → s'.available ≠ 0 →
        FillsFromStart data { s' with readPtr := s'.readPtr+1, available := s'.available-1 }
          (pos+1) len → (s'.readBuffer s'.readPtr::(freadLoop data len
          { s' with readPtr := s'.readPtr+1, available := s'.available-1 }).1
            = sysRead data pos (len+1)) ∧
          At data (freadLoop data len
            { s' with readPtr := s'.readPtr+1, available := s'.available-1 }).2
            (pos+(sysRead data pos (len+1)).length) := by
      intro s' hb hav hf
      obtain ⟨hbyte,hat⟩ := hb.next hav
      obtain ⟨hbytes,hend⟩ := ih hat hf
      have hlt : pos < data.length := by
        have := hb.file
        omega
      have hread :
          sysRead data pos (len+1) = s'.readBuffer s'.readPtr::sysRead data (pos+1) len := by
        have hval : data[pos] = s'.readBuffer s'.readPtr :=
          Option.some.inj ((List.getElem?_eq_getElem hlt).symm.trans hbyte)
        rw [sysRead,List.drop_eq_getElem_cons hlt,List.take_succ_cons,hval]
        rfl
      rw [hread,hbytes]
      refine ⟨rfl,?_⟩
      rwa [List.length_cons,show pos+((sysRead data (pos+1) len).length+1) =
        pos+1+(sysRead data (pos+1) len).length by omega]
    by_cases hav : s.available = 0
    · obtain ⟨hmark,hend⟩ : (s.readBufferOffset = 0 ∨ s.readBufferOffset = BUFSIZE) ∧
          (pos+(len+1) ≤ data.length ∨ BUFSIZE ∣ data.length-(pos+s.available)) :=
        hfills.resolve_left (by omega)
      obtain ⟨hptr,havail,hoffset,hreal,hfill,hbytes⟩ := h.refilled hdata hmark
      rw [hav,Nat.add_zero] at hend
      rw [freadLoop]
      simp only [hav,if_true]
      generalize refill data s = t at *
      by_cases hzero : t.available = 0
      · have hend : data.length-pos = 0 := by
          simp only [BUFSIZE] at havail
          omega
        have hread : sysRead data pos (len+1) = [] := by
          rw [sysRead,List.drop_eq_nil_of_le (by omega),List.take_nil]
        rw [if_neg (by simpa using hzero),hread]
        refine ⟨rfl,.clean ⟨hptr,hzero,?_,?_⟩ (h.lt hdata)⟩
        · simp only [hoffset,hzero,List.length_nil]
        · simp only [hfill,hzero]
          exact Nat.zero_le _
      · have hbuffered : Buffered data t pos := by
          refine ⟨by omega,by omega,?_,by omega,?_,fun i hi => ?_⟩
          · simp only [hfill,havail]
            exact min_le_left _ _
          · simp only [BUFSIZE] at havail
            omega
          · rw [hptr,Nat.zero_add]
            exact hbytes i hi
        rw [if_pos hzero]
        refine hstep t hbuffered hzero ?_
        -- a full buffer, or the last one and nothing to be read behind it
        simp only [FillsFromStart,BUFSIZE] at *
        rcases hend with hle | hdvd
        · omega
        · omega
    · have hbuffered : Buffered data s pos := by
        cases h with
        | clean h _ => exact absurd h.available hav
        | buffered h _ => exact h
      rw [freadLoop]
      simp only [hav,if_false]
      rw [if_pos hav]
      refine hstep s hbuffered hav ?_
      simp only [FillsFromStart,BUFSIZE] at *
      have hfile := hbuffered.file
      rcases hfills with hle | ⟨hmark,hle | hdvd⟩
      · omega
      · omega
      · refine .inr ⟨hmark,.inr ?_⟩
        rwa [show pos+1+(s.available-1) = pos+s.available by omega]

theorem fseek_spec (h : At data s pos) (offset : ℕ) (whence : Whence) :
    (fseek data s offset whence).1 = sysSeek data pos offset whence ∧
    At data (fseek data s offset whence).2 (sysSeek data pos offset whence) := by
  have hresult : (fseek data s offset whence).1 = sysSeek data pos offset whence := by
    cases whence with
    | cur => rw [h.fseek_cur]; rfl
    | set => rw [fseek,if_neg (by simp)]; rfl
    | fromEnd => rw [fseek,if_neg (by simp)]; rfl
  refine ⟨hresult,?_⟩
  change At data (s.reset (fseek data s offset whence).1) _
  rw [hresult]
  refine reset_at h.mark_le ?_
  cases whence <;> exact Nat.mod_lt _ (by decide)

theorem ftell_spec (hdata : data.length < W32) (h : At data s pos) :
    (ftell data s).1 = pos ∧ At data (ftell data s).2 pos := by
  have hpos : sysSeek data pos 0 .cur = pos := Nat.mod_eq_of_lt (h.lt hdata)
  have hseek := fseek_spec h 0 .cur
  rwa [hpos] at hseek

end

inductive Op
  | fread (size nmemb : ℕ)
  | fseek (offset : ℕ) (whence : Whence)
  | ftell

/-- The buffer of a read has its size. -/
def Op.Valid : Op → Prop
  | fread size nmemb => size*nmemb < W32
  | _ => True

inductive Ret
  | bytes (bytes : Bytes)
  | position (offset : ℕ)
  deriving DecidableEq

def perform (data : Bytes) (s : Stream) : Op → Ret × Stream
  | .fread size nmemb =>
    let r := fread data s size nmemb
    (.bytes r.1,r.2)
  | .fseek offset whence =>
    let r := fseek data s offset whence
    (.position r.1,r.2)
  | .ftell =>
    let r := ftell data s
    (.position r.1,r.2)

/-- The same call on a file without buffer, with one offset. -/
def apply (data : Bytes) (pos : ℕ) : Op → Ret × ℕ
  | .fread size nmemb =>
    let bytes := sysRead data pos (size*nmemb)
    (.bytes bytes,pos+bytes.length)
  | .fseek offset whence => (.position (sysSeek data pos offset whence),
      sysSeek data pos offset whence)
  | .ftell => (.position pos,pos)

/-- A read refills the buffer only from its start. -/
def Op.FillsFromStart (data : Bytes) (s : Stream) (pos : ℕ) : Op → Prop
  | fread size nmemb => Stdio.FillsFromStart data s pos (size*nmemb)
  | _ => True

/-- A stream after some calls, and where a file without buffer stands after them. -/
inductive Run (data : Bytes) : ℕ → Stream → Prop
  | fopen (memory : Mem) : Run data 0 (fdopen memory)
  | call {pos : ℕ} {s : Stream} {op : Op} (h : Run data pos s) (hvalid : op.Valid)
      (hfills : op.FillsFromStart data s pos) : Run data (apply data pos op).2 (perform data s op).2

theorem perform_spec {data : Bytes} {s : Stream} {pos : ℕ} (hdata : data.length < W32)
    (h : At data s pos) {op : Op} (hvalid : op.Valid) (hfills : op.FillsFromStart data s pos) :
    (perform data s op).1 = (apply data pos op).1 ∧
    At data (perform data s op).2 (apply data pos op).2 := by
  cases op with
  | fread size nmemb =>
    have hlen : size*nmemb%W32 = size*nmemb := Nat.mod_eq_of_lt hvalid
    obtain ⟨hbytes,hat⟩ := freadLoop_spec hdata (size*nmemb) h hfills
    simp only [perform,apply,fread,hlen]
    exact ⟨congrArg Ret.bytes hbytes,hat⟩
  | fseek offset whence =>
    obtain ⟨hresult,hat⟩ := fseek_spec h offset whence
    exact ⟨congrArg Ret.position hresult,hat⟩
  | ftell =>
    obtain ⟨hresult,hat⟩ := ftell_spec hdata h
    exact ⟨congrArg Ret.position hresult,hat⟩

theorem Run.at {data : Bytes} {s : Stream} {pos : ℕ} (hdata : data.length < W32)
    (h : Run data pos s) : At data s pos := by
  induction h with
  | fopen memory => exact .clean ⟨rfl,rfl,rfl,Nat.zero_le _⟩ (by decide)
  | call h hvalid hfills ih => exact (perform_spec hdata ih hvalid hfills).2

/-- In every history whose reads refill the buffer only from its start, `ftell` returns
the position of a file without buffer, and so does every further such call return what it
would return there. -/
theorem buffered_reading {data : Bytes} {s : Stream} {pos : ℕ} (hdata : data.length < W32)
    (h : Run data pos s) :
    (ftell data s).1 = pos ∧
    ∀ op : Op, op.Valid → op.FillsFromStart data s pos →
    (perform data s op).1 = (apply data pos op).1 := by
  have hat := h.at hdata
  exact ⟨(ftell_spec hdata hat).1,fun op hvalid hfills => (perform_spec hdata hat hvalid hfills).1⟩

/-- One byte read from a file of three, and then the rest. -/
theorem buffered_reading_three :
    ∃ s, Run [1,2,3] 1 s ∧ (ftell [1,2,3] s).1 = 1 ∧ (perform [1,2,3] s (.fread 1 2)).1 =
    .bytes [2,3] := by
  have hrun : Run [1,2,3] 1 (perform [1,2,3] (fdopen fun _ => 0) (.fread 1 1)).2 :=
    @Run.call _ _ _ (.fread 1 1) (.fopen fun _ => 0) (show 1*1 < W32 by decide)
      (.inr ⟨.inl rfl,.inl (by decide)⟩)
  obtain ⟨htell,hread⟩ := buffered_reading (by decide) hrun
  exact ⟨_,hrun,htell,hread (.fread 1 2) (show 1*2 < W32 by decide) (.inl (by decide))⟩

/-- A read that reaches the end of the file: the refill behind the last byte starts at
place 1 of the buffer, and `ftell` counts it twice. -/
theorem ftell_after_end :
    Run [7] 0 (fdopen fun _ => 0) ∧
    (perform [7] (fdopen fun _ => 0) (.fread 1 2)).1 = .bytes
    [7] ∧ (apply [7] 0 (.fread 1 2)).2 = 1 ∧
    (ftell [7] (perform [7] (fdopen fun _ => 0) (.fread 1 2)).2).1 = 2 :=
  ⟨.fopen _,by decide,by decide,by decide⟩

end Stdio
end ScalesOS
