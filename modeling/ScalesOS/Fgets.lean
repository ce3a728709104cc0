import ScalesOS.Stdio

/-!
# Lines

`fgetc` and `fgets` of `libc/src/stdio/stdio.c`, over the buffered `fread`. The result of
`fgetc` is a `char`, so that `EOF`, which is -1, is also the byte `0xFF`.
-/

namespace ScalesOS
namespace Stdio

open ByteMemory

def EOF : BitVec 8 := 0xFF

def newline : BitVec 8 := 10

def fgetc (data : Bytes) (s : Stream) : BitVec 8 × Stream :=
  match fread data s 1 1 with
  | ([],s) => (EOF,{ s with eof := true })
  | (r :: _,s) => (r,s)

/-- The loop of `fgets` with room for `size` bytes, which is never 0 here. The results are the
pointer, unless it is `NULL`, the memory and the stream. -/
def fgetsLoop (data : Bytes) (ptr : ℕ) : (size s : ℕ) → Mem → Stream → Option ℕ × Mem × Stream
  | 0,_,m,stream => (none,m,stream)
  | size+1,s,m,stream =>
    let (c,stream) := fgetc data stream
    if c = EOF then (if ptr = s then none else some ptr,m,stream)
    else
      let m := Function.update m s c
      if size = 0 ∨ c = newline then (some ptr,Function.update m (s+1) 0,stream)
      else fgetsLoop data ptr size (s+1) m stream

def fgets (data : Bytes) (s : ℕ) (size : ℤ) (m : Mem) (stream : Stream) : Option ℕ × Mem × Stream :=
  if size ≤ 1 then (none,m,stream) else fgetsLoop data s (size-1).toNat s m stream

/-- `k` reads find no byte. -/
def AtEnd (data : Bytes) : ℕ → Stream → Prop
  | 0,_ => True
  | k+1,s => (fread data s 1 1).1 = [] ∧ AtEnd data k (fread data s 1 1).2

/-- Reads of one byte give the bytes `rest`, and then `k` times none. -/
def Remaining (data : Bytes) (k : ℕ) : Stream → Bytes → Prop
  | s,[] => AtEnd data k s
  | s,b :: rest => (fread data s 1 1).1 = [b] ∧ Remaining data k (fread data s 1 1).2 rest

/-- A front part of `rest` with at most `n` bytes, and no newline before its last byte. -/
structure LineOf (n : ℕ) (rest l : Bytes) : Prop where
  front : l <+: rest
  length : l.length ≤ n
  inside : newline ∉ l.dropLast

/-- The longest of them. -/
def line : ℕ → Bytes → Bytes
  | 0,_ => []
  | _,[] => []
  | n+1,b :: rest => if b = newline then [b] else b :: line n rest

/-- What the loop does as a function of the bytes that remain: those that are stored, whether
a zero follows them, and those that remain then. -/
def getLine : ℕ → Bytes → Bytes × Bool × Bytes
  | 0,rest => ([],false,rest)
  | _,[] => ([],false,[])
  | n+1,b :: rest =>
    if b = EOF then ([],false,rest)
    else if n = 0 ∨ b = newline then ([b],true,rest)
    else (b :: (getLine n rest).1,(getLine n rest).2)

variable {data rest l : Bytes} {s t stream : Stream} {m : Mem} {ptr k n : ℕ} {b : BitVec 8}

theorem line_lineOf (n : ℕ) (rest : Bytes) : LineOf n rest (line n rest) := by
  induction n generalizing rest with
  | zero => exact ⟨by simp [line],by simp [line],by simp [line]⟩
  | succ n ih =>
    cases rest with
    | nil => exact ⟨by simp [line],by simp [line],by simp [line]⟩
    | cons b rest =>
      obtain ⟨hfront,hlength,hnewline⟩ := ih rest
      by_cases hb : b = newline
      · simp only [line,if_pos hb]
        exact ⟨by simp,by simp,by simp⟩
      · simp only [line,if_neg hb]
        refine ⟨by simpa using hfront,by simpa using hlength,?_⟩
        cases hl : line n rest with
        | nil => simp
        | cons c l =>
          rw [hl] at hnewline
          simp only [List.dropLast_cons_cons,List.mem_cons,not_or]
          exact ⟨fun h => hb h.symm,hnewline⟩

theorem LineOf.length_le (h : LineOf n rest l) : l.length ≤ (line n rest).length := by
  induction n generalizing rest l with
  | zero =>
    have hnil := h.length
    simp only [Nat.le_zero_eq] at hnil
    simp [hnil]
  | succ n ih =>
    obtain ⟨hfront,hlength,hnewline⟩ := h
    cases l with
    | nil => simp
    | cons c l =>
      obtain ⟨rest,rfl⟩ := hfront
      simp only [List.cons_append,line]
      by_cases hc : c = newline
      · cases l with
        | nil => simp [hc]
        | cons d l => simp [hc] at hnewline
      · have htail : LineOf n (l++rest) l := by
          refine ⟨List.prefix_append l rest,by simpa using hlength,?_⟩
          cases l with
          | nil => simp
          | cons d l =>
            simp only [List.dropLast_cons_cons,List.mem_cons,not_or] at hnewline
            exact hnewline.2
        simpa [hc] using ih htail

theorem fread_one (data : Bytes) (s : Stream) :
    (∃ b, (fread data s 1 1).1 = [b]) ∨ (fread data s 1 1).1 = [] ∧
    (fread data s 1 1).2.eof = true := by
  rw [fread,show 1*1%W32 = 0+1 from rfl,freadLoop]
  by_cases h : (if s.available = 0 then refill data s else s).available = 0
  · simp [h]
  · simp [h,freadLoop]

theorem fgetc_byte (h : (fread data s 1 1).1 = [b]) : fgetc data s = (b,(fread data s 1 1).2) := by
  rw [fgetc]
  generalize fread data s 1 1 = r at h
  obtain ⟨l,t⟩ := r
  obtain rfl : l = [b] := h
  rfl

theorem fgetc_ended (h : (fread data s 1 1).1 = []) :
    fgetc data s = (EOF,(fread data s 1 1).2) := by
  rcases fread_one data s with ⟨b,hb⟩ | ⟨-,heof⟩
  · rw [h] at hb
    cases hb
  · rw [fgetc]
    generalize fread data s 1 1 = r at h heof
    obtain ⟨l,t⟩ := r
    obtain rfl : l = [] := h
    change (EOF,{ t with eof := true }) = (EOF,t)
    rw [← heof]

theorem store_cons (m : Mem) (a : ℕ) (b : BitVec 8) (l : Bytes) :
    store m a (b :: l) = store (Function.update m a b) (a+1) l := by
  have hone : store m a [b] = Function.update m a b := by
    funext x
    by_cases hx : x = a
    · subst hx
      simp [store]
    · rw [Function.update_of_ne hx,store_outside m (by simp; omega)]
  rw [← hone,← List.singleton_append,store_append]
  rfl

theorem AtEnd.mono (h : AtEnd data (k+1) s) : AtEnd data k s := by
  induction k generalizing s with
  | zero => trivial
  | succ k ih => exact ⟨h.1,ih h.2⟩

theorem Remaining.mono (h : Remaining data (k+1) s rest) : Remaining data k s rest := by
  induction rest generalizing s with
  | nil => exact AtEnd.mono h
  | cons b rest ih => exact ⟨h.1,ih h.2⟩

theorem Remaining.unique {rest' : Bytes} (h : Remaining data (k+1) s rest)
    (h' : Remaining data (n+1) s rest') : rest = rest' := by
  induction rest generalizing s rest' with
  | nil =>
    cases rest' with
    | nil => rfl
    | cons b rest' => exact absurd (h.1.symm.trans h'.1) (by simp)
  | cons b rest ih =>
    cases rest' with
    | nil => exact absurd (h.1.symm.trans h'.1) (by simp)
    | cons c rest' =>
      obtain rfl : b = c := by simpa using h.1.symm.trans h'.1
      rw [ih h.2 h'.2]

def stored (r : Bytes × Bool × Bytes) : Bytes := r.1++if r.2.1 then [0] else []

/-- The loop does on memory and stream what `getLine` does on the bytes that remain. -/
theorem fgetsLoop_eq (ptr : ℕ) (rest : Bytes) : ∀ (size s : ℕ) (m : Mem)
    {stream : Stream}, Remaining data 2 stream rest → ∃ t, fgetsLoop data ptr (size+1) s m stream =
        (if (getLine (size+1) rest).2.1 = false ∧ ptr = s+(getLine (size+1) rest).1.length then
          none else some ptr, store m s (stored (getLine (size+1) rest)),t) ∧
      Remaining data 1 t (getLine (size+1) rest).2.2 := by
  induction rest with
  | nil =>
    intro size s m stream h
    refine ⟨_,?_,h.2⟩
    simp [fgetsLoop,fgetc_ended h.1,getLine,stored]
  | cons b rest ih =>
    intro size s m stream h
    by_cases hb : b = EOF
    · refine ⟨(fread data stream 1 1).2,?_,?_⟩
      · simp [fgetsLoop,fgetc_byte h.1,getLine,hb,stored]
      · simpa [getLine,hb] using h.2.mono
    · by_cases hlast : size = 0 ∨ b = newline
      · refine ⟨(fread data stream 1 1).2,?_,?_⟩
        · simp [fgetsLoop,fgetc_byte h.1,getLine,hb,hlast,stored,store_cons]
        · simpa [getLine,hb,hlast] using h.2.mono
      · obtain ⟨hsize,hnewline⟩ := not_or.mp hlast
        obtain ⟨size,rfl⟩ := Nat.exists_eq_succ_of_ne_zero hsize
        obtain ⟨t,ht,hrest⟩ := ih size (s+1) (Function.update m s b) h.2
        have hget :
            getLine (size+1+1) (b :: rest) = (b :: (getLine (size+1) rest).1,
                (getLine (size+1) rest).2) := by
          simp [getLine,hb,hnewline]
        refine ⟨t,?_,by rwa [hget]⟩
        rw [fgetsLoop,fgetc_byte h.1,hget]
        simp only [if_neg hb,if_neg hlast,ht]
        simp [stored,store_cons,Nat.add_assoc,Nat.add_comm 1]

/-- Without the byte of `EOF` the line is read; a zero follows if the end of the file was not
met. -/
theorem getLine_line (hline : EOF ∉ line (n+1) rest) :
    getLine (n+1) rest = (line (n+1) rest,
      decide ((line (n+1) rest).length = n+1 ∨ (line (n+1) rest).getLast? = some newline),
      rest.drop (line (n+1) rest).length) := by
  induction rest generalizing n with
  | nil => simp [getLine,line]
  | cons b rest ih =>
    have hb : b ≠ EOF := fun h => hline (by simp [line,h,show EOF ≠ newline by decide])
    by_cases hnewline : b = newline
    · simp [getLine,line,hnewline,show newline ≠ EOF by decide]
    · cases n with
      | zero => simp [getLine,line,hb,hnewline]
      | succ n =>
        have hrest : EOF ∉ line (n+1) rest := fun h => hline (by simp [line,hnewline,h])
        cases hl : line (n+1) rest with
        | nil => simp [getLine,line,hb,hnewline,ih hrest,hl]
        | cons c l => simp [getLine,line,hb,hnewline,ih hrest,hl]

theorem getLine_cut (hline : EOF ∈ line (n+1) rest) : ∃ l,
    line (n+1) rest = (getLine (n+1) rest).1++EOF :: l ∧ EOF ∉ (getLine (n+1) rest).1 ∧
      (getLine (n+1) rest).2 = (false,rest.drop ((getLine (n+1) rest).1.length+1)) := by
  induction rest generalizing n with
  | nil => simp [line] at hline
  | cons b rest ih =>
    by_cases hnewline : b = newline
    · simp [line,hnewline,show EOF ≠ newline by decide] at hline
    · by_cases hb : b = EOF
      · exact ⟨line n rest,by simp [line,getLine,hb,show EOF ≠ newline by decide]⟩
      · cases n with
        | zero => simp [line,hnewline,Ne.symm hb] at hline
        | succ n =>
          have hrest : EOF ∈ line (n+1) rest := by simpa [line,hnewline,Ne.symm hb] using hline
          obtain ⟨l,hl,hnot,hget⟩ := ih hrest
          exact ⟨l,by simp [line,getLine,hb,hnewline,← hl],
            by simp [getLine,hb,hnewline,Ne.symm hb,hnot],by simp [getLine,hb,hnewline,hget]⟩

/-- `fgets` returns `NULL` at the end of the file and nowhere else, and otherwise has stored the
longest line of at most `n` bytes, with a zero behind it, and taken just this line from the
stream. -/
structure Gets (data rest : Bytes) (s n : ℕ) (r : Option ℕ × Mem × Stream) : Prop where
  null : r.1 = none ↔ rest = []
  ptr : rest ≠ [] → r.1 = some s
  bytes : rest ≠ [] → load r.2.1 s (line n rest).length = line n rest
  zero : rest ≠ [] → r.2.1 (s+(line n rest).length) = 0
  consumed : rest ≠ [] → Remaining data 1 r.2.2 (rest.drop (line n rest).length)

/-- The line fills the room or ends with a newline, or a zero is there by chance; and it has no
byte of `EOF`. Such a byte at the end, behind others, does no harm if memory held it already. -/
def Complete (m : Mem) (s n : ℕ) (l : Bytes) : Prop :=
  EOF ∉ l ∧ (l.length = n ∨ l.getLast? = some newline ∨ m (s+l.length) = 0) ∨
    ∃ l₀, l₀ ≠ [] ∧ EOF ∉ l₀ ∧ l = l₀++[EOF] ∧ m (s+l₀.length) = EOF ∧ m (s+l.length) = 0

theorem load_store_append (m : Mem) (a : ℕ) (xs ys : Bytes) :
    load (store m a (xs++ys)) a xs.length = xs := by
  rw [store_append]
  exact (load_congr fun x _ hx => store_outside _ (.inl hx)).trans (load_store m a xs)

theorem line_ne_nil (hrest : rest ≠ []) : line (n+1) rest ≠ [] := by
  obtain ⟨b,rest,rfl⟩ := List.exists_cons_of_ne_nil hrest
  rw [line]
  split <;> simp

theorem fgets_iff {size : ℤ} (s : ℕ) (m : Mem) (hsize : 2 ≤ size)
    (h : Remaining data 2 stream rest) :
    Gets data rest s (size-1).toNat (fgets data s size m stream) ↔
      rest = [] ∨ Complete m s (size-1).toNat (line (size-1).toNat rest) := by
  obtain ⟨n,hn⟩ : ∃ n : ℕ, (size-1).toNat = n+1 := ⟨(size-2).toNat,by omega⟩
  obtain ⟨t,ht,hleft⟩ := fgetsLoop_eq s rest n s m h
  rw [fgets,if_neg (by omega),hn,ht]
  by_cases hrest : rest = []
  · subst hrest
    exact iff_of_true ⟨by simp [getLine],by simp,by simp,by simp,by simp⟩ (.inl rfl)
  have hne := line_ne_nil (n:=n) hrest
  rw [or_iff_right hrest]
  by_cases hline : EOF ∈ line (n+1) rest
  · -- the loop takes the byte for the end of the file
    obtain ⟨l,hl,hnot,hget⟩ := getLine_cut hline
    simp only [hget,stored,Bool.false_eq_true,if_false,List.append_nil,true_and] at hleft ⊢
    generalize (getLine (n+1) rest).1 = l₀ at *
    have hread : (line (n+1) rest)[l₀.length]? = some EOF := by simp [hl]
    constructor
    · rintro ⟨hnull,-,hbytes,hzero,hconsumed⟩
      have hstored : l₀ ≠ [] := fun hnil => hrest (hnull.mp (by simp [hnil]))
      have hlength : (line (n+1) rest).length = l₀.length+1 := by
        have hdrop := congrArg List.length (hleft.unique (k:=0) (n:=0) (hconsumed hrest))
        have hle := (line_lineOf (n+1) rest).front.length_le
        simp only [List.length_drop,hl,List.length_append,List.length_cons] at hdrop hle ⊢
        omega
      have hcut : l = [] := by simpa [hl] using hlength
      refine .inr ⟨l₀,hstored,hnot,by rw [hl,hcut],?_,?_⟩
      · have hbyte := congrArg (·[l₀.length]?) (hbytes hrest)
        simp only [hread,getElem?_load _ _ (by
          omega : l₀.length < (line (n+1) rest).length)] at hbyte
        rw [store_outside m (.inr le_rfl)] at hbyte
        exact Option.some.inj hbyte
      · have hnul := hzero hrest
        simp only at hnul
        rwa [store_outside m (.inr (by omega))] at hnul
    · rintro (⟨hclean,-⟩ | ⟨l₁,hstored,hnot',hl',hbyte,hnul⟩)
      · exact absurd hline hclean
      · have hsame := hl.symm.trans hl'
        obtain ⟨rfl,-,rfl⟩ := (List.append_cons_inj_of_notMem hnot' List.not_mem_nil).mp hsame.symm
        have hlength : (line (n+1) rest).length = l₁.length+1 := by simp [hl]
        have hpos : 0 < l₁.length := List.length_pos_of_ne_nil hstored
        rw [if_neg (by omega)]
        refine ⟨by simp [hrest],fun _ => rfl,fun _ => ?_,fun _ => ?_,fun _ => by rwa [hlength]⟩
        · simp only
          rw [hlength,load_add,load_store,hl']
          simp [load,store_outside m (.inr le_rfl : s+l₁.length < s ∨ s+l₁.length ≤ s+l₁.length),
            hbyte]
        · simp only
          rwa [store_outside m (.inr (by omega))]
  · -- the line is read, and its zero is missing if the file ends with it
    rw [getLine_line hline] at hleft ⊢
    have hlength : (line (n+1) rest).length ≠ 0 := by simpa using hne
    simp only [stored] at hleft ⊢
    have hloaded := load_store_append m s (line (n+1) rest)
    have hpos : ¬ s = s+(line (n+1) rest).length := by omega
    have hother : ¬ ∃ l₀, l₀ ≠ [] ∧ EOF ∉ l₀ ∧ line (n+1) rest = l₀++[EOF] ∧ m (s+l₀.length) = EOF ∧
        m (s+(line (n+1) rest).length) = 0 := by
      rintro ⟨l₀,-,-,hl,-⟩
      exact hline (by simp [hl])
    rw [Complete,or_iff_left hother,and_iff_right hline,← or_assoc]
    by_cases hfull : (line (n+1) rest).length = n+1 ∨ (line (n+1) rest).getLast? = some newline
    · refine iff_of_true ?_ (.inl hfull)
      simp only [hfull,decide_true,if_true]
      refine ⟨by simp [hrest],fun _ => by simp,fun _ => hloaded _,fun _ => ?_,fun _ => hleft⟩
      simp only
      rw [store_inside m s (by simp)]
      simp
    · rw [or_iff_right hfull]
      simp only [hfull,decide_false,Bool.false_eq_true,if_false,List.append_nil] at *
      rw [if_neg (by simpa using hpos)]
      have hkept :
          store m s (line (n+1) rest) (s+(line (n+1) rest).length) =
              m (s+(line (n+1) rest).length) :=
        store_outside m (.inr le_rfl)
      constructor
      · intro hgets
        rw [← hkept]
        exact hgets.zero hrest
      · intro hnul
        exact ⟨by simp [hrest],fun _ => rfl,fun _ => load_store m s _,
          fun _ => hkept.trans hnul,fun _ => hleft⟩

/-- A stream that has been read from its start only: if the buffer is not full, it has the end of
the file. -/
structure Sequential (data : Bytes) (s : Stream) (pos : ℕ) : Prop where
  at_pos : At data s pos
  filled : s.readBufferOffset = 0 ∨ s.readBufferOffset = BUFSIZE ∨ pos+s.available = data.length

theorem fread_available (havail : s.available ≠ 0) : fread data s 1 1 =
    ([s.readBuffer s.readPtr],{ s with readPtr := s.readPtr+1, available := s.available-1 }) := by
  rw [fread,show 1*1%W32 = 0+1 from rfl,freadLoop]
  simp [havail,freadLoop]

theorem fread_refill (havail : s.available = 0) (hrefill : (refill data s).available ≠ 0) :
    fread data s 1 1 = fread data (refill data s) 1 1 := by
  rw [fread_available hrefill,fread,show 1*1%W32 = 0+1 from rfl,freadLoop]
  simp [havail,hrefill,freadLoop]

theorem Sequential.byte {pos : ℕ} (hdata : data.length < W32) (h : Sequential data s pos)
    (hpos : pos < data.length) :
    (fread data s 1 1).1 = [data[pos]] ∧ Sequential data (fread data s 1 1).2 (pos+1) := by
  obtain ⟨hat,hfilled⟩ := h
  by_cases havail : s.available = 0
  · have hmark : s.readBufferOffset = 0 ∨ s.readBufferOffset = BUFSIZE := by omega
    obtain ⟨hptr,hmore,hoffset,hreal,hfill,hbytes⟩ := hat.refilled hdata hmark
    have hsize : BUFSIZE = 512 := rfl
    have hrefill : (refill data s).available ≠ 0 := by omega
    rw [fread_refill havail hrefill,fread_available hrefill]
    generalize refill data s = t at *
    have hbuffered : Buffered data t pos := by
      refine ⟨by omega,by omega,by omega,by omega,by omega,fun i hi => ?_⟩
      rw [hptr,Nat.zero_add]
      exact hbytes i hi
    obtain ⟨hbyte,hnext⟩ := hbuffered.next hrefill
    refine ⟨?_,hnext,?_⟩
    · rw [List.getElem?_eq_getElem hpos] at hbyte
      simpa using (Option.some.inj hbyte).symm
    · simp only
      omega
  · have hbuffered : Buffered data s pos := by
      cases hat with
      | clean hc _ => exact absurd hc.available havail
      | buffered hb _ => exact hb
    obtain ⟨hbyte,hnext⟩ := hbuffered.next havail
    rw [fread_available havail]
    refine ⟨?_,hnext,?_⟩
    · rw [List.getElem?_eq_getElem hpos] at hbyte
      simpa using (Option.some.inj hbyte).symm
    · simp only
      omega

theorem fread_past (havail : s.available = 0) (hpast : data.length ≤ (fseek data s 0 .cur).1) :
    (fread data s 1 1).1 = [] ∧ (fread data s 1 1).2.available = 0 ∧
      (fread data s 1 1).2.realOffset = (fseek data s 0 .cur).1 ∧
      (fread data s 1 1).2.readPtr = (if s.readBufferOffset = BUFSIZE then 0
        else s.readBufferOffset) ∧ (fread data s 1 1).2.offset = (fseek data s 0 .cur).1%W32 := by
  have hseek : refill data s = Stream.fill data
      { (if s.readBufferOffset = BUFSIZE then { s with readBufferOffset := 0 }
        else s).reset (fseek data s 0 .cur).1 with
        realOffset := (fseek data s 0 .cur).1 } := by
    rw [refill]
    split <;> rfl
  generalize (fseek data s 0 .cur).1 = offset at *
  have hnone : ∀ count, sysRead data offset count = [] := fun count => by
    rw [sysRead,List.drop_eq_nil_of_le hpast,List.take_nil]
  have hrefill : (refill data s).available = 0 ∧ (refill data s).realOffset = offset ∧
      (refill data s).readPtr = (if s.readBufferOffset = BUFSIZE then 0 else s.readBufferOffset) ∧
      (refill data s).offset = offset%W32 := by
    rw [hseek]
    split <;> simp [Stream.fill,Stream.reset,hnone]
  rw [fread,show 1*1%W32 = 0+1 from rfl,freadLoop]
  simp [havail,hrefill]

theorem Sequential.atEnd (hdata : data.length+BUFSIZE ≤ W32) (h : Sequential data s data.length) :
    AtEnd data 2 s := by
  have hsize : BUFSIZE = 512 := rfl
  have havail : s.available = 0 := by
    cases h.at_pos with
    | clean hc _ => exact hc.available
    | buffered hb _ =>
      have := hb.file
      omega
  have hlength : data.length%W32 = data.length := Nat.mod_eq_of_lt (by omega)
  have hfirst : (fseek data s 0 .cur).1 = data.length := by rw [h.at_pos.fseek_cur,add_zero,hlength]
  obtain ⟨hbytes,hnone,hreal,hptr,hoffset⟩ := fread_past havail hfirst.ge
  have hmark := h.at_pos.mark_le
  have hptr' : (fread data s 1 1).2.readPtr < BUFSIZE := by
    rw [hptr]
    split <;> omega
  refine ⟨hbytes,(fread_past hnone ?_).1,trivial⟩
  -- where the second read looks
  rw [hfirst] at hreal hoffset
  generalize (fread data s 1 1).2 = t at *
  simp only [fseek,sysSeek,hreal,hoffset,hlength,Nat.add_zero,Nat.zero_add,and_true]
  split
  · rw [Nat.mod_eq_of_lt (by omega)]
    omega
  · exact le_rfl

theorem remaining_fdopen (hdata : data.length+BUFSIZE ≤ W32) (memory : Mem) :
    Remaining data 2 (fdopen memory) data := by
  have hall : ∀ (rest : Bytes) (pos : ℕ) (s : Stream), data.drop pos = rest → pos ≤ data.length →
    Sequential data s pos → Remaining data 2 s rest := by
    intro rest
    induction rest with
    | nil =>
      intro pos s hdrop hpos h
      have hend : pos = data.length := le_antisymm hpos (List.drop_eq_nil_iff.mp hdrop)
      exact (hend ▸ h).atEnd hdata
    | cons b rest ih =>
      intro pos s hdrop hpos h
      have hlt : pos < data.length := by
        by_contra hge
        rw [List.drop_eq_nil_of_le (by omega)] at hdrop
        cases hdrop
      rw [List.drop_eq_getElem_cons hlt] at hdrop
      obtain ⟨rfl,hrest⟩ := List.cons.inj hdrop
      have hsize : BUFSIZE = 512 := rfl
      obtain ⟨hbyte,hnext⟩ := h.byte (by omega) hlt
      exact ⟨hbyte,ih (pos+1) _ hrest hlt hnext⟩
  exact hall data 0 _ rfl (Nat.zero_le _) ⟨.clean ⟨rfl,rfl,rfl,Nat.zero_le _⟩ (by decide),.inl rfl⟩

/-- The first line of a file, and what remains of it. -/
theorem fgets_iff_first : Gets [65,10,66] [65,10,66] 0x1000 (8-1 : ℤ).toNat
      (fgets [65,10,66] 0x1000 8 (fun _ => 7) (fdopen fun _ => 0)) ↔
    ([65,10,66] : Bytes) = [] ∨
    Complete (fun _ => 7) 0x1000 (8-1 : ℤ).toNat (line (8-1 : ℤ).toNat [65,10,66]) :=
  fgets_iff 0x1000 (fun _ => 7) (by decide) (remaining_fdopen (by decide) fun _ => 0)

/-- A file that ends without a newline, and one that begins with the byte `0xFF`. -/
theorem fgets_fails : ¬ ∀ data rest s size m stream, (2 : ℤ) ≤ size → Remaining data 2 stream rest →
    Gets data rest s (size-1).toNat (fgets data s size m stream) := by
  intro h
  have hgets :=
    h [0xFF,10] [0xFF,10] 0x1000 8 (fun _ => 7) (fdopen fun _ => 0) (by
      decide) (remaining_fdopen (by decide) _)
  exact absurd (hgets.null.mp (by decide)) (by decide)

end Stdio
end ScalesOS
