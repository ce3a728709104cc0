import ScalesOS.ByteMemory
import ScalesOS.Machine

/-!
# Formatted output

`_vsnprintf` of `libc/src/stdio/printf.c` with the output functions of `printf`, `snprintf` and
`vsnprintf`. A format and a string argument are the bytes before their terminators, and the
arguments are the machine words behind the format. The conversions of floating point are not
modelled.
-/

namespace ScalesOS
namespace Printf

open ByteMemory

abbrev Byte := BitVec 8

def PRINTF_NTOA_BUFFER_SIZE : ℕ := 32

/-- What must not happen: a step behind the end of the format, an argument that is missing or of
another size, the negation of the smallest number, a conversion that is not modelled. -/
inductive Undefined
  | overrun
  | argument
  | overflow
  | float
  deriving DecidableEq

structure Flags where
  zeropad : Bool
  left : Bool
  plus : Bool
  space : Bool
  hash : Bool
  uppercase : Bool
  char : Bool
  short : Bool
  long : Bool
  longLong : Bool
  precision : Bool
  deriving DecidableEq

def Flags.none : Flags := ⟨false,false,false,false,false,false,false,false,false,false,false⟩

inductive Arg
  | word (v : BitVec 32)
  | dword (v : BitVec 64)
  | text (p : List Byte)

section
variable {σ : Type} (out : Byte → ℕ → σ → σ)

/-- `out(c, buffer, idx++, maxlen)`; the state holds `idx` and what `out` changes. -/
def put (s : ℕ × σ) (c : Byte) : ℕ × σ := ((s.1+1)%W32,out c s.1 s.2)

def puts (cs : List Byte) (s : ℕ × σ) : ℕ × σ := cs.foldl (put out) s

/-- `n` spaces. -/
def spaces (n : ℕ) : List Byte := List.replicate n 32

def outRev (buf : List Byte) (width : ℕ) (f : Flags) (s : ℕ × σ) : ℕ × σ :=
  let start := s.1
  let s := if !f.left && !f.zeropad then puts out (spaces (width-buf.length)) s else s
  let s := puts out buf.reverse s
  if f.left then puts out (spaces (width-(s.1+W32-start)%W32)) s else s

end

/-- `buf[len++] = c` if there is room. -/
def push (c : Byte) (buf : List Byte) : List Byte :=
  if buf.length < PRINTF_NTOA_BUFFER_SIZE then buf++[c] else buf

def padZeros (n : ℕ) (buf : List Byte) : List Byte :=
  buf++List.replicate (min n PRINTF_NTOA_BUFFER_SIZE-buf.length) 48

def padNumber (negative : Bool) (prec width : ℕ) (f : Flags) (buf : List Byte) : List Byte × ℕ :=
  if f.left then (buf,width)
  else
    let width := if width ≠ 0 ∧ f.zeropad ∧ (negative ∨ f.plus ∨ f.space) then width-1 else width
    let buf := padZeros prec buf
    (if f.zeropad then padZeros width buf else buf,width)

def dropZeros (base prec width : ℕ) (f : Flags) (buf : List Byte) : List Byte :=
  if !f.precision ∧ buf ≠ [] ∧ (buf.length = prec ∨ buf.length = width) then
    if buf.dropLast ≠ [] ∧ base = 16 then buf.dropLast.dropLast else buf.dropLast
  else buf

def pushBase (base : ℕ) (uppercase : Bool) (buf : List Byte) : List Byte :=
  if base = 16 then push (if uppercase then 88 else 120) buf
  else if base = 2 then push 98 buf
  else buf

def pushHash (base prec width : ℕ) (f : Flags) (buf : List Byte) : List Byte :=
  if f.hash then push 48 (pushBase base f.uppercase (dropZeros base prec width f buf)) else buf

def pushSign (negative : Bool) (f : Flags) (buf : List Byte) : List Byte :=
  if negative then push 45 buf
  else if f.plus then push 43 buf
  else if f.space then push 32 buf
  else buf

/-- The characters in the buffer of `_ntoa_format`, the last one first, and the width. -/
def ntoaFormat (buf : List Byte) (negative : Bool) (base prec width : ℕ) (f : Flags) :
    List Byte × ℕ :=
  let (buf,width) := padNumber negative prec width f buf
  (pushSign negative f (pushHash base prec width f buf),width)

def digitChar (uppercase : Bool) (d : ℕ) : Byte :=
  BitVec.ofNat 8 (if d < 10 then 48+d else (if uppercase then 65 else 97)+d-10)

def digitsLoop (uppercase : Bool) (base : ℕ) : ℕ → ℕ → List Byte
  | 0,_ => []
  | room+1,value => digitChar uppercase (value%base) :: if value/base = 0 then []
      else digitsLoop uppercase base room (value/base)

/-- `_ntoa_long` and `_ntoa_long_long` up to the output. -/
def ntoa (value : ℕ) (negative : Bool) (base prec width : ℕ) (f : Flags) : List Byte × ℕ :=
  let f' := if value = 0 then { f with hash := false } else f
  let buf :=
    if !f.precision ∨ value ≠ 0 then digitsLoop f.uppercase base PRINTF_NTOA_BUFFER_SIZE value
    else []
  ntoaFormat buf negative base prec width f'

/-- What one specification asks for, with its argument. -/
inductive Conversion
  | number (value : ℕ) (negative : Bool) (base prec width : ℕ) (f : Flags)
  | char (c : Byte) (width : ℕ) (f : Flags)
  | string (p : List Byte) (prec width : ℕ) (f : Flags)
  | plain (c : Byte)

def isDigit (c : Byte) : Bool := 48 ≤ c.toNat && c.toNat ≤ 57

def readFlags : List Byte → Flags → Flags × List Byte
  | [],f => (f,[])
  | c :: rest,f =>
    if c = 48 then readFlags rest { f with zeropad := true }
    else if c = 45 then readFlags rest { f with left := true }
    else if c = 43 then readFlags rest { f with plus := true }
    else if c = 32 then readFlags rest { f with space := true }
    else if c = 35 then readFlags rest { f with hash := true }
    else (f,c :: rest)

/-- `_atoi` behind the digits of `i`. -/
def atoi : List Byte → ℕ → ℕ × List Byte
  | [],i => (i,[])
  | c :: rest,i => if isDigit c then atoi rest ((i*10+(c.toNat-48))%W32) else (i,c :: rest)

/-- `va_arg` for an argument of one word. -/
def nextWord : List Arg → Except Undefined (BitVec 32 × List Arg)
  | .word v :: args => .ok (v,args)
  | _ => .error .argument

def nextDword : List Arg → Except Undefined (BitVec 64 × List Arg)
  | .dword v :: args => .ok (v,args)
  | _ => .error .argument

def nextText : List Arg → Except Undefined (List Byte × List Arg)
  | .text p :: args => .ok (p,args)
  | _ => .error .argument

/-- `value > 0 ? value : 0 - value` for a number of `w` bits. -/
def magnitude (w : ℕ) (value : ℤ) : Except Undefined ℕ :=
  if value = -2^(w-1) then .error .overflow else .ok value.natAbs

def readWidth (fmt : List Byte) (args : List Arg) (f : Flags) :
    Except Undefined (ℕ × Flags × List Byte × List Arg) :=
  match fmt with
  | [] => pure (0,f,[],args)
  | c :: rest =>
    if isDigit c then
      let (width,rest) := atoi (c :: rest) 0
      pure (width,f,rest,args)
    else if c = 42 then do
      let (w,args) ← nextWord args
      if w.toInt < 0 then do
        let width ← magnitude 32 w.toInt
        pure (width,{ f with left := true },rest,args)
      else pure (w.toNat,f,rest,args)
    else pure (0,f,c :: rest,args)

def readPrecisionValue (fmt : List Byte) (args : List Arg) :
    Except Undefined (ℕ × List Byte × List Arg) :=
  match fmt with
  | [] => pure (0,[],args)
  | c :: rest =>
    if isDigit c then
      let (prec,rest) := atoi (c :: rest) 0
      pure (prec,rest,args)
    else if c = 42 then do
      let (v,args) ← nextWord args
      pure (if v.toInt > 0 then v.toNat else 0,rest,args)
    else pure (0,c :: rest,args)

def readPrecision (fmt : List Byte) (args : List Arg) (f : Flags) :
    Except Undefined (ℕ × Flags × List Byte × List Arg) :=
  match fmt with
  | [] => pure (0,f,[],args)
  | c :: rest =>
    if c = 46 then do
      let (prec,rest,args) ← readPrecisionValue rest args
      pure (prec,{ f with precision := true },rest,args)
    else pure (0,f,c :: rest,args)

/-- The second letter of `ll` or `hh`. -/
def readSecond (c : Byte) : List Byte → Bool × List Byte
  | [] => (false,[])
  | c' :: rest => if c' = c then (true,rest) else (false,c' :: rest)

/-- The length modifier. The build leaves out the case of the letter `t`. -/
def readLength : List Byte → Flags → Flags × List Byte
  | [],f => (f,[])
  | c :: rest,f =>
    if c = 108 then
      let (second,rest) := readSecond 108 rest
      ({ f with long := true, longLong := f.longLong || second },rest)
    else if c = 104 then
      let (second,rest) := readSecond 104 rest
      ({ f with short := true, char := f.char || second },rest)
    else if c = 122 then ({ f with long := true },rest)
    else if c = 106 then ({ f with longLong := true },rest)
    else (f,c :: rest)

def signedNumber (base prec width : ℕ) (f : Flags) (args : List Arg) :
    Except Undefined (Conversion × List Arg) :=
  if f.longLong then do
    let (v,args) ← nextDword args
    let value ← magnitude 64 v.toInt
    pure (.number value (v.toInt < 0) base prec width f,args)
  else do
    let (v,args) ← nextWord args
    let v := if f.long then v.toInt
      else if f.char then (v.setWidth 8).toInt
      else if f.short then (v.setWidth 16).toInt
      else v.toInt
    let value ← magnitude 32 v
    pure (.number value (v < 0) base prec width f,args)

def unsignedNumber (base prec width : ℕ) (f : Flags) (args : List Arg) :
    Except Undefined (Conversion × List Arg) :=
  if f.longLong then do
    let (v,args) ← nextDword args
    pure (.number v.toNat false base prec width f,args)
  else do
    let (v,args) ← nextWord args
    let value := if f.long then v.toNat
      else if f.char then (v.setWidth 8).toNat
      else if f.short then (v.setWidth 16).toNat
      else v.toNat
    pure (.number value false base prec width f,args)

/-- The conversion with the letter `c`. -/
def specifier (c : Byte) (prec width : ℕ) (f : Flags) (args : List Arg) :
    Except Undefined (Conversion × List Arg) :=
  if c ∈ [100,105,117,120,88,111,98] then
    let base := if c = 120 ∨ c = 88 then 16 else if c = 111 then 8 else if c = 98 then 2 else 10
    let f := if base = 10 then { f with hash := false } else f
    let f := if c = 88 then { f with uppercase := true } else f
    let f := if c ≠ 105 ∧ c ≠ 100 then { f with plus := false, space := false } else f
    let f := if f.precision then { f with zeropad := false } else f
    if c = 105 ∨ c = 100 then signedNumber base prec width f args
    else unsignedNumber base prec width f args
  else if c ∈ [102,70,101,69,103,71] then .error .float
  else if c = 99 then do
    let (v,args) ← nextWord args
    pure (.char (v.setWidth 8) width f,args)
  else if c = 115 then do
    let (p,args) ← nextText args
    pure (.string p prec width f,args)
  else if c = 112 then do
    let (v,args) ← nextWord args
    pure (.number v.toNat false 16 prec 8 { f with zeropad := true, uppercase := true },args)
  else pure (.plain c,args)

/-- A specification behind its `%`, with the rest of the format and of the arguments. -/
def conversion (fmt : List Byte) (args : List Arg) :
    Except Undefined (Conversion × List Byte × List Arg) := do
  let (f,fmt) := readFlags fmt .none
  let (width,f,fmt,args) ← readWidth fmt args f
  let (prec,f,fmt,args) ← readPrecision fmt args f
  match readLength fmt f with
  | (_,[]) => .error .overrun
  | (f,c :: rest) => do
    if c = 0 then .error .overrun
    else do
      let (conv,args) ← specifier c prec width f args
      pure (conv,rest,args)

/-- `_strnlen_s`. -/
def strnlen (p : List Byte) (maxsize : ℕ) : ℕ := min (p.takeWhile (· ≠ 0)).length maxsize

def stringLength (p : List Byte) (prec : ℕ) (f : Flags) : ℕ :=
  let l := strnlen p (if prec = 0 then W32-1 else prec)
  if f.precision then min l prec else l

def stringText (p : List Byte) (prec : ℕ) (f : Flags) : List Byte :=
  if f.precision then (p.takeWhile (· ≠ 0)).take prec else p.takeWhile (· ≠ 0)

section
variable {σ : Type} (out : Byte → ℕ → σ → σ)

def convert (s : ℕ × σ) : Conversion → ℕ × σ
  | .number value negative base prec width f =>
    let (buf,width) := ntoa value negative base prec width f
    outRev out buf width f s
  | .char c width f =>
    let s := if f.left then s else puts out (spaces (width-1)) s
    let s := put out s c
    if f.left then puts out (spaces (width-1)) s else s
  | .string p prec width f =>
    let l := stringLength p prec f
    let s := if f.left then s else puts out (spaces (width-l)) s
    let s := puts out (stringText p prec f) s
    if f.left then puts out (spaces (width-l)) s else s
  | .plain c => put out s c

end

theorem readFlags_length (fmt : List Byte) (f : Flags) :
    (readFlags fmt f).2.length ≤ fmt.length := by
  induction fmt generalizing f with
  | nil => rfl
  | cons c rest ih =>
    rw [readFlags]
    split_ifs
    · exact (ih _).trans (Nat.le_succ _)
    · exact (ih _).trans (Nat.le_succ _)
    · exact (ih _).trans (Nat.le_succ _)
    · exact (ih _).trans (Nat.le_succ _)
    · exact (ih _).trans (Nat.le_succ _)
    · rfl

theorem atoi_length (fmt : List Byte) (i : ℕ) : (atoi fmt i).2.length ≤ fmt.length := by
  induction fmt generalizing i with
  | nil => rfl
  | cons c rest ih =>
    rw [atoi]
    split_ifs
    · exact (ih _).trans (Nat.le_succ _)
    · rfl

theorem readSecond_length (c : Byte) (fmt : List Byte) :
    (readSecond c fmt).2.length ≤ fmt.length := by
  cases fmt with
  | nil => rfl
  | cons c' rest =>
    rw [readSecond]
    split_ifs
    · exact Nat.le_succ _
    · rfl

theorem readLength_length (fmt : List Byte) (f : Flags) :
    (readLength fmt f).2.length ≤ fmt.length := by
  cases fmt with
  | nil => rfl
  | cons c rest =>
    rw [readLength]
    split_ifs
    · exact (readSecond_length _ rest).trans (Nat.le_succ _)
    · exact (readSecond_length _ rest).trans (Nat.le_succ _)
    · exact Nat.le_succ _
    · exact Nat.le_succ _
    · rfl

theorem bind_eq_ok {α β : Type} {x : Except Undefined α} {g : α → Except Undefined β} {b : β} :
    x >>= g = .ok b ↔ ∃ a, x = .ok a ∧ g a = .ok b := by
  cases x <;> simp [bind,Except.bind]

section
variable {fmt fmt' : List Byte} {args args' : List Arg} {f f' : Flags} {n : ℕ} {conv : Conversion}

theorem readWidth_length (h : readWidth fmt args f = .ok (n,f',fmt',args')) :
    fmt'.length ≤ fmt.length := by
  cases fmt with
  | nil =>
    cases h
    rfl
  | cons c rest =>
    rw [readWidth] at h
    split_ifs at h
    · simp only [pure,Except.pure,Except.ok.injEq,Prod.mk.injEq] at h
      rw [← h.2.2.1]
      exact atoi_length _ _
    · obtain ⟨⟨w,args₁⟩,-,h⟩ := bind_eq_ok.mp h
      dsimp only at h
      split_ifs at h
      · obtain ⟨width,-,h⟩ := bind_eq_ok.mp h
        cases h
        exact Nat.le_succ _
      · cases h
        exact Nat.le_succ _
    · cases h
      rfl

theorem readPrecisionValue_length (h : readPrecisionValue fmt args = .ok (n,fmt',args')) :
    fmt'.length ≤ fmt.length := by
  cases fmt with
  | nil =>
    cases h
    rfl
  | cons c rest =>
    rw [readPrecisionValue] at h
    split_ifs at h
    · simp only [pure,Except.pure,Except.ok.injEq,Prod.mk.injEq] at h
      rw [← h.2.1]
      exact atoi_length _ _
    · obtain ⟨⟨v,args₁⟩,-,h⟩ := bind_eq_ok.mp h
      cases h
      exact Nat.le_succ _
    · cases h
      rfl

theorem readPrecision_length (h : readPrecision fmt args f = .ok (n,f',fmt',args')) :
    fmt'.length ≤ fmt.length := by
  cases fmt with
  | nil =>
    cases h
    rfl
  | cons c rest =>
    rw [readPrecision] at h
    split_ifs at h
    · obtain ⟨⟨prec,rest',args₁⟩,hvalue,h⟩ := bind_eq_ok.mp h
      cases h
      exact (readPrecisionValue_length hvalue).trans (Nat.le_succ _)
    · cases h
      rfl

theorem conversion_length (h : conversion fmt args = .ok (conv,fmt',args')) :
    fmt'.length ≤ fmt.length := by
  obtain ⟨⟨width,f₁,fmt₁,args₁⟩,hwidth,h⟩ := bind_eq_ok.mp h
  obtain ⟨⟨prec,f₂,fmt₂,args₂⟩,hprec,h⟩ := bind_eq_ok.mp h
  have hflags := readFlags_length fmt .none
  have hwidth := readWidth_length hwidth
  have hprec := readPrecision_length hprec
  have hlength := readLength_length fmt₂ f₂
  dsimp only at h
  split at h
  · cases h
  · rename_i f₃ c rest hread
    rw [hread] at hlength
    split_ifs at h
    obtain ⟨⟨conv',args₃⟩,-,h⟩ := bind_eq_ok.mp h
    cases h
    simp only [List.length_cons] at hlength
    omega

end

def vsnprintfLoop {σ : Type} (out : Byte → ℕ → σ → σ) (fmt : List Byte)
    (args : List Arg) (s : ℕ × σ) :
    Except Undefined (ℕ × σ) :=
  match fmt with
  | [] => .ok s
  | c :: rest =>
    if c = 0 then .ok s
    else if c = 37 then
      match _h : conversion rest args with
      | .error e => .error e
      | .ok (conv,rest',args') => vsnprintfLoop out rest' args' (convert out s conv)
    else vsnprintfLoop out rest args (put out s c)
termination_by fmt.length
decreasing_by
  · have := conversion_length ‹conversion _ _ = .ok _›
    simp only [List.length_cons]
    omega
  · exact Nat.lt_succ_self _

def outBuffer (buffer maxlen : ℕ) (c : Byte) (idx : ℕ) (m : Mem) : Mem :=
  if idx < maxlen then Function.update m (buffer+idx) c else m

def outNull (_ : Byte) (_ : ℕ) (m : Mem) : Mem := m

/-- `_out_char`, on the characters that have been passed to `putchar`. -/
def outChar (c : Byte) (_ : ℕ) (stdout : List Byte) : List Byte :=
  if c ≠ 0 then stdout++[c] else stdout

/-- `_vsnprintf`, with what `out` changes and the result. -/
def vsnprintfOut {σ : Type} (out : Byte → ℕ → σ → σ) (maxlen : ℕ) (fmt : List Byte)
    (args : List Arg) (s : σ) :
    Except Undefined (σ × ℕ) := do
  let (idx,s) ← vsnprintfLoop out fmt args (0,s)
  pure (out 0 (if idx < maxlen then idx else (maxlen+W32-1)%W32) s,idx)

/-- `vsnprintf`, and `snprintf` and `sprintf` with it. -/
def vsnprintf (m : Mem) (buffer count : ℕ) (fmt : List Byte) (args : List Arg) :
    Except Undefined (Mem × ℕ) :=
  vsnprintfOut (if buffer = 0 then outNull else outBuffer buffer count) count fmt args m

def sprintf (m : Mem) (buffer : ℕ) (fmt : List Byte) (args : List Arg) :
    Except Undefined (Mem × ℕ) :=
  vsnprintf m buffer (W32-1) fmt args

/-- `printf`, with the characters that go to the standard output. -/
def printf (fmt : List Byte) (args : List Arg) : Except Undefined (List Byte × ℕ) :=
  vsnprintfOut outChar (W32-1) fmt args []

end Printf
end ScalesOS
