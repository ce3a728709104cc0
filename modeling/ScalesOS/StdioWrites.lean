import ScalesOS.PrintfText
import ScalesOS.Stdio

/-!
# Buffered writing

`fwrite`, `fputc`, `puts`, `fprintf`, `fflush` and `fseek` of `libc/src/stdio/stdio.c` on a stream
that is only written. Whatever the descriptor behind the stream is, it gets what it would get
without the buffer, as long as two writes in a row are one write.
-/

namespace ScalesOS
namespace Stdio

open ByteMemory

/-- The system calls on a descriptor in state `σ`. -/
structure Descriptor (σ : Type) where
  write : Bytes → σ → ℕ × σ
  seek : ℕ → Whence → σ → ℕ × σ

/-- A `FILE` without what only readers use: the bytes in front of `write_ptr`, if there is a
buffer. -/
structure OutStream (σ : Type) where
  writeBuffer : Option Bytes
  descriptor : σ

section
variable {σ : Type} (d : Descriptor σ)

def fflush (s : OutStream σ) : ℕ × OutStream σ :=
  match s.writeBuffer with
  | none => (0,s)
  | some buf =>
    if buf = [] then (0,s)
    else
      let r := d.write buf s.descriptor
      (r.1,⟨some [],r.2⟩)

/-- The loop of `fwrite`. -/
def fwriteLoop : Bytes → Bytes → σ → OutStream σ
  | [],buf,x => ⟨some buf,x⟩
  | b :: bs,buf,x =>
    let buf := buf++[b]
    if buf.length = BUFSIZE ∨ b = 10 then fwriteLoop bs [] (d.write buf x).2
    else fwriteLoop bs buf x

def fwrite (ptr : Bytes) (size nmemb : ℕ) (s : OutStream σ) : ℕ × OutStream σ :=
  let len := size*nmemb%W32
  match s.writeBuffer with
  | none =>
    let r := d.write (ptr.take len) s.descriptor
    (r.1,⟨none,r.2⟩)
  | some buf => (len,fwriteLoop d (ptr.take len) buf s.descriptor)

/-- `EOF` is -1. -/
def fputc (ch : BitVec 32) (s : OutStream σ) : ℤ × OutStream σ :=
  let r := fwrite d [ch.setWidth 8] 1 1 s
  (if r.1 = 0 then -1 else ch.toInt,r.2)

/-- `puts`, on the stream of the standard output. -/
def puts (str : Bytes) (s : OutStream σ) : ℕ × OutStream σ :=
  let r := fwrite d str 1 str.length s
  (r.1,(fwrite d [10] 1 1 r.2).2)

/-- `fseek` without the case of a stream that has been read. -/
def fseekOut (offset : ℕ) (whence : Whence) (s : OutStream σ) : ℕ × OutStream σ :=
  let s := (fflush d s).2
  let r := d.seek offset whence s.descriptor
  (r.1,{ s with descriptor := r.2 })

/-- `vfprintf` with the buffer that `malloc` returns, and `fprintf` with it. -/
def vfprintf (m : Mem) (buffer : ℕ) (format : Bytes) (args : List Printf.Arg) (s : OutStream σ) :
    Except Printf.Undefined (ℕ × OutStream σ) := do
  let (m,_) ← Printf.vsnprintf m buffer 4096 format args
  let str := (load m buffer 4096).takeWhile (· ≠ 0)
  pure (fwrite d str str.length 1 s)

end

inductive OutCall
  | fwrite (ptr : Bytes) (size nmemb : ℕ)
  | fputc (ch : BitVec 32)
  | puts (str : Bytes)
  | fprintf (format : Bytes) (args : List Printf.Arg)
  | fflush
  | fseek (offset : ℕ) (whence : Whence)

/-- The characters that `vfprintf` takes from a text. -/
def cut (text : Bytes) : Bytes := (text.take 4095).takeWhile (· ≠ 0)

section
variable {σ : Type} (d : Descriptor σ)

/-- The result and the stream behind a call; `malloc` returns `buffer` to `vfprintf`. The result of
`fflush` is left out. -/
def OutCall.run (m : Mem) (buffer : ℕ) : OutCall → OutStream σ →
    Except Printf.Undefined (Option ℤ × OutStream σ)
  | .fwrite ptr size nmemb,s =>
    pure (some (Stdio.fwrite d ptr size nmemb s).1,(Stdio.fwrite d ptr size nmemb s).2)
  | .fputc ch,s => pure (some (Stdio.fputc d ch s).1,(Stdio.fputc d ch s).2)
  | .puts str,s => pure (some (Stdio.puts d str s).1,(Stdio.puts d str s).2)
  | .fprintf format args,s => (vfprintf d m buffer format args s).map fun r => (some (r.1 : ℤ),r.2)
  | .fflush,s => pure (none,(Stdio.fflush d s).2)
  | .fseek offset whence,s =>
    pure (some (fseekOut d offset whence s).1,(fseekOut d offset whence s).2)

end

/-- Calls one after the other, with their results. -/
def runs {α β σ : Type} (step : α → σ → Except Printf.Undefined (β × σ)) :
    List α → σ → Except Printf.Undefined (List β × σ)
  | [],s => pure ([],s)
  | call :: calls,s => do
    let (r,s) ← step call s
    let (rs,s) ← runs step calls s
    pure (r :: rs,s)

/-- Two runs end in the same way: with one error, or with one result in related states. -/
inductive Agree {β σ τ : Type} (R : σ → τ → Prop) :
    Except Printf.Undefined (β × σ) → Except Printf.Undefined (β × τ) → Prop
  | ok {r : β} {s : σ} {t : τ} (h : R s t) : Agree R (.ok (r,s)) (.ok (r,t))
  | error {e : Printf.Undefined} : Agree R (.error e) (.error e)

section
variable {α β γ σ τ : Type} {R : σ → τ → Prop}

theorem Agree.bind {x : Except Printf.Undefined (β × σ)} {y : Except Printf.Undefined (β × τ)}
    {f : β × σ → Except Printf.Undefined (γ × σ)} {g : β × τ → Except Printf.Undefined (γ × τ)}
    (h : Agree R x y)
    (hnext : ∀ r s t, R s t → Agree R (f (r,s)) (g (r,t))) : Agree R (x >>= f) (y >>= g) := by
  cases h with
  | ok h => exact hnext _ _ _ h
  | error => exact .error

theorem runs_agree {step : α → σ → Except Printf.Undefined (β × σ)}
    {step' : α → τ → Except Printf.Undefined (β × τ)}
    {calls : List α} (hstep : ∀ call ∈ calls, ∀ s t, R s t → Agree R (step call s) (step' call t))
    {s : σ} {t : τ} (h : R s t) : Agree R (runs step calls s) (runs step' calls t) := by
  induction calls generalizing s t with
  | nil => exact .ok h
  | cons call calls ih =>
    refine (hstep call List.mem_cons_self s t h).bind fun r s t h => ?_
    exact (ih (fun call hcall => hstep call (List.mem_cons_of_mem _ hcall)) h).bind fun rs s t h =>
      .ok h

end

/-- A write returns the number of its bytes, and two writes in a row are one. -/
structure Descriptor.Plain {σ : Type} (d : Descriptor σ) : Prop where
  count : ∀ bs x, (d.write bs x).1 = bs.length
  nil : ∀ x, (d.write [] x).2 = x
  append : ∀ a b x, (d.write (a++b) x).2 = (d.write b (d.write a x).2).2

/-- There is room in the buffer, and the descriptor gets to state `x` when the buffer is written. -/
def Pending {σ : Type} (d : Descriptor σ) (s : OutStream σ) (x : σ) : Prop :=
  ∃ buf, s.writeBuffer = some buf ∧ buf.length < BUFSIZE ∧ (d.write buf s.descriptor).2 = x

section
variable {σ : Type} {d : Descriptor σ} {s : OutStream σ} {x : σ} {m : Mem} {buffer : ℕ}

theorem Pending.empty (hd : d.Plain) (x : σ) : Pending d ⟨some [],x⟩ x :=
  ⟨[],rfl,by decide,hd.nil x⟩

theorem fflush_eq (hd : d.Plain) (h : Pending d s x) : (fflush d s).2 = ⟨some [],x⟩ := by
  obtain ⟨buf,hbuf,-,rfl⟩ := h
  obtain ⟨writeBuffer,y⟩ := s
  obtain rfl : writeBuffer = some buf := hbuf
  rw [fflush]
  dsimp only
  split
  · rename_i hnil
    rw [hnil,hd.nil]
  · rfl

theorem fwriteLoop_pending (hd : d.Plain) (bs : Bytes) {buf : Bytes}
    (hbuf : buf.length < BUFSIZE) (y : σ) :
    Pending d (fwriteLoop d bs buf y) (d.write (buf++bs) y).2 := by
  induction bs generalizing buf y with
  | nil => exact ⟨buf,rfl,hbuf,by rw [List.append_nil]; rfl⟩
  | cons b bs ih =>
    have hsplit : (d.write (buf++b :: bs) y).2 = (d.write bs (d.write (buf++[b]) y).2).2 := by
      rw [← hd.append,List.append_assoc]
      rfl
    have hone : (buf++[b]).length = buf.length+1 := by simp
    rw [fwriteLoop,hone,hsplit]
    split
    · exact ih (by decide) _
    · rw [← hd.append]
      exact ih (by omega) y

theorem fwrite_pending (hd : d.Plain) (h : Pending d s x) (ptr : Bytes) (size nmemb : ℕ) :
    (fwrite d ptr size nmemb s).1 = size*nmemb%W32 ∧
      Pending d (fwrite d ptr size nmemb s).2 (d.write (ptr.take (size*nmemb%W32)) x).2 := by
  obtain ⟨buf,hbuf,hroom,rfl⟩ := h
  rw [fwrite,hbuf,← hd.append]
  exact ⟨rfl,fwriteLoop_pending hd _ hroom _⟩

theorem fwrite_unbuffered (hd : d.Plain) {ptr : Bytes} {size nmemb : ℕ}
    (hptr : size*nmemb%W32 ≤ ptr.length) (x : σ) :
    fwrite d ptr size nmemb ⟨none,x⟩ =
        (size*nmemb%W32,⟨none,(d.write (ptr.take (size*nmemb%W32)) x).2⟩) := by
  rw [fwrite]
  dsimp only
  rw [hd.count,List.length_take,min_eq_left hptr]

theorem takeWhile_zero (l r : Bytes) : (l++0 :: r).takeWhile (· ≠ 0) = l.takeWhile (· ≠ 0) := by
  induction l with
  | nil => rfl
  | cons b l ih =>
    rw [List.cons_append,List.takeWhile_cons,List.takeWhile_cons,ih]

theorem load_store_front (m : Mem) (a : ℕ) {l : Bytes} {n : ℕ} (h : l.length ≤ n) :
    load (store m a l) a n = l++load (store m a l) (a+l.length) (n-l.length) := by
  obtain ⟨k,rfl⟩ := Nat.exists_eq_add_of_le h
  rw [load_add,load_store,Nat.add_sub_cancel_left]

theorem load_terminated (m : Mem) (a : ℕ) (text : Bytes) :
    (load (store m a (Printf.terminated 4096 text)) a 4096).takeWhile (· ≠ 0) = cut text := by
  have hterm : Printf.terminated 4096 text = text.take 4095++[0] := rfl
  have hlen : (Printf.terminated 4096 text).length ≤ 4096 := by
    rw [hterm,List.length_append,List.length_take,List.length_singleton]
    omega
  rw [load_store_front m a hlen,hterm,List.append_assoc]
  exact takeWhile_zero _ _

/-- What is written is there, and the text of a format is not longer than what a length can
count. -/
def OutCall.Short : OutCall → Prop
  | .fwrite ptr size nmemb => size*nmemb%W32 ≤ ptr.length
  | .fprintf format args => ∀ text, Printf.formatted format args = .ok text → text.length < W32
  | _ => True

/-- One call on the stream with a buffer and on the stream without one. -/
theorem call_agree (hd : d.Plain) (hbuffer : buffer ≠ 0) {call : OutCall} (hshort : call.Short)
    (h : Pending d s x) :
    Agree (fun s t => t.writeBuffer = none ∧ Pending d s t.descriptor) (call.run d m buffer s)
        (call.run d m buffer ⟨none,x⟩) := by
  cases call with
  | fwrite ptr size nmemb =>
    obtain ⟨hlen,hp⟩ := fwrite_pending hd h ptr size nmemb
    rw [OutCall.run,OutCall.run,hlen,fwrite_unbuffered hd hshort]
    exact .ok ⟨rfl,hp⟩
  | fputc ch =>
    obtain ⟨hlen,hp⟩ := fwrite_pending hd h [ch.setWidth 8] 1 1
    have hdirect := fwrite_unbuffered hd (show 1*1%W32 ≤ [ch.setWidth 8].length from le_rfl) x
    rw [OutCall.run,OutCall.run,fputc,fputc,hlen,hdirect]
    exact .ok ⟨rfl,hp⟩
  | puts str =>
    obtain ⟨hlen,hp⟩ := fwrite_pending hd h str 1 str.length
    obtain ⟨-,hp'⟩ := fwrite_pending hd hp [10] 1 1
    have hstr : 1*str.length%W32 ≤ str.length := by
      rw [Nat.one_mul]
      exact Nat.mod_le _ _
    rw [OutCall.run,OutCall.run,puts,puts,hlen,fwrite_unbuffered hd hstr,
      fwrite_unbuffered hd (show 1*1%W32 ≤ [(10 : BitVec 8)].length from le_rfl)]
    exact .ok ⟨rfl,hp'⟩
  | fprintf format args =>
    rw [OutCall.run,OutCall.run,vfprintf,vfprintf,Printf.vsnprintf_eq hshort m buffer (by decide)]
    cases Printf.formatted format args with
    | error e => exact .error
    | ok text =>
      obtain ⟨hlen,hp⟩ := fwrite_pending hd h (cut text) (cut text).length 1
      have hcut : (cut text).length*1%W32 ≤ (cut text).length := by
        rw [Nat.mul_one]
        exact Nat.mod_le _ _
      simp only [Except.map,bind,Except.bind,pure,Except.pure,if_neg hbuffer,load_terminated]
      rw [hlen,fwrite_unbuffered hd hcut]
      exact .ok ⟨rfl,hp⟩
  | fflush =>
    rw [OutCall.run,OutCall.run,fflush_eq hd h]
    exact .ok ⟨rfl,.empty hd x⟩
  | fseek offset whence =>
    rw [OutCall.run,OutCall.run,fseekOut,fseekOut,fflush_eq hd h]
    exact .ok ⟨rfl,.empty hd _⟩

theorem Agree.mono {β σ τ : Type} {R R' : σ → τ → Prop} {x : Except Printf.Undefined (β × σ)}
    {y : Except Printf.Undefined (β × τ)} (h : Agree R x y) (hsub : ∀ s t, R s t → R' s t) :
    Agree R' x y := by
  cases h with
  | ok h => exact .ok (hsub _ _ h)
  | error => exact .error

/-- A run of calls on a stream with a buffer has the results that it has without one, the buffer is
never left, and a last `fflush` brings the descriptor to the same state. -/
theorem buffered_output {calls : List OutCall} (hd : d.Plain) (hbuffer : buffer ≠ 0)
    (hshort : ∀ call ∈ calls, call.Short) :
    Agree (fun s t => (∃ buf, s.writeBuffer = some buf ∧ buf.length < BUFSIZE) ∧
        t.writeBuffer = none ∧ (fflush d s).2.descriptor = t.descriptor)
      (runs (OutCall.run d m buffer) calls ⟨some [],x⟩)
      (runs (OutCall.run d m buffer) calls ⟨none,x⟩) := by
  have hrun :=
    @runs_agree _ _ _ _ (fun s t => t.writeBuffer = none ∧
      Pending d s t.descriptor) (OutCall.run d m buffer)
    (OutCall.run d m buffer) calls (by
      rintro call hcall s ⟨_,y⟩ ⟨rfl,h⟩
      exact call_agree hd hbuffer (hshort call hcall) h) ⟨some [],x⟩ ⟨none,x⟩ ⟨rfl,.empty hd x⟩
  refine hrun.mono fun s t ⟨hnone,h⟩ => ⟨?_,hnone,by rw [fflush_eq hd h]⟩
  obtain ⟨buf,hbuf,hroom,-⟩ := h
  exact ⟨buf,hbuf,hroom⟩

end

/-- The bytes of a file after `bs` has been written at `offset`; a gap is filled with zeros. -/
def overwrite (data : Bytes) (offset : ℕ) (bs : Bytes) : Bytes :=
  if bs = [] then data
  else (data++List.replicate (offset-data.length) 0).take offset++(bs++data.drop (offset+bs.length))

theorem overwrite_append (data : Bytes) (offset : ℕ) (a b : Bytes) :
    overwrite data offset (a++b) = overwrite (overwrite data offset a) (offset+a.length) b := by
  by_cases ha : a = []
  · subst ha
    simp [overwrite]
  by_cases hb : b = []
  · subst hb
    simp [overwrite]
  generalize hfront : (data++List.replicate (offset-data.length) 0).take offset = front
  have hlen : front.length = offset := by
    rw [← hfront,List.length_take,List.length_append,List.length_replicate]
    omega
  have hfirst : overwrite data offset a = (front++a)++data.drop (offset+a.length) := by
    rw [overwrite,if_neg ha,hfront,List.append_assoc]
  have hprefix : (front++a).length = offset+a.length := by rw [List.length_append,hlen]
  rw [hfirst,overwrite,if_neg (by simp [ha]),hfront,overwrite,if_neg hb,← hprefix]
  have hgap : (front++a).length-((front++a)++data.drop (front++a).length).length = 0 :=
    Nat.sub_eq_zero_of_le (List.prefix_append _ _).length_le
  rw [hgap,List.replicate_zero,List.append_nil,List.take_left,List.drop_append,List.drop_drop]
  simp only [List.append_assoc,List.length_append,hlen]
  have hnone : (front++a).drop (offset+a.length+b.length) = [] := List.drop_eq_nil_of_le (by omega)
  have hrest :
    offset+a.length+(offset+a.length+b.length-(offset+a.length)) = offset+(a.length+b.length) := by
      omega
  rw [hnone,hrest,List.nil_append]

/-- A regular file of up to 4 GiB: its bytes and the offset of the descriptor, with `sys_write` and
`sys_seek`. -/
def regularFile : Descriptor (Bytes × ℕ) where
  write bs f := (bs.length,overwrite f.1 f.2 bs,f.2+bs.length)
  seek offset whence f := (sysSeek f.1 f.2 offset whence,f.1,sysSeek f.1 f.2 offset whence)

theorem regularFile_plain : regularFile.Plain where
  count bs f := rfl
  nil f := by
    obtain ⟨data,offset⟩ := f
    rfl
  append a b f := by
    obtain ⟨data,offset⟩ := f
    simp only [regularFile,overwrite_append,List.length_append,Nat.add_assoc]

theorem buffered_output_file :
    Agree (fun (s t : OutStream (Bytes × ℕ)) =>
      (∃ buf, s.writeBuffer = some buf ∧ buf.length < BUFSIZE) ∧
        t.writeBuffer = none ∧ (fflush regularFile s).2.descriptor = t.descriptor)
      (runs (OutCall.run regularFile (fun _ => 0) 0x1000)
        [.fwrite [97,98,10,99] 2 2,.fputc 100,.fseek 0 .set,.puts [120],.fflush] ⟨some [],([],0)⟩)
      (.ok ([some 4,some 100,some 0,some 1,none],⟨none,([120,10,10,99,100],2)⟩)) :=
  @buffered_output _ regularFile ([],0) _ _ [.fwrite [97,98,10,99] 2 2,.fputc 100,.fseek 0 .set,
    .puts [120],.fflush]
    regularFile_plain (by decide) fun call hcall => by
      simp only [List.mem_cons,List.not_mem_nil,or_false] at hcall
      rcases hcall with rfl | rfl | rfl | rfl | rfl
      · exact show 2*2%W32 ≤ 4 by decide
      all_goals exact trivial

end Stdio
end ScalesOS
