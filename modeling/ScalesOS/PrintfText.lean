import ScalesOS.Printf

/-!
# The text of a format

A format and its arguments denote a text. Whatever the output function is, it is called for the
characters of this text one after the other, and what a buffer holds is a front part of the text.
-/

namespace ScalesOS
namespace Printf

open ByteMemory

/-- The padding that stands on the left or on the right of `cs`. -/
def padded (left : Bool) (n : ℕ) (cs : List Byte) : List Byte :=
  if left then cs++spaces n else spaces n++cs

def Conversion.text : Conversion → List Byte
  | .number value negative base prec width f =>
    let (buf,width) := ntoa value negative base prec width f
    padded f.left (if !f.left && f.zeropad then 0 else width-buf.length) buf.reverse
  | .char c width f => padded f.left (width-1) [c]
  | .string p prec width f => padded f.left (width-stringLength p prec f) (stringText p prec f)
  | .plain c => [c]

def conversions (fmt : List Byte) (args : List Arg) : Except Undefined (List Conversion) :=
  match fmt with
  | [] => .ok []
  | c :: rest =>
    if c = 0 then .ok []
    else if c = 37 then
      match _h : conversion rest args with
      | .error e => .error e
      | .ok (conv,rest',args') => (conversions rest' args').map (conv :: ·)
    else (conversions rest args).map (.plain c :: ·)
termination_by fmt.length
decreasing_by
  · have := conversion_length ‹conversion _ _ = .ok _›
    simp only [List.length_cons]
    omega
  · exact Nat.lt_succ_self _

def formatted (fmt : List Byte) (args : List Arg) : Except Undefined (List Byte) :=
  (conversions fmt args).map fun cs => cs.flatMap Conversion.text

section
variable {σ : Type} {out : Byte → ℕ → σ → σ} {s : ℕ × σ} {cs ds : List Byte}

theorem puts_append : puts out (cs++ds) s = puts out ds (puts out cs s) := List.foldl_append

theorem puts_fst (h : s.1 < W32) : (puts out cs s).1 = (s.1+cs.length)%W32 := by
  induction cs generalizing s with
  | nil => exact (Nat.mod_eq_of_lt h).symm
  | cons c cs ih =>
    rw [puts,List.foldl_cons]
    refine (ih (Nat.mod_lt _ (by decide))).trans ?_
    rw [put,Nat.mod_add_mod,List.length_cons]
    congr 1
    omega

theorem puts_lt (h : s.1 < W32) : (puts out cs s).1 < W32 := by
  rw [puts_fst h]
  exact Nat.mod_lt _ (by decide)

theorem puts_padded (left : Bool) (n : ℕ) :
    puts out (padded left n cs) s = if left then puts out (spaces n) (puts out cs s)
    else puts out cs (puts out (spaces n) s) := by
  cases left
  · exact puts_append
  · exact puts_append

theorem length_push (c : Byte) {buf : List Byte} (h : buf.length ≤ PRINTF_NTOA_BUFFER_SIZE) :
    (push c buf).length ≤ PRINTF_NTOA_BUFFER_SIZE := by
  rw [push]
  split_ifs
  · simpa using ‹_›
  · exact h

theorem length_padZeros (n : ℕ) {buf : List Byte} (h : buf.length ≤ PRINTF_NTOA_BUFFER_SIZE) :
    (padZeros n buf).length ≤ PRINTF_NTOA_BUFFER_SIZE := by
  simp only [padZeros,List.length_append,List.length_replicate]
  omega

theorem length_padNumber (negative : Bool) (prec width : ℕ) (f : Flags) {buf : List Byte}
    (h : buf.length ≤ PRINTF_NTOA_BUFFER_SIZE) :
    (padNumber negative prec width f buf).1.length ≤ PRINTF_NTOA_BUFFER_SIZE := by
  dsimp only [padNumber]
  by_cases hleft : f.left
  · rw [if_pos hleft]
    exact h
  · rw [if_neg hleft]
    dsimp only
    split
    · exact length_padZeros _ (length_padZeros _ h)
    · exact length_padZeros _ h

theorem length_pushHash (base prec width : ℕ) (f : Flags) {buf : List Byte}
    (h : buf.length ≤ PRINTF_NTOA_BUFFER_SIZE) :
    (pushHash base prec width f buf).length ≤ PRINTF_NTOA_BUFFER_SIZE := by
  have hlast (l : List Byte) (hl : l.length ≤ PRINTF_NTOA_BUFFER_SIZE) :
      l.dropLast.length ≤ PRINTF_NTOA_BUFFER_SIZE := by
    rw [List.length_dropLast]
    omega
  have hdrop : (dropZeros base prec width f buf).length ≤ PRINTF_NTOA_BUFFER_SIZE := by
    rw [dropZeros]
    split_ifs
    · exact hlast _ (hlast _ h)
    · exact hlast _ h
    · exact h
  have hbase :
      (pushBase base f.uppercase (dropZeros base prec width f buf)).length ≤
      PRINTF_NTOA_BUFFER_SIZE := by
    rw [pushBase]
    split_ifs
    · exact length_push _ hdrop
    · exact length_push _ hdrop
    · exact length_push _ hdrop
    · exact hdrop
  rw [pushHash]
  split_ifs
  · exact length_push _ hbase
  · exact h

theorem length_pushSign (negative : Bool) (f : Flags) {buf : List Byte}
    (h : buf.length ≤ PRINTF_NTOA_BUFFER_SIZE) :
    (pushSign negative f buf).length ≤ PRINTF_NTOA_BUFFER_SIZE := by
  rw [pushSign]
  split_ifs
  · exact length_push _ h
  · exact length_push _ h
  · exact length_push _ h
  · exact h

theorem length_digitsLoop (uppercase : Bool) (base room value : ℕ) :
    (digitsLoop uppercase base room value).length ≤ room := by
  induction room generalizing value with
  | zero => exact le_rfl
  | succ room ih =>
    rw [digitsLoop,List.length_cons]
    split_ifs
    · exact Nat.le_add_left 1 room
    · exact Nat.succ_le_succ (ih _)

theorem length_ntoa (value : ℕ) (negative : Bool) (base prec width : ℕ) (f : Flags) :
    (ntoa value negative base prec width f).1.length ≤ PRINTF_NTOA_BUFFER_SIZE := by
  rw [ntoa,ntoaFormat]
  refine length_pushSign _ _ (length_pushHash _ _ _ _ (length_padNumber _ _ _ _ ?_))
  split_ifs
  · exact length_digitsLoop _ _ _ _
  · exact Nat.zero_le _

theorem outRev_eq {buf : List Byte} (width : ℕ) (f : Flags) (hbuf : buf.length < W32)
    (h : s.1 < W32) :
    outRev out buf width f s =
      puts out (padded f.left (if !f.left && f.zeropad then 0
          else width-buf.length) buf.reverse) s := by
  have hcount : ((puts out buf.reverse s).1+W32-s.1)%W32 = buf.length := by
    rw [puts_fst h,List.length_reverse]
    simp only [W32] at *
    omega
  rw [puts_padded,outRev]
  cases f.left with
  | true =>
    simp only [Bool.not_true,Bool.false_and,Bool.false_eq_true,if_false,if_true,hcount]
  | false =>
    cases f.zeropad with
    | true => simp only [Bool.not_false,Bool.not_true,Bool.true_and,Bool.false_eq_true,
        if_false,if_true]; rfl
    | false => simp only [Bool.not_false,Bool.true_and,Bool.false_eq_true,if_false,if_true]

theorem convert_eq (conv : Conversion) (h : s.1 < W32) :
    convert out s conv = puts out conv.text s := by
  cases conv with
  | number value negative base prec width f =>
    have hbuf := length_ntoa value negative base prec width f
    exact outRev_eq _ f (lt_of_le_of_lt hbuf (by decide)) h
  | char c width f =>
    rw [Conversion.text,puts_padded,convert]
    cases f.left <;> rfl
  | string p prec width f =>
    rw [Conversion.text,puts_padded,convert]
    cases f.left <;> rfl
  | plain c => rfl

theorem foldl_convert (convs : List Conversion) (h : s.1 < W32) :
    convs.foldl (convert out) s = puts out (convs.flatMap Conversion.text) s := by
  induction convs generalizing s with
  | nil => rfl
  | cons conv convs ih =>
    rw [List.foldl_cons,List.flatMap_cons,puts_append,convert_eq conv h,ih (puts_lt h)]

theorem conversions_nil (args : List Arg) : conversions [] args = .ok [] := by rw [conversions]

theorem vsnprintfLoop_percent (rest : List Byte) (args : List Arg) : vsnprintfLoop out
    (37 :: rest) args s =
    conversion rest args >>= fun c => vsnprintfLoop out c.2.1 c.2.2 (convert out s c.1) := by
  rw [vsnprintfLoop,if_neg (by decide),if_pos rfl]
  split
  · rename_i h
    rw [h]
    rfl
  · rename_i h
    rw [h]
    rfl

theorem conversions_percent (rest : List Byte) (args : List Arg) : conversions (37 :: rest) args =
    conversion rest args >>= fun c => (conversions c.2.1 c.2.2).map (c.1 :: ·) := by
  rw [conversions,if_neg (by decide),if_pos rfl]
  split
  · rename_i h
    rw [h]
    rfl
  · rename_i h
    rw [h]
    rfl

theorem vsnprintfLoop_eq (fmt : List Byte) (args : List Arg) (h : s.1 < W32) :
    vsnprintfLoop out fmt args s = (formatted fmt args).map fun text => puts out text s := by
  have hloop : vsnprintfLoop out fmt args s = (conversions fmt args).map fun convs =>
      convs.foldl (convert out) s := by
    clear h
    induction fmt, args using conversions.induct generalizing s with
    | case1 args =>
      rw [vsnprintfLoop,conversions]
      rfl
    | case2 args rest =>
      rw [vsnprintfLoop,conversions,if_pos rfl,if_pos rfl]
      rfl
    | case3 args rest e he hzero =>
      rw [vsnprintfLoop_percent,conversions_percent,he]
      rfl
    | case4 args rest conv rest' args' hc hzero ih =>
      rw [vsnprintfLoop_percent,conversions_percent,hc]
      change vsnprintfLoop out rest' args' (convert out s conv) =
        ((conversions rest' args').map (conv :: ·)).map fun convs => convs.foldl (convert out) s
      rw [ih]
      cases conversions rest' args' <;> rfl
    | case5 args c rest hzero hpercent ih =>
      rw [vsnprintfLoop,conversions,if_neg hzero,if_neg hzero,if_neg hpercent,if_neg hpercent,ih]
      cases conversions rest args <;> rfl
  rw [hloop,formatted]
  cases conversions fmt args with
  | error e => rfl
  | ok convs => exact congrArg Except.ok (foldl_convert convs h)

end

/-- The bytes that a buffer of `count` bytes gets. -/
def terminated (count : ℕ) (text : List Byte) : List Byte :=
  if count = 0 then [] else text.take (count-1)++[0]

section
variable {text : List Byte} {buffer count i : ℕ}

theorem puts_outBuffer (m : Mem) (h : i+text.length < W32) :
    puts (outBuffer buffer count) text (i,m) =
    (i+text.length,store m (buffer+i) (text.take (count-i))) := by
  induction text generalizing i m with
  | nil => simp [puts]
  | cons c text ih =>
    rw [List.length_cons] at h
    have hi : (i+1)%W32 = i+1 := Nat.mod_eq_of_lt (by omega)
    rw [puts,List.foldl_cons,put,hi]
    refine (ih _ (by omega)).trans ?_
    have hlen : i+1+text.length = i+(text.length+1) := by omega
    rw [List.length_cons,hlen,outBuffer]
    by_cases hin : i < count
    · obtain ⟨k,hk⟩ : ∃ k, count-i = k+1 := ⟨count-i-1,by omega⟩
      have hsub : count-(i+1) = k := by omega
      rw [if_pos hin,hk,hsub,List.take_succ_cons,← List.singleton_append,store_append,
        store_singleton]
      rfl
    · have hnone : count-i = 0 := by omega
      have hnone' : count-(i+1) = 0 := by omega
      rw [if_neg hin,hnone,hnone',List.take_zero,List.take_zero,store_nil,store_nil]

theorem store_terminated (m : Mem) (hcount : count < W32) :
    outBuffer buffer count 0 (if text.length < count then text.length
      else (count+W32-1)%W32) (store m buffer (text.take count)) =
      store m buffer (terminated count text) := by
  by_cases hlen : text.length < count
  · rw [if_pos hlen,outBuffer,if_pos hlen,List.take_of_length_le hlen.le,terminated,
      if_neg (by omega),List.take_of_length_le (by omega),store_append,store_singleton]
  · rw [if_neg hlen]
    cases count with
    | zero => simp [outBuffer,terminated]
    | succ k =>
      have hlast : (k+1+W32-1)%W32 = k := by
        simp only [W32] at *
        omega
      have hk : (text.take k).length = k := by
        rw [List.length_take]
        omega
      -- the terminator replaces the last character that fits
      rw [hlast,outBuffer,if_pos (Nat.lt_succ_self k),terminated,if_neg (Nat.succ_ne_zero k),
        Nat.add_sub_cancel,
        List.take_add_one,List.getElem?_eq_getElem (by omega),store_append,store_append,hk]
      simp only [Option.toList_some,store_singleton,Function.update_idem]

theorem puts_outChar (stdout : List Byte) (h : i+text.length < W32) :
    puts outChar text (i,stdout) = (i+text.length,stdout++text.filter (· ≠ 0)) := by
  induction text generalizing i stdout with
  | nil => simp [puts]
  | cons c text ih =>
    rw [List.length_cons] at h
    have hi : (i+1)%W32 = i+1 := Nat.mod_eq_of_lt (by omega)
    rw [puts,List.foldl_cons,put,hi]
    refine (ih _ (by omega)).trans ?_
    have hlen : i+1+text.length = i+(text.length+1) := by omega
    rw [List.length_cons,hlen,outChar]
    by_cases hc : c = 0
    · rw [if_neg (by simpa using hc),List.filter_cons_of_neg (by simpa using hc)]
    · rw [if_pos hc,List.filter_cons_of_pos (by simpa using hc),List.append_assoc]
      rfl

theorem puts_outNull (m : Mem) (h : i+text.length < W32) :
    puts outNull text (i,m) = (i+text.length,m) := by
  induction text generalizing i with
  | nil => rfl
  | cons c text ih =>
    rw [List.length_cons] at h
    have hi : (i+1)%W32 = i+1 := Nat.mod_eq_of_lt (by omega)
    rw [puts,List.foldl_cons,put,hi]
    refine (ih (by omega)).trans ?_
    rw [List.length_cons,Nat.add_assoc,Nat.add_comm 1]

end

theorem vsnprintfOut_eq {σ : Type} (out : Byte → ℕ → σ → σ) (maxlen : ℕ) (fmt : List Byte)
    (args : List Arg) (s : σ) :
    vsnprintfOut out maxlen fmt args s = (formatted fmt args).map fun text =>
      (out 0 (if (puts out text (0,s)).1 < maxlen then (puts out text (0,s)).1
        else (maxlen+W32-1)%W32)
        (puts out text (0,s)).2,(puts out text (0,s)).1) := by
  rw [vsnprintfOut,vsnprintfLoop_eq fmt args (show 0 < W32 by decide)]
  cases formatted fmt args <;> rfl

theorem vsnprintf_eq {fmt : List Byte} {args : List Arg}
    (hshort : ∀ text, formatted fmt args = .ok text → text.length < W32)
    (m : Mem) (buffer : ℕ) {count : ℕ} (hcount : count < W32) :
    vsnprintf m buffer count fmt args = (formatted fmt args).map fun text =>
      (if buffer = 0 then m else store m buffer (terminated count text),text.length) := by
  rw [vsnprintf,vsnprintfOut_eq]
  cases htext : formatted fmt args with
  | error e => rfl
  | ok text =>
    have hlen := hshort text htext
    refine congrArg Except.ok ?_
    dsimp only
    by_cases hbuffer : buffer = 0
    · rw [if_pos hbuffer,if_pos hbuffer,puts_outNull m (by omega),Nat.zero_add]
      rfl
    · rw [if_neg hbuffer,if_neg hbuffer,puts_outBuffer m (by omega),Nat.zero_add,
        Nat.add_zero,Nat.sub_zero]
      exact congrArg (·,text.length) (store_terminated m hcount)

/-- A buffer gets the front part of the text that fits with its terminator, and no other byte
changes; the standard output gets the text without zeros. The result is the length of the text in
each case. -/
theorem formatted_output (fmt : List Byte) (args : List Arg)
    (hshort : ∀ text, formatted fmt args = .ok text → text.length < W32) :
    (∀ m buffer count, count < W32 →
      vsnprintf m buffer count fmt args = (formatted fmt args).map fun text =>
      (if buffer = 0 then m else store m buffer (terminated count text),text.length)) ∧
    printf fmt args = (formatted fmt args).map fun text => (text.filter (· ≠ 0),text.length) := by
  refine ⟨fun m buffer count hcount => vsnprintf_eq hshort m buffer hcount,?_⟩
  rw [printf,vsnprintfOut_eq]
  cases htext : formatted fmt args with
  | error e => rfl
  | ok text =>
    have hlen := hshort text htext
    refine congrArg Except.ok ?_
    dsimp only
    rw [puts_outChar [] (by omega),Nat.zero_add,List.nil_append,outChar,if_neg (by simp)]

theorem formatted_minus : formatted [37,100] [.word (BitVec.ofInt 32 (-42))] = .ok [45,52,50] := by
  have hconv :
    conversion [100] [.word (BitVec.ofInt 32 (-42))] = .ok (.number 42 true 10 0 0 .none,[],[]) :=
      rfl
  rw [formatted,conversions_percent,hconv]
  simp only [bind,Except.bind,conversions_nil]
  rfl

theorem formatted_output_minus :
    vsnprintf (fun _ => 0) 0x1000 3 [37,100] [.word (BitVec.ofInt 32 (-42))] =
        .ok (store (fun _ => 0) 0x1000 [45,52,0],3) ∧
      printf [37,100] [.word (BitVec.ofInt 32 (-42))] = .ok ([45,52,50],3) := by
  obtain ⟨hbuffer,hstdout⟩ :=
    formatted_output [37,100] [.word (BitVec.ofInt 32 (-42))] fun text h => by
    rw [formatted_minus] at h
    cases h
    decide
  exact ⟨(hbuffer _ 0x1000 3 (by decide)).trans (by rw [formatted_minus]; rfl),
    hstdout.trans (by rw [formatted_minus]; rfl)⟩

end Printf
end ScalesOS
