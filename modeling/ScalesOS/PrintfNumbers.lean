import ScalesOS.PrintfText
import ScalesOS.Strtol

/-!
# Numbers that are printed and read

What `_vsnprintf` prints for a number is read by `strtol`. Padding on both sides, leading zeros and
the sign do no harm as long as the sign fits into the buffer behind the zeros.
-/

namespace ScalesOS
namespace Printf

open Strtol (strtol saturate signed At HasPrefix)

section
variable {base n k : ℕ} {b : Byte} {c c' : ℤ} {s s' xs after : List Byte}

theorem skipSpaces_spaces (n : ℕ) (l : List Byte) :
    Strtol.skipSpaces (spaces n++l) = Strtol.skipSpaces l := by
  induction n with
  | zero => rfl
  | succ n ih => exact ih

theorem strtol_digits (neg : Bool) (text r : List Byte)
    (hskip : Strtol.skipSpaces text = .ok (c,s)) (hsign : Strtol.readSign c s = .ok (neg,c',s'))
    (hat : At c' s' (r++0 :: after)) (hnot : ¬HasPrefix base r) (hbase : base ≠ 0) :
    ∃ e, strtol text base = .ok
        (saturate (signed neg (Strtol.value base (r.takeWhile (Strtol.isDigit base)))),e) := by
  have hacc : Strtol.Accumulated neg 0 0 0 := ⟨by simp [Strtol.signed_zero],by simp⟩
  obtain ⟨any,s₃,hdigits⟩ := Strtol.readDigits_spec (Nat.pos_of_ne_zero hbase) r hat hacc
  have hdefault : Strtol.defaultBase base c' = base := if_neg (by omega)
  refine ⟨if any ≠ 0 then text.length-s₃.length-1 else 0,?_⟩
  rcases hcuts : Strtol.cuts neg base with ⟨cutoff,cutlim⟩
  rw [hcuts] at hdigits
  simp only [strtol,hskip,Strtol.ok_bind,hsign,Strtol.readPrefix_none hnot hat,
    hdefault,hcuts,hdigits]
  rfl

theorem takeWhile_spaces (hxs : ∀ x ∈ xs, Strtol.isDigit base x = true) :
    (xs++spaces k).takeWhile (Strtol.isDigit base) = xs := by
  rw [List.takeWhile_append_of_pos hxs]
  cases k with
  | zero => simp [spaces]
  | succ k =>
    have hspace : Strtol.isDigit base 32 = false := rfl
    rw [spaces,List.replicate_succ,
      List.takeWhile_cons_of_neg (by rw [hspace]; exact Bool.false_ne_true),List.append_nil]

theorem hasPrefix_false (hle : base ≤ 16) (hxs : ∀ x ∈ xs, Strtol.isDigit base x = true) :
    ¬HasPrefix base (xs++spaces k) := by
  rintro ⟨-,x,r',hr,hx⟩
  have hmem : x ∈ xs++spaces k := by
    rw [hr]
    simp
  rcases List.mem_append.mp hmem with h | h
  · have hdigit := hxs x h
    rw [Strtol.not_isDigit_x hx hle] at hdigit
    cases hdigit
  · obtain rfl := List.eq_of_mem_replicate h
    exact absurd hx (by decide)

def signChars (negative : Bool) (f : Flags) : List Byte :=
  if negative then [45] else if f.plus then [43] else if f.space then [32] else []

theorem skipSpaces_head (b : Byte) (l : List Byte) (h : Strtol.isspace b.toNat = false) :
    Strtol.skipSpaces (b :: l) = .ok (b.toNat,l) := by
  rw [Strtol.skipSpaces,if_neg (by rw [h]; exact Bool.false_ne_true)]

theorem digit_head (hb : Strtol.isDigit base b = true) :
    Strtol.isspace b.toNat = false ∧ b ≠ 45 ∧ b ≠ 43 := by
  have hvalue : (Strtol.digitValue b).isSome = true := by
    obtain ⟨n,-,hn⟩ := Strtol.isDigit_iff.mp hb
    rw [hn]
    rfl
  clear hb
  revert b
  decide +kernel

theorem strtol_number (hbase : base ≠ 0) (hle : base ≤ 16)
    (hxs : ∀ x ∈ xs, Strtol.isDigit base x = true) (hsign : s = [] ∨ s = [43] ∨ s = [45]) :
    ∃ e, strtol (spaces n++(s++(xs++spaces k++0 :: after))) base =
      .ok (saturate (signed (s = [45]) (Strtol.value base xs)),e) := by
  obtain ⟨b,l,hl⟩ : ∃ b l, xs++spaces k++0 :: after = b :: l := List.exists_cons_of_ne_nil (by simp)
  have hnot := @hasPrefix_false base k xs hle hxs
  have htake := @takeWhile_spaces base k xs hxs
  rcases hsign with rfl | rfl | rfl
  · cases xs with
    | nil =>
      -- without digits the spaces on both sides are skipped
      refine @strtol_digits base 0 0 after after after false _ [] ?_ rfl ⟨0,rfl,.inl rfl⟩ ?_ hbase
      · rw [skipSpaces_spaces,List.nil_append,List.nil_append,skipSpaces_spaces]
        rfl
      · rintro ⟨-,x,r',hr,-⟩
        cases hr
    | cons x xs =>
      cases hl
      obtain ⟨hspace,hminus,hplus⟩ := digit_head (hxs b List.mem_cons_self)
      have hchar : Strtol.IsChar b.toNat b := .inl rfl
      have h45 : ¬(b.toNat : ℤ) = 45 := fun h => hminus ((hchar.eq_iff (k:=45) (by omega)).mp h)
      have h43 : ¬(b.toNat : ℤ) = 43 := fun h => hplus ((hchar.eq_iff (k:=43) (by omega)).mp h)
      have hdigits := strtol_digits false (spaces n++([]++(b :: xs++spaces k++0 :: after))) _
        ((skipSpaces_spaces n _).trans (skipSpaces_head b _ hspace))
        (by rw [Strtol.readSign,if_neg h45,if_neg h43]; rfl) ⟨b,rfl,hchar⟩ hnot hbase
      rwa [htake] at hdigits
  · have hdigits :=
      strtol_digits false (spaces n++([43]++(xs++spaces k++0 :: after))) (xs++spaces k)
      (skipSpaces_spaces n _) (by rw [hl]; rfl) ⟨b,hl,.inr rfl⟩ hnot hbase
    rwa [htake] at hdigits
  · have hdigits := strtol_digits true (spaces n++([45]++(xs++spaces k++0 :: after))) (xs++spaces k)
      (skipSpaces_spaces n _) (by rw [hl]; rfl) ⟨b,hl,.inr rfl⟩ hnot hbase
    rwa [htake] at hdigits

end

section
variable {uppercase negative : Bool} {base room value prec width : ℕ} {f : Flags} {buf : List Byte}

theorem digitValue_digitChar : ∀ (uppercase : Bool)
    (d : Fin 36), Strtol.digitValue (digitChar uppercase d) = some d.val := by
  decide +kernel

theorem digitValue_digit (hbase : 0 < base) (hle : base ≤ 16) :
    Strtol.digitValue (digitChar uppercase (value%base)) = some (value%base) := by
  have hlt := Nat.mod_lt value hbase
  exact digitValue_digitChar uppercase ⟨value%base,by omega⟩

theorem value_append (xs ys : List Byte) :
    Strtol.value base (xs++ys) = Strtol.valueFrom base (Strtol.value base xs) ys :=
  List.foldl_append

theorem value_digitsLoop (hbase : 0 < base) (hle : base ≤ 16) (room value : ℕ) :
    Strtol.value base (digitsLoop uppercase base room value).reverse = value%base^room := by
  induction room generalizing value with
  | zero => simp [digitsLoop,Strtol.value,Strtol.valueFrom,Nat.mod_one]
  | succ room ih =>
    have hrest :
      Strtol.value base (if value/base = 0 then []
        else digitsLoop uppercase base room (value/base)).reverse =
        value/base%base^room := by
      by_cases h : value/base = 0
      · rw [if_pos h,h,Nat.zero_mod]
        rfl
      · rw [if_neg h,ih]
    have hlast (v : ℕ) :
        Strtol.valueFrom base v [digitChar uppercase (value%base)] = v*base+value%base := by
      simp [Strtol.valueFrom,digitValue_digit hbase hle]
    rw [digitsLoop,List.reverse_cons,value_append,hrest,hlast,pow_succ',Nat.mod_mul,
      Nat.mul_comm base,Nat.add_comm]

theorem isDigit_digitsLoop (hbase : 0 < base) (hle : base ≤ 16) (room value : ℕ) :
    ∀ x ∈ digitsLoop uppercase base room value, Strtol.isDigit base x = true := by
  induction room generalizing value with
  | zero => simp [digitsLoop]
  | succ room ih =>
    intro x hx
    rw [digitsLoop] at hx
    rcases List.mem_cons.mp hx with rfl | hx
    · exact Strtol.isDigit_iff.mpr ⟨value%base,Nat.mod_lt _ hbase,digitValue_digit hbase hle⟩
    · split_ifs at hx
      · cases hx
      · exact ih _ x hx

theorem value_zeros (z : ℕ) (xs : List Byte) :
    Strtol.value base (List.replicate z 48++xs) = Strtol.value base xs := by
  induction z with
  | zero => rfl
  | succ z ih =>
    rw [← ih]
    simp [Strtol.value,Strtol.valueFrom,Strtol.digitValue,List.replicate_succ]

theorem length_digitsLoop_le (room k : ℕ) (hk : 0 < k) (hvalue : value < base^k) :
    (digitsLoop uppercase base room value).length ≤ k := by
  induction room generalizing value k with
  | zero => exact Nat.zero_le k
  | succ room ih =>
    rw [digitsLoop,List.length_cons]
    by_cases h : value/base = 0
    · rw [if_pos h]
      exact hk
    · rw [if_neg h]
      obtain ⟨j,rfl⟩ : ∃ j, k = j+1 := ⟨k-1,by omega⟩
      have hdiv : value/base < base^j := Nat.div_lt_of_lt_mul (by rwa [← pow_succ'])
      have hj : 0 < j := by
        rcases Nat.eq_zero_or_pos j with rfl | hj
        · exact absurd (Nat.lt_one_iff.mp hdiv) h
        · exact hj
      exact Nat.succ_le_succ (ih j hj hdiv)

/-- There is room for the sign behind the zeros. -/
def signFits (prec width : ℕ) (f : Flags) : Bool :=
  f.left || (prec < PRINTF_NTOA_BUFFER_SIZE && (!f.zeropad || width ≤ PRINTF_NTOA_BUFFER_SIZE))

theorem length_padZeros_lt (n : ℕ) (buf : List Byte) :
    (padZeros n buf).length < PRINTF_NTOA_BUFFER_SIZE ↔
    buf.length < PRINTF_NTOA_BUFFER_SIZE ∧ n < PRINTF_NTOA_BUFFER_SIZE := by
  simp only [padZeros,List.length_append,List.length_replicate,PRINTF_NTOA_BUFFER_SIZE]
  omega

theorem padZeros_padZeros (m n : ℕ) (buf : List Byte) :
    ∃ z, padZeros n (padZeros m buf) = buf++List.replicate z 48 :=
  ⟨_,by rw [padZeros,padZeros,List.append_assoc,← List.replicate_add]⟩

theorem padNumber_eq (negative : Bool) (prec width : ℕ) (f : Flags) (buf : List Byte) :
    ∃ z, (padNumber negative prec width f buf).1 = buf++List.replicate z 48 := by
  rw [padNumber]
  by_cases hleft : f.left = true
  · exact ⟨0,by rw [if_pos hleft]; simp⟩
  · rw [if_neg hleft]
    by_cases hzero : f.zeropad = true
    · simpa only [hzero,if_true] using padZeros_padZeros _ _ buf
    · exact ⟨_,by simp only [hzero]; rfl⟩

theorem length_padNumber_lt (hbuf : buf.length < PRINTF_NTOA_BUFFER_SIZE) :
    (padNumber true prec width f buf).1.length < PRINTF_NTOA_BUFFER_SIZE ↔
    signFits prec width f = true := by
  rw [padNumber,signFits]
  by_cases hleft : f.left = true
  · simpa [hleft] using hbuf
  · have hsub : (if width = 0 then width else width-1) < PRINTF_NTOA_BUFFER_SIZE ↔
        width ≤ PRINTF_NTOA_BUFFER_SIZE := by
      simp only [PRINTF_NTOA_BUFFER_SIZE]
      split_ifs <;> omega
    by_cases hzero : f.zeropad = true
    · simp [hleft,hzero,length_padZeros_lt,hbuf,hsub]
    · simp [hleft,hzero,length_padZeros_lt,hbuf]

theorem pushSign_eq (negative : Bool) (f : Flags) (buf : List Byte) :
    pushSign negative f buf = buf++if buf.length < PRINTF_NTOA_BUFFER_SIZE then
    signChars negative f else [] := by
  simp only [pushSign,signChars,push]
  split_ifs <;> simp

theorem signChars_cases (negative : Bool) (f : Flags) :
    signChars negative f = [] ∨ signChars negative f = [32] ∨ signChars negative f = [43] ∨
    signChars negative f = [45] := by
  rw [signChars]
  split_ifs <;> simp

theorem signChars_minus (negative : Bool) (f : Flags) : signChars negative f = [45] ↔
    negative = true := by
  rw [signChars]
  split_ifs <;> simp_all

theorem signChars_reverse (negative : Bool) (f : Flags) :
    (signChars negative f).reverse = signChars negative f := by
  rcases signChars_cases negative f with h | h | h | h <;> rw [h] <;> rfl

/-- The characters of a number: the sign if there is room, zeros and digits. -/
theorem ntoa_eq (hbase : 0 < base) (hle : base ≤ 16) (hhash : f.hash = false)
    (hneg : negative = true → base = 10 ∧ value < 10^31) :
    ∃ sign xs, (ntoa value negative base prec width f).1.reverse = sign++xs ∧
      (sign = [] ∨ sign = [32] ∨ sign = [43] ∨ sign = [45]) ∧
      (sign = [45] ↔ negative = true ∧ signFits prec width f = true) ∧
      (∀ x ∈ xs, Strtol.isDigit base x = true) ∧
      Strtol.value base xs = value%base^PRINTF_NTOA_BUFFER_SIZE := by
  obtain ⟨ds,hds,hdigit,hvalue,hlength⟩ : ∃ ds : List Byte,
      ds = (if !f.precision ∨ value ≠ 0 then
        digitsLoop f.uppercase base PRINTF_NTOA_BUFFER_SIZE value else []) ∧
      (∀ x ∈ ds, Strtol.isDigit base x = true) ∧
      Strtol.value base ds.reverse = value%base^PRINTF_NTOA_BUFFER_SIZE ∧
      (negative = true → ds.length < PRINTF_NTOA_BUFFER_SIZE) := by
    refine ⟨_,rfl,?_⟩
    split_ifs with hshow
    · refine ⟨isDigit_digitsLoop hbase hle _ _,value_digitsLoop hbase hle _ _,fun h => ?_⟩
      obtain ⟨rfl,hlt⟩ := hneg h
      exact Nat.lt_succ_of_le (length_digitsLoop_le _ 31 (by decide) hlt)
    · have hzero : value = 0 := by
        by_contra h
        exact hshow (.inr h)
      refine ⟨by simp,?_,fun _ => by decide⟩
      rw [hzero,Nat.zero_mod]
      rfl
  obtain ⟨z,hz⟩ := padNumber_eq negative prec width f ds
  have hflags : (if value = 0 then { f with hash := false } else f) = f := by
    cases f
    cases hhash
    exact ite_self _
  refine ⟨if (ds++List.replicate z 48).length < PRINTF_NTOA_BUFFER_SIZE then
    signChars negative f else [],
    List.replicate z 48++ds.reverse,?_,?_,?_,fun x hx => ?_,by rw [value_zeros,hvalue]⟩
  · have hformat :
        (ntoa value negative base prec width f).1 =
        pushSign negative f (ds++List.replicate z 48) := by
      simp only [ntoa,ntoaFormat,hflags,← hds,hz,pushHash,hhash]
      rfl
    rw [hformat,pushSign_eq,List.reverse_append,List.reverse_append,List.reverse_replicate]
    congr 1
    split_ifs
    · exact signChars_reverse negative f
    · rfl
  · split_ifs
    · exact signChars_cases negative f
    · exact .inl rfl
  · cases negative with
    | true =>
      rw [← hz,← length_padNumber_lt (hlength rfl)]
      split_ifs with hroom
      · exact ⟨fun _ => ⟨rfl,hroom⟩,fun _ => (signChars_minus true f).mpr rfl⟩
      · simp [hroom]
    | false =>
      refine ⟨fun h => ?_,fun h => absurd h.1 Bool.false_ne_true⟩
      split_ifs at h
      exact absurd ((signChars_minus false f).mp h) Bool.false_ne_true
  · rcases List.mem_append.mp hx with h | h
    · obtain rfl := List.eq_of_mem_replicate h
      exact Strtol.isDigit_iff.mpr ⟨0,hbase,rfl⟩
    · exact hdigit x (List.mem_reverse.mp h)

theorem number_text (hbase : 0 < base) (hle : base ≤ 16) (hhash : f.hash = false)
    (hneg : negative = true → base = 10 ∧ value < 10^31) :
    ∃ n k sign xs, (Conversion.number value negative base prec width f).text =
      spaces n++(sign++(xs++spaces k)) ∧ (sign = [] ∨ sign = [43] ∨ sign = [45]) ∧
      (sign = [45] ↔ negative = true ∧ signFits prec width f = true) ∧
      (∀ x ∈ xs, Strtol.isDigit base x = true) ∧
      Strtol.value base xs = value%base^PRINTF_NTOA_BUFFER_SIZE := by
  obtain ⟨sign,xs,hrev,hsign,hminus,hdigit,hvalue⟩ :=
    @ntoa_eq negative base value prec width f hbase hle hhash hneg
  obtain ⟨n,k,htext⟩ :
      ∃ n k, (Conversion.number value negative base prec width f).text =
          spaces n++(sign++xs++spaces k) := by
    rw [Conversion.text,← hrev]
    cases f.left with
    | true => exact ⟨0,_,rfl⟩
    | false => exact ⟨_,0,by simp [padded,spaces]; rfl⟩
  rcases hsign with h | rfl | h
  · exact ⟨n,k,sign,xs,by rw [htext,List.append_assoc],.inl h,hminus,hdigit,hvalue⟩
  · -- a space as the sign belongs to the padding
    refine ⟨n+1,k,[],xs,?_,.inl rfl,⟨fun h => absurd h.symm (List.cons_ne_nil _ _),
      fun h => absurd (hminus.mpr h) (by decide)⟩,hdigit,hvalue⟩
    have hspaces : spaces (n+1) = spaces n++[32] := List.replicate_succ'
    rw [htext,hspaces]
    simp
  · exact ⟨n,k,sign,xs,by rw [htext,List.append_assoc],.inr h,hminus,hdigit,hvalue⟩

end

section
variable {fmt fmt' : List Byte} {args args' : List Arg} {negative : Bool} {c : Byte}
    {base value prec width prec' width' w : ℕ} {f f' : Flags}

theorem magnitude_eq {n : ℕ} {v : ℤ} (h : magnitude w v = .ok n) : n = v.natAbs := by
  rw [magnitude] at h
  split_ifs at h
  exact (Except.ok.inj h).symm

theorem natAbs_toInt_lt (v : BitVec w) (hw : w ≤ 64) : v.toInt.natAbs < 10^31 := by
  have hlow := BitVec.le_toInt v
  have hhigh := BitVec.toInt_lt (x:=v)
  have hpow : (2 : ℤ)^(w-1) ≤ 2^63 := pow_le_pow_right₀ (by decide) (by omega)
  omega

theorem signedNumber_ok {conv : Conversion}
    (h : signedNumber base prec width f args = .ok (conv,args')) :
    ∃ value negative, conv = .number value negative base prec width f ∧ value < 10^31 := by
  rw [signedNumber] at h
  by_cases hll : f.longLong = true
  · rw [if_pos hll] at h
    obtain ⟨⟨v,args₁⟩,-,h⟩ := bind_eq_ok.mp h
    obtain ⟨n,hn,h⟩ := bind_eq_ok.mp h
    cases h
    exact ⟨n,_,rfl,magnitude_eq hn ▸ natAbs_toInt_lt v le_rfl⟩
  · rw [if_neg hll] at h
    obtain ⟨⟨v,args₁⟩,-,h⟩ := bind_eq_ok.mp h
    obtain ⟨n,hn,h⟩ := bind_eq_ok.mp h
    cases h
    refine ⟨n,_,rfl,magnitude_eq hn ▸ ?_⟩
    split_ifs
    · exact natAbs_toInt_lt v (by decide)
    · exact natAbs_toInt_lt (v.setWidth 8) (by decide)
    · exact natAbs_toInt_lt (v.setWidth 16) (by decide)
    · exact natAbs_toInt_lt v (by decide)

theorem unsignedNumber_ok {conv : Conversion}
    (h : unsignedNumber base prec width f args = .ok (conv,args')) :
    ∃ value, conv = .number value false base prec width f := by
  rw [unsignedNumber] at h
  by_cases hll : f.longLong = true
  · rw [if_pos hll] at h
    obtain ⟨⟨v,args₁⟩,-,h⟩ := bind_eq_ok.mp h
    cases h
    exact ⟨_,rfl⟩
  · rw [if_neg hll] at h
    obtain ⟨⟨v,args₁⟩,-,h⟩ := bind_eq_ok.mp h
    cases h
    exact ⟨_,rfl⟩

theorem specifier_number (h : specifier c prec width f args =
    .ok (.number value negative base prec' width' f',args')) :
    0 < base ∧ base ≤ 16 ∧ (negative = true → base = 10 ∧ value < 10^31) := by
  rw [specifier] at h
  by_cases hletter : c ∈ [100,105,117,120,88,111,98]
  · rw [if_pos hletter] at h
    dsimp only at h
    by_cases hsigned : c = 105 ∨ c = 100
    · rw [if_pos hsigned] at h
      obtain ⟨v,n,hconv,hlt⟩ := signedNumber_ok h
      have hbase :
          (if c = 120 ∨ c = 88 then 16 else if c = 111 then 8 else if c = 98 then 2
            else 10) = 10 := by
        rcases hsigned with rfl | rfl <;> rfl
      rw [hbase] at hconv
      cases hconv
      exact ⟨by decide,by decide,fun _ => ⟨rfl,hlt⟩⟩
    · rw [if_neg hsigned] at h
      obtain ⟨v,hconv⟩ := unsignedNumber_ok h
      cases hconv
      exact ⟨by split_ifs <;> decide,by split_ifs <;> decide,(absurd · Bool.false_ne_true)⟩
  · rw [if_neg hletter] at h
    split_ifs at h
    · obtain ⟨⟨v,args₁⟩,-,h⟩ := bind_eq_ok.mp h
      cases h
    · obtain ⟨⟨v,args₁⟩,-,h⟩ := bind_eq_ok.mp h
      cases h
    · obtain ⟨⟨v,args₁⟩,-,h⟩ := bind_eq_ok.mp h
      cases h
      exact ⟨by decide,by decide,(absurd · Bool.false_ne_true)⟩
    · cases h

theorem conversion_number (h : conversion fmt args =
    .ok (.number value negative base prec width f,fmt',args')) :
    0 < base ∧ base ≤ 16 ∧ (negative = true → base = 10 ∧ value < 10^31) := by
  obtain ⟨⟨width,f₁,fmt₁,args₁⟩,-,h⟩ := bind_eq_ok.mp h
  obtain ⟨⟨prec,f₂,fmt₂,args₂⟩,-,h⟩ := bind_eq_ok.mp h
  dsimp only at h
  split at h
  · cases h
  · split_ifs at h
    obtain ⟨⟨conv,args₃⟩,hspec,h⟩ := bind_eq_ok.mp h
    cases h
    exact specifier_number hspec

/-- `strtol` reads the number that has been printed, with 32 digits at most, and with the sign if
there was room for it behind the zeros. -/
theorem number_reads_back (after : List Byte) {text : List Byte}
    (hconv : conversion fmt args = .ok (.number value negative base prec width f,[],[]))
    (hhash : f.hash = false) (htext : formatted (37 :: fmt) args = .ok text) :
    ∃ e, strtol (text++0 :: after) base =
      .ok (saturate (signed (negative &&
          signFits prec width f) (value%base^PRINTF_NTOA_BUFFER_SIZE)),e) := by
  obtain ⟨hbase,hle,hneg⟩ := conversion_number hconv
  obtain ⟨n,k,sign,xs,hnumber,hsign,hminus,hdigit,hvalue⟩ :=
    @number_text negative base value prec width f hbase hle hhash hneg
  have hall : text = (Conversion.number value negative base prec width f).text := by
    rw [formatted,conversions_percent,hconv] at htext
    simp only [bind,Except.bind,conversions_nil] at htext
    cases htext
    exact List.append_nil _
  have hread := @strtol_number base n k sign xs after (Nat.ne_of_gt hbase) hle hdigit hsign
  have hsame : decide (sign = [45]) = (negative && signFits prec width f) := by
    rw [Bool.eq_iff_iff,decide_eq_true_iff,Bool.and_eq_true]
    exact hminus
  rw [hall,hnumber,← hvalue,← hsame]
  simpa using hread

theorem formatted_width : formatted [37,53,100] [.word (BitVec.ofInt 32 (-42))] = .ok
    [32,32,45,52,50] := by
  have hconv :
    conversion [53,100] [.word (BitVec.ofInt 32 (-42))] =
      .ok (.number 42 true 10 0 5 .none,[],[]) := rfl
  rw [formatted,conversions_percent,hconv]
  simp only [bind,Except.bind,conversions_nil]
  rfl

theorem number_reads_back_minus : ∃ e, strtol [32,32,45,52,50,0] 10 = .ok (-42,e) :=
  @number_reads_back [53,100] [.word (BitVec.ofInt 32 (-42))] true 10 42 0 5 .none [] _ rfl
    rfl formatted_width

end

end Printf
end ScalesOS
