import Mathlib.Data.List.TakeWhile
import ScalesOS.Machine

/-!
# `strtol`

`libc/src/string/strtol.c` with the character classes of `libc/src/ctype/ctype.c`. A pointer into
the string is the list of the bytes from there on. `long` has 32 bits, and `char` is signed.
-/

namespace ScalesOS
namespace Strtol

abbrev Byte := BitVec 8

def LONG_MAX : ℤ := 0x7fffffff
def LONG_MIN : ℤ := -0x80000000

/-- What must not happen: a read behind the memory, a signed overflow. -/
inductive Undefined
  | overrun
  | overflow
  deriving DecidableEq

/-- `*s++`. -/
def next : List Byte → Except Undefined (Byte × List Byte)
  | [] => .error .overrun
  | b :: s => .ok (b,s)

/-- A value computed in a `long`. -/
def long (x : ℤ) : Except Undefined ℤ :=
  if LONG_MIN ≤ x ∧ x ≤ LONG_MAX then .ok x else .error .overflow

def isspace (c : ℤ) : Bool := c = 9 || c = 10 || c = 11 || c = 12 || c = 13 || c = 32

def isalpha (c : ℤ) : Bool := (c ≥ 65 && c ≤ 90) || (c ≥ 97 && c ≤ 122)

def isdigit (c : ℤ) : Bool := c ≥ 48 && c ≤ 57

def isupper (c : ℤ) : Bool := c ≥ 65 && c ≤ 90

def skipSpaces : List Byte → Except Undefined (ℤ × List Byte)
  | [] => .error .overrun
  | b :: s => if isspace b.toNat then skipSpaces s else .ok (b.toNat,s)

def readSign (c : ℤ) (s : List Byte) : Except Undefined (Bool × ℤ × List Byte) :=
  if c = 45 then do
    let (b,s) ← next s
    pure (true,b.toInt,s)
  else if c = 43 then do
    let (b,s) ← next s
    pure (false,b.toInt,s)
  else pure (false,c,s)

def readPrefix (base c : ℤ) (s : List Byte) : Except Undefined (ℤ × ℤ × List Byte) :=
  if (base = 0 ∨ base = 16) ∧ c = 48 then do
    let (x,s') ← next s
    if x = 120 ∨ x = 88 then do
      let (b,s') ← next s'
      pure (16,b.toInt,s')
    else pure (base,c,s)
  else pure (base,c,s)

def defaultBase (base c : ℤ) : ℤ := if base = 0 then if c = 48 then 8 else 10 else base

/-- `cutoff` and `cutlim`. -/
def cuts (neg : Bool) (base : ℤ) : ℤ × ℤ :=
  let cutoff := if neg then LONG_MIN else LONG_MAX
  let cutlim := cutoff.tmod base
  let cutoff := cutoff.tdiv base
  if neg then
    let (cutoff,cutlim) := if cutlim > 0 then (cutoff+1,cutlim-base) else (cutoff,cutlim)
    (cutoff,-cutlim)
  else (cutoff,cutlim)

def digit (c : ℤ) : Option ℤ :=
  if isdigit c then some (c-48)
  else if isalpha c then some (c-if isupper c then 55 else 87)
  else none

/-- `acc` and `any` behind the digit `c`. -/
def accumulate (neg : Bool) (base cutoff cutlim c acc any : ℤ) : Except Undefined (ℤ × ℤ) :=
  if any < 0 then pure (acc,any)
  else if neg then
    if acc < cutoff ∨ (acc = cutoff ∧ c > cutlim) then pure (LONG_MIN,-1)
    else do
      let acc ← long (acc*base)
      let acc ← long (acc-c)
      pure (acc,1)
  else
    if acc > cutoff ∨ (acc = cutoff ∧ c > cutlim) then pure (LONG_MAX,-1)
    else do
      let acc ← long (acc*base)
      let acc ← long (acc+c)
      pure (acc,1)

/-- The loop over the digits, at the character `c`; it ends with `acc`, `any` and `s`. -/
def readDigits (neg : Bool) (base cutoff cutlim : ℤ) : ℤ → ℤ → ℤ → List Byte →
    Except Undefined (ℤ × ℤ × List Byte)
  | c,acc,any,s =>
    match digit c with
    | none => pure (acc,any,s)
    | some d =>
      if d ≥ base then pure (acc,any,s)
      else do
        let (acc,any) ← accumulate neg base cutoff cutlim d acc any
        match s with
        | [] => .error .overrun
        | b :: s => readDigits neg base cutoff cutlim b.toNat acc any s

/-- The result, and the offset that is stored behind `endptr` if it is not null. -/
def strtol (nptr : List Byte) (base : ℤ) : Except Undefined (ℤ × ℕ) := do
  let (c,s) ← skipSpaces nptr
  let (neg,c,s) ← readSign c s
  let (base,c,s) ← readPrefix base c s
  let base := defaultBase base c
  let (cutoff,cutlim) := cuts neg base
  let (acc,any,s) ← readDigits neg base cutoff cutlim c 0 0 s
  pure (acc,if any ≠ 0 then nptr.length-s.length-1 else 0)

def digitValue (b : Byte) : Option ℕ :=
  if 48 ≤ b.toNat ∧ b.toNat ≤ 57 then some (b.toNat-48)
  else if 65 ≤ b.toNat ∧ b.toNat ≤ 90 then some (b.toNat-65+10)
  else if 97 ≤ b.toNat ∧ b.toNat ≤ 122 then some (b.toNat-97+10)
  else none

def isDigit (base : ℕ) (b : Byte) : Bool := (digitValue b).any (· < base)

def Digits (base : ℕ) (ds : List Byte) : Prop := ds ≠ [] ∧ ∀ b ∈ ds, isDigit base b = true

/-- The number with the digits `ds` behind those of `v`. -/
def valueFrom (base v : ℕ) (ds : List Byte) : ℕ :=
  ds.foldl (fun v b => v*base+(digitValue b).getD 0) v

def value (base : ℕ) (ds : List Byte) : ℕ := valueFrom base 0 ds

/-- Numerals without a sign. The base 0 stands for the base that the numeral begins with. -/
inductive Subject (base : ℕ) : List Byte → ℕ → Prop
  | digits {ds : List Byte} : base ≠ 0 → Digits base ds → Subject base ds (value base ds)
  | hexadecimal {x : Byte} {ds : List Byte} : base = 0 ∨ base = 16 →
      x = 120 ∨ x = 88 → Digits 16 ds → Subject base (48 :: x :: ds) (value 16 ds)
  | octal {ds : List Byte} : base = 0 → Digits 8 (48 :: ds) →
      Subject base (48 :: ds) (value 8 (48 :: ds))
  | decimal {b : Byte} {ds : List Byte} : base = 0 → b ≠ 48 → Digits 10 (b :: ds) →
      Subject base (b :: ds) (value 10 (b :: ds))

def whiteSpace : List Byte := [9,10,11,12,13,32]

inductive Numeral (base : ℕ) : List Byte → ℤ → Prop
  | space {b : Byte} {w : List Byte} {v : ℤ} : b ∈ whiteSpace → Numeral base w v →
      Numeral base (b :: w) v
  | plus {w : List Byte} {v : ℕ} : Subject base w v → Numeral base (43 :: w) v
  | minus {w : List Byte} {v : ℕ} : Subject base w v → Numeral base (45 :: w) (-v)
  | unsigned {w : List Byte} {v : ℕ} : Subject base w v → Numeral base w v

/-- The value of the longest prefix that has one, and zero if none has. -/
def Longest {α : Type} [Zero α] (P : List Byte → α → Prop) (text : List Byte) (v : α) : Prop :=
  (∃ w, P w v ∧ w <+: text ∧ ∀ w' v', P w' v' → w' <+: text → w'.length ≤ w.length) ∨
    (v = 0 ∧ ∀ w' v', P w' v' → ¬w' <+: text)

def saturate (v : ℤ) : ℤ := max LONG_MIN (min v LONG_MAX)

variable {base n v d : ℕ} {k : ℕ} {neg : Bool} {b x : Byte} {c acc any : ℤ}
    {s r ds w text after : List Byte}

/-- `c` is the character `b`, signed or not. -/
def IsChar (c : ℤ) (b : Byte) : Prop := c = b.toNat ∨ c = b.toInt

theorem IsChar.eq_iff (h : IsChar c b) (hk : k < 128) : c = k ↔ b = BitVec.ofNat 8 k := by
  have hb := BitVec.toInt_eq_toNat_cond b
  have hlt := b.isLt
  rw [← BitVec.toNat_inj,BitVec.toNat_ofNat]
  rcases h with rfl | rfl <;> omega

theorem isspace_iff : isspace b.toNat = true ↔ b ∈ whiteSpace := by
  revert b
  decide +kernel

theorem digit_toNat : ∀ b : Byte, digit b.toNat = (digitValue b).map Nat.cast := by decide +kernel

theorem digit_toInt : ∀ b : Byte, digit b.toInt = (digitValue b).map Nat.cast := by decide +kernel

theorem IsChar.digit_eq (h : IsChar c b) : digit c = (digitValue b).map Nat.cast := by
  rcases h with rfl | rfl
  · exact digit_toNat b
  · exact digit_toInt b

theorem isDigit_iff : isDigit base b = true ↔ ∃ n < base, digitValue b = some n := by
  simp [isDigit,Option.any_eq_true,and_comm]

theorem isDigit_zero : isDigit base 0 = false := rfl

theorem not_isDigit_of_ge (h : ∀ n, digitValue b = some n → base ≤ n) : isDigit base b = false := by
  rw [← Bool.not_eq_true,isDigit_iff]
  rintro ⟨n,hn,hb⟩
  exact absurd (h n hb) (by omega)

def At (c : ℤ) (s l : List Byte) : Prop := ∃ b, l = b :: s ∧ IsChar c b

def limit (neg : Bool) : ℕ := if neg then 0x80000000 else 0x7fffffff

def signed (neg : Bool) (v : ℕ) : ℤ := if neg then -v else v

theorem saturate_signed (neg : Bool) (v : ℕ) :
    saturate (signed neg v) = signed neg (min v (limit neg)) := by
  cases neg <;> simp only [saturate,signed,limit,LONG_MIN,LONG_MAX,Bool.false_eq_true,if_true,
    if_false] <;> omega

theorem limit_lt_iff {limit : ℕ} (hd : d < base) : limit < v*base+d ↔
    limit/base < v ∨ (v = limit/base ∧ limit%base < d) := by
  have hdiv := Nat.div_add_mod limit base
  have hmod := Nat.mod_lt limit (by omega : 0 < base)
  generalize limit/base = q at *
  generalize limit%base = m at *
  rw [Nat.mul_comm] at hdiv
  rcases lt_trichotomy v q with h | rfl | h
  · have hle : (v+1)*base ≤ q*base := Nat.mul_le_mul_right base h
    rw [Nat.add_mul,Nat.one_mul] at hle
    omega
  · omega
  · have hle : (q+1)*base ≤ v*base := Nat.mul_le_mul_right base h
    rw [Nat.add_mul,Nat.one_mul] at hle
    omega

theorem cuts_eq (neg : Bool) (base : ℕ) :
    cuts neg base = (signed neg (limit neg/base),((limit neg%base : ℕ) : ℤ)) := by
  cases neg with
  | false => rfl
  | true =>
    have hdiv : LONG_MIN.tdiv base = -((0x80000000/base : ℕ) : ℤ) := by
      rw [LONG_MIN,Int.neg_tdiv]
      rfl
    have hmod : LONG_MIN.tmod base = -((0x80000000%base : ℕ) : ℤ) := by
      rw [LONG_MIN,Int.neg_tmod]
      rfl
    have hneg : ¬(-((0x80000000%base : ℕ) : ℤ) > 0) := by omega
    simp only [cuts,if_true,hdiv,hmod,if_neg hneg,neg_neg]
    rfl

theorem long_eq {x : ℤ} (hmin : LONG_MIN ≤ x) (hmax : x ≤ LONG_MAX) : long x = .ok x :=
  if_pos ⟨hmin,hmax⟩

theorem long_long {x : ℤ} {f : ℤ → ℤ} (hx : LONG_MIN ≤ x ∧ x ≤ LONG_MAX)
    (hf : LONG_MIN ≤ f x ∧ f x ≤ LONG_MAX) :
    (do let acc ← long x; let acc ← long (f acc); pure (acc,(1 : ℤ))) = .ok (f x,1) := by
  rw [long_eq hx.1 hx.2]
  change long (f x) >>= _ = _
  rw [long_eq hf.1 hf.2]
  rfl

/-- `acc` and `any` behind digits with the value `v`. -/
def Accumulated (neg : Bool) (v : ℕ) (acc any : ℤ) : Prop :=
  acc = signed neg (min v (limit neg)) ∧ (any < 0 ↔ limit neg < v)

theorem accumulate_spec (hbase : 0 < base) (hd : d < base) (h : Accumulated neg v acc any) :
    ∃ acc' any', accumulate neg base (cuts neg base).1 (cuts neg base).2 d acc any =
    .ok (acc',any') ∧ Accumulated neg (v*base+d) acc' any' := by
  obtain ⟨rfl,hany⟩ := h
  have hv : v ≤ v*base := Nat.le_mul_of_pos_right v hbase
  have hmul : (v : ℤ)*base = ((v*base : ℕ) : ℤ) := (Nat.cast_mul v base).symm
  have hiff := @limit_lt_iff base v d (limit neg) hd
  rw [cuts_eq]
  generalize limit neg/base = q at *
  generalize limit neg%base = r at *
  by_cases hover : limit neg < v
  · refine ⟨_,any,if_pos (hany.mpr hover),?_,by omega⟩
    rw [Nat.min_eq_right hover.le,Nat.min_eq_right (by omega)]
  · rw [Nat.min_eq_left (by omega),accumulate,if_neg (by omega)]
    by_cases hfits : limit neg < v*base+d
    · -- the digit does not fit, and the accumulator stays at the limit
      refine ⟨signed neg (limit neg),-1,?_,by rw [Nat.min_eq_right hfits.le],by omega⟩
      cases neg with
      | false =>
        simp only [signed,Bool.false_eq_true,if_false] at *
        rw [if_pos (by omega)]
        rfl
      | true =>
        simp only [signed,if_true] at *
        rw [if_pos (by omega)]
        rfl
    · refine ⟨signed neg (v*base+d),1,?_,by rw [Nat.min_eq_left (by omega)],by omega⟩
      cases neg with
      | false =>
        simp only [signed,limit,LONG_MIN,LONG_MAX,Bool.false_eq_true,if_false] at *
        rw [if_neg (by omega),hmul]
        exact @long_long _ (·+(d : ℤ)) ⟨by
          simp only [LONG_MIN]; omega,by simp only [LONG_MAX]; omega⟩
          ⟨by simp only [LONG_MIN]; omega,by simp only [LONG_MAX]; omega⟩
      | true =>
        simp only [signed,limit,if_true] at *
        rw [if_neg (by omega),neg_mul,hmul,Nat.cast_add,neg_add]
        exact @long_long _ (·-(d : ℤ)) ⟨by
          simp only [LONG_MIN]; omega,by simp only [LONG_MAX]; omega⟩
          ⟨by simp only [LONG_MIN]; omega,by simp only [LONG_MAX]; omega⟩

theorem readDigits_stop {cutoff cutlim : ℤ} (h : IsChar c b) (hb : isDigit base b = false) :
    readDigits neg base cutoff cutlim c acc any s = .ok (acc,any,s) := by
  rw [readDigits.eq_def]
  cases hd : digitValue b with
  | none =>
    simp only [h.digit_eq,hd,Option.map_none]
    rfl
  | some n =>
    have hle : (n : ℤ) ≥ base := by
      by_contra hlt
      rw [isDigit_iff.mpr ⟨n,by omega,hd⟩] at hb
      cases hb
    simp only [h.digit_eq,hd,Option.map_some,if_pos hle]
    rfl

theorem readDigits_digit {cutoff cutlim acc' any' : ℤ} (h : IsChar c b)
    (hb : digitValue b = some d) (hd : d < base)
    (hacc : accumulate neg base cutoff cutlim d acc any = .ok (acc',any')) :
    readDigits neg base cutoff cutlim c acc any (x :: s) =
        readDigits neg base cutoff cutlim x.toNat acc' any' s := by
  have hlt : ¬(d : ℤ) ≥ base := by omega
  rw [readDigits.eq_def]
  simp only [h.digit_eq,hb,Option.map_some,if_neg hlt,hacc]
  rfl

theorem readDigits_spec (hbase : 0 < base) (r : List Byte) :
    ∀ {c acc any : ℤ} {s : List Byte} {v : ℕ}, At c s (r++0 :: after) → Accumulated neg v acc any →
      ∃ any' s', readDigits neg base (cuts neg base).1 (cuts neg base).2 c acc any s =
        .ok (saturate (signed neg (valueFrom base v (r.takeWhile (isDigit base)))),any',s') := by
  induction r with
  | nil =>
    rintro c acc any s v ⟨b,hl,hc⟩ ⟨rfl,-⟩
    cases hl
    refine ⟨any,after,(readDigits_stop hc isDigit_zero).trans ?_⟩
    rw [saturate_signed]
    rfl
  | cons a r ih =>
    rintro c acc any s v ⟨b,hl,hc⟩ hacc
    cases hl
    cases ha : isDigit base a with
    | false =>
      obtain ⟨rfl,-⟩ := hacc
      refine ⟨any,r++0 :: after,(readDigits_stop hc ha).trans ?_⟩
      rw [List.takeWhile_cons_of_neg (by simp [ha]),saturate_signed]
      rfl
    | true =>
      obtain ⟨d,hd,hdigit⟩ := isDigit_iff.mp ha
      obtain ⟨acc',any',hturn,hacc'⟩ := accumulate_spec hbase hd hacc
      obtain ⟨x,s',hs⟩ : ∃ x s', r++0 :: after = x :: s' := List.exists_cons_of_ne_nil (by simp)
      obtain ⟨any'',s'',hrest⟩ := ih ⟨x,hs,.inl rfl⟩ hacc'
      refine ⟨any'',s'',?_⟩
      rw [List.append_eq,hs,readDigits_digit hc hdigit hd hturn,hrest,List.takeWhile_cons_of_pos ha]
      simp [valueFrom,hdigit]

section
variable {α β : Type} [Zero α] [Zero β] {P : List Byte → α → Prop} {Q : List Byte → β → Prop}

theorem Longest.map {f : α → β} {v : α} (hl : Longest P text v) (hzero : f 0 = 0)
    (hto : ∀ w v, w <+: text → P w v → Q w (f v))
    (hof : ∀ w v', w <+: text → Q w v' → ∃ v, P w v) : Longest Q text (f v) := by
  rcases hl with ⟨w,hw,hfront,hmax⟩ | ⟨rfl,hnone⟩
  · refine .inl ⟨w,hto w v hfront hw,hfront,fun w' v' hw' hp => ?_⟩
    obtain ⟨v,hv⟩ := hof w' v' hp hw'
    exact hmax w' v hv hp
  · refine .inr ⟨hzero,fun w' v' hw' hp => ?_⟩
    obtain ⟨v,hv⟩ := hof w' v' hp hw'
    exact hnone w' v hv hp

theorem Longest.congr {P' : List Byte → α → Prop} {v : α} (hl : Longest P text v)
    (h : ∀ w v, w <+: text → (P' w v ↔ P w v)) : Longest P' text v :=
  hl.map (f:=id) rfl (fun w v hp => (h w v hp).mpr) fun w v hp hw => ⟨v,(h w v hp).mp hw⟩

theorem Longest.cons {f : α → β} {v : α} (hl : Longest P text v) (hzero : f 0 = 0)
    (hcons : ∀ w v, P w v → Q (b :: w) (f v))
    (hinv : ∀ w v, Q w v → w <+: b :: text → ∃ w' v', w = b :: w' ∧ P w' v') : Longest Q
    (b :: text) (f v) := by
  rcases hl with ⟨w,hw,hfront,hmax⟩ | ⟨rfl,hnone⟩
  · refine .inl ⟨b :: w,hcons w v hw,List.prefix_cons_iff.mpr (.inr ⟨w,rfl,hfront⟩),
      fun w' v' hw' hp => ?_⟩
    obtain ⟨u,v,rfl,hu⟩ := hinv w' v' hw' hp
    exact Nat.succ_le_succ (hmax u v hu (List.cons_prefix_cons.mp hp).2)
  · refine .inr ⟨hzero,fun w' v' hw' hp => ?_⟩
    obtain ⟨u,v,rfl,hu⟩ := hinv w' v' hw' hp
    exact hnone u v hu (List.cons_prefix_cons.mp hp).2

end

theorem Digits.prefix_takeWhile (h : Digits base w) (hp : w <+: r) :
    w <+: r.takeWhile (isDigit base) := by
  obtain ⟨t,rfl⟩ := hp
  rw [List.takeWhile_append_of_pos h.2]
  exact List.prefix_append w _

theorem digits_takeWhile (h : r.takeWhile (isDigit base) ≠ []) :
    Digits base (r.takeWhile (isDigit base)) :=
  ⟨h,fun _ hb => List.mem_takeWhile_imp hb⟩

theorem longest_digits (base : ℕ) (r : List Byte) :
    Longest (fun w v => Digits base w ∧
      v = value base w) r (value base (r.takeWhile (isDigit base))) := by
  by_cases h : r.takeWhile (isDigit base) = []
  · refine .inr ⟨by rw [h]; rfl,fun w' v' hw' hp => hw'.1.1 ?_⟩
    exact List.prefix_nil.mp (h ▸ hw'.1.prefix_takeWhile hp)
  · exact .inl ⟨_,⟨digits_takeWhile h,rfl⟩,List.takeWhile_prefix _,fun w' v' hw' hp =>
      (hw'.1.prefix_takeWhile hp).length_le⟩

def HasPrefix (base : ℕ) (r : List Byte) : Prop :=
  (base = 0 ∨ base = 16) ∧ ∃ x r', r = 48 :: x :: r' ∧ (x = 120 ∨ x = 88)

theorem subject_iff (hbase : base ≠ 0) (hnot : ¬HasPrefix base r) (hp : w <+: r) :
    Subject base w v ↔ Digits base w ∧ v = value base w := by
  constructor
  · rintro (⟨-,hds⟩ | ⟨hbase',hx,-⟩ | ⟨h0,-⟩ | ⟨h0,-⟩)
    · exact ⟨hds,rfl⟩
    · obtain ⟨t,rfl⟩ := hp
      exact absurd ⟨hbase',_,_,rfl,hx⟩ hnot
    · exact absurd h0 hbase
    · exact absurd h0 hbase
  · rintro ⟨hds,rfl⟩
    exact .digits hbase hds

theorem subject_octal_iff (hnot : ¬HasPrefix 0 (48 :: r)) (hp : w <+: 48 :: r) : Subject 0 w v ↔
    Digits 8 w ∧ v = value 8 w := by
  constructor
  · rintro (⟨h0,-⟩ | ⟨hbase,hx,-⟩ | ⟨-,hds⟩ | ⟨-,hb,-⟩)
    · exact absurd rfl h0
    · obtain ⟨t,ht⟩ := hp
      rw [← ht] at hnot
      exact absurd ⟨hbase,_,_,rfl,hx⟩ hnot
    · exact ⟨hds,rfl⟩
    · exact absurd (List.cons_prefix_cons.mp hp).1 hb
  · rintro ⟨hds,rfl⟩
    obtain ⟨b,w,rfl⟩ := List.exists_cons_of_ne_nil hds.1
    obtain rfl := (List.cons_prefix_cons.mp hp).1
    exact .octal rfl hds

theorem subject_decimal_iff (hr : ∀ r', r ≠ 48 :: r') (hp : w <+: r) : Subject 0 w v ↔
    Digits 10 w ∧ v = value 10 w := by
  have h48 : ∀ w', w ≠ 48 :: w' := by
    rintro w' rfl
    obtain ⟨t,rfl⟩ := hp
    exact hr _ rfl
  constructor
  · rintro (⟨h0,-⟩ | ⟨-,-,-⟩ | ⟨-,-⟩ | ⟨-,-,hds⟩)
    · exact absurd rfl h0
    · exact absurd rfl (h48 _)
    · exact absurd rfl (h48 _)
    · exact ⟨hds,rfl⟩
  · rintro ⟨hds,rfl⟩
    obtain ⟨b,w,rfl⟩ := List.exists_cons_of_ne_nil hds.1
    exact .decimal rfl (fun hb => h48 w (hb ▸ rfl)) hds

theorem not_isDigit_x (hx : x = 120 ∨ x = 88) (hbase : base ≤ 16) : isDigit base x = false := by
  have hvalue : ∃ n, 16 ≤ n ∧ digitValue x = some n := by
    rcases hx with rfl | rfl
    · exact ⟨33,by omega,rfl⟩
    · exact ⟨33,by omega,rfl⟩
  obtain ⟨n,hn,hvalue⟩ := hvalue
  refine not_isDigit_of_ge fun k hk => ?_
  rw [hvalue,Option.some.injEq] at hk
  omega

/-- Behind `0x` there are hexadecimal digits, or the zero stands alone. -/
theorem subject_prefix (hx : x = 120 ∨ x = 88) (h : Subject base w v)
    (hbase : base = 0 ∨ base = 16) (hp : w <+: 48 :: x :: r) :
    w.length ≤ 1 ∨ ∃ ds, w = 48 :: x :: ds ∧ Digits 16 ds := by
  have hshort {n : ℕ} {w : List Byte} (hn : n ≤ 16) (hw : Digits n w) (hp : w <+: 48 :: x :: r) :
      w.length ≤ 1 := by
    by_contra hlen
    obtain ⟨b,w,rfl⟩ := List.exists_cons_of_ne_nil hw.1
    have hne : w ≠ [] := fun h => hlen (by simp [h])
    obtain ⟨c,w,rfl⟩ := List.exists_cons_of_ne_nil hne
    obtain rfl := (List.cons_prefix_cons.mp (List.cons_prefix_cons.mp hp).2).1
    have hc := hw.2 c (by simp)
    rw [not_isDigit_x hx hn] at hc
    cases hc
  rcases h with ⟨-,hds⟩ | ⟨-,-,hds⟩ | ⟨-,hds⟩ | ⟨-,-,hds⟩
  · exact .inl (hshort (by omega) hds hp)
  · obtain rfl := (List.cons_prefix_cons.mp (List.cons_prefix_cons.mp hp).2).1
    exact .inr ⟨_,rfl,hds⟩
  · exact .inl (hshort (by omega) hds hp)
  · exact .inl (hshort (by omega) hds hp)

theorem longest_hexadecimal (hbase : base = 0 ∨ base = 16) (hx : x = 120 ∨ x = 88) :
    Longest (Subject base) (48 :: x :: r) (value 16 (r.takeWhile (isDigit 16))) := by
  by_cases hds : r.takeWhile (isDigit 16) = []
  · have hzero : Subject base [48] 0 := by
      rcases hbase with rfl | rfl
      · exact .octal rfl ⟨by simp,by simp [isDigit,digitValue]⟩
      · exact .digits (by simp) ⟨by simp,by simp [isDigit,digitValue]⟩
    refine .inl ⟨[48],by rw [hds]; exact hzero,⟨x :: r,rfl⟩,fun w v hw hp => ?_⟩
    rcases subject_prefix hx hw hbase hp with h | ⟨ds,rfl,h⟩
    · exact h
    · have hnil := h.prefix_takeWhile (List.cons_prefix_cons.mp (List.cons_prefix_cons.mp hp).2).2
      exact absurd (List.prefix_nil.mp (hds ▸ hnil)) h.1
  · refine .inl ⟨_,.hexadecimal hbase hx (digits_takeWhile hds),?_,fun w v hw hp => ?_⟩
    · simp only [List.cons_prefix_cons,true_and]
      exact List.takeWhile_prefix _
    · rcases subject_prefix hx hw hbase hp with h | ⟨ds,rfl,h⟩
      · exact h.trans (by simp)
      · have hle :=
          (h.prefix_takeWhile
            (List.cons_prefix_cons.mp (List.cons_prefix_cons.mp hp).2).2).length_le
        simpa using hle

theorem At.head {a : Byte} (h : At c s (a :: r)) : IsChar c a ∧ s = r := by
  obtain ⟨b,hl,hb⟩ := h
  cases hl
  exact ⟨hb,rfl⟩

theorem readPrefix_none (hnot : ¬HasPrefix base r) (hat : At c s (r++0 :: after)) :
    readPrefix base c s = .ok ((base : ℤ),c,s) := by
  by_cases h : ((base : ℤ) = 0 ∨ (base : ℤ) = 16) ∧ c = 48
  · rw [readPrefix,if_pos h]
    cases r with
    | nil => exact absurd ((hat.head.1.eq_iff (k:=48) (by omega)).mp h.2) (by decide)
    | cons a r =>
      obtain ⟨ha,rfl⟩ := hat.head
      obtain rfl := (ha.eq_iff (k:=48) (by omega)).mp h.2
      have hbase : base = 0 ∨ base = 16 := by omega
      cases r with
      | nil => rfl
      | cons x r =>
        have hx : ¬(x = 120 ∨ x = 88) := fun hx => hnot ⟨hbase,x,r,rfl,hx⟩
        change (if x = 120 ∨ x = 88 then _ else _) = _
        rw [if_neg hx]
        rfl
  · exact if_neg h

theorem readPrefix_spec (hat : At c s (r++0 :: after)) :
    ∃ (base₁ c' : ℤ) (s' : List Byte) (base₂ : ℕ) (r' : List Byte),
    readPrefix base c s = .ok (base₁,c',s') ∧
      defaultBase base₁ c' = base₂ ∧ 0 < base₂ ∧ At c' s' (r'++0 :: after) ∧
      Longest (Subject base) r (value base₂ (r'.takeWhile (isDigit base₂))) := by
  by_cases hfront : HasPrefix base r
  · obtain ⟨hbase,x,r',rfl,hx⟩ := hfront
    obtain ⟨hb,rfl⟩ := hat.head
    obtain ⟨y,s',hs⟩ : ∃ y s', r'++0 :: after = y :: s' := List.exists_cons_of_ne_nil (by simp)
    refine ⟨16,y.toInt,s',16,r',?_,rfl,by omega,⟨y,hs,.inr rfl⟩,longest_hexadecimal hbase hx⟩
    have hc : c = 48 := (hb.eq_iff (k:=48) (by omega)).mpr rfl
    rw [readPrefix,if_pos ⟨by omega,hc⟩]
    change (if x = 120 ∨ x = 88 then next (r'++0 :: after) >>= fun p =>
      pure (16,p.1.toInt,p.2) else _) = _
    rw [if_pos hx,hs]
    rfl
  · have hread := readPrefix_none hfront hat
    by_cases hbase : base = 0
    · subst hbase
      by_cases hr : ∃ r', r = 48 :: r'
      · obtain ⟨r',rfl⟩ := hr
        have hc : c = 48 := (hat.head.1.eq_iff (k:=48) (by omega)).mpr rfl
        exact ⟨_,c,s,8,_,hread,by rw [hc]; rfl,by omega,hat,
          (longest_digits 8 _).congr fun w v hp => subject_octal_iff hfront hp⟩
      · have hc : c ≠ 48 := by
          intro hc
          cases r with
          | nil => exact absurd ((hat.head.1.eq_iff (k:=48) (by omega)).mp hc) (by decide)
          | cons a r =>
            obtain rfl := (hat.head.1.eq_iff (k:=48) (by omega)).mp hc
            exact hr ⟨r,rfl⟩
        exact ⟨_,c,s,10,_,hread,if_neg hc,by omega,hat,
          (longest_digits 10 _).congr fun w v hp => subject_decimal_iff (fun r' h => hr ⟨r',h⟩) hp⟩
    · exact ⟨_,c,s,base,_,hread,if_neg (by omega),by omega,hat,
        (longest_digits base _).congr fun w v hp => subject_iff hbase hfront hp⟩

theorem Subject.head (h : Subject base w v) :
    ∃ b w', w = b :: w' ∧ (digitValue b).isSome = true := by
  have hdigits {n : ℕ} {w : List Byte} (hw : Digits n w) :
      ∃ b w', w = b :: w' ∧ (digitValue b).isSome = true := by
    obtain ⟨b,w,rfl⟩ := List.exists_cons_of_ne_nil hw.1
    obtain ⟨n,-,hn⟩ := isDigit_iff.mp (hw.2 b List.mem_cons_self)
    exact ⟨b,w,rfl,by rw [hn]; rfl⟩
  rcases h with ⟨-,hds⟩ | ⟨-,-,-⟩ | ⟨-,hds⟩ | ⟨-,-,hds⟩
  · exact hdigits hds
  · exact ⟨48,_,rfl,rfl⟩
  · exact hdigits hds
  · exact hdigits hds

/-- A byte that is no digit is not the first one of a numeral without a sign. -/
theorem Subject.not_prefix (h : Subject base w v) (hb : digitValue b = none) : ¬w <+: b :: r := by
  obtain ⟨a,w,rfl,ha⟩ := h.head
  intro hp
  obtain rfl := (List.cons_prefix_cons.mp hp).1
  rw [hb] at ha
  cases ha

theorem signed_zero (neg : Bool) : signed neg 0 = 0 := by cases neg <;> rfl

theorem longest_sign {neg : Bool} (hb : b ∉ whiteSpace) (hnone : digitValue b = none)
    (hsign : ∀ w v, Numeral base (b :: w) v ↔ ∃ n, Subject base w n ∧ v = signed neg n)
    (hl : Longest (Subject base) r v) :
    Longest (Numeral base) (b :: r) (signed neg v) := by
  refine hl.cons (signed_zero neg) (fun w v hw => (hsign w _).mpr ⟨v,hw,rfl⟩) fun w v hw hp => ?_
  cases w with
  | nil =>
    obtain ⟨a,w,h,-⟩ : ∃ a w, [] = a :: w ∧ (digitValue a).isSome = true := by
      cases hw with
      | unsigned hw => exact hw.head
    cases h
  | cons a w =>
    obtain rfl := (List.cons_prefix_cons.mp hp).1
    obtain ⟨n,hn,-⟩ := (hsign w v).mp hw
    exact ⟨w,n,rfl,hn⟩

theorem numeral_minus_iff {v : ℤ} : Numeral base (45 :: w) v ↔
    ∃ n, Subject base w n ∧ v = signed true n := by
  constructor
  · rintro (⟨hb,-⟩ | - | hw | hw)
    · exact absurd hb (by decide)
    · exact ⟨_,hw,rfl⟩
    · exact absurd (List.prefix_refl _) (hw.not_prefix rfl)
  · rintro ⟨n,hn,rfl⟩
    exact .minus hn

theorem numeral_plus_iff {v : ℤ} : Numeral base (43 :: w) v ↔
    ∃ n, Subject base w n ∧ v = signed false n := by
  constructor
  · rintro (⟨hb,-⟩ | hw | - | hw)
    · exact absurd hb (by decide)
    · exact ⟨_,hw,rfl⟩
    · exact absurd (List.prefix_refl _) (hw.not_prefix rfl)
  · rintro ⟨n,hn,rfl⟩
    exact .plus hn

theorem longest_unsigned (hspace : ∀ b r', r = b :: r' → b ∉ whiteSpace ∧ b ≠ 43 ∧ b ≠ 45)
    (hl : Longest (Subject base) r v) :
    Longest (Numeral base) r (signed false v) := by
  have hfirst (b : Byte) (w : List Byte) (hp : b :: w <+: r) :
      b ∉ whiteSpace ∧ b ≠ 43 ∧ b ≠ 45 := by
    obtain ⟨t,rfl⟩ := hp
    exact hspace b _ rfl
  refine hl.map rfl (fun w v _ hw => .unsigned hw) fun w v hp hw => ?_
  rcases hw with ⟨hb,-⟩ | - | - | hw
  · exact absurd hb (hfirst _ _ hp).1
  · exact absurd rfl (hfirst _ _ hp).2.1
  · exact absurd rfl (hfirst _ _ hp).2.2
  · exact ⟨_,hw⟩

theorem readSign_spec (hat : At c s (r++0 :: after))
    (hspace : ∀ b r', r = b :: r' → b ∉ whiteSpace) :
    ∃ neg c' s' r', readSign c s = .ok (neg,c',s') ∧ At c' s' (r'++0 :: after) ∧
      ∀ v, Longest (Subject base) r' v → Longest (Numeral base) r (signed neg v) := by
  have hnext (r' : List Byte) : ∃ y s', r'++0 :: after = y :: s' :=
    List.exists_cons_of_ne_nil (by simp)
  cases r with
  | nil =>
    have h45 : c ≠ 45 := fun h => absurd ((hat.head.1.eq_iff (k:=45) (by omega)).mp h) (by decide)
    have h43 : c ≠ 43 := fun h => absurd ((hat.head.1.eq_iff (k:=43) (by omega)).mp h) (by decide)
    refine ⟨false,c,s,[],?_,hat,fun v => longest_unsigned (fun b r' h => by cases h)⟩
    rw [readSign,if_neg h45,if_neg h43]
    rfl
  | cons b r =>
    obtain ⟨hb,rfl⟩ := hat.head
    obtain ⟨y,s',hs⟩ := hnext r
    by_cases h45 : c = 45
    · obtain rfl := (hb.eq_iff (k:=45) (by omega)).mp h45
      refine ⟨true,y.toInt,s',r,?_,⟨y,hs,.inr rfl⟩,fun v => longest_sign (by decide) rfl fun w v =>
        numeral_minus_iff⟩
      rw [readSign,if_pos h45,List.append_eq,hs]
      rfl
    · by_cases h43 : c = 43
      · obtain rfl := (hb.eq_iff (k:=43) (by omega)).mp h43
        refine ⟨false,y.toInt,s',r,?_,⟨y,hs,.inr rfl⟩,fun v =>
          longest_sign (by decide) rfl fun w v => numeral_plus_iff⟩
        rw [readSign,if_neg h45,if_pos h43,List.append_eq,hs]
        rfl
      · refine ⟨false,c,_,b :: r,?_,hat,fun v => longest_unsigned fun a r' h => ?_⟩
        · rw [readSign,if_neg h45,if_neg h43]
          rfl
        · cases h
          exact ⟨hspace b r rfl,fun h => h43 ((hb.eq_iff (k:=43) (by omega)).mpr h),
            fun h => h45 ((hb.eq_iff (k:=45) (by omega)).mpr h)⟩

theorem skipSpaces_spec (base : ℕ) (text : List Byte) :
    ∃ c s r, skipSpaces (text++0 :: after) = .ok (c,s) ∧ At c s (r++0 :: after) ∧
    (∀ b r', r = b :: r' → b ∉ whiteSpace) ∧
      ∀ v, Longest (Numeral base) r v → Longest (Numeral base) text v := by
  induction text with
  | nil => exact ⟨_,after,[],rfl,⟨0,rfl,.inl rfl⟩,(fun b r' h => by cases h),fun v hl => hl⟩
  | cons b text ih =>
    by_cases hb : b ∈ whiteSpace
    · obtain ⟨c,s,r,hskip,hat,hspace,hlongest⟩ := ih
      refine ⟨c,s,r,(if_pos (isspace_iff.mpr hb)).trans hskip,hat,hspace,fun v hl => ?_⟩
      have hnone : digitValue b = none := by
        revert b
        decide +kernel
      refine (hlongest v hl).cons (f:=id) rfl (fun w v => .space hb) fun w v hw hp => ?_
      rcases hw with ⟨-,hw⟩ | - | - | hw
      · obtain rfl := (List.cons_prefix_cons.mp hp).1
        exact ⟨_,_,rfl,hw⟩
      · obtain rfl := (List.cons_prefix_cons.mp hp).1
        exact absurd hb (by decide)
      · obtain rfl := (List.cons_prefix_cons.mp hp).1
        exact absurd hb (by decide)
      · exact absurd hp (hw.not_prefix hnone)
    · refine ⟨_,_,b :: text,if_neg (by rwa [isspace_iff]),⟨b,rfl,.inl rfl⟩,
        fun a r' h => ?_,fun v hl => hl⟩
      cases h
      exact hb

theorem ok_bind {α β : Type} (a : α) (f : α → Except Undefined β) :
    ((Except.ok a : Except Undefined α) >>= f) = f a := rfl

/-- The longest numeral at the beginning of a text, saturated; no `long` overflows on the way, and
nothing behind the end of the text is read. -/
theorem strtol_longest (base : ℕ) (text after : List Byte) :
    ∃ v e, strtol (text++0 :: after) base = .ok (saturate v,e) ∧ Longest (Numeral base) text v := by
  obtain ⟨c,s,r,hskip,hat,hspace,hlongest⟩ := @skipSpaces_spec after base text
  obtain ⟨neg,c₁,s₁,r₁,hsign,hat₁,hlongest₁⟩ := @readSign_spec base c s r after hat hspace
  obtain ⟨base₁,c₂,s₂,base₂,r₂,hfront,hdefault,hpos,hat₂,hlongest₂⟩ :=
    @readPrefix_spec base c₁ s₁ r₁ after hat₁
  have hacc : Accumulated neg 0 0 0 := ⟨by simp [signed_zero],by simp⟩
  obtain ⟨any,s₃,hdigits⟩ := readDigits_spec hpos r₂ hat₂ hacc
  refine ⟨signed neg (value base₂ (r₂.takeWhile (isDigit base₂))),
    if any ≠ 0 then (text++0 :: after).length-s₃.length-1
    else 0,?_,hlongest _ (hlongest₁ _ hlongest₂)⟩
  rcases hcuts : cuts neg base₂ with ⟨cutoff,cutlim⟩
  rw [hcuts] at hdigits
  simp only [strtol,hskip,ok_bind,hsign,hfront,hdefault,hcuts,hdigits]
  rfl

example : strtol [32,45,48,120,55,102,103,0] 0 = .ok (-127,6) := by decide

end Strtol
end ScalesOS
