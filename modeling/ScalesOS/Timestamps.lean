import Mathlib.Data.BitVec
import ScalesOS.Machine

/-!
# Timestamps of the kernel

`kernel/src/dev/timer.c` turns a date of the clock into seconds since 1970. Its sums over years
and months are compared with the closed form of the Gregorian calendar.
-/

namespace ScalesOS
namespace Timestamps

structure RtcTime where
  hour : BitVec 8
  minute : BitVec 8
  second : BitVec 8
  day : BitVec 8
  month : BitVec 8
  year : BitVec 16

def IS_LEAP (year : ℕ) : Bool := year%4 == 0 && (year%100 != 0 || year%400 == 0)

def days_in_month : List ℕ := [31,28,31,30,31,30,31,31,30,31,30,31]

def addMonth (year : ℕ) (days : BitVec 64) (i : ℕ) : Result (BitVec 64) :=
  match days_in_month[i-1]? with
  | none => .error (.panic "days_in_month")
  | some d => pure (if i == 2 && IS_LEAP year then days+BitVec.ofNat 64 d+1
      else days+BitVec.ofNat 64 d)

def monthToTimestamp (month : ℤ) (year : ℕ) : Result (BitVec 64) := do
  let days ← (List.range' 1 month.toNat).foldlM (addMonth year) 0
  pure (days*86400)

def yearToTimestamp (year : ℕ) : BitVec 64 :=
  (List.range' 1970 (year-1970)).foldl (fun days i => if IS_LEAP i then days+366
    else days+365) 0*86400

def toTimestamp (t : RtcTime) : Result (BitVec 64) := do
  let ls := t.second.setWidth 64
  let lm := t.minute.setWidth 64
  let lh := t.hour.setWidth 64
  let ld := BitVec.ofInt 64 (t.day.toNat-1)
  let r := ls+lm*60+lh*3600+ld*86400
  let months ← monthToTimestamp (t.month.toNat-1) t.year.toNat
  pure (r+months+yearToTimestamp t.year.toNat)

def Leap (year : ℕ) : Prop := 4 ∣ year ∧ (¬ 100 ∣ year ∨ 400 ∣ year)

instance (year : ℕ) : Decidable (Leap year) := by
  unfold Leap
  infer_instance

def monthLength (year month : ℕ) : ℕ :=
  if month = 2 then (if Leap year then 29 else 28) else if month ∈ [4,6,9,11] then 30 else 31

/-- A date of the Gregorian calendar from 1970 on, with a time of day. -/
structure RtcTime.Valid (t : RtcTime) : Prop where
  year : 1970 ≤ t.year.toNat
  month : 1 ≤ t.month.toNat ∧ t.month.toNat ≤ 12
  day : 1 ≤ t.day.toNat ∧ t.day.toNat ≤ monthLength t.year.toNat t.month.toNat
  hour : t.hour.toNat < 24
  minute : t.minute.toNat < 60
  second : t.second.toNat < 60

/-- Year, month, day, hour, minute and second, in lexicographic order. -/
def RtcTime.fields (t : RtcTime) : List ℕ :=
  [t.year.toNat,t.month.toNat,t.day.toNat,t.hour.toNat,t.minute.toNat,t.second.toNat]

/-- The leap years up to `year`. -/
def leaps (year : ℕ) : ℕ := year/4+year/400-year/100

def daysBeforeYear (year : ℕ) : ℕ := 365*(year-1970)+(leaps (year-1)-leaps 1969)

def daysBeforeMonth (year month : ℕ) : ℕ :=
  (367*month-362)/12-(if month ≤ 2 then 0 else if Leap year then 1 else 2)

def days (year month day : ℕ) : ℕ := daysBeforeYear year+daysBeforeMonth year month+(day-1)

def seconds (t : RtcTime) : ℕ :=
  86400*days t.year.toNat t.month.toNat
    t.day.toNat+(3600*t.hour.toNat+(60*t.minute.toNat+t.second.toNat))

section
variable {year month day n : ℕ} {t u : RtcTime}

theorem isLeap_iff : IS_LEAP year = true ↔ Leap year := by
  simp [IS_LEAP,Leap,Nat.dvd_iff_mod_eq_zero]

theorem leaps_succ : leaps (year+1) = leaps year+if Leap (year+1) then 1 else 0 := by
  by_cases h : Leap (year+1)
  · simp only [leaps,if_pos h]
    rw [Leap] at h
    omega
  · simp only [leaps,if_neg h]
    rw [Leap] at h
    omega

theorem daysBeforeYear_succ (h : 1970 ≤ year) :
    daysBeforeYear (year+1) = daysBeforeYear year+if Leap year then 366 else 365 := by
  obtain ⟨year,rfl⟩ : ∃ n, year = n+1 := ⟨year-1,by omega⟩
  have hleaps : leaps 1969 ≤ leaps year := by
    simp only [leaps]
    omega
  have hsucc := @leaps_succ year
  simp only [daysBeforeYear,Nat.add_sub_cancel]
  split at hsucc <;> simp [*] <;> omega

theorem daysBeforeMonth_succ (hlow : 1 ≤ month) (hhigh : month ≤ 12) :
    daysBeforeMonth year (month+1) = daysBeforeMonth year month+monthLength year month := by
  interval_cases month <;> simp [daysBeforeMonth,monthLength] <;> split <;> rfl

theorem daysBeforeMonth_end : daysBeforeMonth year 13 = if Leap year then 366 else 365 := by
  by_cases h : Leap year <;> simp [daysBeforeMonth,h]

theorem yearToTimestamp_eq (h : 1970 ≤ year) :
    yearToTimestamp year = BitVec.ofNat 64 (daysBeforeYear year*86400) := by
  obtain ⟨n,rfl⟩ := Nat.exists_eq_add_of_le h
  have hdays :
    (List.range' 1970 n).foldl (fun days i => if IS_LEAP i then days+366 else days+365) 0 =
      BitVec.ofNat 64 (daysBeforeYear (1970+n)) := by
    induction n with
    | zero => rfl
    | succ n ih =>
      rw [List.range'_1_concat,List.foldl_append,ih (by omega),← Nat.add_assoc,
        daysBeforeYear_succ (by omega)]
      by_cases hleap : Leap (1970+n) <;> simp [isLeap_iff,hleap,BitVec.ofNat_add]
  rw [yearToTimestamp,Nat.add_sub_cancel_left,hdays,BitVec.ofNat_mul]
  rfl

theorem addMonth_eq (n : ℕ) (hlow : 1 ≤ month) (hhigh : month ≤ 12) :
    addMonth year (BitVec.ofNat 64 n) month = .ok (BitVec.ofNat 64 (n+monthLength year month)) := by
  have hleap : IS_LEAP year = decide (Leap year) := by
    rw [Bool.eq_iff_iff,isLeap_iff,decide_eq_true_iff]
  by_cases h : Leap year <;> interval_cases month <;>
    simp [addMonth,hleap,h,monthLength,days_in_month,BitVec.ofNat_add,BitVec.add_assoc,
      pure,Except.pure]

theorem monthToTimestamp_eq (year : ℕ) (hlow : 1 ≤ month) (hhigh : month ≤ 12) :
    monthToTimestamp (month-1) year = .ok (BitVec.ofNat 64 (daysBeforeMonth year month*86400)) := by
  obtain ⟨n,rfl⟩ : ∃ n, month = n+1 := ⟨month-1,by omega⟩
  have hdays :
      (List.range' 1 n).foldlM (addMonth year) 0 =
      .ok (BitVec.ofNat 64 (daysBeforeMonth year (n+1))) := by
    clear hlow
    induction n with
    | zero => rfl
    | succ n ih =>
      have hsucc := @daysBeforeMonth_succ year (n+1) (Nat.le_add_left 1 n) (by omega)
      rw [List.range'_1_concat,List.foldlM_append,ih (by omega),Nat.add_comm 1 n,hsucc]
      simp [bind,Except.bind,@addMonth_eq year (n+1) _ (Nat.le_add_left 1 n) (by omega),
        pure,Except.pure]
  rw [monthToTimestamp,Nat.cast_add_one,add_sub_cancel_right,Int.toNat_natCast,hdays,
    BitVec.ofNat_mul]
  rfl

theorem toTimestamp_eq (h : t.Valid) : toTimestamp t = .ok (BitVec.ofNat 64 (seconds t)) := by
  have hday : BitVec.ofInt 64 (t.day.toNat-1) = BitVec.ofNat 64 (t.day.toNat-1) := by
    rw [← BitVec.ofInt_natCast,Nat.cast_sub h.day.1]
    rfl
  have hmonth := monthToTimestamp_eq t.year.toNat h.month.1 h.month.2
  rw [toTimestamp,yearToTimestamp_eq h.year,hday,hmonth]
  simp only [bind,Except.bind,pure,Except.pure,seconds,days,BitVec.ofNat_add,BitVec.ofNat_mul,
    BitVec.ofNat_toNat,BitVec.ofNat_eq_ofNat]
  generalize BitVec.ofNat 64 (daysBeforeYear t.year.toNat) = years
  generalize BitVec.ofNat 64 (daysBeforeMonth t.year.toNat t.month.toNat) = months
  generalize BitVec.ofNat 64 (t.day.toNat-1) = days
  congr 1
  ring

theorem monthLength_le : monthLength year month ≤ 31 := by
  rw [monthLength]
  split_ifs <;> decide

theorem seconds_lt (h : t.Valid) : seconds t < 2^64 := by
  have hyear := t.year.isLt
  have hmonth := h.month
  have hday := h.day.2.trans monthLength_le
  have hhour := h.hour
  have hminute := h.minute
  have hsecond := h.second
  have hleaps : leaps (t.year.toNat-1) ≤ t.year.toNat := by
    simp only [leaps]
    omega
  simp only [seconds,days,daysBeforeYear,daysBeforeMonth]
  omega

/-- Intervals that follow one another: the first index decides, then the place inside. -/
theorem place_lt {start width : ℕ → ℕ} {a b x y : ℕ}
    (hstep : ∀ k, a ≤ k → k < b → start k+width k ≤ start (k+1))
    (hx : x < width a) (h : a < b) : start a+x < start b+y := by
  have hle : start a+width a ≤ start b := by
    induction b, h using Nat.le_induction with
    | base => exact hstep a le_rfl (Nat.lt_succ_self a)
    | succ b hb ih =>
      have hb' := hstep b (by omega) (Nat.lt_succ_self b)
      have hprev := ih fun k hk hkb => hstep k hk (by omega)
      omega
  omega

theorem days_lt (year' month' day' : ℕ) (hyear : 1970 ≤ year) (hmonth : 1 ≤ month ∧ month ≤ 12)
    (hday : 1 ≤ day ∧ day ≤ monthLength year month) (hmonth' : month' ≤ 12)
    (h : year < year' ∨ year = year' ∧ (month < month' ∨ month = month' ∧ day < day')) :
    days year month day < days year' month' day' := by
  have hin : day-1 < monthLength year month := by omega
  have hmonths : ∀ k, month ≤ k → k < 13 →
      daysBeforeMonth year k+monthLength year k ≤ daysBeforeMonth year (k+1) :=
    fun k hk hk' => (daysBeforeMonth_succ (hmonth.1.trans hk) (by omega)).ge
  rcases h with h | ⟨rfl,h | ⟨rfl,h⟩⟩
  · have hyears : ∀ k, year ≤ k → k < year' →
        daysBeforeYear k+(if Leap k then 366 else 365) ≤ daysBeforeYear (k+1) :=
      fun k hk _ => (daysBeforeYear_succ (hyear.trans hk)).ge
    have hfull : daysBeforeMonth year month+(day-1) < if Leap year then 366 else 365 := by
      have := place_lt hmonths hin (by omega : month < 13) (y:=0)
      rwa [add_zero,daysBeforeMonth_end] at this
    have := place_lt hyears hfull h (y:=daysBeforeMonth year' month'+(day'-1))
    simp only [days]
    omega
  · have := place_lt (fun k hk hk' => hmonths k hk (by omega)) hin h (y:=day'-1)
    simp only [days]
    omega
  · simp only [days]
    omega

theorem seconds_strictMono (ht : t.Valid) (hu : u.Valid) (h : t.fields < u.fields) :
    seconds t < seconds u := by
  have hhour := ht.hour
  have hminute := ht.minute
  have hsecond := ht.second
  simp only [RtcTime.fields,List.cons_lt_cons_iff,List.not_lt_nil,and_false,or_false] at h
  by_cases hdate : t.year.toNat = u.year.toNat ∧ t.month.toNat = u.month.toNat ∧
    t.day.toNat = u.day.toNat
  · -- on one day the time decides
    simp only [seconds,hdate]
    omega
  · have hdays :=
      days_lt u.year.toNat u.month.toNat u.day.toNat ht.year ht.month ht.day hu.month.2 (by omega)
    simp only [seconds]
    omega

/-- A date has a timestamp, the seconds up to it, and later dates have larger ones. -/
theorem timestamps (ht : t.Valid) (hu : u.Valid) :
    ∃ r r', toTimestamp t = .ok r ∧ toTimestamp u = .ok r' ∧ r.toNat = seconds t ∧
    r'.toNat = seconds u ∧ (t.fields < u.fields → r.toNat < r'.toNat) := by
  have hrt : (BitVec.ofNat 64 (seconds t)).toNat = seconds t := Nat.mod_eq_of_lt (seconds_lt ht)
  have hru : (BitVec.ofNat 64 (seconds u)).toNat = seconds u := Nat.mod_eq_of_lt (seconds_lt hu)
  refine ⟨_,_,toTimestamp_eq ht,toTimestamp_eq hu,hrt,hru,fun h => ?_⟩
  rw [hrt,hru]
  exact seconds_strictMono ht hu h

/-- The last second of February 2000 and the first one of March. -/
theorem timestamps_leap : ∃ r r', toTimestamp ⟨23,59,59,29,2,2000⟩ = .ok r ∧
    toTimestamp ⟨0,0,0,1,3,2000⟩ = .ok r' ∧
    r.toNat = 951868799 ∧ r'.toNat = 951868800 ∧ (r.toNat < r'.toNat) := by
  obtain ⟨r,r',h⟩ := timestamps (t:=⟨23,59,59,29,2,2000⟩) (u:=⟨0,0,0,1,3,2000⟩)
    ⟨by decide,by decide,by decide,by decide,by decide,by decide⟩
    ⟨by decide,by decide,by decide,by decide,by decide,by decide⟩
  exact ⟨r,r',h.1,h.2.1,h.2.2.1,h.2.2.2.1,h.2.2.2.2 (by decide)⟩

end
end Timestamps
end ScalesOS
