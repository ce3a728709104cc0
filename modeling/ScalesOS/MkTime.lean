import ScalesOS.Timestamps

/-!
# `mktime`

`libc/src/time/mktime.c` beside the timestamps of the kernel. `int`, `long` and `time_t` have
32 bits. Between `secs_of_years(…)` and `secs_of_month(…)` the source has `*  +`, so that the two
are multiplied.
-/

namespace ScalesOS
namespace MkTime

open Timestamps

structure Tm where
  tm_sec : BitVec 32
  tm_min : BitVec 32
  tm_hour : BitVec 32
  tm_mday : BitVec 32
  tm_mon : BitVec 32
  tm_year : BitVec 32

def yearIsLeap (year : ℤ) : Bool := year.tmod 4 == 0 && (year.tmod 100 != 0 || year.tmod 400 == 0)

def daysInMonth (month year : ℤ) : BitVec 32 :=
  if month = 12 then 31 else if month = 11 then 30 else if month = 10 then 31
  else if month = 9 then 30
  else if month = 8 then 31 else if month = 7 then 31 else if month = 6 then 30
  else if month = 5 then 31
  else if month = 4 then 30 else if month = 3 then 31
  else if month = 2 then (if yearIsLeap year then 29 else 28)
  else if month = 1 then 31 else 0

/-- The loop of `secs_of_years`, for the years `1970+n` down to 1970. -/
def countYears : ℕ → BitVec 32 → BitVec 32
  | 0,days => days
  | n+1,days => countYears n (if yearIsLeap (1970+n) then days+365+1 else days+365)

/-- The loop runs while `years > 1969`. -/
def secsOfYears (years : BitVec 32) : BitVec 32 := countYears (years.toInt-1969).toNat 0*86400

def secsOfMonth (months year : BitVec 32) : BitVec 32 :=
  (List.range' 1 (months.toInt-1).toNat).foldl (fun days i => days+daysInMonth i year.toInt) 0*86400

def mktime (tm : Tm) : BitVec 32 :=
  secsOfYears (tm.tm_year+1899)*secsOfMonth (tm.tm_mon+1) (tm.tm_year+1900)+(tm.tm_mday-1)*86400+
    tm.tm_hour*3600+tm.tm_min*60+tm.tm_sec

/-- The `struct tm` of a date: months count from 0 and years from 1900. -/
def tmOf (t : RtcTime) : Tm :=
  ⟨t.second.setWidth 32,t.minute.setWidth 32,t.hour.setWidth 32,t.day.setWidth 32,
    t.month.setWidth 32-1,t.year.setWidth 32-1900⟩

section
variable {year month n : ℕ} {t : RtcTime}

theorem yearIsLeap_iff : yearIsLeap year = true ↔ Leap year := by
  simp only [yearIsLeap,Leap,Bool.and_eq_true,Bool.or_eq_true,beq_iff_eq,bne_iff_ne,
    Int.tmod_eq_emod_of_nonneg (Int.natCast_nonneg year)]
  omega

theorem countYears_eq (n : ℕ) (days : BitVec 32) :
    countYears n days = days+BitVec.ofNat 32 (daysBeforeYear (1970+n)) := by
  induction n generalizing days with
  | zero => simp [countYears,daysBeforeYear]
  | succ n ih =>
    have hleap : yearIsLeap (1970+n) = decide (Leap (1970+n)) := by
      rw [Bool.eq_iff_iff,decide_eq_true_iff,← yearIsLeap_iff]
      simp
    rw [countYears,ih,← Nat.add_assoc,daysBeforeYear_succ (by omega),hleap]
    generalize daysBeforeYear (1970+n) = before
    by_cases h : Leap (1970+n) <;> simp [h,BitVec.ofNat_add] <;> bv_omega

theorem secsOfYears_eq (h : 1970 ≤ year) (hsmall : year < 2^31) :
    secsOfYears (BitVec.ofNat 32 (year-1)) = BitVec.ofNat 32 (daysBeforeYear year*86400) := by
  have hint : (BitVec.ofNat 32 (year-1)).toInt = year-1 := by
    rw [BitVec.toInt_eq_toNat_cond,BitVec.toNat_ofNat]
    omega
  have hcount : ((BitVec.ofNat 32 (year-1)).toInt-1969).toNat = year-1970 := by omega
  rw [secsOfYears,hcount,countYears_eq,Nat.add_sub_cancel' h,BitVec.ofNat_mul]
  simp

theorem secsOfMonth_eq (hlow : 1 ≤ month) (hhigh : month ≤ 12) (hsmall : year < 2^31) :
    secsOfMonth (BitVec.ofNat 32 month) (BitVec.ofNat 32 year) =
    BitVec.ofNat 32 (daysBeforeMonth year month*86400) := by
  have hint : (BitVec.ofNat 32 year).toInt = year := by
    rw [BitVec.toInt_eq_toNat_cond,BitVec.toNat_ofNat]
    omega
  have hleap : yearIsLeap year = decide (Leap year) := by
    rw [Bool.eq_iff_iff,decide_eq_true_iff,yearIsLeap_iff]
  rw [secsOfMonth,hint]
  by_cases h : Leap year <;> interval_cases month <;>
    simp [hleap,h,daysBeforeMonth,daysInMonth,List.range']

def timeOf (t : RtcTime) : BitVec 32 :=
  BitVec.ofNat 32 ((t.day.toNat-1)*86400+t.hour.toNat*3600+t.minute.toNat*60+t.second.toNat)

theorem mktime_tmOf (h : t.Valid) : mktime (tmOf t) =
    BitVec.ofNat 32 (daysBeforeYear t.year.toNat*86400)*
      BitVec.ofNat 32 (daysBeforeMonth t.year.toNat t.month.toNat*86400)+timeOf t := by
  have hyear := h.year
  have hsmall := t.year.isLt
  have hmonth := h.month
  have hday := h.day.1
  have hyears : (tmOf t).tm_year+1899 = BitVec.ofNat 32 (t.year.toNat-1) := by
    simp only [tmOf]
    bv_omega
  have hyear' : (tmOf t).tm_year+1900 = BitVec.ofNat 32 t.year.toNat := by
    simp only [tmOf]
    bv_omega
  have hmonths : (tmOf t).tm_mon+1 = BitVec.ofNat 32 t.month.toNat := by
    simp only [tmOf]
    bv_omega
  have hmday : (tmOf t).tm_mday-1 = BitVec.ofNat 32 (t.day.toNat-1) := by
    simp only [tmOf]
    bv_omega
  rw [mktime,hyears,hyear',hmonths,hmday,secsOfYears_eq hyear (by omega),
    secsOfMonth_eq hmonth.1 hmonth.2 (by omega)]
  simp only [tmOf,timeOf,BitVec.ofNat_add,BitVec.ofNat_mul,BitVec.ofNat_toNat,
    BitVec.ofNat_eq_ofNat,add_assoc]

theorem timestamp_word (t : RtcTime) : (BitVec.ofNat 64 (seconds t)).setWidth 32 =
    BitVec.ofNat 32 (daysBeforeYear t.year.toNat*86400)+
      BitVec.ofNat 32 (daysBeforeMonth t.year.toNat t.month.toNat*86400)+timeOf t := by
  rw [BitVec.setWidth_ofNat_of_le (by decide),seconds,days,timeOf,← BitVec.ofNat_add,
    ← BitVec.ofNat_add]
  congr 1
  ring

/-- Product and sum of the two parts agree only where both are zero. -/
theorem product_eq_sum : ∀ n < 136, ∀ m < 12,
    (daysBeforeYear (1970+n)*86400*(daysBeforeMonth (1970+n) (m+1)*86400)%2^32 =
      (daysBeforeYear (1970+n)*86400+daysBeforeMonth (1970+n) (m+1)*86400)%2^32 ↔
      n = 0 ∧ m = 0) := by
  decide +kernel

/-- User and kernel time agree in January 1970 only, whether words or numbers are compared. -/
theorem mktime_eq_iff (h : t.Valid) (hyear : t.year.toNat ≤ 2105) :
    ∃ r, toTimestamp t = .ok r ∧
      (mktime (tmOf t) = r.setWidth 32 ↔ t.year.toNat = 1970 ∧ t.month.toNat = 1) ∧
      ((mktime (tmOf t)).toInt = r.toNat ↔ t.year.toNat = 1970 ∧ t.month.toNat = 1) := by
  have hlow := h.year
  have hmonth := h.month
  obtain ⟨n,hn⟩ := Nat.exists_eq_add_of_le hlow
  obtain ⟨m,hm⟩ : ∃ m, t.month.toNat = m+1 := ⟨t.month.toNat-1,by omega⟩
  have hwords : mktime (tmOf t) = (BitVec.ofNat 64 (seconds t)).setWidth 32 ↔
      t.year.toNat = 1970 ∧ t.month.toNat = 1 := by
    rw [mktime_tmOf h,timestamp_word,add_left_inj,← BitVec.ofNat_mul,← BitVec.ofNat_add,
      ← BitVec.toNat_inj,
      BitVec.toNat_ofNat,BitVec.toNat_ofNat,hn,hm,product_eq_sum n (by omega) m (by omega)]
    omega
  have hseconds : (BitVec.ofNat 64 (seconds t)).toNat = seconds t := Nat.mod_eq_of_lt (seconds_lt h)
  refine ⟨_,toTimestamp_eq h,hwords,fun hnumbers => hwords.mp ?_,fun hstart => ?_⟩
  · rw [← @BitVec.ofInt_toInt 32 (mktime (tmOf t)),hnumbers,BitVec.ofInt_natCast,BitVec.ofNat_toNat]
  · have hsmall : seconds t < 2^31 := by
      have hday := h.day.2.trans monthLength_le
      have hhour := h.hour
      have hminute := h.minute
      have hsecond := h.second
      simp only [seconds,days,hstart.1,hstart.2]
      norm_num [daysBeforeYear,daysBeforeMonth]
      omega
    rw [hwords.mpr hstart,hseconds,BitVec.setWidth_ofNat_of_le (by decide),
      BitVec.toInt_eq_toNat_cond,BitVec.toNat_ofNat]
    omega

/-- The last second of January 1970. -/
theorem mktime_eq_iff_january : ∃ r, toTimestamp ⟨23,59,59,31,1,1970⟩ = .ok r ∧
    (mktime (tmOf ⟨23,59,59,31,1,1970⟩) = r.setWidth 32 ↔ (1970 : ℕ) = 1970 ∧ (1 : ℕ) = 1) ∧
    ((mktime (tmOf ⟨23,59,59,31,1,1970⟩)).toInt = r.toNat ↔ (1970 : ℕ) = 1970 ∧ (1 : ℕ) = 1) :=
  mktime_eq_iff ⟨by decide,by decide,by decide,by decide,by decide,by decide⟩ (by decide)

/-- The year 2000 begins with 0 in user space. -/
theorem mktime_differs : ¬ ∀ t r, t.Valid → t.year.toNat ≤ 2105 → toTimestamp t = .ok r →
    mktime (tmOf t) = r.setWidth 32 := by
  intro h
  have hvalid : RtcTime.Valid ⟨0,0,0,1,1,2000⟩ :=
    ⟨by decide,by decide,by decide,by decide,by decide,by decide⟩
  have heq := h ⟨0,0,0,1,1,2000⟩ _ hvalid (by decide) (toTimestamp_eq hvalid)
  rw [mktime_tmOf hvalid,timestamp_word] at heq
  revert heq
  decide +kernel

end
end MkTime
end ScalesOS
