import ScalesOS.Loops
import ScalesOS.Machine

/-!
# Division of 64-bit words

`__udivmoddi4` of `libc/src/udivmoddi4.c`, and `__udivdi3` and `__umoddi3` that call it.
-/

namespace ScalesOS
namespace LongDivision

open Loops

/-- The variables of the second loop. -/
structure State where
  num : BitVec 64
  den : BitVec 64
  quot : BitVec 64
  qbit : BitVec 64

/-- `while((int64_t) den >= 0)` -/
def justifyTurn (s : BitVec 64 × BitVec 64) :
    Result ((BitVec 64 × BitVec 64) ⊕ (BitVec 64 × BitVec 64)) :=
  if 0 ≤ s.1.toInt then pure (.inl (s.1 <<< 1,s.2 <<< 1)) else pure (.inr s)

/-- `while(qbit)` -/
def subtractTurn (s : State) : Result (State ⊕ State) :=
  if s.qbit = 0 then pure (.inr s)
  else
    let s := if s.den ≤ s.num then { s with num := s.num-s.den, quot := s.quot+s.qbit } else s
    pure (.inl { s with den := s.den >>> 1, qbit := s.qbit >>> 1 })

/-- The quotient, and the word behind `rem_p` unless that is `NULL`. Each loop may make `fuel`
turns. -/
def udivmoddi4 (fuel : ℕ) (num den : BitVec 64) (rem_p : Option (BitVec 64)) :
    Result (BitVec 64 × Option (BitVec 64)) :=
  if den = 0 then .error (.panic "Division by zero")
  else do
    let (den,qbit) ← iterate .loop justifyTurn fuel (den,1)
    let s ← iterate .loop subtractTurn fuel ⟨num,den,0,qbit⟩
    pure (s.quot,rem_p.map fun _ => s.num)

def udivdi3 (fuel : ℕ) (a b : BitVec 64) : Result (BitVec 64) := do
  let r ← udivmoddi4 fuel a b none
  pure r.1

/-- `r` starts with whatever is on the stack. -/
def umoddi3 (fuel : ℕ) (a b r : BitVec 64) : Result (BitVec 64) := do
  let x ← udivmoddi4 fuel a b (some r)
  pure (x.2.getD r)

section
variable {den : BitVec 64}

/-- The denominator has been moved `k` places, and there is room for `n` more at most. -/
def Shifted (den : BitVec 64) (n : ℕ) (s : BitVec 64 × BitVec 64) : Prop :=
  ∃ k, n+k = 63 ∧ s.1.toNat = den.toNat*2^k ∧ s.2.toNat = 2^k

/-- The denominator has its highest bit at the left. -/
def Justified (den : BitVec 64) (s : BitVec 64 × BitVec 64) : Prop :=
  ∃ k ≤ 63, s.1.toNat = den.toNat*2^k ∧ s.2.toNat = 2^k ∧ 2^63 ≤ s.1.toNat

theorem toNat_shiftLeft_one {x : BitVec 64} (h : x.toNat < 2^63) : (x <<< 1).toNat = 2*x.toNat := by
  simp only [BitVec.toNat_shiftLeft,Nat.shiftLeft_eq]
  omega

theorem justifyTurn_spec (hden : den ≠ 0) (n : ℕ) (s : BitVec 64 × BitVec 64)
    (h : Shifted den n s) :
    ∃ x, justifyTurn s = .ok x ∧ x.elim (fun t => ∃ m < n, Shifted den m t) (Justified den) := by
  obtain ⟨k,hk,hd,hq⟩ := h
  have hpos : 0 < den.toNat := by
    have := BitVec.toNat_ne.mp hden
    simp at this
    omega
  have hsmall : 0 ≤ s.1.toInt ↔ s.1.toNat < 2^63 := by
    rw [BitVec.toInt_eq_toNat_cond]
    have := s.1.isLt
    split <;> omega
  rw [justifyTurn]
  by_cases hc : s.1.toNat < 2^63
  · have hle : 2^k ≤ s.1.toNat := by
      rw [hd]
      exact Nat.le_mul_of_pos_left _ hpos
    have hk' : k < 63 := (Nat.pow_lt_pow_iff_right (by decide)).mp (hle.trans_lt hc)
    rw [if_pos (hsmall.mpr hc)]
    refine ⟨_,rfl,n-1,by omega,k+1,by omega,?_,?_⟩
    · rw [toNat_shiftLeft_one hc,hd,pow_succ]
      ring
    · rw [toNat_shiftLeft_one (by omega),hq,pow_succ]
      ring
  · rw [if_neg (by rwa [hsmall])]
    exact ⟨_,rfl,k,by omega,hd,hq,by omega⟩

variable {num : BitVec 64}

/-- `n` bits of the quotient are still to be found. -/
structure Divided (num den : BitVec 64) (n : ℕ) (s : State) : Prop where
  split : s.quot.toNat*den.toNat+s.num.toNat = num.toNat
  small : s.num.toNat < den.toNat*2^n
  bit : s.qbit.toNat = if n = 0 then 0 else 2^(n-1)
  shifted : n ≠ 0 → s.den.toNat = den.toNat*2^(n-1)

theorem Divided.shift {n : ℕ} {s : State} (hsplit : s.quot.toNat*den.toNat+s.num.toNat = num.toNat)
    (hsmall : s.num.toNat < den.toNat*2^n) (hbit : s.qbit.toNat = 2^n)
    (hshifted : s.den.toNat = den.toNat*2^n) :
    Divided num den n { s with den := s.den >>> 1, qbit := s.qbit >>> 1 } := by
  refine ⟨hsplit,hsmall,?_,fun hn => ?_⟩
  · cases n <;> simp [Nat.shiftRight_eq_div_pow,hbit,pow_succ]
  · obtain ⟨n,rfl⟩ := Nat.exists_eq_succ_of_ne_zero hn
    simp [Nat.shiftRight_eq_div_pow,hshifted,pow_succ,← mul_assoc]

theorem subtractTurn_spec (hden : den ≠ 0) (n : ℕ) (s : State) (h : Divided num den n s) :
    ∃ x, subtractTurn s = .ok x ∧
      x.elim (fun t => ∃ m < n, Divided num den m t) (fun t =>
        t.quot = num/den ∧ t.num = num%den) := by
  have hpos : 0 < den.toNat := by
    have := BitVec.toNat_ne.mp hden
    simp at this
    omega
  obtain ⟨hsplit,hsmall,hbit,hshifted⟩ := h
  rw [subtractTurn]
  cases n with
  | zero =>
    have hzero : s.qbit = 0 := BitVec.eq_of_toNat_eq (by simpa using hbit)
    simp only [pow_zero,mul_one] at hsmall
    rw [if_pos hzero]
    refine ⟨_,rfl,BitVec.eq_of_toNat_eq ?_,BitVec.eq_of_toNat_eq ?_⟩
    · rw [BitVec.toNat_udiv,← hsplit,mul_comm,Nat.mul_add_div hpos,Nat.div_eq_of_lt hsmall,add_zero]
    · rw [BitVec.toNat_umod,← hsplit,Nat.mul_add_mod_of_lt hsmall]
  | succ n =>
    have hqbit : s.qbit.toNat = 2^n := by simpa using hbit
    have hd : s.den.toNat = den.toNat*2^n := by simpa using hshifted
    have hne : s.qbit ≠ 0 := by
      intro h
      have := Nat.two_pow_pos n
      rw [h] at hqbit
      simp at hqbit
      omega
    have hdouble : den.toNat*2^(n+1) = den.toNat*2^n+den.toNat*2^n := by ring
    rw [if_neg hne]
    by_cases hle : s.den ≤ s.num
    · have hsub : (s.num-s.den).toNat = s.num.toNat-s.den.toNat := BitVec.toNat_sub_of_le hle
      have hnum : s.den.toNat ≤ s.num.toNat := hle
      -- the quotient stays below the numerator
      have hprod : (s.quot.toNat+2^n)*den.toNat+(s.num.toNat-s.den.toNat) = num.toNat := by
        rw [← hsplit,add_mul,mul_comm (2^n),← hd]
        omega
      have hquot : (s.quot+s.qbit).toNat = s.quot.toNat+2^n := by
        have hbound := Nat.le_mul_of_pos_right (s.quot.toNat+2^n) hpos
        have := num.isLt
        rw [BitVec.toNat_add,hqbit]
        exact Nat.mod_eq_of_lt (by omega)
      rw [if_pos hle]
      exact ⟨_,rfl,n,Nat.lt_succ_self n,Divided.shift (by simp only [hquot,hsub]; exact hprod) (by
        simp only [hsub]; omega) hqbit hd⟩
    · have hlt : s.num.toNat < s.den.toNat := Nat.lt_of_not_le hle
      rw [if_neg hle]
      exact ⟨_,rfl,n,Nat.lt_succ_self n,Divided.shift hsplit (by omega) hqbit hd⟩

variable {fuel : ℕ}

/-- The call returns quotient and remainder; with 65 turns both loops come to their end. -/
theorem udivmoddi4_eq (hden : den ≠ 0) (hfuel : 64 < fuel) (rem_p : Option (BitVec 64)) :
    udivmoddi4 fuel num den rem_p = .ok (num/den,rem_p.map fun _ => num%den) := by
  have hstart : Shifted den 63 (den,1) := ⟨0,rfl,by simp,by simp⟩
  obtain ⟨⟨d,q⟩,hjustify,k,hk,hd,hq,htop⟩ :=
    iterate_spec Fault.loop (justifyTurn_spec hden) fuel hstart (by omega)
  simp only at hd hq htop
  have hdivided : Divided num den (k+1) ⟨num,d,0,q⟩ := by
    refine ⟨by simp,?_,by simpa using hq,fun _ => by simpa using hd⟩
    have := num.isLt
    simp only [pow_succ,← mul_assoc,← hd]
    omega
  obtain ⟨s,hsubtract,hquot,hnum⟩ :=
    iterate_spec Fault.loop (subtractTurn_spec hden) fuel hdivided (by omega)
  rw [udivmoddi4,if_neg hden,hjustify]
  simp only [bind,Except.bind,hsubtract,hquot,hnum]
  rfl

theorem udivdi3_eq (hden : den ≠ 0) (hfuel : 64 < fuel) : udivdi3 fuel num den = .ok (num/den) := by
  rw [udivdi3,udivmoddi4_eq hden hfuel]
  rfl

theorem umoddi3_eq (hden : den ≠ 0) (hfuel : 64 < fuel) (r : BitVec 64) :
    umoddi3 fuel num den r = .ok (num%den) := by
  rw [umoddi3,udivmoddi4_eq hden hfuel]
  rfl

/-- All three calls return, with the quotient and the remainder. -/
theorem division (hden : den ≠ 0) (hfuel : 64 < fuel) (r : BitVec 64) :
    ∃ quot rem, udivmoddi4 fuel num den (some r) = .ok (quot,some rem) ∧
      udivdi3 fuel num den = .ok quot ∧ umoddi3 fuel num den r = .ok rem ∧
      quot.toNat = num.toNat/den.toNat ∧ rem.toNat = num.toNat%den.toNat :=
  ⟨num/den,num%den,udivmoddi4_eq hden hfuel (some r),udivdi3_eq hden hfuel,umoddi3_eq hden hfuel r,
    BitVec.toNat_udiv,BitVec.toNat_umod⟩

/-- A clock value in milliseconds. -/
theorem division_clock : ∃ quot rem, udivmoddi4 65 1700000000123 1000 (some 0) =
    .ok (quot,some rem) ∧
    udivdi3 65 1700000000123 1000 = .ok quot ∧ umoddi3 65 1700000000123 1000 0 = .ok rem ∧
    quot.toNat = 1700000000 ∧ rem.toNat = 123 :=
  division (by decide) (by decide) 0

end
end LongDivision
end ScalesOS
