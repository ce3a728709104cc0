import Mathlib.Logic.Function.Basic
import Mathlib.Tactic

/-!
# Bit arrays packed in 32-bit words

Bit `k` of an unbounded word array is bit `k % 32` of word `k / 32`. Besides the
single-bit updates this file has the streaming search for a run of set bits, with
the exact meaning of its answer and of its failure. Nothing here depends on the
kernel.
-/

namespace BitArray

abbrev Words := ℕ → BitVec 32

def bit (w : Words) (k : ℕ) : Bool := (w (k/32)).getLsbD (k%32)

def mask (k : ℕ) : BitVec 32 := 1#32 <<< (k%32)

def setBit (w : Words) (k : ℕ) : Words := Function.update w (k/32) (w (k/32) ||| mask k)

def clearBit (w : Words) (k : ℕ) : Words := Function.update w (k/32) (w (k/32) &&& ~~~mask k)

theorem getLsbD_mask {k j : ℕ} (hj : j < 32) : (mask k).getLsbD j = decide (j = k%32) := by
  have hk : k%32 < 32 := Nat.mod_lt _ (by omega)
  simp only [mask,BitVec.getLsbD_shiftLeft,BitVec.getLsbD_one]
  by_cases h : j = k%32
  · subst h; simp [hk]
  · by_cases hl : j < k%32
    · simp [h,hl]
    · have hn : ¬ j-k%32 = 0 := by omega
      simp [h,hn]

theorem eq_of_div_mod {k l : ℕ} (hd : k/32 = l/32) (hm : k%32 = l%32) : k = l := by omega

@[simp] theorem bit_setBit (w : Words) (k l : ℕ) :
    bit (setBit w k) l = (decide (l = k) || bit w l) := by
  have hl : l%32 < 32 := Nat.mod_lt _ (by omega)
  by_cases hd : l/32 = k/32
  · have hm : decide (l%32 = k%32) = decide (l = k) := by
      apply decide_eq_decide.mpr; constructor
      · exact eq_of_div_mod hd
      · rintro rfl; rfl
    simp only [bit,setBit,hd,Function.update_self,BitVec.getLsbD_or,getLsbD_mask hl,hm]
    exact Bool.or_comm _ _
  · have hne : l ≠ k := by rintro rfl; exact hd rfl
    simp [bit,setBit,Function.update_of_ne hd,hne]

@[simp] theorem bit_clearBit (w : Words) (k l : ℕ) :
    bit (clearBit w k) l = (!decide (l = k) && bit w l) := by
  have hl : l%32 < 32 := Nat.mod_lt _ (by omega)
  by_cases hd : l/32 = k/32
  · have hm : decide (l%32 = k%32) = decide (l = k) := by
      apply decide_eq_decide.mpr; constructor
      · exact eq_of_div_mod hd
      · rintro rfl; rfl
    simp only [bit,clearBit,hd,Function.update_self,BitVec.getLsbD_and,BitVec.getLsbD_not,
      getLsbD_mask hl,hm,hl,decide_true,Bool.true_and]
    exact Bool.and_comm _ _
  · have hne : l ≠ k := by rintro rfl; exact hd rfl
    simp [bit,clearBit,Function.update_of_ne hd,hne]

theorem word_eq_zero_iff (w : Words) (i : ℕ) :
    w i = 0#32 ↔ ∀ k, k/32 = i → bit w k = false := by
  constructor
  · rintro h k rfl
    simp [bit,h]
  · intro h
    apply BitVec.eq_of_getLsbD_eq
    intro j hj
    have hb := h (32*i+j) (by omega)
    have hd : (32*i+j)/32 = i := by omega
    have hm : (32*i+j)%32 = j := by omega
    simpa [bit,hd,hm] using hb

/-- Clear `n` consecutive bits, lowest first. -/
def clearRun (w : Words) (k : ℕ) : ℕ → Words
  | 0 => w
  | n+1 => clearBit (clearRun w k n) (k+n)

@[simp] theorem bit_clearRun (w : Words) (k n l : ℕ) :
    bit (clearRun w k n) l = (!decide (k ≤ l ∧ l < k+n) && bit w l) := by
  induction n with
  | zero =>
    have h : ¬ (k ≤ l ∧ l < k+0) := by omega
    simp only [clearRun,decide_eq_false h,Bool.not_false,Bool.true_and]
  | succ n ih =>
    simp only [clearRun,bit_clearBit,ih]
    by_cases he : l = k+n
    · have h : k ≤ l ∧ l < k+(n+1) := by omega
      simp [he]
    · have h : (k ≤ l ∧ l < k+(n+1)) ↔ (k ≤ l ∧ l < k+n) := by omega
      simp [he,h]

section Search

variable (b : ℕ → Bool) (n : ℕ)

/-- Streaming search: `c` is the length of the run of set bits that ends just
below `pos`; the answer is the base of the first run of length `n`. -/
def findRun : ℕ → ℕ → ℕ → Option ℕ
  | 0, _, _ => none
  | fuel+1, pos, c =>
    let c' := if b pos then c+1 else 0
    if n ≤ c' then some (pos+1-c') else findRun fuel (pos+1) c'

/-- All `n` bits from `k` on are set. -/
def IsRun (k : ℕ) : Prop := ∀ i < n, b (k+i) = true

variable {b n}

/-- What the counter of the search knows: the last `c` bits are set, the run is
still too short, and no complete run starts between `lo` and the current one. -/
structure Scanned (b : ℕ → Bool) (n lo pos c : ℕ) : Prop where
  below : lo+c ≤ pos
  short : c < n
  set : ∀ k, pos-c ≤ k → k < pos → b k = true
  missed : ∀ k, lo ≤ k → k < pos-c → ¬ IsRun b n k

theorem Scanned.start (hn : 0 < n) (lo : ℕ) : Scanned b n lo lo 0 where
  below := by omega
  short := hn
  set := by intro k h1 h2; omega
  missed := by intro k h1 h2; omega

theorem Scanned.extend {lo pos c : ℕ} (h : Scanned b n lo pos c) (hb : b pos = true)
    (hs : c+1 < n) : Scanned b n lo (pos+1) (c+1) where
  below := by have := h.below; omega
  short := hs
  set := by
    intro k h1 h2
    by_cases hk : k = pos
    · exact hk ▸ hb
    · exact h.set k (by omega) (by omega)
  missed := by
    intro k h1 h2
    exact h.missed k h1 (by omega)

theorem Scanned.reset {lo pos c : ℕ} (h : Scanned b n lo pos c) (hb : b pos = false) :
    Scanned b n lo (pos+1) 0 where
  below := by have := h.below; omega
  short := by have := h.short; omega
  set := by intro k h1 h2; omega
  missed := by
    intro k h1 h2 hr
    by_cases hk : k < pos-c
    · exact h.missed k h1 hk hr
    · -- the run would contain the clear bit at `pos`
      have hs := h.short
      have hp := hr (pos-k) (by omega)
      rw [show k+(pos-k) = pos by omega,hb] at hp
      exact Bool.false_ne_true hp

/-- A found base is a run inside the scanned range, and the lowest one. -/
theorem findRun_some {fuel lo pos c k : ℕ} (h : Scanned b n lo pos c)
    (hf : findRun b n fuel pos c = some k) :
    lo ≤ k ∧ k+n ≤ pos+fuel ∧ IsRun b n k ∧ ∀ l, lo ≤ l → l < k → ¬ IsRun b n l := by
  induction fuel generalizing pos c with
  | zero => simp [findRun] at hf
  | succ fuel ih =>
    have hbelow := h.below
    have hshort := h.short
    cases hb : b pos with
    | false =>
      have hn : ¬ n ≤ 0 := by omega
      simp only [findRun,hb,Bool.false_eq_true,if_false,if_neg hn] at hf
      have hr := ih (h.reset hb) hf
      exact ⟨hr.1,by omega,hr.2.2⟩
    | true =>
      simp only [findRun,hb,if_true] at hf
      by_cases hn : n ≤ c+1
      · rw [if_pos hn] at hf
        have hk : k = pos+1-(c+1) := (Option.some.inj hf).symm
        refine ⟨by omega,by omega,?_,fun l h1 h2 => h.missed l h1 (by omega)⟩
        intro i hi
        by_cases he : k+i = pos
        · rw [he]; exact hb
        · exact h.set (k+i) (by omega) (by omega)
      · rw [if_neg hn] at hf
        have hr := ih (h.extend hb (by omega)) hf
        exact ⟨hr.1,by omega,hr.2.2⟩

theorem findRun_none {fuel lo pos c : ℕ} (h : Scanned b n lo pos c)
    (hf : findRun b n fuel pos c = none) :
    ∀ l, lo ≤ l → l+n ≤ pos+fuel → ¬ IsRun b n l := by
  induction fuel generalizing pos c with
  | zero =>
    intro l h1 h2 hr
    have hs := h.short
    exact h.missed l h1 (by omega) hr
  | succ fuel ih =>
    have hshort := h.short
    cases hb : b pos with
    | false =>
      have hn : ¬ n ≤ 0 := by omega
      simp only [findRun,hb,Bool.false_eq_true,if_false,if_neg hn] at hf
      intro l h1 h2
      exact ih (h.reset hb) hf l h1 (by omega)
    | true =>
      simp only [findRun,hb,if_true] at hf
      by_cases hn : n ≤ c+1
      · simp [hn] at hf
      · rw [if_neg hn] at hf
        intro l h1 h2
        exact ih (h.extend hb (by omega)) hf l h1 (by omega)

end Search

end BitArray
