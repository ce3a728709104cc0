import Mathlib.Tactic

/-!
# Canonical prefix codes

A code is canonical if it is given by the number of code words of each length: the words of
one length are consecutive numbers, and the first of them continues the last shorter word.
A decoder needs no words, only the first number and the number of shorter words at each
length.
-/

namespace ScalesOS
namespace CanonicalCodes

/-- The `n` low bits of a number, the most significant one first. -/
def bits : ℕ → ℕ → List Bool
  | 0,_ => []
  | n+1,v => bits n (v/2)++[v.testBit 0]

/-- The number that the bits `w` continue `v` to. -/
def value (v : ℕ) (w : List Bool) : ℕ := w.foldl (fun v b => 2*v+b.toNat) v

@[simp] theorem value_nil (v : ℕ) : value v [] = v := rfl

@[simp] theorem value_cons (v : ℕ) (b : Bool) (w : List Bool) :
    value v (b::w) = value (2*v+b.toNat) w := rfl

theorem value_append (v : ℕ) (w w' : List Bool) : value v (w++w') = value (value v w) w' :=
  List.foldl_append

@[simp] theorem bits_length (n v : ℕ) : (bits n v).length = n := by
  induction n generalizing v with
  | zero => rfl
  | succ n ih => simp [bits,ih]

theorem value_bits {n v : ℕ} (h : v < 2^n) : value 0 (bits n v) = v := by
  induction n generalizing v with
  | zero => simp [bits] at h ⊢; omega
  | succ n ih =>
    have hhalf : v/2 < 2^n := by
      rw [pow_succ] at h
      omega
    rw [bits,value_append,ih hhalf]
    have hbit : (v.testBit 0).toNat = v%2 := by
      rcases Nat.mod_two_eq_zero_or_one v with h | h <;> simp [Nat.testBit_zero,h]
    simp only [value_cons,value_nil,hbit]
    omega

/-- The code words; `counts` starts with the length `len+1`, whose first word is `2*first`. -/
def codes (len first : ℕ) : List ℕ → List (List Bool)
  | [] => []
  | n::counts => (List.range n).map (fun r =>
    bits (len+1) (2*first+r))++codes (len+1) (2*first+n) counts

def weight : List ℕ → ℕ
  | [] => 0
  | n::counts => n*2^counts.length+weight counts

/-- What the shorter words and the words of `counts` take together is no more than there is. -/
def Fits (len first : ℕ) (counts : List ℕ) : Prop :=
  first*2^counts.length+weight counts ≤ 2^(len+counts.length)

def Kraft (counts : List ℕ) : Prop := weight counts ≤ 2^counts.length

instance : DecidablePred Kraft := fun _ => inferInstanceAs (Decidable (_ ≤ _))

variable {len first n : ℕ} {counts : List ℕ} {w : List Bool}

theorem Kraft.fits (h : Kraft counts) : Fits 0 0 counts := by
  simpa [Fits,Kraft] using h

/-- Words of one length use up what they take and leave the rest to the longer ones. -/
theorem Fits.tail (h : Fits len first (n::counts)) : Fits (len+1) (2*first+n) counts := by
  have hlen : len+(counts.length+1) = len+1+counts.length := by omega
  simp only [Fits,List.length_cons,weight,hlen,pow_succ] at h
  simp only [Fits]
  calc (2*first+n)*2^counts.length+weight counts
      = first*(2^counts.length*2)+(n*2^counts.length+weight counts) := by ring
    _ ≤ 2^(len+1+counts.length) := h

theorem Fits.first_le (h : Fits len first counts) : first ≤ 2^len := by
  have hle : first*2^counts.length ≤ 2^len*2^counts.length := by
    rw [← pow_add]
    exact (Nat.le_add_right _ _).trans h
  exact Nat.le_of_mul_le_mul_right hle (Nat.two_pow_pos _)

@[simp] theorem codes_length (len first : ℕ) (counts : List ℕ) :
    (codes len first counts).length = counts.sum := by
  induction counts generalizing len first with
  | nil => rfl
  | cons n counts ih => simp [codes,ih]

theorem length_of_mem_codes (h : w ∈ codes len first counts) : len < w.length := by
  induction counts generalizing len first with
  | nil => cases h
  | cons n counts ih =>
    rcases List.mem_append.mp h with h | h
    · obtain ⟨r,-,rfl⟩ := List.mem_map.mp h
      simp
    · exact (ih h).trans' (by omega)

theorem value_take_succ (h : len < w.length) :
    value 0 (w.take (len+1)) = 2*value 0 (w.take len)+w[len].toNat := by
  rw [← List.take_concat_get' w len h,value_append]
  rfl

theorem first_le_value (hfits : Fits len first counts) (h : w ∈ codes len first counts) :
    first ≤ value 0 (w.take len) := by
  induction counts generalizing len first with
  | nil => cases h
  | cons n counts ih =>
    have hlen := length_of_mem_codes h
    have hnext : 2*first ≤ value 0 (w.take (len+1)) := by
      rcases List.mem_append.mp h with h | h
      · obtain ⟨r,hr,rfl⟩ := List.mem_map.mp h
        have hbound := hfits.tail.first_le
        have hr := List.mem_range.mp hr
        rw [List.take_of_length_le (by simp),value_bits (by omega)]
        omega
      · exact (Nat.le_add_right _ _).trans (ih hfits.tail h)
    rw [value_take_succ hlen] at hnext
    have hbit := Bool.toNat_le w[len]
    omega

def search : List ℕ → ℕ → ℕ → ℕ → List Bool → Option (ℕ × List Bool)
  | n::counts,val,first,seen,b::w =>
    if 2*val+b.toNat < first+n then some (seen+(2*val+b.toNat-first),w)
    else search counts (2*val+b.toNat) (2*(first+n)) (seen+n) w
  | _,_,_,_,_ => none

theorem search_codes {i : ℕ} (seen : ℕ) (rest : List Bool) (hfits : Fits len first counts)
    (h : (codes len first counts)[i]? = some w) :
    search counts (value 0 (w.take len)) (2*first) seen (w.drop len++rest) =
        some (seen+i,rest) := by
  induction counts generalizing len first seen i with
  | nil => simp [codes] at h
  | cons n counts ih =>
    have hmem := List.mem_of_getElem? h
    have hlen := length_of_mem_codes hmem
    have hval := value_take_succ hlen
    rw [List.drop_eq_getElem_cons hlen,List.cons_append,search,← hval]
    have hbound := hfits.tail.first_le
    rw [codes] at h
    rcases lt_or_ge i n with hi | hi
    · -- a word of this length
      rw [List.getElem?_append_left (by simpa using hi),List.getElem?_map,
        List.getElem?_range hi] at h
      obtain rfl := Option.some.inj h
      have hnum : value 0 ((bits (len+1) (2*first+i)).take (len+1)) = 2*first+i := by
        rw [List.take_of_length_le (by simp),value_bits (by omega)]
      rw [hnum,if_pos (by omega),List.drop_of_length_le (by simp)]
      simp
    · -- a longer word
      rw [List.getElem?_append_right (by simpa using hi)] at h
      have hlater := first_le_value hfits.tail (List.mem_of_getElem? h)
      rw [if_neg (by omega),ih _ hfits.tail h]
      simp only [List.length_map,List.length_range]
      congr 2
      omega

/-- What the decoder finds is a word of the code, and it has taken at least one bit. -/
theorem search_bounds {val seen i : ℕ} {rest : List Bool} (hstart : first ≤ 2*val)
    (h : search counts val first seen w = some (i,rest)) :
    i < seen+counts.sum ∧ rest.length < w.length := by
  induction counts generalizing val first seen w with
  | nil => simp [search] at h
  | cons n counts ih =>
    cases w with
    | nil => simp [search] at h
    | cons b w =>
      rw [search] at h
      rw [List.sum_cons,List.length_cons]
      split at h
      · obtain ⟨rfl,rfl⟩ := Prod.mk.inj (Option.some.inj h)
        omega
      · obtain ⟨hi,hrest⟩ := ih (by omega) h
        omega

end CanonicalCodes
end ScalesOS
