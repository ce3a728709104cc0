import Mathlib.Tactic

/-!
# Walks along the longer side of a grid

A walk goes from `(0,0)` to `(M,m)` with one step to the right at a time, and decides by an
error term whether it also goes up. The error term is known up to multiples of `W`: the walk
ends where it should if and only if the largest error term it meets needs no reduction, and
that is given by the greatest common divisor of the sides.
-/

namespace GridWalk

def excess (M m i j : ℕ) : ℤ := M*(j+1)-m*(i+1)

/-- The number from `lo` on that differs by a multiple of `W`. -/
def wrap (W lo e : ℤ) : ℤ := (e-lo)%W+lo

/-- The points of a walk from `(i,j)` to the end. -/
inductive Walk (W lo : ℤ) (M m : ℕ) : ℕ → ℕ → List (ℕ × ℕ) → Prop
  | arrived : Walk W lo M m M m [(M,m)]
  | straight {i j : ℕ} {path : List (ℕ × ℕ)} (hi : i < M) (hright : -m ≤
      2*wrap W lo (excess M m i j))
      (hup : ¬ 2*wrap W lo (excess M m i j) ≤ M) (rest : Walk W lo M m (i+1) j path) :
      Walk W lo M m i j ((i,j)::path)
  | diagonal {i j : ℕ} {path : List (ℕ × ℕ)} (hi : i < M) (hj : j < m) (hright : -m ≤
      2*wrap W lo (excess M m i j))
      (hup : 2*wrap W lo (excess M m i j) ≤ M) (rest : Walk W lo M m (i+1) (j+1) path) :
      Walk W lo M m i j ((i,j)::path)

variable {W lo : ℤ} {M m i j : ℕ} {path : List (ℕ × ℕ)}

theorem excess_right : excess M m (i+1) j = excess M m i j-m := by
  simp only [excess]
  push_cast
  ring

theorem excess_up : excess M m i (j+1) = excess M m i j+M := by
  simp only [excess]
  push_cast
  ring

theorem excess_end : excess M m M m = excess M m 0 0 := by
  simp only [excess]
  push_cast
  ring

theorem excess_start : excess M m 0 0 = M-m := by simp [excess]

theorem wrap_eq_self {e : ℤ} (hlo : lo ≤ e) (hhi : e < lo+W) : wrap W lo e = e := by
  rw [wrap,Int.emod_eq_of_lt (by omega) (by omega)]
  omega

theorem le_wrap (hW : 0 < W) (e : ℤ) : lo ≤ wrap W lo e := by
  have := Int.emod_nonneg (e-lo) hW.ne'
  rw [wrap]
  omega

theorem wrap_lt (hW : 0 < W) (e : ℤ) : wrap W lo e < lo+W := by
  have := Int.emod_lt_of_pos (e-lo) hW
  rw [wrap]
  omega

theorem wrap_le (hW : 0 < W) {e : ℤ} (hlo : lo ≤ e) : wrap W lo e ≤ e := by
  have hsplit := Int.emod_add_mul_ediv (e-lo) W
  have hquot := mul_nonneg hW.le (Int.ediv_nonneg (show 0 ≤ e-lo by omega) hW.le)
  rw [wrap]
  omega

theorem wrap_add (e d : ℤ) : wrap W lo (e+d) = wrap W lo (wrap W lo e+d) := by
  have hleft : e+d-lo = e-lo+d := by ring
  have hright : (e-lo)%W+lo+d-lo = (e-lo)%W+d := by ring
  rw [wrap,wrap,wrap,hleft,hright,Int.emod_add_emod]

/-- There is one height for each step to the right: the next point on the right is closer to the
line than the ones above and below it. -/
def Near (M m i j : ℕ) : Prop := (M : ℤ) < 2*(excess M m i j+m) ∧ 2*(excess M m i j+m) ≤ 3*M

theorem near_start (hM : 0 < M) : Near M m 0 0 := by
  rw [Near,excess_start]
  omega

theorem Near.straight (h : Near M m i j) (hup : ¬ 2*excess M m i j ≤ M) : Near M m (i+1) j := by
  rw [Near] at h ⊢
  rw [excess_right]
  omega

theorem Near.diagonal (h : Near M m i j) (hm : m ≤ M) (hup : 2*excess M m i j ≤ M) :
    Near M m (i+1) (j+1) := by
  rw [Near] at h ⊢
  rw [excess_right,excess_up]
  omega

theorem Near.right (h : Near M m i j) (hm : m ≤ M) : -m ≤ 2*excess M m i j := by
  rw [Near] at h
  omega

theorem Near.arrives (h : Near M m M j) : j = m := by
  obtain ⟨hlow,hhigh⟩ := h
  have hend : excess M m M j+m = M*((j : ℤ)+1-m) := by
    rw [excess]
    ring
  rw [hend] at hlow hhigh
  have hM : (0 : ℤ) < M := by nlinarith
  have h1 : 0 < (j : ℤ)+1-m := by nlinarith
  have h2 : (j : ℤ)+1-m < 2 := by nlinarith
  omega

theorem lt_of_up (hi : i < M) (hup : 2*excess M m i j ≤ M) : j < m := by
  by_contra hj
  have hle : (m : ℤ) ≤ j := by omega
  have hM : (0 : ℤ) < M := by omega
  have hright : (i : ℤ)+1 ≤ M := by omega
  have h1 : (M : ℤ)*(m+1) ≤ M*(j+1) := mul_le_mul_of_nonneg_left (by omega) hM.le
  have h2 : (m : ℤ)*(i+1) ≤ m*M := mul_le_mul_of_nonneg_left hright (by omega)
  rw [excess] at hup
  nlinarith

def peak (M m : ℕ) : ℕ := M-m+M.gcd m*(M/(2*M.gcd m))

theorem excess_shift (M m i j : ℕ) : excess M m i j = (M-m)+(M*j-m*i) := by
  rw [excess]
  ring

theorem Near.le_peak (h : Near M m i j) (hm : m ≤ M) : excess M m i j ≤ peak M m := by
  have hM : 0 < M := by
    rw [Near] at h
    omega
  have hg : 0 < M.gcd m := Nat.gcd_pos_of_pos_left m hM
  obtain ⟨c,hc⟩ : (M.gcd m : ℤ) ∣ M*j-m*i :=
    dvd_sub ((Int.natCast_dvd_natCast.mpr (Nat.gcd_dvd_left M m)).mul_right _)
      ((Int.natCast_dvd_natCast.mpr (Nat.gcd_dvd_right M m)).mul_right _)
  have hshift := excess_shift M m i j
  have hhalf : c*(2*(M.gcd m : ℤ)) ≤ M := by
    rw [Near] at h
    nlinarith
  have hquot : c ≤ (M/(2*M.gcd m) : ℕ) := by
    rw [Int.natCast_div]
    push_cast
    exact (Int.le_ediv_iff_mul_le (by omega)).mpr hhalf
  have hmul : (M.gcd m : ℤ)*c ≤ M.gcd m*(M/(2*M.gcd m) : ℕ) :=
    mul_le_mul_of_nonneg_left hquot (by omega)
  rw [hshift,hc,peak]
  push_cast [hm] at hmul ⊢
  omega

theorem exists_peak (hM : 0 < M) (hm : m ≤ M) : ∃ i < M, ∀ j, Near M m i j →
    excess M m i j = peak M m := by
  set t : ℤ := M.gcd m*(M/(2*M.gcd m) : ℕ) with ht
  have hMz : (0 : ℤ) < M := by omega
  have hbezout := Nat.gcd_eq_gcd_ab M m
  set k := -(M.gcdB m*(M/(2*M.gcd m) : ℕ))%(M : ℤ) with hk
  have hk0 : 0 ≤ k := Int.emod_nonneg _ hMz.ne'
  have hkM : k < M := Int.emod_lt_of_pos _ hMz
  refine ⟨k.toNat,by omega,fun j hnear => ?_⟩
  have hcast : ((k.toNat : ℕ) : ℤ) = k := by omega
  have hdvd : (M : ℤ) ∣ M*j-m*k.toNat-t := by
    rw [hcast]
    have hsub := Int.emod_add_mul_ediv (-(M.gcdB m*(M/(2*M.gcd m) : ℕ))) M
    rw [← hk] at hsub
    generalize -(M.gcdB m*(M/(2*M.gcd m) : ℕ))/(M : ℤ) = s at hsub
    refine ⟨j+m*s-M.gcdA m*(M/(2*M.gcd m) : ℕ),?_⟩
    rw [ht,hbezout,show k = -(M.gcdB m*(M/(2*M.gcd m) : ℕ))-M*s by omega]
    ring
  have hhalf : 2*t ≤ M := by
    have hle := Nat.div_mul_le_self M (2*M.gcd m)
    rw [ht]
    push_cast
    have : ((M/(2*M.gcd m)*(2*M.gcd m) : ℕ) : ℤ) ≤ M := by exact_mod_cast hle
    push_cast at this
    nlinarith
  have ht0 : 0 ≤ t := by positivity
  have hshift := excess_shift M m k.toNat j
  have heq : (M : ℤ)*j-m*k.toNat-t = 0 := by
    refine Int.eq_zero_of_abs_lt_dvd hdvd ?_
    rw [Near] at hnear
    rw [abs_lt]
    constructor <;> omega
  rw [hshift,peak]
  push_cast [hm] at ht ⊢
  omega

def Follows (p q : ℕ × ℕ) : Prop := q.1 = p.1+1 ∧ (q.2 = p.2 ∨ q.2 = p.2+1)

namespace Walk

theorem length (h : Walk W lo M m i j path) : path.length+i = M+1 := by
  induction h with
  | arrived => simp [Nat.add_comm]
  | straight _ _ _ _ ih =>
    rw [List.length_cons]
    omega
  | diagonal _ _ _ _ _ ih =>
    rw [List.length_cons]
    omega

theorem head (h : Walk W lo M m i j path) : path.head? = some (i,j) := by
  cases h with
  | arrived => rfl
  | straight => rfl
  | diagonal => rfl

theorem last (h : Walk W lo M m i j path) : path.getLast? = some (M,m) := by
  induction h with
  | arrived => rfl
  | straight _ _ _ _ ih => rw [List.getLast?_cons,ih]; rfl
  | diagonal _ _ _ _ _ ih => rw [List.getLast?_cons,ih]; rfl

theorem chain (h : Walk W lo M m i j path) : path.IsChain Follows := by
  induction h with
  | arrived => exact List.isChain_singleton _
  | straight _ _ _ hrest ih =>
    refine List.isChain_cons.mpr ⟨fun q hq => ?_,ih⟩
    obtain rfl := Option.some.inj (hrest.head.symm.trans hq)
    exact ⟨rfl,.inl rfl⟩
  | diagonal _ _ _ _ hrest ih =>
    refine List.isChain_cons.mpr ⟨fun q hq => ?_,ih⟩
    obtain rfl := Option.some.inj (hrest.head.symm.trans hq)
    exact ⟨rfl,.inr rfl⟩

theorem inside (h : Walk W lo M m i j path) :
    ∀ p ∈ path, i ≤ p.1 ∧ p.1 ≤ M ∧ j ≤ p.2 ∧ p.2 ≤ m := by
  induction h with
  | arrived => simp
  | @straight i j path hi _ _ hrest ih =>
    intro p hp
    rcases List.mem_cons.mp hp with rfl | hp
    · obtain ⟨-,-,h1,h2⟩ := ih _ (List.mem_of_head? hrest.head)
      exact ⟨le_rfl,hi.le,le_rfl,h1.trans h2⟩
    · have := ih p hp
      omega
  | @diagonal i j path hi hj _ _ hrest ih =>
    intro p hp
    rcases List.mem_cons.mp hp with rfl | hp
    · exact ⟨le_rfl,hi.le,le_rfl,hj.le⟩
    · have := ih p hp
      omega

/-- What is left to go up is not more than what is left to go to the right. -/
theorem height_le (h : Walk W lo M m i j path) : m+i ≤ M+j := by
  induction h with
  | arrived => omega
  | straight _ _ _ _ ih => omega
  | diagonal _ _ _ _ _ ih => omega

theorem chain_diagonal (h : Walk W lo M m i j path) (he : m+i = M+j) :
    path.IsChain fun p q => q.1 = p.1+1 ∧ q.2 = p.2+1 := by
  induction h with
  | arrived => exact List.isChain_singleton _
  | straight _ _ _ hrest _ =>
    have := hrest.height_le
    omega
  | diagonal _ _ _ _ hrest ih =>
    refine List.isChain_cons.mpr ⟨fun q hq => ?_,ih (by omega)⟩
    obtain rfl := Option.some.inj (hrest.head.symm.trans hq)
    exact ⟨rfl,rfl⟩

end Walk

section Arrival

variable (hm : m ≤ M) (hW : (M : ℤ) < W) (hlo : 2*lo ≤ 1-m)

include hm hlo in
theorem Near.wrap_eq (h : Near M m i j) (hpeak : peak M m < lo+W) :
    wrap W lo (excess M m i j) = excess M m i j := by
  have hle := h.le_peak hm
  refine wrap_eq_self ?_ (by omega)
  rw [Near] at h
  omega

include hm hlo in
theorem Near.walk (h : Near M m i j) (hpeak : peak M m < lo+W) (hi : i ≤ M) :
    ∃ path, Walk W lo M m i j path := by
  induction hn : M-i generalizing i j with
  | zero =>
    obtain rfl : i = M := by omega
    obtain rfl := h.arrives
    exact ⟨_,.arrived⟩
  | succ n ih =>
    have hlt : i < M := by omega
    have hwrap := h.wrap_eq hm hlo hpeak
    have hright : -m ≤ 2*wrap W lo (excess M m i j) := by
      rw [hwrap]
      exact h.right hm
    by_cases hup : 2*wrap W lo (excess M m i j) ≤ M
    · have hup' : 2*excess M m i j ≤ M := by rwa [hwrap] at hup
      obtain ⟨path,hrest⟩ := ih (h.diagonal hm hup') (by omega) (by omega)
      exact ⟨_,.diagonal hlt (lt_of_up hlt hup') hright hup hrest⟩
    · obtain ⟨path,hrest⟩ := ih (h.straight (by rwa [hwrap] at hup)) (by omega) (by omega)
      exact ⟨_,.straight hlt hright hup hrest⟩

include hm hW hlo

theorem Walk.reduced_le (h : Walk W lo M m i j path) :
    excess M m i j-wrap W lo (excess M m i j) ≤ excess M m M m-wrap W lo (excess M m M m) := by
  have hpos : 0 < W := by omega
  induction h with
  | arrived => exact le_rfl
  | @straight i j path hi hright hup hrest ih =>
    have hle := @wrap_le W lo hpos (wrap W lo (excess M m i j)+-m) (by omega)
    rw [excess_right,show excess M m i j-m = excess M m i j+-m by ring,wrap_add] at ih
    omega
  | @diagonal i j path hi hj hright hup hrest ih =>
    have hbase := @le_wrap W lo hpos (excess M m i j)
    have hle := @wrap_le W lo hpos (wrap W lo (excess M m i j)+(M-m)) (by omega)
    rw [excess_up,excess_right,show excess M m i j-m+M = excess M m i j+(M-m) by ring,
      wrap_add] at ih
    omega

theorem Walk.exact (h : Walk W lo M m i j path) (hend : wrap W lo (excess M m M m) = excess M m M m)
    (hwrap : wrap W lo (excess M m i j) = excess M m i j) (hnear : Near M m i j) :
    ∀ k, i ≤ k → k ≤ M → ∃ j', Near M m k j' ∧ wrap W lo (excess M m k j') = excess M m k j' := by
  have hpos : 0 < W := by omega
  induction h with
  | arrived =>
    intro k hk hkM
    obtain rfl : k = M := by omega
    exact ⟨m,hnear,hwrap⟩
  | @straight i j path hi hright hup hrest ih =>
    intro k hk hkM
    by_cases hki : k = i
    · exact hki ▸ ⟨j,hnear,hwrap⟩
    · have hnear' := hnear.straight (hwrap ▸ hup)
      have hreduced := hrest.reduced_le hm hW hlo
      refine ih ?_ hnear' k (by omega) hkM
      have hbelow := @wrap_le W lo hpos (excess M m (i+1) j) (by rw [Near] at hnear'; omega)
      omega
  | @diagonal i j path hi hj hright hup hrest ih =>
    intro k hk hkM
    by_cases hki : k = i
    · exact hki ▸ ⟨j,hnear,hwrap⟩
    · have hnear' := hnear.diagonal hm (hwrap ▸ hup)
      have hreduced := hrest.reduced_le hm hW hlo
      refine ih ?_ hnear' k (by omega) hkM
      have hbelow := @wrap_le W lo hpos (excess M m (i+1) (j+1)) (by rw [Near] at hnear'; omega)
      omega

/-- The first step does not go to the right from a reduced error term. -/
theorem Walk.start_exact (h : Walk W lo M m 0 0 path) (hM : 0 < M) (hsum : 0 < lo+W) :
    wrap W lo (excess M m 0 0) = excess M m 0 0 := by
  have hpos : 0 < W := by omega
  have hright : -m ≤ 2*wrap W lo (excess M m 0 0) := by
    cases h with
    | arrived => omega
    | straight _ hright => exact hright
    | diagonal _ _ hright => exact hright
  rw [excess_start] at hright ⊢
  by_contra hne
  have hhigh : lo+W ≤ M-m := by
    by_contra hlt
    exact hne (wrap_eq_self (by omega) (by omega))
  have hred : wrap W lo (M-m-W+W) = M-m-W := by
    rw [wrap,show (M : ℤ)-m-W+W-lo = M-m-W-lo+W by ring,Int.add_emod_right,
      Int.emod_eq_of_lt (by omega) (by omega)]
    omega
  rw [sub_add_cancel] at hred
  omega

theorem walk_iff (hsum : 0 < lo+W) : (∃ path, Walk W lo M m 0 0 path) ↔ peak M m < lo+W := by
  rcases Nat.eq_zero_or_pos M with hM | hM
  · subst hM
    obtain rfl : m = 0 := by omega
    exact ⟨fun _ => by simpa [peak] using hsum,fun _ => ⟨_,.arrived⟩⟩
  · constructor
    · rintro ⟨path,h⟩
      have hstart := h.start_exact hm hW hlo hM hsum
      obtain ⟨k,hk,hpeak⟩ := exists_peak hM hm
      obtain ⟨j,hnear,hwrap⟩ :=
        h.exact hm hW hlo (excess_end ▸ hstart) hstart (near_start hM) k (Nat.zero_le k) hk.le
      rw [← hpeak j hnear,← hwrap]
      exact wrap_lt (by omega) _
    · exact fun hpeak => (near_start hM).walk hm hlo hpeak (Nat.zero_le M)

end Arrival

end GridWalk
