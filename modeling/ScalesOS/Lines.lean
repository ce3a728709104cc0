import ScalesOS.GridWalk
import ScalesOS.Machine

/-!
# Lines

`fb_line` walks along the longer side of the box between the end points. All numbers are
signed 32-bit ones; twice the error term has to fit, too, and for long lines it does not.
-/

namespace ScalesOS
namespace Drawing

open GridWalk

/-- `coord_t`. -/
abbrev Coord := BitVec 32

structure Point where
  x : Coord
  y : Coord

/-- The `break` that ends the loop: at the end point, or one of the two further ones. -/
inductive Break
  | arrived
  | column
  | row
  deriving DecidableEq

/-- The variables of `fb_line` that its loop only reads. -/
structure Line where
  dx : Coord
  dy : Coord
  sx : Coord
  sy : Coord
  x1 : Coord
  y1 : Coord

def abs (num : Coord) : Coord := if num.slt 0 then -num else num

/-- The loop of `fb_line`, with the points given to `fb_pixel`. -/
def lineLoop (l : Line) : ℕ → Coord → Coord → Coord → Result (List Point × Break)
  | 0, _, _, _ => throw .loop
  | fuel+1, x0, y0, error =>
    if x0 = l.x1 ∧ y0 = l.y1 then pure ([⟨x0,y0⟩],.arrived)
    else
      let e2 := 2*error
      if l.dy.sle e2 ∧ x0 = l.x1 then pure ([⟨x0,y0⟩],.column)
      else
        let (error,x) := if l.dy.sle e2 then (error+l.dy,x0+l.sx) else (error,x0)
        if e2.sle l.dx ∧ y0 = l.y1 then pure ([⟨x0,y0⟩],.row)
        else
          let (error,y) := if e2.sle l.dx then (error+l.dx,y0+l.sy) else (error,y0)
          do
            let (points,last) ← lineLoop l fuel x y error
            pure (⟨x0,y0⟩::points,last)

def line (x0 y0 x1 y1 : Coord) : Line where
  dx := abs (x1-x0)
  sx := if x0.slt x1 then 1 else -1
  dy := -abs (y1-y0)
  sy := if y0.slt y1 then 1 else -1
  x1 := x1
  y1 := y1

def fbLine (fuel : ℕ) (x0 y0 x1 y1 : Coord) : Result (List Point × Break) :=
  let l := line x0 y0 x1 y1
  lineLoop l fuel x0 y0 (l.dx+l.dy)

/-- The lengths of the sides of the box. -/
def width (x0 x1 : Coord) : ℕ := (x1.toInt-x0.toInt).natAbs

/-- Two points in a row: one step along a longer side, at most one along the other. -/
structure Next (w h : ℕ) (p q : Point) : Prop where
  x : |q.x.toInt-p.x.toInt| ≤ 1
  y : |q.y.toInt-p.y.toInt| ≤ 1
  wide : h ≤ w → |q.x.toInt-p.x.toInt| = 1
  high : w ≤ h → |q.y.toInt-p.y.toInt| = 1

structure Connects (x0 y0 x1 y1 : Coord) (points : List Point) : Prop where
  length : points.length = max (width x0 x1) (width y0 y1)+1
  first : points.head? = some ⟨x0,y0⟩
  last : points.getLast? = some ⟨x1,y1⟩
  steps : points.IsChain (Next (width x0 x1) (width y0 y1))
  inside : ∀ p ∈ points, min x0.toInt x1.toInt ≤ p.x.toInt ∧ p.x.toInt ≤ max x0.toInt x1.toInt ∧
    min y0.toInt y1.toInt ≤ p.y.toInt ∧ p.y.toInt ≤ max y0.toInt y1.toInt

/-- The call ends at the end point, and the points it draws are a line. -/
def Draws (x0 y0 x1 y1 : Coord) : Prop :=
  ∃ fuel points, fbLine fuel x0 y0 x1 y1 = .ok (points,.arrived) ∧ Connects x0 y0 x1 y1 points

section Coordinates

variable {x0 x1 : Coord} {i j : ℕ}

def sign (x0 x1 : Coord) : ℤ := if x0.toInt < x1.toInt then 1 else -1

def coord (x0 x1 : Coord) (i : ℕ) : Coord := BitVec.ofInt 32 (x0.toInt+sign x0 x1*i)

theorem sign_eq (x0 x1 : Coord) : sign x0 x1 = 1 ∨ sign x0 x1 = -1 := by
  rw [sign]
  split
  · exact .inl rfl
  · exact .inr rfl

theorem sign_mul_width (x0 x1 : Coord) : x0.toInt+sign x0 x1*width x0 x1 = x1.toInt := by
  rw [sign,width]
  split <;> omega

theorem toInt_ofInt_of_range {e : ℤ} (hlo : -2^31 ≤ e) (hhi : e < 2^31) :
    (BitVec.ofInt 32 e).toInt = e := by
  rw [BitVec.toInt_ofInt]
  exact Int.bmod_eq_of_le (by norm_num; omega) (by norm_num; omega)

theorem coord_between (hi : i ≤ width x0 x1) :
    min x0.toInt x1.toInt ≤ x0.toInt+sign x0 x1*i ∧
    x0.toInt+sign x0 x1*i ≤ max x0.toInt x1.toInt := by
  have hend := sign_mul_width x0 x1
  rcases sign_eq x0 x1 with hs | hs <;> rw [hs] at hend ⊢ <;> omega

theorem toInt_coord (hi : i ≤ width x0 x1) : (coord x0 x1 i).toInt = x0.toInt+sign x0 x1*i := by
  have hbetween := coord_between hi
  have h0 := BitVec.le_toInt (x:=x0)
  have h0' := BitVec.toInt_lt (x:=x0)
  have h1 := BitVec.le_toInt (x:=x1)
  have h1' := BitVec.toInt_lt (x:=x1)
  rw [coord]
  refine toInt_ofInt_of_range ?_ ?_ <;> omega

theorem coord_zero : coord x0 x1 0 = x0 := by
  rw [coord,Nat.cast_zero,mul_zero,add_zero,BitVec.ofInt_toInt]

theorem coord_end : coord x0 x1 (width x0 x1) = x1 := by
  rw [coord,sign_mul_width,BitVec.ofInt_toInt]

theorem coord_inj (hi : i ≤ width x0 x1) (hj : j ≤ width x0 x1) :
    coord x0 x1 i = coord x0 x1 j ↔ i = j := by
  constructor
  · intro h
    have he := congrArg BitVec.toInt h
    rw [toInt_coord hi,toInt_coord hj] at he
    rcases sign_eq x0 x1 with hs | hs <;> rw [hs] at he <;> omega
  · exact fun h => h ▸ rfl

theorem coord_eq_end (hi : i ≤ width x0 x1) : coord x0 x1 i = x1 ↔ i = width x0 x1 := by
  conv_lhs => rhs; rw [← @coord_end x0 x1]
  exact coord_inj hi le_rfl

theorem coord_succ : coord x0 x1 (i+1) = coord x0 x1 i+(if x0.slt x1 then 1 else -1) := by
  have hs : (if x0.slt x1 then 1 else -1 : Coord) = BitVec.ofInt 32 (sign x0 x1) := by
    rw [sign]
    simp only [BitVec.slt_iff_toInt_lt]
    split <;> rfl
  rw [hs,coord,coord,← BitVec.ofInt_add]
  congr 1
  push_cast
  ring

theorem abs_sub (hw : width x0 x1 < 2^31) : abs (x1-x0) = BitVec.ofInt 32 (width x0 x1) := by
  have hsub : (x1-x0).toInt = x1.toInt-x0.toInt := by
    rw [BitVec.toInt_sub]
    rw [width] at hw
    exact Int.bmod_eq_of_le (by norm_num; omega) (by norm_num; omega)
  refine BitVec.eq_of_toInt_eq ?_
  rw [toInt_ofInt_of_range (by omega) (by omega),abs,width]
  rw [width] at hw
  have hzero : (0 : Coord).toInt = 0 := rfl
  by_cases hneg : (x1-x0).slt 0
  · rw [if_pos hneg,BitVec.toInt_neg,hsub]
    rw [BitVec.slt_iff_toInt_lt,hsub,hzero] at hneg
    rw [Int.bmod_eq_of_le (by norm_num; omega) (by norm_num; omega)]
    omega
  · rw [if_neg hneg,hsub]
    rw [BitVec.slt_iff_toInt_lt,hsub,hzero] at hneg
    omega

end Coordinates

theorem toInt_two_mul (e : ℤ) : (2*BitVec.ofInt 32 e : Coord).toInt = 2*wrap (2^31) (-2^30) e := by
  have htwo : (2 : Coord) = BitVec.ofInt 32 2 := rfl
  rw [htwo,← BitVec.ofInt_mul,BitVec.toInt_ofInt,wrap,Int.bmod]
  norm_num
  split <;> omega

/-- What `e2` is compared with the sides as. -/
def doubled (a b i j : ℕ) : ℤ := 2*wrap (2^31) (-2^30) (excess a b i j)

def nextX (a b i j : ℕ) : ℕ := if -b ≤ doubled a b i j then i+1 else i
def nextY (a b i j : ℕ) : ℕ := if doubled a b i j ≤ a then j+1 else j

/-- The loop after `i` steps along the first and `j` steps along the second side comes to the
end. -/
inductive Arrives (a b : ℕ) : ℕ → ℕ → List (ℕ × ℕ) → Prop
  | arrived : Arrives a b a b [(a,b)]
  | step {i j : ℕ} {path : List (ℕ × ℕ)} (hne : ¬ (i = a ∧ j = b)) (hx : -b ≤ doubled a b i j →
      i ≠ a)
      (hy : doubled a b i j ≤ a → j ≠ b)
      (rest : Arrives a b (nextX a b i j) (nextY a b i j) path) : Arrives a b i j ((i,j)::path)

section Loop

variable {x0 y0 x1 y1 : Coord} {i j fuel : ℕ} {path : List (ℕ × ℕ)} {points : List Point}

/-- A point of the grid on the screen. -/
def place (x0 y0 x1 y1 : Coord) (p : ℕ × ℕ) : Point := ⟨coord x0 x1 p.1,coord y0 y1 p.2⟩

def errorAt (x0 y0 x1 y1 : Coord) (i j : ℕ) : Coord :=
  BitVec.ofInt 32 (excess (width x0 x1) (width y0 y1) i j)

theorem line_dx (hw : width x0 x1 < 2^31) : (line x0 y0 x1 y1).dx.toInt = width x0 x1 := by
  rw [line,abs_sub hw]
  exact toInt_ofInt_of_range (by omega) (by omega)

theorem line_dy_eq (hh : width y0 y1 < 2^31) :
    (line x0 y0 x1 y1).dy = BitVec.ofInt 32 (-width y0 y1) := by
  rw [line,abs_sub hh,BitVec.ofInt_neg]

theorem line_dy (hh : width y0 y1 < 2^31) : (line x0 y0 x1 y1).dy.toInt = -width y0 y1 := by
  rw [line_dy_eq hh]
  exact toInt_ofInt_of_range (by omega) (by omega)

theorem errorAt_start (hw : width x0 x1 < 2^31) (hh : width y0 y1 < 2^31) :
    (line x0 y0 x1 y1).dx+(line x0 y0 x1 y1).dy = errorAt x0 y0 x1 y1 0 0 := by
  rw [line_dy_eq hh,errorAt,excess_start,line,abs_sub hw,← BitVec.ofInt_add,sub_eq_add_neg]

theorem errorAt_x (hh : width y0 y1 < 2^31) :
    errorAt x0 y0 x1 y1 i j+(line x0 y0 x1 y1).dy = errorAt x0 y0 x1 y1 (i+1) j := by
  rw [line_dy_eq hh,errorAt,errorAt,excess_right,← BitVec.ofInt_add,sub_eq_add_neg]

theorem errorAt_y (hw : width x0 x1 < 2^31) :
    errorAt x0 y0 x1 y1 i j+(line x0 y0 x1 y1).dx = errorAt x0 y0 x1 y1 i (j+1) := by
  rw [line,abs_sub hw,errorAt,errorAt,excess_up,← BitVec.ofInt_add]

theorem dy_sle (hh : width y0 y1 < 2^31) :
    (line x0 y0 x1 y1).dy.sle (2*errorAt x0 y0 x1 y1 i j) = true ↔
    -width y0 y1 ≤ doubled (width x0 x1) (width y0 y1) i j := by
  rw [BitVec.sle_iff_toInt_le,line_dy hh,errorAt,toInt_two_mul,doubled]

theorem sle_dx (hw : width x0 x1 < 2^31) :
    (2*errorAt x0 y0 x1 y1 i j).sle (line x0 y0 x1 y1).dx = true ↔
    doubled (width x0 x1) (width y0 y1) i j ≤ width x0 x1 := by
  rw [BitVec.sle_iff_toInt_le,line_dx hw,errorAt,toInt_two_mul,doubled]

variable (hw : width x0 x1 < 2^31) (hh : width y0 y1 < 2^31)

include hw hh

theorem lineLoop_succ (hi : i ≤ width x0 x1) (hj : j ≤ width y0 y1) :
    lineLoop (line x0 y0 x1 y1) (fuel+1) (coord x0 x1 i) (coord y0 y1 j) (errorAt x0 y0 x1 y1 i j) =
      let a := width x0 x1
      let b := width y0 y1
      let p := place x0 y0 x1 y1 (i,j)
      if i = a ∧ j = b then pure ([p],.arrived)
      else if -b ≤ doubled a b i j ∧ i = a then pure ([p],.column)
      else if doubled a b i j ≤ a ∧ j = b then pure ([p],.row)
      else (do
        let (points,last) ← lineLoop (line x0 y0 x1 y1) fuel (coord x0 x1 (nextX a b i j))
          (coord y0 y1 (nextY a b i j))
          (errorAt x0 y0 x1 y1 (nextX a b i j) (nextY a b i j))
        pure (p::points,last)) := by
  have hx1 : (line x0 y0 x1 y1).x1 = x1 := rfl
  have hy1 : (line x0 y0 x1 y1).y1 = y1 := rfl
  have hsx : (line x0 y0 x1 y1).sx = if x0.slt x1 then 1 else -1 := rfl
  have hsy : (line x0 y0 x1 y1).sy = if y0.slt y1 then 1 else -1 := rfl
  simp only [lineLoop,hx1,hy1,coord_eq_end hi,coord_eq_end hj,dy_sle hh,sle_dx hw,place,nextX,nextY]
  split_ifs <;> simp only [hsx,hsy,errorAt_x hh,errorAt_y hw,← coord_succ]

theorem Arrives.lineLoop (h : Arrives (width x0 x1) (width y0 y1) i j path) (hi : i ≤ width x0 x1)
    (hj : j ≤ width y0 y1) :
    lineLoop (line x0 y0 x1 y1) path.length (coord x0 x1 i) (coord y0 y1 j)
      (errorAt x0 y0 x1 y1 i j) =
      .ok (path.map (place x0 y0 x1 y1),.arrived) := by
  induction h with
  | arrived =>
    rw [List.length_singleton,lineLoop_succ hw hh le_rfl le_rfl]
    exact if_pos ⟨rfl,rfl⟩
  | @step i j path hne hx hy _ ih =>
    have hret := ih (by rw [nextX]; split <;> grind) (by rw [nextY]; split <;> grind)
    rw [List.length_cons,lineLoop_succ hw hh hi hj]
    simp only
    rw [if_neg hne,if_neg fun h => hx h.1 h.2,if_neg fun h => hy h.1 h.2,hret]
    rfl

theorem arrives_of_lineLoop (hi : i ≤ width x0 x1) (hj : j ≤ width y0 y1)
    (hret : lineLoop (line x0 y0 x1 y1) fuel (coord x0 x1 i) (coord y0 y1 j)
      (errorAt x0 y0 x1 y1 i j) =
      .ok (points,.arrived)) :
    ∃ path, Arrives (width x0 x1) (width y0 y1) i j path ∧
        points = path.map (place x0 y0 x1 y1) := by
  induction fuel generalizing i j points with
  | zero => cases hret
  | succ fuel ih =>
    rw [lineLoop_succ hw hh hi hj] at hret
    simp only at hret
    by_cases hend : i = width x0 x1 ∧ j = width y0 y1
    · rw [if_pos hend] at hret
      obtain ⟨rfl,rfl⟩ := hend
      exact ⟨_,.arrived,(Prod.mk.inj (Except.ok.inj hret)).1.symm⟩
    rw [if_neg hend] at hret
    by_cases hx : -width y0 y1 ≤ doubled (width x0 x1) (width y0 y1) i j ∧ i = width x0 x1
    · rw [if_pos hx] at hret
      cases hret
    rw [if_neg hx] at hret
    by_cases hy : doubled (width x0 x1) (width y0 y1) i j ≤ width x0 x1 ∧ j = width y0 y1
    · rw [if_pos hy] at hret
      cases hret
    rw [if_neg hy] at hret
    obtain ⟨⟨rest,last⟩,hrest,hret⟩ := Result.bind_eq_ok.mp hret
    obtain ⟨rfl,rfl⟩ := Prod.mk.inj (Except.ok.inj hret)
    obtain ⟨path,harrives,rfl⟩ :=
      ih (by rw [nextX]; split <;> grind) (by rw [nextY]; split <;> grind) hrest
    exact ⟨_,.step hend (fun h he => hx ⟨h,he⟩) (fun h he => hy ⟨h,he⟩) harrives,rfl⟩

end Loop

section Sides

variable {a b i j : ℕ} {path : List (ℕ × ℕ)}

theorem Arrives.head (h : Arrives a b i j path) : path.head? = some (i,j) := by
  cases h with
  | arrived => rfl
  | step => rfl

theorem arrives_of_walk (h : Walk (2^31) (-2^30) a b i j path) : Arrives a b i j path := by
  induction h with
  | arrived => exact .arrived
  | straight hi hright hup _ ih =>
    refine .step (fun he => hi.ne he.1) (fun _ => hi.ne) (fun hle => absurd hle hup) ?_
    rw [nextX,nextY,doubled,if_pos hright,if_neg hup]
    exact ih
  | diagonal hi hj hright hup _ ih =>
    refine .step (fun he => hi.ne he.1) (fun _ => hi.ne) (fun _ => hj.ne) ?_
    rw [nextX,nextY,doubled,if_pos hright,if_pos hup]
    exact ih

theorem Arrives.walk (h : Arrives a b i j path) (hi : i ≤ a) (hj : j ≤ b)
    (hchain : path.IsChain fun p q => q.1 ≠ p.1) :
    Walk (2^31) (-2^30) a b i j path := by
  induction h with
  | arrived => exact .arrived
  | @step i j path hne hx hy hrest ih =>
    obtain ⟨hhead,hchain⟩ := List.isChain_cons.mp hchain
    have hmoves := hhead _ hrest.head
    have hright : -b ≤ doubled a b i j := by
      by_contra hno
      exact hmoves (by rw [nextX,if_neg hno])
    have hi' := lt_of_le_of_ne hi (hx hright)
    rw [nextX,if_pos hright] at ih
    by_cases hup : doubled a b i j ≤ a
    · have hj' := lt_of_le_of_ne hj (hy hup)
      rw [nextY,if_pos hup] at ih
      exact .diagonal hi' hj' hright hup (ih hi' hj' hchain)
    · rw [nextY,if_neg hup] at ih
      exact .straight hi' hright hup (ih hi' hj hchain)

theorem doubled_swap (a b i j : ℕ) :
    doubled a b i j = -(2*wrap (2^31) (1-2^30) (excess b a j i)) := by
  have hneg : excess b a j i = -excess a b i j := by
    rw [excess,excess]
    ring
  rw [doubled,hneg,wrap,wrap]
  omega

theorem arrives_of_walk_swap (h : Walk (2^31) (1-2^30) b a j i path) :
    Arrives a b i j (path.map Prod.swap) := by
  induction h with
  | arrived => exact .arrived
  | @straight j i path hj hright hup _ ih =>
    have hx : ¬ -b ≤ doubled a b i j := by
      rw [doubled_swap]
      omega
    have hy : doubled a b i j ≤ a := by
      rw [doubled_swap]
      omega
    refine .step (fun he => hj.ne he.2) (fun hle => absurd hle hx) (fun _ => hj.ne) ?_
    rw [nextX,if_neg hx,nextY,if_pos hy]
    exact ih
  | @diagonal j i path hj hi hright hup _ ih =>
    have hx : -b ≤ doubled a b i j := by
      rw [doubled_swap]
      omega
    have hy : doubled a b i j ≤ a := by
      rw [doubled_swap]
      omega
    refine .step (fun he => hj.ne he.2) (fun _ => hi.ne) (fun _ => hj.ne) ?_
    rw [nextX,if_pos hx,nextY,if_pos hy]
    exact ih

theorem Arrives.walk_swap (h : Arrives a b i j path) (hi : i ≤ a) (hj : j ≤ b)
    (hchain : path.IsChain fun p q => q.2 ≠ p.2) :
    Walk (2^31) (1-2^30) b a j i (path.map Prod.swap) := by
  induction h with
  | arrived => exact .arrived
  | @step i j path hne hx hy hrest ih =>
    obtain ⟨hhead,hchain⟩ := List.isChain_cons.mp hchain
    have hmoves := hhead _ hrest.head
    have hup : doubled a b i j ≤ a := by
      by_contra hno
      exact hmoves (by rw [nextY,if_neg hno])
    have hj' := lt_of_le_of_ne hj (hy hup)
    have hswap := doubled_swap a b i j
    rw [nextY,if_pos hup] at ih
    by_cases hright : -b ≤ doubled a b i j
    · have hi' := lt_of_le_of_ne hi (hx hright)
      rw [nextX,if_pos hright] at ih
      exact .diagonal hj' hi' (by omega) (by omega) (ih hi' hj' hchain)
    · rw [nextX,if_neg hright] at ih
      exact .straight hj' (by omega) (by omega) (ih hi hj' hchain)

end Sides

section Points

variable {x0 y0 x1 y1 : Coord} {path : List (ℕ × ℕ)}

theorem abs_step_le {s : ℤ} {m n : ℕ} (hs : s = 1 ∨ s = -1) (h : n = m ∨ n = m+1) :
    |s*((n : ℤ)-m)| ≤ 1 := by
  rcases hs with rfl | rfl <;> rcases h with rfl | rfl <;> simp

theorem abs_step_eq {s : ℤ} {m n : ℕ} (hs : s = 1 ∨ s = -1) (h : n = m+1) :
    |s*((n : ℤ)-m)| = 1 := by
  rcases hs with rfl | rfl <;> subst h <;> simp

theorem connects_of_path (hne : path.head? = some (0,0))
    (hlast : path.getLast? = some (width x0 x1,width y0 y1))
    (hlength : path.length = max (width x0 x1) (width y0 y1)+1)
    (hinside : ∀ p ∈ path, p.1 ≤ width x0 x1 ∧ p.2 ≤ width y0 y1)
    (hchain : path.IsChain fun p q => (q.1 = p.1 ∨ q.1 = p.1+1) ∧ (q.2 = p.2 ∨ q.2 = p.2+1) ∧
      (width y0 y1 ≤ width x0 x1 → q.1 = p.1+1) ∧ (width x0 x1 ≤ width y0 y1 → q.2 = p.2+1)) :
    Connects x0 y0 x1 y1 (path.map (place x0 y0 x1 y1)) where
  length := by rw [List.length_map,hlength]
  first := by rw [List.head?_map,hne,Option.map_some,place,coord_zero,coord_zero]
  last := by rw [List.getLast?_map,hlast,Option.map_some,place,coord_end,coord_end]
  inside p hp := by
    obtain ⟨q,hq,rfl⟩ := List.mem_map.mp hp
    obtain ⟨hx,hy⟩ := hinside q hq
    rw [place,toInt_coord hx,toInt_coord hy]
    exact ⟨(coord_between hx).1,(coord_between hx).2,(coord_between hy).1,(coord_between hy).2⟩
  steps := by
    rw [List.isChain_map]
    refine hchain.imp_of_mem_imp fun p q hp hq hstep => ?_
    obtain ⟨hx,hy,hwide,hhigh⟩ := hstep
    obtain ⟨hpx,hpy⟩ := hinside p hp
    obtain ⟨hqx,hqy⟩ := hinside q hq
    have hdx :
        (place x0 y0 x1 y1 q).x.toInt-(place x0 y0 x1 y1 p).x.toInt = sign x0 x1*(q.1-p.1) := by
      rw [place,place,toInt_coord hpx,toInt_coord hqx]
      ring
    have hdy :
        (place x0 y0 x1 y1 q).y.toInt-(place x0 y0 x1 y1 p).y.toInt = sign y0 y1*(q.2-p.2) := by
      rw [place,place,toInt_coord hpy,toInt_coord hqy]
      ring
    exact {
      x := hdx ▸ abs_step_le (sign_eq _ _) hx
      y := hdy ▸ abs_step_le (sign_eq _ _) hy
      wide := fun h => hdx ▸ abs_step_eq (sign_eq _ _) (hwide h)
      high := fun h => hdy ▸ abs_step_eq (sign_eq _ _) (hhigh h) }

/-- The points of a line that make a step to the right come from such a path. -/
theorem chain_of_steps {w h : ℕ} (hsteps : (path.map (place x0 y0 x1 y1)).IsChain (Next w h)) :
    (h ≤ w → path.IsChain fun p q => q.1 ≠ p.1) ∧ (w ≤ h → path.IsChain fun p q => q.2 ≠ p.2) := by
  rw [List.isChain_map] at hsteps
  refine ⟨fun hle => hsteps.imp fun p q hnext he => ?_,fun hle => hsteps.imp fun p q hnext he => ?_⟩
  · have := hnext.wide hle
    simp [place,he] at this
  · have := hnext.high hle
    simp [place,he] at this

/-- The largest of the doubled error terms of the line has to fit; the most negative number is there
for high lines only. -/
def Fits (a b : ℕ) : Prop := if b ≤ a then peak a b < 2^30 else peak b a ≤ 2^30

instance (a b : ℕ) : Decidable (Fits a b) := inferInstanceAs (Decidable (ite _ _ _))

variable (hw : width x0 x1 < 2^31) (hh : width y0 y1 < 2^31)

include hw hh

theorem draws_of_arrives (h : Arrives (width x0 x1) (width y0 y1) 0 0 path)
    (hconnects : Connects x0 y0 x1 y1 (path.map (place x0 y0 x1 y1))) : Draws x0 y0 x1 y1 := by
  refine ⟨path.length,_,?_,hconnects⟩
  have hret := h.lineLoop hw hh (Nat.zero_le _) (Nat.zero_le _)
  rwa [coord_zero,coord_zero,← errorAt_start hw hh] at hret

theorem Draws.exists_path (h : Draws x0 y0 x1 y1) :
    ∃ path, Arrives (width x0 x1) (width y0 y1) 0 0 path ∧
    (width y0 y1 ≤ width x0 x1 → path.IsChain fun p q => q.1 ≠ p.1) ∧
    (width x0 x1 ≤ width y0 y1 → path.IsChain fun p q => q.2 ≠ p.2) := by
  obtain ⟨fuel,points,hret,hconnects⟩ := h
  have hloop :
    lineLoop (line x0 y0 x1 y1) fuel (coord x0 x1 0) (coord y0 y1 0) (errorAt x0 y0 x1 y1 0 0) =
      .ok (points,.arrived) := by
    rw [coord_zero,coord_zero,← errorAt_start hw hh]
    exact hret
  obtain ⟨path,harrives,rfl⟩ := arrives_of_lineLoop hw hh (Nat.zero_le _) (Nat.zero_le _) hloop
  exact ⟨path,harrives,chain_of_steps hconnects.steps⟩

theorem draws_iff_wide (hle : width y0 y1 ≤ width x0 x1) : Draws x0 y0 x1 y1 ↔
    peak (width x0 x1) (width y0 y1) < 2^30 := by
  have hwalk := @walk_iff (2^31) (-2^30) _ _ hle (by omega) (by omega) (by norm_num)
  have hbound : ((peak (width x0 x1) (width y0 y1) : ℕ) : ℤ) < -2^30+2^31 ↔
    peak (width x0 x1) (width y0 y1) < 2^30 := by omega
  rw [← hbound,← hwalk]
  constructor
  · intro h
    obtain ⟨path,harrives,hchain,-⟩ := h.exists_path hw hh
    exact ⟨path,harrives.walk (Nat.zero_le _) (Nat.zero_le _) (hchain hle)⟩
  · rintro ⟨path,hpath⟩
    refine draws_of_arrives hw hh (arrives_of_walk hpath)
      (connects_of_path hpath.head hpath.last ?_ ?_ ?_)
    · rw [max_eq_left hle,← hpath.length,Nat.add_zero]
    · exact fun p hp => ⟨(hpath.inside p hp).2.1,(hpath.inside p hp).2.2.2⟩
    · by_cases hsame : width y0 y1 = width x0 x1
      · exact (hpath.chain_diagonal (by omega)).imp fun p q hpq =>
          ⟨.inr hpq.1,.inr hpq.2,fun _ => hpq.1,fun _ => hpq.2⟩
      · exact hpath.chain.imp fun p q hpq => ⟨.inr hpq.1,hpq.2,fun _ => hpq.1,fun h => by omega⟩

theorem draws_iff_high (hlt : width x0 x1 < width y0 y1) : Draws x0 y0 x1 y1 ↔
    peak (width y0 y1) (width x0 x1) ≤ 2^30 := by
  have hwalk := @walk_iff (2^31) (1-2^30) _ _ hlt.le (by omega) (by omega) (by norm_num)
  have hbound : ((peak (width y0 y1) (width x0 x1) : ℕ) : ℤ) < 1-2^30+2^31 ↔
    peak (width y0 y1) (width x0 x1) ≤ 2^30 := by omega
  rw [← hbound,← hwalk]
  constructor
  · intro h
    obtain ⟨path,harrives,-,hchain⟩ := h.exists_path hw hh
    exact ⟨_,harrives.walk_swap (Nat.zero_le _) (Nat.zero_le _) (hchain hlt.le)⟩
  · rintro ⟨path,hpath⟩
    refine draws_of_arrives hw hh (arrives_of_walk_swap hpath) (connects_of_path ?_ ?_ ?_ ?_ ?_)
    · rw [List.head?_map,hpath.head]; rfl
    · rw [List.getLast?_map,hpath.last]; rfl
    · rw [List.length_map,max_eq_right hlt.le,← hpath.length,Nat.add_zero]
    · intro p hp
      obtain ⟨q,hq,rfl⟩ := List.mem_map.mp hp
      exact ⟨(hpath.inside q hq).2.2.2,(hpath.inside q hq).2.1⟩
    · rw [List.isChain_map]
      exact hpath.chain.imp fun p q hpq => ⟨hpq.2,.inr hpq.1,fun h => by omega,fun _ => hpq.1⟩

/-- A line is drawn from one end to the other if and only if its largest doubled error term fits. -/
theorem draws_iff : Draws x0 y0 x1 y1 ↔ Fits (width x0 x1) (width y0 y1) := by
  rw [Fits]
  split
  · rename_i hle
    exact draws_iff_wide hw hh hle
  · rename_i hlt
    exact draws_iff_high hw hh (not_le.mp hlt)

end Points

/-- A steep line. -/
theorem draws_iff_steep : Draws 3 (-2) 0 5 ∧ Fits 3 7 :=
  have hfits : Fits 3 7 := by decide
  ⟨(@draws_iff 3 (-2) 0 5 (by decide) (by decide)).mpr hfits,hfits⟩

/-- A horizontal line of 2^30 steps ends with its first point. -/
theorem long_line_breaks : ¬ ∀ x0 y0 x1 y1 : Coord, width x0 x1 < 2^31 → width y0 y1 < 2^31 →
    Draws x0 y0 x1 y1 := by
  intro h
  obtain ⟨fuel,points,hret,-⟩ := h 0 0 0x40000000 0 (by decide) (by decide)
  cases fuel with
  | zero => cases hret
  | succ fuel =>
    have hrow : fbLine (fuel+1) 0 0 0x40000000 0 = .ok ([⟨0,0⟩],.row) := rfl
    cases hrow.symm.trans hret

end Drawing
end ScalesOS
