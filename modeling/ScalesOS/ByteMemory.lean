import Mathlib.Logic.Function.Basic
import Mathlib.Tactic

/-! Byte-addressed memory with little-endian 32-bit words, and the read-over-write
and framing facts that programs over it need. -/
namespace ByteMemory

abbrev Mem := ℕ → BitVec 8

def read32 (m : Mem) (a : ℕ) : ℕ :=
  (m a).toNat+0x100*(m (a+1)).toNat+0x10000*(m (a+2)).toNat+0x1000000*(m (a+3)).toNat

def read16 (m : Mem) (a : ℕ) : ℕ := (m a).toNat+0x100*(m (a+1)).toNat

def write32 (m : Mem) (a v : ℕ) : Mem := fun x =>
  if x = a then BitVec.ofNat 8 v
  else if x = a+1 then BitVec.ofNat 8 (v/0x100)
  else if x = a+2 then BitVec.ofNat 8 (v/0x10000)
  else if x = a+3 then BitVec.ofNat 8 (v/0x1000000)
  else m x

/-- The result of `memmove`: the destination gets what the source held before. -/
def copy (m : Mem) (dst src n : ℕ) : Mem := fun x =>
  if dst ≤ x ∧ x < dst+n then m (src+(x-dst)) else m x

/-- The `n` bytes from `a` on. -/
def load (m : Mem) (a n : ℕ) : List (BitVec 8) := (List.range n).map fun i => m (a+i)

/-- The memory after the bytes of `data` have been stored from `a` on. -/
def store (m : Mem) (a : ℕ) (data : List (BitVec 8)) : Mem := fun x =>
  if a ≤ x ∧ x < a+data.length then data.getD (x-a) 0 else m x

/-- The memory `m` after `n` bytes have been copied to `a` from the address `b` of another
memory. -/
def transfer (m m' : Mem) (a b n : ℕ) : Mem := fun x => if a ≤ x ∧ x < a+n then
    m' (b+(x-a)) else m x

/-- The loop `for(i = n-1; i >= 0; i--) to[i] = from[i]`. -/
def copyDown (m : Mem) (dst src : ℕ) : ℕ → Mem
  | 0 => m
  | n+1 => copyDown (Function.update m (dst+n) (m (src+n))) dst src n

/-- The loop `for(i = 0; i < n; i++) to[i] = from[i]`. -/
def copyUp (m : Mem) (dst src : ℕ) : ℕ → Mem
  | 0 => m
  | n+1 => copyUp (Function.update m dst (m src)) (dst+1) (src+1) n

theorem read32_lt (m : Mem) (a : ℕ) : read32 m a < 0x100000000 := by
  have h0 := (m a).isLt
  have h1 := (m (a+1)).isLt
  have h2 := (m (a+2)).isLt
  have h3 := (m (a+3)).isLt
  simp only [read32]
  omega

@[simp] theorem read32_write32 (m : Mem) (a v : ℕ) :
    read32 (write32 m a v) a = v%0x100000000 := by
  simp only [read32,write32]
  simp
  omega

theorem write32_outside (m : Mem) {a v x : ℕ} (h : x < a ∨ a+4 ≤ x) : write32 m a v x = m x := by
  simp only [write32]
  rw [if_neg (by omega),if_neg (by omega),if_neg (by omega),if_neg (by omega)]

theorem read32_congr {m m' : Mem} {a : ℕ} (h : ∀ x, a ≤ x → x < a+4 → m' x = m x) :
    read32 m' a = read32 m a := by
  simp only [read32]
  rw [h a (by omega) (by omega),h (a+1) (by omega) (by omega),h (a+2) (by omega) (by omega),
    h (a+3) (by omega) (by omega)]

theorem read16_lt (m : Mem) (a : ℕ) : read16 m a < 0x10000 := by
  have h0 := (m a).isLt
  have h1 := (m (a+1)).isLt
  simp only [read16]
  omega

theorem read16_congr {m m' : Mem} {a : ℕ} (h : ∀ x, a ≤ x → x < a+2 → m' x = m x) :
    read16 m' a = read16 m a := by
  simp only [read16]
  rw [h a (by omega) (by omega),h (a+1) (by omega) (by omega)]

theorem copy_outside (m : Mem) {dst src n x : ℕ} (h : x < dst ∨ dst+n ≤ x) :
    copy m dst src n x = m x := by
  rw [copy,if_neg (by omega)]

theorem copy_inside (m : Mem) {dst src n i : ℕ} (h : i < n) :
    copy m dst src n (dst+i) = m (src+i) := by
  rw [copy,if_pos (by omega),Nat.add_sub_cancel_left]

/-- Copying from the top is right when the destination is not below the source. -/
theorem copyDown_eq (m : Mem) {dst src : ℕ} (n : ℕ) (h : src ≤ dst) :
    copyDown m dst src n = copy m dst src n := by
  induction n generalizing m with
  | zero =>
    funext x
    rw [copyDown,copy_outside m (by omega)]
  | succ n ih =>
    rw [copyDown,ih]
    funext x
    simp only [copy]
    by_cases hx : x = dst+n
    · subst hx
      rw [if_neg (by omega),if_pos (by omega),Function.update_self]
      exact congrArg m (by omega)
    · by_cases hin : dst ≤ x ∧ x < dst+n
      · rw [if_pos hin,if_pos (by omega),Function.update_of_ne (by omega)]
      · rw [if_neg hin,if_neg (by omega),Function.update_of_ne hx]

/-- Copying from the bottom is right when the source does not start inside what has
been written. -/
theorem copyUp_eq (m : Mem) {dst src : ℕ} (n : ℕ) (h : dst ≤ src ∨ src+n ≤ dst) :
    copyUp m dst src n = copy m dst src n := by
  induction n generalizing m dst src with
  | zero =>
    funext x
    rw [copyUp,copy_outside m (by omega)]
  | succ n ih =>
    rw [copyUp,ih _ (by omega)]
    funext x
    simp only [copy]
    by_cases hx : x = dst
    · subst hx
      rw [if_neg (by omega),if_pos (by omega),Function.update_self]
      exact congrArg m (by omega)
    · by_cases hin : dst+1 ≤ x ∧ x < dst+1+n
      · rw [if_pos hin,if_pos (by omega),Function.update_of_ne (by omega)]
        exact congrArg m (by omega)
      · rw [if_neg hin,if_neg (by omega),Function.update_of_ne hx]

@[simp] theorem length_load (m : Mem) (a n : ℕ) : (load m a n).length = n := by
  simp [load]

theorem getElem?_load (m : Mem) (a : ℕ) {n i : ℕ} (h : i < n) :
    (load m a n)[i]? = some (m (a+i)) := by
  simp [load,h]

theorem getD_load (m : Mem) (a : ℕ) {n i : ℕ} (h : i < n) : (load m a n).getD i 0 = m (a+i) := by
  rw [List.getD_eq_getElem?_getD,getElem?_load m a h,Option.getD_some]

theorem load_congr {m m' : Mem} {a n : ℕ} (h : ∀ x, a ≤ x → x < a+n → m' x = m x) :
    load m' a n = load m a n := by
  apply List.map_congr_left
  intro i hi
  have hin := List.mem_range.mp hi
  exact h (a+i) (by omega) (by omega)

@[simp] theorem load_zero (m : Mem) (a : ℕ) : load m a 0 = [] := rfl

theorem load_add (m : Mem) (a n k : ℕ) : load m a (n+k) = load m a n++load m (a+n) k := by
  simp only [load,List.range_add,List.map_append,List.map_map]
  congr 1
  apply List.map_congr_left
  intro i _
  simp only [Function.comp_apply,Nat.add_assoc]

theorem store_outside (m : Mem) {a x : ℕ} {data : List (BitVec 8)} (h : x < a ∨ a+data.length ≤ x) :
    store m a data x = m x := by
  rw [store,if_neg (by omega)]

theorem store_inside (m : Mem) (a : ℕ) {i : ℕ} {data : List (BitVec 8)} (h : i < data.length) :
    store m a data (a+i) = data.getD i 0 := by
  rw [store,if_pos (by omega),Nat.add_sub_cancel_left]

@[simp] theorem store_nil (m : Mem) (a : ℕ) : store m a [] = m := by
  funext x
  exact store_outside m (by simp; omega)

theorem load_store (m : Mem) (a : ℕ) (data : List (BitVec 8)) :
    load (store m a data) a data.length = data := by
  apply List.ext_getElem?
  intro i
  by_cases h : i < data.length
  · rw [getElem?_load _ _ h,store_inside m a h,List.getD_eq_getElem?_getD,
      List.getElem?_eq_getElem h,Option.getD_some]
  · rw [List.getElem?_eq_none (by simpa using h),List.getElem?_eq_none (by simpa using h)]

theorem store_singleton (m : Mem) (a : ℕ) (b : BitVec 8) : store m a
    [b] = Function.update m a b := by
  funext x
  by_cases hx : x = a
  · subst hx
    simp [store]
  · rw [Function.update_of_ne hx,store_outside m (by simp; omega)]

theorem store_append (m : Mem) (a : ℕ) (xs ys : List (BitVec 8)) :
    store m a (xs++ys) = store (store m a xs) (a+xs.length) ys := by
  funext x
  rw [store,store,store,List.length_append]
  by_cases hys : a+xs.length ≤ x ∧ x < a+xs.length+ys.length
  · rw [if_pos (by omega),if_pos hys,List.getD_eq_getElem?_getD,
      List.getElem?_append_right (by omega),List.getD_eq_getElem?_getD,Nat.sub_add_eq]
  · rw [if_neg hys]
    by_cases hxs : a ≤ x ∧ x < a+xs.length
    · rw [if_pos (by omega),if_pos hxs,List.getD_eq_getElem?_getD,
        List.getElem?_append_left (by omega),List.getD_eq_getElem?_getD]
    · rw [if_neg (by omega),if_neg hxs]

theorem store_load (m m' : Mem) (a b n x : ℕ) :
    store m a (load m' b n) x = if a ≤ x ∧ x < a+n then m' (b+(x-a)) else m x := by
  split
  · rename_i h
    obtain ⟨i,rfl⟩ := Nat.exists_eq_add_of_le h.1
    have hi : i < n := by omega
    rw [store_inside m a (by simpa using hi),getD_load m' b hi,Nat.add_sub_cancel_left]
  · exact store_outside m (by simp; omega)

theorem load_store_load (m m' : Mem) (b c : ℕ) {a k n : ℕ} (h : a+k ≤ n) :
    load (store m c (load m' b n)) (c+a) k = load m' (b+a) k := by
  apply List.map_congr_left
  intro i hi
  have hin := List.mem_range.mp hi
  rw [store_load,if_pos (by omega)]
  exact congrArg m' (by omega)

end ByteMemory
