import ScalesOS.ByteMemory

/-! A stack in byte memory that grows downwards, and what programs put on it: words,
strings that end with a zero byte, and arrays of words. The ranges that pushes took are
recorded, so that it can be said which of them overlap. -/
namespace StackImage
open ByteMemory

structure Stack where
  sp : ℕ
  mem : Mem
  /-- Address and size of each object pushed so far, the last one first. -/
  pushed : List (ℕ × ℕ)

namespace Stack
variable {s t u : Stack} {n k : ℕ}

def push (s : Stack) (data : List (BitVec 8)) : Stack where
  sp := s.sp-data.length
  mem := store s.mem (s.sp-data.length) data
  pushed := (s.sp-data.length,data.length)::s.pushed

def word (v : ℕ) : List (BitVec 8) :=
  [BitVec.ofNat 8 v,BitVec.ofNat 8 (v/0x100),BitVec.ofNat 8 (v/0x10000),
    BitVec.ofNat 8 (v/0x1000000)]

def push32 (s : Stack) (v : ℕ) : Stack := s.push (word v)

/-- `t` is `s` after pushes of `n` bytes in all. -/
inductive Grows (s : Stack) : ℕ → Stack → Prop
  | refl : Grows s 0 s
  | push {n : ℕ} {t : Stack} (data : List (BitVec 8)) :
      Grows s n t → Grows s (n+data.length) (t.push data)

theorem Grows.one (s : Stack) (data : List (BitVec 8)) : Grows s data.length (s.push data) := by
  have h := Grows.push data (@Grows.refl s)
  rwa [Nat.zero_add] at h

theorem Grows.word (s : Stack) (v : ℕ) : Grows s 4 (s.push32 v) := Grows.one s (Stack.word v)

theorem Grows.trans (h : Grows s n t) (h' : Grows t k u) : Grows s (n+k) u := by
  induction h' with
  | refl => exact h
  | push data _ ih =>
    rw [← Nat.add_assoc]
    exact ih.push data

theorem Grows.sp (h : Grows s n t) : t.sp = s.sp-n := by
  induction h with
  | refl => rfl
  | push data _ ih => rw [Stack.push,ih,Nat.sub_sub]

theorem Grows.mem (h : Grows s n t) (hfits : n ≤ s.sp) {x : ℕ} (hx : s.sp ≤ x) :
    t.mem x = s.mem x := by
  induction h with
  | refl => rfl
  | push data hgrows ih =>
    have hsp := hgrows.sp
    rw [← ih (by omega)]
    exact store_outside _ (by omega)

theorem Grows.load (h : Grows s n t) (hfits : n ≤ s.sp) {a k : ℕ} (ha : s.sp ≤ a) :
    load t.mem a k = load s.mem a k :=
  load_congr fun _ hx _ => h.mem hfits (ha.trans hx)

theorem Grows.read32 (h : Grows s n t) (hfits : n ≤ s.sp) {a : ℕ} (ha : s.sp ≤ a) :
    read32 t.mem a = read32 s.mem a :=
  read32_congr fun _ hx _ => h.mem hfits (ha.trans hx)

/-- Two ranges without a byte in common. -/
def Apart (r q : ℕ × ℕ) : Prop := r.1+r.2 ≤ q.1 ∨ q.1+q.2 ≤ r.1

/-- The pushed objects are apart from each other and lie between the stack pointer and
`top`. -/
structure Tidy (top : ℕ) (s : Stack) : Prop where
  apart : s.pushed.Pairwise Apart
  above : ∀ r ∈ s.pushed, s.sp ≤ r.1 ∧ r.1+r.2 ≤ top
  le_top : s.sp ≤ top

theorem Grows.tidy {top : ℕ} (h : Grows s n t) (hfits : n ≤ s.sp) (hs : s.Tidy top) :
    t.Tidy top := by
  induction h with
  | refl => exact hs
  | @push n t data hgrows ih =>
    have hsp := hgrows.sp
    have ht := ih (by omega)
    have htop := ht.le_top
    refine ⟨List.pairwise_cons.mpr ⟨?_,ht.apart⟩,?_,(Nat.sub_le _ _).trans htop⟩
    · intro r hr
      have hlow := (ht.above r hr).1
      simp only [Apart]
      omega
    · intro r hr
      simp only [Stack.push]
      rcases List.mem_cons.mp hr with rfl | hr
      · dsimp only
        omega
      · have hbounds := ht.above r hr
        omega

theorem store_word (m : Mem) (a v : ℕ) : store m a (word v) = write32 m a v := by
  funext x
  rw [write32]
  split_ifs with h0 h1 h2 h3
  · rw [h0]
    exact store_inside m a (show 0 < (word v).length from by simp [word])
  · rw [h1]
    exact store_inside m a (show 1 < (word v).length from by simp [word])
  · rw [h2]
    exact store_inside m a (show 2 < (word v).length from by simp [word])
  · rw [h3]
    exact store_inside m a (show 3 < (word v).length from by simp [word])
  · exact store_outside m (by simp only [word,List.length_cons,List.length_nil]; omega)

theorem read32_push32 (s : Stack) {v : ℕ} (hv : v < 0x100000000) :
    ByteMemory.read32 (s.push32 v).mem (s.push32 v).sp = v := by
  have hmem : (s.push32 v).mem = write32 s.mem (s.push32 v).sp v := store_word _ _ _
  rw [hmem,read32_write32,Nat.mod_eq_of_lt hv]

/-- The string at `a`, of which at most `fuel` bytes are looked at. -/
def cstring (m : Mem) : (fuel a : ℕ) → List (BitVec 8)
  | 0,_ => []
  | fuel+1,a => if m a = 0 then [] else m a::cstring m fuel (a+1)

/-- The bytes of `str` and a zero byte are at `a`. -/
def HoldsString (m : Mem) (a : ℕ) (str : List (BitVec 8)) : Prop :=
  ByteMemory.load m a (str.length+1) = str++[0]

theorem HoldsString.cstring {m : Mem} {str : List (BitVec 8)} (hnul : (0 : BitVec 8) ∉ str) :
    ∀ {fuel a : ℕ}, str.length < fuel → HoldsString m a str → cstring m fuel a = str := by
  induction str with
  | nil =>
    intro fuel a hfuel h
    obtain ⟨fuel,rfl⟩ := Nat.exists_eq_add_one.mpr hfuel
    have hzero : m a = 0 := (List.cons.inj h).1
    rw [Stack.cstring,if_pos hzero]
  | cons c str ih =>
    intro fuel a hfuel h
    obtain ⟨fuel,rfl⟩ := Nat.exists_eq_add_one.mpr (Nat.zero_lt_of_lt hfuel)
    have hsplit := load_add m a 1 (str.length+1)
    rw [Nat.add_comm 1] at hsplit
    have hcons : [m a]++ByteMemory.load m (a+1) (str.length+1) = c::(str++[0]) :=
      hsplit.symm.trans h
    have hfirst : m a = c := (List.cons.inj hcons).1
    have hrest : HoldsString m (a+1) str := (List.cons.inj hcons).2
    have hc : c ≠ 0 := fun hc => hnul (by rw [hc]; exact List.mem_cons_self)
    rw [Stack.cstring,hfirst,if_neg hc,
      ih (fun hin => hnul (List.mem_cons_of_mem c hin)) (by simpa using hfuel) hrest]

def pushString (s : Stack) (str : List (BitVec 8)) : Stack :=
  str.foldr (fun c t => t.push [c]) (s.push [0])

theorem pushString_grows (s : Stack) (str : List (BitVec 8)) :
    Grows s (str.length+1) (s.pushString str) := by
  induction str with
  | nil => exact Grows.one s [0]
  | cons c str ih => exact ih.push [c]

theorem pushString_holds (s : Stack) (str : List (BitVec 8)) (hfits : str.length+1 ≤ s.sp) :
    HoldsString (s.pushString str).mem (s.pushString str).sp str := by
  induction str with
  | nil => exact load_store _ _ [0]
  | cons c str ih =>
    have hgrows := pushString_grows s str
    have hsp := hgrows.sp
    simp only [List.length_cons] at hfits
    have hone := Grows.one (s.pushString str) [c]
    have hnew : ((s.pushString str).push [c]).sp+1 = (s.pushString str).sp := by
      rw [hone.sp,List.length_singleton]
      omega
    have hold := hone.load (k := str.length+1) (by rw [List.length_singleton]; omega) le_rfl
    have hfirst :
        ByteMemory.load ((s.pushString str).push [c]).mem ((s.pushString str).push [c]).sp 1 =
            [c] :=
      load_store _ _ [c]
    change ByteMemory.load ((s.pushString str).push [c]).mem ((s.pushString str).push [c]).sp
      (str.length+1+1) = c::(str++[0])
    rw [Nat.add_comm (str.length+1) 1,load_add,hfirst,hnew,hold,ih (by omega)]
    rfl

def array (m : Mem) (a n : ℕ) : List ℕ := (List.range n).map fun i => ByteMemory.read32 m (a+4*i)

def pushArray (s : Stack) (vs : List ℕ) : Stack := vs.foldr (fun v t => t.push32 v) s

theorem pushArray_grows (s : Stack) (vs : List ℕ) : Grows s (4*vs.length) (s.pushArray vs) := by
  induction vs with
  | nil => exact .refl
  | cons v vs ih => exact ih.trans (Grows.word _ v)

theorem array_succ (m : Mem) (a n : ℕ) :
    array m a (n+1) = ByteMemory.read32 m a::array m (a+4) n := by
  rw [array,List.range_succ_eq_map,List.map_cons,List.map_map]
  congr 1
  apply List.map_congr_left
  intro i _
  exact congrArg (ByteMemory.read32 m) (by simp only [Nat.succ_eq_add_one]; omega)

theorem Grows.array (h : Grows s n t) (hfits : n ≤ s.sp) {a k : ℕ} (ha : s.sp ≤ a) :
    array t.mem a k = array s.mem a k := by
  apply List.map_congr_left
  intro i _
  exact h.read32 hfits (by omega)

theorem array_pushArray (s : Stack) (vs : List ℕ) (hvs : ∀ v ∈ vs, v < 0x100000000)
    (hfits : 4*vs.length ≤ s.sp) :
    array (s.pushArray vs).mem (s.pushArray vs).sp vs.length = vs := by
  induction vs with
  | nil => rfl
  | cons v vs ih =>
    have hsp := (pushArray_grows s vs).sp
    simp only [List.length_cons] at hfits
    have hword := Grows.word (s.pushArray vs) v
    have hnew : ((s.pushArray vs).push32 v).sp+4 = (s.pushArray vs).sp := by
      rw [hword.sp]
      omega
    change array ((s.pushArray vs).push32 v).mem ((s.pushArray vs).push32 v).sp (vs.length+1) =
      v::vs
    rw [array_succ,read32_push32 _ (hvs v List.mem_cons_self),hnew,hword.array (by omega) le_rfl,
      ih (fun w hw => hvs w (List.mem_cons_of_mem v hw)) (by omega)]

end Stack
end StackImage
