import ScalesOS.ByteMemory
import ScalesOS.Machine

/-!
# The list module

`types/src/list.c` over byte-addressed memory: an array of pointers that every
operation reallocates to exactly the number of entries. The calls run between other
code, which may change all memory but the array. The allocator is a parameter; the
module only relies on `Allocator.Contract`.
-/

namespace ScalesOS
namespace Lists

open ByteMemory

/-- A value of type `void*`. -/
abbrev Ptr := BitVec 32

def readPtr (m : Mem) (a : ℕ) : Ptr := BitVec.ofNat 32 (read32 m a)
def writePtr (m : Mem) (a : ℕ) (v : Ptr) : Mem := write32 m a v.toNat

/-- The `n` pointers stored from `a` on. -/
def pointers (m : Mem) (a n : ℕ) : List Ptr := (List.range n).map fun i => readPtr m (a+4*i)

/-- The two conditions compare signed 32-bit numbers; the last two loops of the source
both copy upwards. -/
def memmove (m : Mem) (dest src n : ℕ) : Mem :=
  if src = dest ∨ n = 0 then m
  else if src < dest ∧ (BitVec.ofNat 32 (dest-src)).toInt < (BitVec.ofNat 32 n).toInt then
    copyDown m dest src n
  else copyUp m dest src n

/-- `list_t` without its lock. -/
structure ListT where
  size : ℕ
  data : ℕ

/-- The memory, the list and the number of bytes the allocator has given to the block
at `list->data`; without a block there are none. -/
structure State where
  mem : Mem
  list : ListT
  bytes : ℕ

/-- Out of memory the allocator stops the program. The other outcome is an access outside
the block at `list->data`. -/
inductive Stop
  | outOfMemory
  | outOfBounds
  deriving DecidableEq

/-- `malloc` and `realloc` return an address and the memory they leave, or nothing when
there is no memory left. The second number of `realloc` is the size of the old block,
which its header holds. -/
structure Allocator where
  malloc : Mem → ℕ → Option (ℕ × Mem)
  realloc : Mem → ℕ → ℕ → ℕ → Option (ℕ × Mem)
  free : Mem → ℕ → Mem

/-- Blocks lie in the 32-bit address space and not at address 0. `realloc` keeps the
contents up to the smaller size; from a whole number of pointers to another it allocates the
new block while the old one is still in use. -/
structure Allocator.Contract (A : Allocator) : Prop where
  malloc_fits : ∀ {m n p m'}, A.malloc m n = some (p,m') → 0 < p ∧ p+n ≤ W32
  realloc_fits : ∀ {m old k n p m'}, A.realloc m old k n = some (p,m') → 0 < p ∧ p+n ≤ W32
  realloc_fresh : ∀ {m old k n p m'}, A.realloc m old (4*k) (4*n) = some (p,m') → n ≠ k →
    p+4*n ≤ old ∨ old+4*k ≤ p
  realloc_keeps : ∀ {m old k n p m'}, A.realloc m old k n = some (p,m') →
    ∀ i < k, i < n → m' (p+i) = m (old+i)

namespace State

/-- The value of `list->data[i]`. -/
def load (s : State) (i : ℕ) : Except Stop Ptr :=
  if 4*i+4 ≤ s.bytes then pure (readPtr s.mem (s.list.data+4*i)) else throw .outOfBounds

/-- `list->data[i] = v`. -/
def store (s : State) (i : ℕ) (v : Ptr) : Except Stop State :=
  if 4*i+4 ≤ s.bytes then pure { s with mem := writePtr s.mem (s.list.data+4*i) v }
  else throw .outOfBounds

/-- `memmove` between two places of the array, given by their distance in bytes from
`list->data`. -/
def move (s : State) (dest src n : ℕ) : Except Stop State :=
  if dest+n ≤ s.bytes ∧ src+n ≤ s.bytes then
    pure { s with mem := memmove s.mem (s.list.data+dest) (s.list.data+src) n }
  else throw .outOfBounds

/-- `list->data = realloc(list->data, n)`. -/
def resize (A : Allocator) (s : State) (n : ℕ) : Except Stop State :=
  match A.realloc s.mem s.list.data s.bytes n with
  | some (p,mem) => pure ⟨mem,⟨s.list.size,p⟩,n⟩
  | none => throw .outOfMemory

/-- `free(list->data); list->data = 0`. -/
def release (A : Allocator) (s : State) : State :=
  ⟨A.free s.mem s.list.data,⟨s.list.size,0⟩,0⟩

def setSize (s : State) (size : ℕ) : State := { s with list := { s.list with size := size } }

/-- `EXTEND(list->data, list->size, sizeof(void*))`. -/
def extend (A : Allocator) (s : State) : Except Stop State :=
  let s := s.setSize ((s.list.size+1)%W32)
  if s.list.size = 1 then
    match A.malloc s.mem 4 with
    | some (p,mem) => pure ⟨mem,⟨s.list.size,p⟩,4⟩
    | none => throw .outOfMemory
  else s.resize A (4*s.list.size%W32)

end State

def listCreate (mem : Mem) : State := ⟨mem,⟨0,0⟩,0⟩

def makeRoom (s : State) : Except Stop State :=
  if 1 < s.list.size then s.move 4 0 ((s.list.size-1)*4%W32) else pure s

def listPushFront (A : Allocator) (s : State) (data : Ptr) : Except Stop State := do
  let s ← s.extend A
  let s ← makeRoom s
  s.store 0 data

def listPushBack (A : Allocator) (s : State) (data : Ptr) : Except Stop State := do
  let s ← s.extend A
  s.store (s.list.size-1) data

def listPopBack (A : Allocator) (s : State) : Except Stop (Ptr × State) := do
  if s.list.size = 0 then pure (0,s)
  else
    let data ← s.load (s.list.size-1)
    let s := s.setSize (s.list.size-1)
    if s.list.size ≠ 0 then
      let s ← s.resize A (s.list.size*4%W32)
      pure (data,s)
    else pure (data,s.release A)

def listPopFront (A : Allocator) (s : State) : Except Stop (Ptr × State) := do
  if s.list.size = 0 then pure (0,s)
  else
    let data ← s.load 0
    let s := s.setSize (s.list.size-1)
    if s.list.size = 0 then pure (data,s.release A)
    else
      let s ← s.move 0 4 (s.list.size*4%W32)
      let s ← s.resize A (s.list.size*4%W32)
      pure (data,s)

/-- Move the pointers above place `i` down by one, if there are any. -/
def closeGap (s : State) (i : ℕ) : Except Stop State :=
  if i ≠ s.list.size then s.move (4*i) (4*(i+1)) ((s.list.size-i)*4%W32) else pure s

/-- The body of the loop of `list_delete_element` at the element found. -/
def deleteAt (A : Allocator) (s : State) (i : ℕ) : Except Stop State := do
  let s ← s.store i 0
  let s := s.setSize (s.list.size-1)
  if s.list.size ≠ 0 then
    let s ← closeGap s i
    s.resize A (s.list.size*4%W32)
  else pure (s.release A)

/-- The loop from index `i` on, with `n` elements left. -/
def deleteLoop (A : Allocator) (data : Ptr) : ℕ → ℕ → State → Except Stop State
  | 0, _, s => pure s
  | n+1, i, s => do
    let x ← s.load i
    if x = data then deleteAt A s i else deleteLoop A data n (i+1) s

def listDeleteElement (A : Allocator) (s : State) (data : Ptr) : Except Stop State :=
  deleteLoop A data s.list.size 0 s

def listHead (s : State) : Except Stop Ptr := if s.list.size = 0 then pure 0 else s.load 0

def listTail (s : State) : Except Stop Ptr :=
  if s.list.size = 0 then pure 0 else s.load (s.list.size-1)

def containsLoop (data : Ptr) (s : State) : ℕ → ℕ → Except Stop Bool
  | 0, _ => pure false
  | n+1, i => do
    let x ← s.load i
    if x = data then pure true else containsLoop data s n (i+1)

def listContains (s : State) (data : Ptr) : Except Stop Bool := containsLoop data s s.list.size 0

/-! ### Pointers in memory -/

theorem read32_write32_ptr (m : Mem) (a : ℕ) (v : Ptr) : readPtr (writePtr m a v) a = v := by
  have hlt := v.isLt
  rw [readPtr,writePtr,read32_write32,Nat.mod_eq_of_lt (by omega),BitVec.ofNat_toNat,
    BitVec.setWidth_eq]

theorem readPtr_congr {m m' : Mem} {a b : ℕ} (h : ∀ x < 4, m' (b+x) = m (a+x)) :
    readPtr m' b = readPtr m a := by
  simp only [readPtr,read32]
  have h0 : m' b = m a := h 0 (by omega)
  rw [h0,h 1 (by omega),h 2 (by omega),h 3 (by omega)]

@[simp] theorem length_pointers (m : Mem) (a n : ℕ) : (pointers m a n).length = n := by
  simp [pointers]

@[simp] theorem pointers_zero (m : Mem) (a : ℕ) : pointers m a 0 = [] := rfl

theorem getElem_pointers (m : Mem) (a : ℕ) {n i : ℕ} (h : i < (pointers m a n).length) :
    (pointers m a n)[i] = readPtr m (a+4*i) := by
  simp [pointers]

theorem pointers_add (m : Mem) (a n k : ℕ) :
    pointers m a (n+k) = pointers m a n++pointers m (a+4*n) k := by
  simp only [pointers,List.range_add,List.map_append,List.map_map]
  congr 1
  apply List.map_congr_left
  intro i _
  exact congrArg (readPtr m) (by ring)

theorem pointers_one (m : Mem) (a : ℕ) : pointers m a 1 = [readPtr m a] := rfl

theorem pointers_succ (m : Mem) (a n : ℕ) :
    pointers m a (n+1) = readPtr m a::pointers m (a+4) n := by
  rw [Nat.add_comm,pointers_add,pointers_one,Nat.mul_one,List.singleton_append]

theorem pointers_shift {m m' : Mem} {a b n : ℕ} (h : ∀ x < 4*n, m' (b+x) = m (a+x)) :
    pointers m' b n = pointers m a n := by
  apply List.map_congr_left
  intro i hi
  have hin := List.mem_range.mp hi
  refine readPtr_congr fun x hx => ?_
  simpa only [Nat.add_assoc] using h (4*i+x) (by omega)

theorem pointers_write_outside (m : Mem) {a b n : ℕ} (v : Ptr) (h : b+4 ≤ a ∨ a+4*n ≤ b) :
    pointers (writePtr m b v) a n = pointers m a n :=
  pointers_shift fun x hx => write32_outside m (by omega)

theorem pointers_copy (m : Mem) (a b n : ℕ) : pointers (copy m a b (4*n)) a n = pointers m b n := by
  refine pointers_shift fun x hx => ?_
  rw [copy,if_pos (by omega)]
  exact congrArg m (by omega)

theorem pointers_copy_outside {m : Mem} {a b c k n : ℕ} (h : c+4*n ≤ a ∨ a+4*k ≤ c) :
    pointers (copy m a b (4*k)) c n = pointers m c n :=
  pointers_shift fun x hx => copy_outside m (by omega)

theorem toInt_ofNat {x : ℕ} (h : x < W32) :
    (BitVec.ofNat 32 x).toInt = if x < 2^31 then (x : ℤ) else (x : ℤ)-2^32 := by
  rw [BitVec.toInt_eq_toNat_cond,BitVec.toNat_ofNat,Nat.mod_eq_of_lt h]
  simp only [W32] at h
  split <;> split <;> omega

/-- Up to 2 GiB the direction of the copy is chosen so that nothing is overwritten
before it has been read. -/
theorem memmove_eq_copy (m : Mem) {dest src n : ℕ} (hdest : dest < W32) (hn : n < 2^31) :
    memmove m dest src n = copy m dest src n := by
  rw [memmove]
  split
  · rename_i h
    funext x
    rcases h with rfl | rfl
    · simp only [copy]
      split
      · exact congrArg m (by omega)
      · rfl
    · rw [copy_outside m (by omega)]
  · rename_i hne
    split
    · rename_i h
      exact copyDown_eq m n (by omega)
    · rename_i h
      refine copyUp_eq m n ?_
      by_contra hc
      refine h ⟨by omega,?_⟩
      have hw : W32 = 2^32 := rfl
      rw [toInt_ofNat (by omega),toInt_ofNat (by omega),if_pos hn]
      split <;> omega

/-! ### The array of a sequence -/

/-- The block at `list->data` holds `n` pointers, and nothing more. -/
structure Owns (s : State) (n : ℕ) : Prop where
  bytes : s.bytes = 4*n
  fits : s.list.data+4*n ≤ W32
  small : n ≤ 2^29

/-- The list stands for the sequence `xs`. -/
structure Rep (s : State) (xs : List Ptr) : Prop extends Owns s xs.length where
  size : s.list.size = xs.length
  data : s.list.data = 0 ↔ xs = []
  contents : pointers s.mem s.list.data xs.length = xs

theorem Owns.load {s : State} {n i : ℕ} (h : Owns s n) (hi : i < n) :
    s.load i = .ok (readPtr s.mem (s.list.data+4*i)) := by
  rw [State.load,if_pos (by rw [h.bytes]; omega)]
  rfl

theorem Owns.store {s : State} {n i : ℕ} (h : Owns s n) (hi : i < n) (v : Ptr) :
    s.store i v = .ok { s with mem := writePtr s.mem (s.list.data+4*i) v } := by
  rw [State.store,if_pos (by rw [h.bytes]; omega)]
  rfl

theorem Owns.move {s : State} {n a b k : ℕ} (h : Owns s n) (ha : a+k ≤ n) (hb : b+k ≤ n)
    (hpos : 0 < a+b) (hk : 0 < k) :
    s.move (4*a) (4*b) (4*k) =
      .ok { s with mem := copy s.mem (s.list.data+4*a) (s.list.data+4*b) (4*k) } := by
  have hfits := h.fits
  have hsmall := h.small
  -- the array has at most 2 GiB, and not all of it moves
  rw [State.move,if_pos (by rw [h.bytes]; omega),memmove_eq_copy s.mem (by omega) (by omega)]
  rfl

theorem Rep.load {s : State} {xs : List Ptr} (h : Rep s xs) {i : ℕ} (hi : i < xs.length) :
    s.load i = .ok xs[i] := by
  rw [h.toOwns.load hi]
  have hx : xs[i] = readPtr s.mem (s.list.data+4*i) := by
    simp only [← getElem_pointers s.mem s.list.data (n := xs.length) (by simpa using hi),h.contents]
  rw [hx]

def Ends {α : Type} (x : Except Stop α) (post : α → Prop) : Prop :=
  x = .error .outOfMemory ∨ ∃ a, x = .ok a ∧ post a

theorem Ends.bind {α β : Type} {x : Except Stop α} {f : α → Except Stop β}
    {P : α → Prop} {Q : β → Prop}
    (hx : Ends x P) (hf : ∀ a, P a → Ends (f a) Q) : Ends (x >>= f) Q := by
  rcases hx with rfl | ⟨a,rfl,ha⟩
  · exact .inl rfl
  · exact hf a ha

theorem Ends.ok_bind {α β : Type} {a : α} {f : α → Except Stop β} {Q : β → Prop}
    (h : Ends (f a) Q) :
    Ends (.ok a >>= f) Q := h

theorem Ends.imp {α : Type} {x : Except Stop α} {P Q : α → Prop} (hx : Ends x P)
    (h : ∀ a, P a → Q a) :
    Ends x Q := by
  rcases hx with hx | ⟨a,hx,ha⟩
  · exact .inl hx
  · exact .inr ⟨a,hx,h a ha⟩

theorem Ends.ok {α : Type} {a : α} {P : α → Prop} (h : P a) : Ends (.ok a) P := .inr ⟨a,rfl,h⟩

/-- A new size by one up, or any size down: out of memory, or the array has that size
and keeps its pointers. Two blocks at a time bound the array by half of the address
space. -/
theorem Owns.resize {A : Allocator} {s : State} {k n : ℕ} (hA : A.Contract) (h : Owns s k)
    (hne : n ≠ k) (hle : n ≤ k+1) :
    Ends (s.resize A (4*n%W32)) fun s' => s'.list.size = s.list.size ∧ Owns s' n ∧
      0 < s'.list.data ∧
      ∀ i, i ≤ k → i ≤ n → pointers s'.mem s'.list.data i = pointers s.mem s.list.data i := by
  have hfits := h.fits
  have hsmall := h.small
  have hmod : 4*n%W32 = 4*n := Nat.mod_eq_of_lt (by simp only [W32]; omega)
  rw [State.resize,hmod,h.bytes]
  cases hret : A.realloc s.mem s.list.data (4*k) (4*n) with
  | none => exact .inl rfl
  | some r =>
    obtain ⟨p,mem⟩ := r
    obtain ⟨hpos,hin⟩ := hA.realloc_fits hret
    have hfresh := hA.realloc_fresh hret (by omega)
    refine Ends.ok ⟨rfl,⟨rfl,hin,?_⟩,hpos,fun i hi hin => ?_⟩
    · have hw : W32 = 2^32 := rfl
      omega
    · exact pointers_shift fun x hx => hA.realloc_keeps hret x (by omega) (by omega)

theorem Rep.extend {A : Allocator} {s : State} {xs : List Ptr} (hA : A.Contract) (h : Rep s xs) :
    Ends (s.extend A) fun s' => s'.list.size = xs.length+1 ∧ Owns s' (xs.length+1) ∧
      0 < s'.list.data ∧ pointers s'.mem s'.list.data xs.length = xs := by
  have hsmall := h.small
  have hmod : (s.list.size+1)%W32 = xs.length+1 := by
    rw [h.size]
    exact Nat.mod_eq_of_lt (by simp only [W32]; omega)
  simp only [State.extend,State.setSize,hmod]
  split
  · rename_i hone
    obtain rfl : xs = [] := List.length_eq_zero_iff.mp (by omega)
    cases hret : A.malloc s.mem 4 with
    | none => exact .inl rfl
    | some r =>
      obtain ⟨p,mem⟩ := r
      obtain ⟨hpos,hin⟩ := hA.malloc_fits hret
      exact Ends.ok ⟨rfl,⟨rfl,hin,by simp⟩,hpos,rfl⟩
  · have howns : Owns (s.setSize (xs.length+1)) xs.length := ⟨h.bytes,h.fits,h.small⟩
    refine (howns.resize hA (n := xs.length+1) (by omega) le_rfl).imp ?_
    rintro s' ⟨hsize,hnew,hpos,hkeep⟩
    exact ⟨hsize,hnew,hpos,(hkeep _ le_rfl (by omega)).trans h.contents⟩

theorem Owns.rep {s : State} {xs : List Ptr} (h : Owns s xs.length)
    (hsize : s.list.size = xs.length)
    (hpos : 0 < s.list.data) (hne : xs ≠ []) (hp : pointers s.mem s.list.data xs.length = xs) :
    Rep s xs :=
  { h with
    size := hsize
    data := ⟨fun hz => by omega,fun he => absurd he hne⟩
    contents := hp }

theorem release_rep (A : Allocator) {s : State} (h : s.list.size = 0) : Rep (s.release A) [] where
  bytes := rfl
  fits := by simp [State.release]
  small := by simp
  size := h
  data := by simp [State.release]
  contents := rfl

/-! ### The calls -/

theorem mul_four_mod {n : ℕ} (h : n ≤ 2^29) : n*4%W32 = 4*n := by
  rw [Nat.mul_comm]
  exact Nat.mod_eq_of_lt (by simp only [W32]; omega)

theorem makeRoom_spec {s : State} {xs : List Ptr} (h : Owns s (xs.length+1))
    (hsize : s.list.size = xs.length+1) (hp : pointers s.mem s.list.data xs.length = xs) :
    ∃ mem, makeRoom s = .ok { s with mem := mem } ∧
        pointers mem (s.list.data+4) xs.length = xs := by
  have hsmall := h.small
  rw [makeRoom,hsize]
  split
  · refine ⟨copy s.mem (s.list.data+4*1) (s.list.data+4*0) (4*xs.length),?_,
      (pointers_copy _ _ _ _).trans hp⟩
    rw [Nat.add_sub_cancel,mul_four_mod (by omega)]
    exact h.move (a := 1) (b := 0) (by omega) (by omega) (by omega) (by omega)
  · obtain rfl : xs = [] := List.length_eq_zero_iff.mp (by omega)
    exact ⟨s.mem,rfl,rfl⟩

theorem listPushFront_spec {A : Allocator} {s : State} {xs : List Ptr}
    (hA : A.Contract) (h : Rep s xs)
    (data : Ptr) : Ends (listPushFront A s data) fun s' => Rep s' (data::xs) := by
  refine (h.extend hA).bind fun s₁ ⟨hsize,howns,hpos,hp⟩ => ?_
  obtain ⟨mem,hmove,hmem⟩ := makeRoom_spec howns hsize hp
  have howns' : Owns { s₁ with mem := mem } (xs.length+1) := ⟨howns.bytes,howns.fits,howns.small⟩
  rw [hmove]
  show Ends (State.store { s₁ with mem := mem } 0 data) _
  rw [howns'.store (by omega)]
  refine Ends.ok (Owns.rep ⟨howns.bytes,howns.fits,
    howns.small⟩ hsize hpos (List.cons_ne_nil _ _) ?_)
  rw [List.length_cons,pointers_succ]
  congr 1
  · exact read32_write32_ptr _ _ _
  · exact (pointers_write_outside _ _ (.inl (by simp))).trans hmem

theorem listPushBack_spec {A : Allocator} {s : State} {xs : List Ptr}
    (hA : A.Contract) (h : Rep s xs)
    (data : Ptr) : Ends (listPushBack A s data) fun s' => Rep s' (xs++[data]) := by
  refine (h.extend hA).bind fun s₁ ⟨hsize,howns,hpos,hp⟩ => ?_
  rw [hsize,Nat.add_sub_cancel,howns.store (by omega)]
  have hlen : (xs++[data]).length = xs.length+1 := by simp
  refine Ends.ok (Owns.rep (hlen ▸ ⟨howns.bytes,howns.fits,howns.small⟩) (hlen ▸
    hsize) hpos (by simp) ?_)
  rw [hlen,pointers_add,pointers_one]
  congr 1
  · exact (pointers_write_outside _ _ (.inr le_rfl)).trans hp
  · exact congrArg (fun x => [x]) (read32_write32_ptr _ _ _)

theorem Owns.shrink {A : Allocator} {s : State} {n : ℕ} {xs : List Ptr}
    (hA : A.Contract) (h : Owns s n)
    (hsize : s.list.size = xs.length) (hlt : xs.length < n) (hne : xs ≠ [])
    (hp : pointers s.mem s.list.data xs.length = xs) :
    Ends (s.resize A (s.list.size*4%W32)) fun s' => Rep s' xs := by
  rw [hsize,Nat.mul_comm]
  refine (h.resize hA (by omega) (by omega)).imp ?_
  rintro s' ⟨hsize',howns,hpos,hkeep⟩
  exact howns.rep (hsize'.trans hsize) hpos hne ((hkeep _ hlt.le le_rfl).trans hp)

theorem listPopBack_spec {A : Allocator} {s : State} {xs : List Ptr} (hA : A.Contract)
    (h : Rep s xs) :
    Ends (listPopBack A s) fun r => r.1 = xs.getLastD 0 ∧ Rep r.2 xs.dropLast := by
  rcases List.eq_nil_or_concat xs with rfl | ⟨ys,y,rfl⟩
  · rw [listPopBack,if_pos (by simp [h.size])]
    exact Ends.ok ⟨rfl,h⟩
  · have hlen : (ys.concat y).length = ys.length+1 := by simp
    have hsize := h.size.trans hlen
    have howns : Owns s (ys.length+1) := hlen ▸ h.toOwns
    have hload : s.load ys.length = .ok y := by
      rw [h.load (by omega)]
      simp
    have hp : pointers s.mem s.list.data ys.length = ys := by
      have hc := h.contents
      rw [hlen,pointers_add,List.concat_eq_append] at hc
      exact (List.append_inj hc (by simp)).1
    rw [listPopBack,if_neg (by omega),hsize,Nat.add_sub_cancel,hload]
    refine Ends.ok_bind ?_
    simp only [List.concat_eq_append,List.getLastD_concat,List.dropLast_concat]
    by_cases hys : ys = []
    · subst hys
      exact Ends.ok ⟨rfl,release_rep A rfl⟩
    · rw [if_pos (by simpa [State.setSize] using hys)]
      have hshrink :=
        Owns.shrink hA (s := s.setSize ys.length) (n := ys.length+1) ⟨howns.bytes,howns.fits,
          howns.small⟩ rfl
        (by omega) hys hp
      exact hshrink.bind fun s' hs' => Ends.ok ⟨rfl,hs'⟩

theorem listPopFront_spec {A : Allocator} {s : State} {xs : List Ptr} (hA : A.Contract)
    (h : Rep s xs) :
    Ends (listPopFront A s) fun r => r.1 = xs.headD 0 ∧ Rep r.2 xs.tail := by
  cases xs with
  | nil =>
    rw [listPopFront,if_pos (show s.list.size = 0 from h.size)]
    exact Ends.ok ⟨rfl,h⟩
  | cons x xs =>
    have hsize : s.list.size = xs.length+1 := h.size
    have howns : Owns s (xs.length+1) := h.toOwns
    have hsmall := howns.small
    have hp : pointers s.mem (s.list.data+4) xs.length = xs := by
      have hc := h.contents
      rw [List.length_cons,pointers_succ] at hc
      exact (List.cons.inj hc).2
    rw [listPopFront,if_neg (by omega),h.load (by simp),hsize,Nat.add_sub_cancel]
    refine Ends.ok_bind ?_
    simp only [List.headD_cons,List.tail_cons,List.getElem_cons_zero]
    by_cases hxs : xs = []
    · subst hxs
      exact Ends.ok ⟨rfl,release_rep A rfl⟩
    · have hpos : 0 < xs.length := List.length_pos_iff.mpr hxs
      have hset : Owns (s.setSize xs.length) (xs.length+1) := ⟨howns.bytes,howns.fits,howns.small⟩
      have hmove : (s.setSize xs.length).move 0 4 ((s.setSize xs.length).list.size*4%W32) = .ok
          { s.setSize xs.length with
            mem := copy s.mem s.list.data (s.list.data+4) (4*xs.length) } := by
        rw [show (s.setSize xs.length).list.size = xs.length from rfl,mul_four_mod (by omega)]
        exact hset.move (a := 0) (b := 1) (by omega) (by omega) (by omega) hpos
      rw [if_neg (by simpa [State.setSize] using hxs),hmove]
      refine Ends.ok_bind ?_
      have hshrink :=
        Owns.shrink hA (n := xs.length+1)
          (s := ⟨copy s.mem s.list.data (s.list.data+4) (4*xs.length),
        ⟨xs.length,s.list.data⟩,s.bytes⟩) ⟨howns.bytes,howns.fits,howns.small⟩ rfl (by omega) hxs
        ((pointers_copy _ _ _ _).trans hp)
      exact hshrink.bind fun s' hs' => Ends.ok ⟨rfl,hs'⟩

theorem closeGap_spec {s : State} {pre post : List Ptr} (h : Owns s (pre.length+(post.length+1)))
    (hsize : s.list.size = pre.length+post.length)
    (hpre : pointers s.mem s.list.data pre.length = pre)
    (hpost : pointers s.mem (s.list.data+4*(pre.length+1)) post.length = post) :
    ∃ mem, closeGap s pre.length = .ok { s with mem := mem } ∧
      pointers mem s.list.data (pre.length+post.length) = pre++post := by
  have hsmall := h.small
  rw [closeGap,hsize]
  split
  · rename_i hne
    have hcode : (pre.length+post.length-pre.length)*4%W32 = 4*post.length := by
      rw [Nat.add_sub_cancel_left,mul_four_mod (by omega)]
    rw [hcode,h.move (by omega) (by omega) (by omega) (by omega)]
    refine ⟨_,rfl,?_⟩
    rw [pointers_add]
    congr 1
    · exact (pointers_copy_outside (.inl le_rfl)).trans hpre
    · exact (pointers_copy _ _ _ _).trans hpost
  · obtain rfl : post = [] := List.length_eq_zero_iff.mp (by omega)
    exact ⟨s.mem,rfl,by simpa using hpre⟩

theorem deleteAt_spec {A : Allocator} {s : State} {pre post : List Ptr} {x : Ptr} (hA : A.Contract)
    (h : Rep s (pre++x::post)) : Ends (deleteAt A s pre.length) fun s' => Rep s' (pre++post) := by
  have hlen : (pre++x::post).length = pre.length+(post.length+1) := by simp
  have howns : Owns s (pre.length+(post.length+1)) := hlen ▸ h.toOwns
  have hsmall := howns.small
  have hsize := h.size.trans hlen
  obtain ⟨hpre,hpost⟩ : pointers s.mem s.list.data pre.length = pre ∧
      pointers s.mem (s.list.data+4*(pre.length+1)) post.length = post := by
    have hc := h.contents
    rw [hlen,pointers_add,pointers_succ] at hc
    obtain ⟨h1,h2⟩ := List.append_inj hc (by simp)
    exact ⟨h1,(List.cons.inj h2).2⟩
  rw [deleteAt,howns.store (by omega)]
  refine Ends.ok_bind ?_
  simp only [hsize]
  rw [show pre.length+(post.length+1)-1 = pre.length+post.length by omega]
  split
  · rename_i hne
    have hcut :
      Owns ⟨writePtr s.mem (s.list.data+4*pre.length) 0,
        ⟨pre.length+post.length,s.list.data⟩,s.bytes⟩
        (pre.length+(post.length+1)) := ⟨howns.bytes,howns.fits,howns.small⟩
    obtain ⟨mem,hclose,hmem⟩ := closeGap_spec hcut rfl
      ((pointers_write_outside _ _ (.inr le_rfl)).trans hpre)
      ((pointers_write_outside _ _ (.inl (by simp only; omega))).trans hpost)
    have hne' : pre++post ≠ [] := by
      rw [← List.length_pos_iff,List.length_append]
      exact Nat.pos_of_ne_zero hne
    have hgap :
        Owns ⟨mem,⟨pre.length+post.length,s.list.data⟩,s.bytes⟩ (pre.length+(post.length+1)) :=
      ⟨howns.bytes,howns.fits,howns.small⟩
    have hlt : (pre++post).length < pre.length+(post.length+1) := by
      rw [List.length_append]
      omega
    have hshrink :=
      hgap.shrink hA List.length_append.symm hlt hne' (by rw [List.length_append]; exact hmem)
    simp only [State.setSize,hclose]
    exact hshrink
  · rename_i he
    have hz : pre.length+post.length = 0 := not_not.mp he
    obtain rfl : pre = [] := List.length_eq_zero_iff.mp (by omega)
    obtain rfl : post = [] := List.length_eq_zero_iff.mp (by omega)
    exact Ends.ok (release_rep A rfl)

/-- The loop looks at the elements from the front and removes the first equal one. -/
theorem deleteLoop_spec {A : Allocator} {s : State} {data : Ptr} (hA : A.Contract) :
    ∀ (rest seen : List Ptr), Rep s (seen++rest) →
      Ends (deleteLoop A data rest.length seen.length s) fun s' =>
      Rep s' (seen++rest.erase data) := by
  intro rest
  induction rest with
  | nil =>
    intro seen h
    exact Ends.ok h
  | cons x rest ih =>
    intro seen h
    rw [List.length_cons,deleteLoop,h.load (by simp)]
    refine Ends.ok_bind ?_
    simp only [List.getElem_append_right le_rfl,Nat.sub_self,List.getElem_cons_zero]
    split
    · rename_i hx
      rw [hx,List.erase_cons_head]
      exact deleteAt_spec hA (hx ▸ h)
    · rename_i hx
      rw [List.erase_cons_tail (by simpa using hx)]
      have hnext := ih (seen++[x]) (by simpa using h)
      simpa using hnext

theorem listDeleteElement_spec {A : Allocator} {s : State} {xs : List Ptr}
    (hA : A.Contract) (h : Rep s xs)
    (data : Ptr) : Ends (listDeleteElement A s data) fun s' => Rep s' (xs.erase data) := by
  rw [listDeleteElement,h.size]
  exact deleteLoop_spec hA xs [] h

theorem containsLoop_spec {s : State} {data : Ptr} : ∀ (rest seen : List Ptr), Rep s (seen++rest) →
    containsLoop data s rest.length seen.length = .ok (decide (data ∈ rest)) := by
  intro rest
  induction rest with
  | nil =>
    intro seen _
    rfl
  | cons x rest ih =>
    intro seen h
    rw [List.length_cons,containsLoop,h.load (by simp)]
    have hnext := ih (seen++[x]) (by simpa using h)
    rw [List.length_append,List.length_singleton] at hnext
    change (if (seen++x::rest)[seen.length] = data then _ else _) = _
    simp only [List.getElem_append_right le_rfl,Nat.sub_self,List.getElem_cons_zero,hnext]
    split
    · rename_i hx
      simp [hx,pure,Except.pure]
    · rename_i hx
      simp [show ¬ data = x from fun he => hx he.symm]

theorem listContains_spec {s : State} {xs : List Ptr} (h : Rep s xs) (data : Ptr) :
    listContains s data = .ok (decide (data ∈ xs)) := by
  rw [listContains,h.size]
  exact containsLoop_spec xs [] h

theorem listHead_spec {s : State} {xs : List Ptr} (h : Rep s xs) :
    listHead s = .ok (xs.headD 0) := by
  cases xs with
  | nil => rw [listHead,if_pos (show s.list.size = 0 from h.size)]; rfl
  | cons x xs =>
    rw [listHead,if_neg (by rw [h.size]; simp),h.load (by simp)]
    rfl

theorem listTail_spec {s : State} {xs : List Ptr} (h : Rep s xs) :
    listTail s = .ok (xs.getLastD 0) := by
  rcases List.eq_nil_or_concat xs with rfl | ⟨ys,y,rfl⟩
  · rw [listTail,if_pos (show s.list.size = 0 from h.size)]; rfl
  · have hlen : (ys.concat y).length = ys.length+1 := by simp
    rw [listTail,if_neg (by rw [h.size,hlen]; omega),h.load (by rw [h.size,hlen]; omega)]
    simp [h.size]

/-! ### Sequences of calls -/

inductive Op
  | pushFront (data : Ptr)
  | pushBack (data : Ptr)
  | popFront
  | popBack
  | deleteElement (data : Ptr)
  | contains (data : Ptr)
  | head
  | tail

/-- The value a call returns. -/
inductive Ret
  | void
  | ptr (p : Ptr)
  | flag (b : Bool)
  deriving DecidableEq

def perform (A : Allocator) (s : State) : Op → Except Stop (Ret × State)
  | .pushFront data => do pure (.void,← listPushFront A s data)
  | .pushBack data => do pure (.void,← listPushBack A s data)
  | .popFront => do
    let r ← listPopFront A s
    pure (.ptr r.1,r.2)
  | .popBack => do
    let r ← listPopBack A s
    pure (.ptr r.1,r.2)
  | .deleteElement data => do pure (.void,← listDeleteElement A s data)
  | .contains data => do pure (.flag (← listContains s data),s)
  | .head => do pure (.ptr (← listHead s),s)
  | .tail => do pure (.ptr (← listTail s),s)

/-- The same calls on a sequence. -/
def apply (xs : List Ptr) : Op → Ret × List Ptr
  | .pushFront data => (.void,data::xs)
  | .pushBack data => (.void,xs++[data])
  | .popFront => (.ptr (xs.headD 0),xs.tail)
  | .popBack => (.ptr (xs.getLastD 0),xs.dropLast)
  | .deleteElement data => (.void,xs.erase data)
  | .contains data => (.flag (decide (data ∈ xs)),xs)
  | .head => (.ptr (xs.headD 0),xs)
  | .tail => (.ptr (xs.getLastD 0),xs)

/-- The sequence that some calls leave of `xs`, and their results. -/
def applyAll (xs : List Ptr) : List Op → List Ret × List Ptr
  | [] => ([],xs)
  | op::ops =>
    let r := apply xs op
    let rest := applyAll r.2 ops
    (r.1::rest.1,rest.2)

theorem applyAll_append (xs : List Ptr) (ops : List Op) (op : Op) :
    applyAll xs (ops++[op]) =
      ((applyAll xs ops).1++[(apply (applyAll xs ops).2 op).1],
        (apply (applyAll xs ops).2 op).2) := by
  induction ops generalizing xs with
  | nil => rfl
  | cons o ops ih => simp only [List.cons_append,applyAll,ih]

theorem perform_spec {A : Allocator} {s : State} {xs : List Ptr} (hA : A.Contract)
    (h : Rep s xs) (op : Op) :
    Ends (perform A s op) fun r => r.1 = (apply xs op).1 ∧ Rep r.2 (apply xs op).2 := by
  cases op with
  | pushFront data => exact (listPushFront_spec hA h data).bind fun s' hs' => Ends.ok ⟨rfl,hs'⟩
  | pushBack data => exact (listPushBack_spec hA h data).bind fun s' hs' => Ends.ok ⟨rfl,hs'⟩
  | popFront => exact (listPopFront_spec hA h).bind fun r hr => Ends.ok ⟨congrArg Ret.ptr hr.1,hr.2⟩
  | popBack => exact (listPopBack_spec hA h).bind fun r hr => Ends.ok ⟨congrArg Ret.ptr hr.1,hr.2⟩
  | deleteElement data => exact (listDeleteElement_spec hA h data).bind fun s' hs' => Ends.ok ⟨rfl,
      hs'⟩
  | contains data =>
    rw [perform,listContains_spec h]
    exact Ends.ok ⟨rfl,h⟩
  | head =>
    rw [perform,listHead_spec h]
    exact Ends.ok ⟨rfl,h⟩
  | tail =>
    rw [perform,listTail_spec h]
    exact Ends.ok ⟨rfl,h⟩

/-- A list in use: the calls with their results so far. Every call has the allocator in a
state of its own, and between calls other code may change all memory but the array. -/
inductive Run : List (Op × Ret) → State → Prop
  | create (mem : Mem) : Run [] (listCreate mem)
  | call {log : List (Op × Ret)} {s s' : State} {A : Allocator} {op : Op} {r : Ret} (h : Run log s)
      (hA : A.Contract) (hret : perform A s op = .ok (r,s')) : Run (log++[(op,r)]) s'
  | other {log : List (Op × Ret)} {s : State} {mem : Mem} (h : Run log s)
      (hmem : ∀ x, s.list.data ≤ x → x < s.list.data+s.bytes → mem x = s.mem x) :
      Run log { s with mem := mem }

theorem listCreate_rep (mem : Mem) : Rep (listCreate mem) [] where
  bytes := rfl
  fits := by simp [listCreate]
  small := by simp
  size := rfl
  data := by simp [listCreate]
  contents := rfl

theorem Rep.other {s : State} {xs : List Ptr} (h : Rep s xs) {mem : Mem}
    (hmem : ∀ x, s.list.data ≤ x → x < s.list.data+s.bytes → mem x = s.mem x) :
    Rep { s with mem := mem } xs := by
  have hbytes := h.bytes
  refine ⟨⟨h.bytes,h.fits,h.small⟩,h.size,h.data,(pointers_shift fun x hx => ?_).trans h.contents⟩
  change mem (s.list.data+x) = s.mem (s.list.data+x)
  exact hmem _ (by omega) (by omega)

theorem Run.rep {log : List (Op × Ret)} {s : State} (h : Run log s) :
    log.map Prod.snd = (applyAll [] (log.map Prod.fst)).1 ∧
    Rep s (applyAll [] (log.map Prod.fst)).2 := by
  induction h with
  | create mem => exact ⟨rfl,listCreate_rep mem⟩
  | call h hA hret ih =>
    rcases perform_spec hA ih.2 _ with hfail | ⟨r,hok,hr,hs⟩
    · rw [hret] at hfail
      cases hfail
    · obtain rfl := Except.ok.inj (hret.symm.trans hok)
      simp only [List.map_append,List.map_cons,List.map_nil,applyAll_append]
      exact ⟨by rw [ih.1,← hr],hs⟩
  | other h hmem ih => exact ⟨ih.1,ih.2.other hmem⟩

/-- After every sequence of calls the results and the contents of the array are those of
the same calls on a sequence, there is an array exactly when the sequence is not empty,
its size is the number of elements, and no further call can access anything else. -/
theorem list_refines_sequence {log : List (Op × Ret)} {s : State} (h : Run log s) :
    log.map Prod.snd = (applyAll [] (log.map Prod.fst)).1 ∧
    pointers s.mem s.list.data s.list.size = (applyAll [] (log.map Prod.fst)).2 ∧
    (s.list.data = 0 ↔ (applyAll [] (log.map Prod.fst)).2 = []) ∧
    s.list.size = (applyAll [] (log.map Prod.fst)).2.length ∧ s.bytes = 4*s.list.size ∧
    ∀ A op, Allocator.Contract A → perform A s op ≠ .error .outOfBounds := by
  obtain ⟨hres,hrep⟩ := h.rep
  refine ⟨hres,hrep.size ▸ hrep.contents,hrep.data,hrep.size,hrep.size ▸ hrep.bytes,
    fun A op hA hc => ?_⟩
  rcases perform_spec hA hrep op with hfail | ⟨r,hok,-⟩
  · rw [hc] at hfail
    cases hfail
  · rw [hc] at hok
    cases hok

def twoPlaces : Allocator where
  malloc m n := if n ≤ 0x1000 then some (0x10000,m) else none
  realloc m old k n :=
    if k ≤ 0x1000 ∧ n ≤ 0x1000 ∧ old = 0x10000 then some (0x20000,copy m 0x20000 old (min k n))
    else if k ≤ 0x1000 ∧ n ≤ 0x1000 ∧ old = 0x20000 then some (0x10000,copy m 0x10000 old (min k n))
    else none
  free m _ := m

theorem twoPlaces_realloc {m m' : Mem} {old k n p : ℕ}
    (h : twoPlaces.realloc m old k n = some (p,m')) :
    k ≤ 0x1000 ∧ n ≤ 0x1000 ∧ (old = 0x10000 ∧ p = 0x20000 ∨ old = 0x20000 ∧ p = 0x10000) ∧
      m' = copy m p old (min k n) := by
  simp only [twoPlaces] at h
  split at h
  · rename_i hc
    obtain ⟨rfl,rfl⟩ := Prod.mk.inj (Option.some.inj h)
    exact ⟨hc.1,hc.2.1,.inl ⟨hc.2.2,rfl⟩,rfl⟩
  · split at h
    · rename_i hc
      obtain ⟨rfl,rfl⟩ := Prod.mk.inj (Option.some.inj h)
      exact ⟨hc.1,hc.2.1,.inr ⟨hc.2.2,rfl⟩,rfl⟩
    · cases h

theorem twoPlaces_contract : twoPlaces.Contract where
  malloc_fits := by
    intro m n p m' h
    simp only [twoPlaces] at h
    split at h
    · obtain ⟨rfl,rfl⟩ := Prod.mk.inj (Option.some.inj h)
      simp only [W32]
      omega
    · cases h
  realloc_fits := by
    intro m old k n p m' h
    obtain ⟨hk,hn,hp,-⟩ := twoPlaces_realloc h
    simp only [W32]
    omega
  realloc_fresh := by
    intro m old k n p m' h _
    obtain ⟨hk,hn,hp,-⟩ := twoPlaces_realloc h
    omega
  realloc_keeps := by
    intro m old k n p m' h i hi hin
    obtain ⟨-,-,-,rfl⟩ := twoPlaces_realloc h
    rw [copy,if_pos (by omega)]
    exact congrArg m (by omega)

theorem list_refines_sequence_pop : ∃ s, Run
    [(.pushFront 7,.void),(.pushBack 9,.void),(.popFront,.ptr 7)] s ∧
    s.list.size = 1 ∧ pointers s.mem s.list.data 1 = [9] := by
  have hcalls : (perform twoPlaces (listCreate fun _ => 0) (.pushFront 7)).toOption.any (fun r₁ =>
      (perform twoPlaces r₁.2 (.pushBack 9)).toOption.any fun r₂ =>
        (perform twoPlaces r₂.2 .popFront).toOption.any fun r₃ =>
          decide (r₁.1 = .void ∧ r₂.1 = .void ∧ r₃.1 = .ptr 7)) = true := by decide +kernel
  obtain ⟨⟨a,s₁⟩,h₁,hcalls⟩ := (Option.any_eq_true _ _).mp hcalls
  obtain ⟨⟨b,s₂⟩,h₂,hcalls⟩ := (Option.any_eq_true _ _).mp hcalls
  obtain ⟨⟨c,s₃⟩,h₃,hcalls⟩ := (Option.any_eq_true _ _).mp hcalls
  obtain ⟨rfl,rfl,rfl⟩ : a = .void ∧ b = .void ∧ c = .ptr 7 := of_decide_eq_true hcalls
  have hrun := (((Run.create fun _ => 0).call twoPlaces_contract (Result.eq_ok_of_toOption h₁)).call
    twoPlaces_contract (Result.eq_ok_of_toOption h₂)).call twoPlaces_contract
      (Result.eq_ok_of_toOption h₃)
  obtain ⟨-,hcont,-,hsize,-⟩ := list_refines_sequence hrun
  have hone : s₃.list.size = 1 := hsize
  exact ⟨s₃,hrun,hone,hone ▸ hcont⟩

end Lists
end ScalesOS
