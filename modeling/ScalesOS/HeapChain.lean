import ScalesOS.KernelHeap

/-!
# The block chain of the kernel heap

The list of headers in memory is read as a list of blocks. `Linked` says that the
headers hold the blocks' sizes, flags and links, `Tiles` that the blocks cover an
address range without gap or overlap. Each heap operation gets one specification in
these terms.
-/

namespace ScalesOS

open ByteMemory

structure Block where
  addr : ℕ
  size : ℕ
  free : Bool
  deriving DecidableEq, Repr

namespace Block

def stop (b : Block) : ℕ := b.addr+Heap.HEADER+b.size

def Payload (b : Block) (x : ℕ) : Prop := b.addr+Heap.HEADER ≤ x ∧ x < b.stop

/-- The header in memory describes `b` and links to `next`. -/
structure At (h : Heap) (b : Block) (next : ℕ) : Prop where
  size : h.size b.addr = b.size
  free : h.isFree b.addr = b.free
  next : h.next b.addr = next

theorem At.congr {h h' : Heap} {b : Block} {next : ℕ} (hb : b.At h next)
    (hmem : ∀ x, b.addr ≤ x → x < b.addr+Heap.HEADER → h'.mem x = h.mem x) : b.At h' next := by
  simp only [Heap.HEADER] at hmem
  refine ⟨?_,?_,?_⟩
  · rw [← hb.size]
    exact read32_congr fun x h1 h2 => hmem x h1 (by omega)
  · rw [← hb.free,Heap.isFree,Heap.isFree,Heap.flags,Heap.flags,hmem _ (by omega) (by omega)]
  · rw [← hb.next]
    exact read32_congr fun x h1 h2 => hmem x (by omega) (by omega)

end Block

open Block

/-- The first address of a list of blocks, or `next` where there is none. -/
def headAddr (next : ℕ) : List Block → ℕ
  | [] => next
  | b::_ => b.addr

def lastAddr (prev : ℕ) : List Block → ℕ
  | [] => prev
  | b::bs => lastAddr b.addr bs

def Linked (h : Heap) : List Block → ℕ → Prop
  | [], _ => True
  | b::bs, next => b.At h (headAddr next bs) ∧ Linked h bs next

def Tiles (a : ℕ) : List Block → ℕ → Prop
  | [], e => a = e
  | b::bs, e => b.addr = a ∧ 1 ≤ b.size ∧ Tiles b.stop bs e

@[simp] theorem headAddr_append (next : ℕ) (xs ys : List Block) :
    headAddr next (xs++ys) = headAddr (headAddr next ys) xs := by
  cases xs <;> rfl

@[simp] theorem lastAddr_append_singleton (prev : ℕ) (xs : List Block) (b : Block) :
    lastAddr prev (xs++[b]) = b.addr := by
  induction xs generalizing prev with
  | nil => rfl
  | cons x xs ih => simp [lastAddr,ih]

theorem linked_append {h : Heap} {xs ys : List Block} {next : ℕ} :
    Linked h (xs++ys) next ↔ Linked h xs (headAddr next ys) ∧ Linked h ys next := by
  induction xs with
  | nil => simp [Linked]
  | cons x xs ih => simp [Linked,ih,and_assoc]

theorem Linked.congr {h h' : Heap} {bs : List Block} {next : ℕ} (hl : Linked h bs next)
    (hmem : ∀ b ∈ bs, ∀ x, b.addr ≤ x → x < b.addr+Heap.HEADER → h'.mem x = h.mem x) :
    Linked h' bs next := by
  induction bs with
  | nil => trivial
  | cons b bs ih =>
    exact ⟨hl.1.congr (hmem b (by simp)),ih hl.2 fun c hc => hmem c (by simp [hc])⟩

theorem tiles_append {a e : ℕ} {xs ys : List Block} :
    Tiles a (xs++ys) e ↔ ∃ m, Tiles a xs m ∧ Tiles m ys e := by
  induction xs generalizing a with
  | nil => simp [Tiles]
  | cons x xs ih =>
    simp only [List.cons_append,Tiles,ih]
    constructor
    · rintro ⟨h1,h2,m,h3,h4⟩; exact ⟨m,⟨h1,h2,h3⟩,h4⟩
    · rintro ⟨m,⟨h1,h2,h3⟩,h4⟩; exact ⟨h1,h2,m,h3,h4⟩

theorem Tiles.le {a e : ℕ} {bs : List Block} (ht : Tiles a bs e) : a+10*bs.length ≤ e := by
  induction bs generalizing a with
  | nil => simpa using Nat.le_of_eq ht
  | cons b bs ih =>
    obtain ⟨rfl,h1,h2⟩ := ht
    have := ih h2
    simp only [List.length_cons,stop,Heap.HEADER] at *
    omega

theorem Tiles.mem {a e : ℕ} {bs : List Block} (ht : Tiles a bs e) {b : Block} (hb : b ∈ bs) :
    a ≤ b.addr ∧ 1 ≤ b.size ∧ b.stop ≤ e := by
  induction bs generalizing a with
  | nil => simp at hb
  | cons c bs ih =>
    obtain ⟨rfl,h1,h2⟩ := ht
    rcases List.mem_cons.mp hb with rfl | hb
    · exact ⟨le_rfl,h1,by have := h2.le; omega⟩
    · have := ih h2 hb
      simp only [stop,Heap.HEADER] at *
      omega

theorem Tiles.pairwise {a e : ℕ} {bs : List Block} (ht : Tiles a bs e) :
    bs.Pairwise fun b c => b.stop ≤ c.addr := by
  induction bs generalizing a with
  | nil => exact List.Pairwise.nil
  | cons b bs ih =>
    obtain ⟨rfl,h1,h2⟩ := ht
    exact List.pairwise_cons.mpr ⟨fun c hc => (h2.mem hc).1,ih h2⟩

theorem Tiles.eq_or_apart {a e : ℕ} {bs : List Block} (ht : Tiles a bs e) {b c : Block}
    (hb : b ∈ bs) (hc : c ∈ bs) : b = c ∨ b.stop ≤ c.addr ∨ c.stop ≤ b.addr := by
  induction bs generalizing a with
  | nil => simp at hb
  | cons x bs ih =>
    have hx := (List.pairwise_cons.mp ht.pairwise).1
    rcases List.mem_cons.mp hb with rfl | hb' <;> rcases List.mem_cons.mp hc with rfl | hc'
    · exact .inl rfl
    · exact .inr (.inl (hx c hc'))
    · exact .inr (.inr (hx b hb'))
    · exact ih ht.2.2 hb' hc'

/-- The chain starts at the heap's first address, ends in 0, and covers the heap. -/
structure HeapOk (h : Heap) (bs : List Block) : Prop where
  linked : Linked h bs 0
  tiles : Tiles HEAP_START bs (HEAP_START+h.heapSize)
  fits : HEAP_START+h.heapSize ≤ HEAP_END
  nonempty : bs ≠ []

namespace Heap

/-! ## Header fields after an update -/

section Fields

variable (h : Heap) (a v : ℕ) (f : BitVec 8)

@[simp] theorem size_setSize : (h.setSize a v).size a = v%W32 := read32_write32 h.mem a v
@[simp] theorem size_setFlags : (h.setFlags a f).size a = h.size a :=
  read32_congr fun x _ h2 => Function.update_of_ne (by omega) _ _
@[simp] theorem size_setNext : (h.setNext a v).size a = h.size a :=
  read32_congr fun x _ h2 => write32_outside _ (by omega)

@[simp] theorem flags_setSize : (h.setSize a v).flags a = h.flags a :=
  write32_outside _ (by omega)
@[simp] theorem flags_setFlags : (h.setFlags a f).flags a = f := by simp [flags,setFlags]
@[simp] theorem flags_setNext : (h.setNext a v).flags a = h.flags a :=
  write32_outside _ (by omega)

@[simp] theorem next_setSize : (h.setSize a v).next a = h.next a :=
  read32_congr fun x _ h2 => write32_outside _ (by omega)
@[simp] theorem next_setFlags : (h.setFlags a f).next a = h.next a :=
  read32_congr fun x h1 _ => Function.update_of_ne (by omega) _ _
@[simp] theorem next_setNext : (h.setNext a v).next a = v%W32 := read32_write32 h.mem (a+5) v

@[simp] theorem heapSize_setSize : (h.setSize a v).heapSize = h.heapSize := rfl
@[simp] theorem heapSize_setFlags : (h.setFlags a f).heapSize = h.heapSize := rfl
@[simp] theorem heapSize_setNext : (h.setNext a v).heapSize = h.heapSize := rfl

variable {x : ℕ}

theorem mem_setSize (hx : x < a ∨ a+HEADER ≤ x) : (h.setSize a v).mem x = h.mem x :=
  write32_outside _ (by simp only [HEADER] at hx; omega)
theorem mem_setFlags (hx : x < a ∨ a+HEADER ≤ x) : (h.setFlags a f).mem x = h.mem x :=
  Function.update_of_ne (by simp only [HEADER] at hx; omega) _ _
theorem mem_setNext (hx : x < a ∨ a+HEADER ≤ x) : (h.setNext a v).mem x = h.mem x :=
  write32_outside _ (by simp only [HEADER] at hx; omega)

end Fields

/-! ## Validity of chain blocks -/

theorem memHeapEnd_eq {h : Heap} (hfit : HEAP_START+h.heapSize ≤ HEAP_END) :
    h.memHeapEnd = HEAP_START+h.heapSize := by
  rw [memHeapEnd]
  exact Nat.mod_eq_of_lt (lt_of_le_of_lt hfit (by decide))

theorem zero_invalid (h : Heap) : h.memHeapIsValidBlock 0 = false := by
  rw [memHeapIsValidBlock,decide_eq_false_iff_not]
  rintro ⟨h1,-⟩
  exact absurd h1 (by decide)

theorem at_valid {h : Heap} {b : Block} {next : ℕ} (hat : b.At h next)
    (hfit : HEAP_START+h.heapSize ≤ HEAP_END) (hlow : HEAP_START ≤ b.addr) (hsize : 1 ≤ b.size)
    (hstop : b.stop ≤ HEAP_START+h.heapSize) : h.memHeapIsValidBlock b.addr = true := by
  have hlt : HEAP_END < W32 := by decide
  simp only [Block.stop] at hstop
  rw [memHeapIsValidBlock,decide_eq_true_iff,memHeapEnd_eq hfit,hat.size,
    Nat.mod_eq_of_lt (by omega)]
  exact ⟨hlow,by omega,by omega,hstop⟩

end Heap

theorem HeapOk.at {h : Heap} {pre post : List Block} {b : Block}
    (hok : HeapOk h (pre++b::post)) : b.At h (headAddr 0 post) :=
  (linked_append.mp hok.linked).2.1

theorem HeapOk.bounds {h : Heap} {bs : List Block} (hok : HeapOk h bs) {b : Block} (hb : b ∈ bs) :
    HEAP_START ≤ b.addr ∧ 1 ≤ b.size ∧ b.stop ≤ HEAP_START+h.heapSize ∧
      HEAP_START+h.heapSize ≤ HEAP_END := by
  obtain ⟨h1,h2,h3⟩ := hok.tiles.mem hb
  exact ⟨h1,h2,h3,hok.fits⟩

theorem HeapOk.valid {h : Heap} {bs : List Block} (hok : HeapOk h bs) {b : Block} (hb : b ∈ bs) :
    h.memHeapIsValidBlock b.addr = true := by
  obtain ⟨pre,post,rfl⟩ := List.append_of_mem hb
  obtain ⟨h1,h2,h3,h4⟩ := hok.bounds hb
  exact Heap.at_valid hok.at h4 h1 h2 h3

theorem HeapOk.head {h : Heap} {bs : List Block} (hok : HeapOk h bs) :
    headAddr 0 bs = HEAP_START := by
  have ht := hok.tiles
  cases bs with
  | nil => exact absurd rfl hok.nonempty
  | cons b bs => exact ht.1

theorem HeapOk.length_lt {h : Heap} {bs : List Block} (hok : HeapOk h bs) :
    bs.length < h.heapSize+1 := by
  have := hok.tiles.le
  omega

namespace Heap

/-! ## The search of `malloc` -/

/-- The search stops at the first free block that has the size asked for or is long
enough to be split. -/
theorem mallocSearch_spec {h : Heap} (n last : ℕ) (pre : List Block) {bs : List Block} {fuel : ℕ}
    (hok : HeapOk h (pre++bs)) (hfuel : bs.length < fuel) :
    (∃ xs b ys, bs = xs++b::ys ∧ b.free = true ∧ (b.size = n ∨ (n+HEADER+1)%W32 ≤ b.size) ∧
      mallocSearch h n fuel (headAddr 0 bs) last = .ok (b.addr,lastAddr last xs)) ∨
    mallocSearch h n fuel (headAddr 0 bs) last = .ok (0,lastAddr last bs) := by
  induction bs generalizing pre fuel last with
  | nil =>
    obtain ⟨fuel,rfl⟩ : ∃ k, fuel = k+1 := ⟨fuel-1,by simp at hfuel; omega⟩
    right
    simp [mallocSearch,headAddr,zero_invalid,lastAddr,pure,Except.pure]
  | cons b bs ih =>
    obtain ⟨fuel,rfl⟩ : ∃ k, fuel = k+1 := ⟨fuel-1,by simp at hfuel; omega⟩
    have hat := hok.at
    have hvalid := hok.valid (b:=b) (by simp)
    simp only [mallocSearch,headAddr,hvalid,hat.size,hat.free,hat.next,Bool.true_and]
    split
    · have hok' : HeapOk h ((pre++[b])++bs) := by simpa using hok
      rcases ih b.addr _ hok' (Nat.lt_of_succ_lt_succ hfuel) with
        ⟨xs,c,ys,rfl,hc⟩ | hnone
      · exact .inl ⟨b::xs,c,ys,rfl,hc⟩
      · exact .inr hnone
    · rename_i hstop
      simp only [Bool.or_eq_true,Bool.not_eq_true',decide_eq_true_iff,not_or] at hstop
      exact .inl ⟨[],b,bs,rfl,by simpa using hstop.1,by omega,rfl⟩

end Heap
/-! ## Replacing part of a chain -/

theorem Tiles.end_unique {a e e' : ℕ} {bs : List Block} (h : Tiles a bs e) (h' : Tiles a bs e') :
    e = e' := by
  induction bs generalizing a with
  | nil => exact h.symm.trans h'
  | cons b bs ih => exact ih h.2.2 h'.2.2

/-- Blocks of the chain may be replaced by others that cover the same addresses, if
no byte outside these addresses changes. -/
theorem HeapOk.replace {h h' : Heap} {pre post : List Block} {b b' : Block} {e : ℕ}
    (mid mid' : List Block) (hok : HeapOk h (pre++b::(mid++post))) (hmid : Tiles b.addr (b::mid) e)
    (hmid' : Tiles b.addr (b'::mid') e) (hlink : Linked h' (b'::mid') (headAddr 0 post))
    (hmem : ∀ x, x < b.addr ∨ e ≤ x → h'.mem x = h.mem x) (hsize : h'.heapSize = h.heapSize) :
    HeapOk h' (pre++b'::(mid'++post)) := by
  obtain ⟨m,hpre,hrest⟩ := tiles_append.mp hok.tiles
  obtain rfl : b.addr = m := hrest.1
  obtain ⟨e',hmid₁,hpost⟩ := tiles_append.mp (show Tiles b.addr ((b::mid)++post) _ from hrest)
  obtain rfl := hmid.end_unique hmid₁
  obtain ⟨hlpre,hlrest⟩ := linked_append.mp hok.linked
  obtain ⟨-,hlpost⟩ := linked_append.mp (show Linked h ((b::mid)++post) 0 from hlrest)
  refine ⟨?_,?_,?_,by simp⟩
  · refine linked_append.mpr ⟨?_,?_⟩
    · rw [show headAddr 0 (b'::(mid'++post)) = headAddr 0 (b::(mid++post)) from hmid'.1]
      refine hlpre.congr fun c hc x _ hx => hmem x (.inl ?_)
      have := (hpre.mem hc).2.2
      simp only [stop] at this
      omega
    · rw [← List.cons_append]
      refine linked_append.mpr ⟨hlink,?_⟩
      exact hlpost.congr fun c hc x hx _ => hmem x (.inr ((hpost.mem hc).1.trans hx))
  · rw [hsize]
    refine tiles_append.mpr ⟨b.addr,hpre,?_⟩
    rw [← List.cons_append]
    exact tiles_append.mpr ⟨e,hmid',hpost⟩
  · rw [hsize]
    exact hok.fits

theorem HeapOk.of_mem_eq {h h' : Heap} {bs : List Block} (hok : HeapOk h bs)
    (hmem : h'.mem = h.mem) (hsize : h'.heapSize = h.heapSize) : HeapOk h' bs :=
  ⟨hok.linked.congr fun _ _ _ _ _ => by rw [hmem],by rw [hsize]; exact hok.tiles,
    by rw [hsize]; exact hok.fits,hok.nonempty⟩

theorem HeapOk.tiles_one {h : Heap} {pre post : List Block} {b : Block}
    (hok : HeapOk h (pre++b::post)) : Tiles b.addr [b] b.stop :=
  ⟨rfl,(hok.bounds (b:=b) (by simp)).2.1,rfl⟩

theorem HeapOk.setFlags {h : Heap} {pre post : List Block} {b : Block}
    (hok : HeapOk h (pre++b::post)) (f : BitVec 8) :
    HeapOk (h.setFlags b.addr f) (pre++{ b with free := f &&& Heap.M_BLOCK_FREE !=
        0#8 }::post) := by
  have hat := hok.at
  have hone := hok.tiles_one
  refine hok.replace [] [] hone ⟨rfl,hone.2.1,rfl⟩ ⟨⟨?_,?_,?_⟩,trivial⟩ ?_ rfl
  · exact (Heap.size_setFlags _ _ _).trans hat.size
  · simp [Heap.isFree]
  · exact (Heap.next_setFlags _ _ _).trans hat.next
  · intro x hx
    exact Heap.mem_setFlags _ _ _ (by simp only [stop] at hx; omega)

namespace Heap

theorem memHeapInitBlock_eq {h h' : Heap} {block size : ℕ}
    (hret : memHeapInitBlock h block size = .ok h') :
    size ≠ 0 ∧ h' = ((h.setSize block size).setFlags block M_BLOCK_FREE).setNext block 0 := by
  simp only [memHeapInitBlock] at hret
  split at hret
  · cases hret
  · exact ⟨by assumption,(Except.ok.inj hret).symm⟩

theorem next_lt (h : Heap) (a : ℕ) : h.next a < W32 := read32_lt h.mem (a+5)

/-- The header updates of a split: `q` is the new block behind the first `n` bytes. -/
theorem split_headers {h : Heap} {b : Block} {n next q d : ℕ} (hat : b.At h next)
    (hq : q = b.addr+HEADER+n) (hqlt : q < W32) (hd : d < W32) :
    let h₁ := ((h.setSize q d).setFlags q M_BLOCK_FREE).setNext q 0
    let h₂ := ((h₁.setNext q (h₁.next b.addr)).setNext b.addr q).setSize b.addr n
    Linked h₂ [⟨b.addr,n,b.free⟩,⟨q,d,true⟩] next ∧
      ∀ x, x < b.addr ∨ q+HEADER ≤ x → h₂.mem x = h.mem x := by
  intro h₁ h₂
  have hnext : next < W32 := hat.next ▸ next_lt h b.addr
  simp only [HEADER] at hq
  have hmem₁ : ∀ x, x < q ∨ q+HEADER ≤ x → h₁.mem x = h.mem x := by
    intro x hx
    rw [mem_setNext _ _ _ hx,mem_setFlags _ _ _ hx,mem_setSize _ _ _ hx]
  have hb₁ : b.At h₁ next :=
    hat.congr fun x _ hx => hmem₁ x (.inl (by simp only [HEADER] at hx; omega))
  have hb₂ : b.At (h₁.setNext q (h₁.next b.addr)) next :=
    hb₁.congr fun x _ hx => mem_setNext _ _ _ (.inl (by simp only [HEADER] at hx; omega))
  have hq₁ : (⟨q,d,true⟩ : Block).At (h₁.setNext q (h₁.next b.addr)) next := by
    refine ⟨?_,?_,?_⟩
    · simpa [h₁] using hd
    · simp [h₁,isFree,M_BLOCK_FREE]
    · simpa [hb₁.next] using hnext
  have hmem₂ : ∀ x, x < b.addr ∨ b.addr+HEADER ≤ x →
      h₂.mem x = (h₁.setNext q (h₁.next b.addr)).mem x := by
    intro x hx
    rw [mem_setSize _ _ _ hx,mem_setNext _ _ _ hx]
  refine ⟨⟨⟨?_,?_,?_⟩,?_,trivial⟩,?_⟩
  · have : n < W32 := by omega
    simpa [h₂] using this
  · simpa [h₂,isFree] using hb₂.free
  · simpa [h₂,headAddr] using hqlt
  · exact hq₁.congr fun x hx _ => hmem₂ x (.inr (by simp only [HEADER] at *; omega))
  · intro x hx
    simp only [HEADER] at hx
    rw [hmem₂ x (by simp only [HEADER]; omega),mem_setNext _ _ _ (by simp only [HEADER]; omega),
      hmem₁ x (by simp only [HEADER]; omega)]

/-- A split that reports success leaves a block of at least the size asked for and
puts the rest, if a header fits, behind it as a free block. -/
theorem memSplitBlock_spec {h h' : Heap} {pre post : List Block} {b : Block} {n : ℕ}
    (hok : HeapOk h (pre++b::post)) (hn : 1 ≤ n)
    (hret : memSplitBlock h b.addr n = .ok (0,h')) :
    ∃ s rest, n ≤ s ∧ rest.length ≤ 1 ∧
      HeapOk h' (pre++⟨b.addr,s,b.free⟩::(rest++post)) ∧
      h'.heapSize = h.heapSize ∧ ∀ x, x < b.addr ∨ b.stop ≤ x → h'.mem x = h.mem x := by
  have hat := hok.at
  obtain ⟨hlow,hpos,hstop,hend⟩ := hok.bounds (b:=b) (by simp)
  have hlt : HEAP_END < W32 := by decide
  simp only [memSplitBlock,hok.valid (b:=b) (by simp),hat.size] at hret
  simp only [Bool.not_true,Bool.false_eq_true,if_false] at hret
  split at hret
  · cases hret
  · rename_i hge
    split at hret
    · obtain ⟨-,rfl⟩ := Prod.mk.inj (Except.ok.inj hret)
      exact ⟨b.size,[],by omega,by simp,hok,rfl,fun _ _ => rfl⟩
    · rename_i hlong
      simp only [stop,HEADER,W32] at hstop hlong hlt
      have hstart : 0x1000 ≤ HEAP_START := by decide
      have hroom : n+10 ≤ b.size := by omega
      obtain ⟨h₁,hinit,hret⟩ := Result.bind_eq_ok.mp hret
      obtain ⟨-,rfl⟩ := memHeapInitBlock_eq hinit
      obtain ⟨-,rfl⟩ := Prod.mk.inj (Except.ok.inj hret)
      have hq : (M_MEMORY b.addr+n)%W32 = b.addr+HEADER+n := by
        rw [M_MEMORY,Nat.mod_eq_of_lt (a:=b.addr+HEADER) (by simp only [HEADER,W32]; omega)]
        exact Nat.mod_eq_of_lt (by simp only [HEADER,W32]; omega)
      have hd : (b.size-n+W32-HEADER)%W32 = b.size-n-HEADER := by
        simp only [HEADER,W32]
        omega
      rw [hq,hd]
      obtain ⟨hlink,hmem⟩ := split_headers (n:=n) (d:=b.size-n-HEADER) hat rfl
        (by simp only [HEADER,W32]; omega) (by simp only [W32]; omega)
      refine ⟨n,[⟨b.addr+HEADER+n,b.size-n-HEADER,true⟩],le_rfl,le_rfl,?_,rfl,?_⟩
      · refine hok.replace [] [_] (e:=b.stop) hok.tiles_one ?_ hlink ?_ rfl
        · refine ⟨rfl,hn,rfl,?_,?_⟩
          · simp only [HEADER]; omega
          · simp only [Tiles,stop,HEADER]; omega
        · intro x hx
          exact hmem x (by simp only [stop,HEADER] at *; omega)
      · intro x hx
        exact hmem x (by simp only [stop,HEADER] at *; omega)

/-! ## The branches of `malloc` -/

theorem clear_free_flag (f : BitVec 8) :
    (f &&& ~~~M_BLOCK_FREE &&& M_BLOCK_FREE != 0#8) = false := by
  rw [BitVec.and_assoc,show ~~~M_BLOCK_FREE &&& M_BLOCK_FREE = 0#8 by decide]
  simp

theorem set_free_flag (f : BitVec 8) : ((f ||| M_BLOCK_FREE) &&& M_BLOCK_FREE != 0#8) = true := by
  revert f
  decide

/-- The chosen block becomes an allocated one of at least `n` bytes. -/
theorem mallocTake_spec {h h' : Heap} {pre post : List Block} {b : Block} {n p : ℕ}
    (hok : HeapOk h (pre++b::post)) (hn : 1 ≤ n) (hret : mallocTake h n b.addr = .ok (p,h')) :
    p = b.addr+HEADER ∧ ∃ s rest, n ≤ s ∧ rest.length ≤ 1 ∧
      HeapOk h' (pre++⟨b.addr,s,false⟩::(rest++post)) ∧
      ∀ x, x < b.addr ∨ b.stop ≤ x → h'.mem x = h.mem x := by
  have hlt : HEAP_END < W32 := by decide
  obtain ⟨-,-,hstop,hend⟩ := hok.bounds (b:=b) (by simp)
  have hp : M_MEMORY b.addr = b.addr+HEADER :=
    Nat.mod_eq_of_lt (by simp only [stop] at hstop; omega)
  -- either way the block that is taken is at least as long as asked for
  have hmain : ∃ r : Heap, (∃ s rest, n ≤ s ∧ rest.length ≤ 1 ∧
      HeapOk r (pre++⟨b.addr,s,b.free⟩::(rest++post)) ∧
      ∀ x, x < b.addr ∨ b.stop ≤ x → r.mem x = h.mem x) ∧ p = M_MEMORY b.addr ∧
      h'.mem = (r.setFlags b.addr (r.flags b.addr &&& ~~~M_BLOCK_FREE)).mem ∧
      h'.heapSize = r.heapSize := by
    simp only [mallocTake,hok.at.size] at hret
    split at hret
    · obtain ⟨⟨c,r⟩,hsplit,hret⟩ := Result.bind_eq_ok.mp hret
      by_cases hc : c = 0
      · subst hc
        obtain ⟨rfl,rfl⟩ := Prod.mk.inj (Except.ok.inj hret)
        obtain ⟨s,rest,hs,hrest,hok',-,hmem⟩ := memSplitBlock_spec hok hn hsplit
        exact ⟨r,⟨s,rest,hs,hrest,hok',hmem⟩,rfl,rfl,rfl⟩
      · rw [if_pos hc] at hret
        cases hret
    · rename_i hsize
      obtain ⟨rfl,rfl⟩ := Prod.mk.inj (Except.ok.inj hret)
      exact ⟨h,⟨b.size,[],by omega,by simp,hok,fun _ _ => rfl⟩,rfl,rfl,rfl⟩
  obtain ⟨r,⟨s,rest,hs,hrest,hok',hmem⟩,rfl,hm,hsz⟩ := hmain
  refine ⟨hp,s,rest,hs,hrest,?_,?_⟩
  · have hset := hok'.setFlags (r.flags b.addr &&& ~~~M_BLOCK_FREE)
    rw [clear_free_flag] at hset
    exact hset.of_mem_eq hm hsz
  · intro x hx
    rw [hm,mem_setFlags _ _ _ (by simp only [stop] at hx; omega),hmem x hx]

theorem memGrowHeap_spec {pm : PageMapper} {h : Heap} {pages addr : ℕ}
    (hfit : HEAP_START+h.heapSize ≤ HEAP_END) (hpages : 1 ≤ pages)
    (hret : memGrowHeap pm h pages = .ok addr) (haddr : addr ≠ 0) :
    addr = HEAP_START+h.heapSize ∧ HEAP_START+h.heapSize+pages*0x1000 ≤ HEAP_END := by
  have hlt : HEAP_END < W32 := by decide
  have hlt' : USABLE_MEMORY_END < W32 := by decide
  rw [memGrowHeap,if_neg (by omega)] at hret
  simp only [Nat.mod_eq_of_lt (lt_of_le_of_lt hfit hlt)] at hret
  split at hret
  · exact absurd (Except.ok.inj hret).symm haddr
  · rename_i hle
    split at hret
    · rename_i hmap
      have hbelow := pm.below _ _ hmap
      rw [Nat.mod_eq_of_lt (by omega)] at hle
      exact ⟨(Except.ok.inj hret).symm,by omega⟩
    · cases hret

/-- The header updates of a growth: a free block at `q` is hung behind `b`. -/
theorem grow_headers {h : Heap} {b : Block} {next q d : ℕ} (hat : b.At h next)
    (hq : b.addr+HEADER ≤ q) (hqlt : q < W32) (hd : d < W32) :
    let h₁ := ((h.setSize q d).setFlags q M_BLOCK_FREE).setNext q 0
    Linked (h₁.setNext b.addr q) [b,⟨q,d,true⟩] 0 := by
  intro h₁
  have hb : b.At h₁ next := hat.congr fun x _ hx => by
    rw [mem_setNext _ _ _ (by omega),mem_setFlags _ _ _ (by omega),mem_setSize _ _ _ (by omega)]
  have hq₁ : (⟨q,d,true⟩ : Block).At h₁ 0 := by
    refine ⟨?_,?_,?_⟩
    · simpa [h₁] using hd
    · simp [h₁,isFree,M_BLOCK_FREE]
    · simp [h₁]
  refine ⟨⟨?_,?_,?_⟩,?_,trivial⟩
  · simpa using hb.size
  · simpa [isFree] using hb.free
  · simpa [headAddr] using hqlt
  · exact hq₁.congr fun x hx _ => mem_setNext _ _ _ (.inr (by simp only at hx; omega))

theorem mallocGrow_spec {pm : PageMapper} {h h' : Heap} {pre : List Block} {b : Block} {n addr : ℕ}
    (hok : HeapOk h (pre++[b])) (hret : mallocGrow pm h n b.addr = .ok (addr,h')) :
    ∃ s, addr = HEAP_START+h.heapSize ∧ 0x1000-HEADER ≤ s ∧ HeapOk h' (pre++[b]++[⟨addr,s,true⟩]) ∧
      ∀ x, x < HEAP_START+h.heapSize → x < b.addr ∨ b.addr+HEADER ≤ x → h'.mem x = h.mem x := by
  have hlt : HEAP_END < W32 := by decide
  obtain ⟨blk,hgrow,hret⟩ := Result.bind_eq_ok.mp hret
  generalize hg : (n+HEADER+1)%W32/0x1000+1 = g at hgrow hret
  by_cases hblk : blk = 0
  · rw [if_pos hblk] at hret
    cases hret
  · rw [if_neg hblk] at hret
    obtain ⟨h₁,hinit,hret⟩ := Result.bind_eq_ok.mp hret
    obtain ⟨rfl,rfl⟩ := Prod.mk.inj (Except.ok.inj hret)
    obtain ⟨hpos,rfl⟩ := memHeapInitBlock_eq hinit
    obtain ⟨rfl,hend⟩ := memGrowHeap_spec hok.fits (by omega) hgrow hblk
    simp only [W32,HEADER] at hlt hpos
    have hsz : (h.heapSize+g*0x1000)%W32 = h.heapSize+g*0x1000 :=
      Nat.mod_eq_of_lt (by simp only [W32]; omega)
    have hlen : (g*0x1000+W32-HEADER)%W32 = g*0x1000-HEADER := by
      simp only [W32,HEADER]
      omega
    rw [hsz,hlen]
    obtain ⟨-,hbpos,hbstop,-⟩ := hok.bounds (b:=b) (by simp)
    simp only [stop,HEADER] at hbstop
    refine ⟨g*0x1000-HEADER,rfl,by omega,⟨?_,?_,?_,by simp⟩,?_⟩
    · obtain ⟨hlpre,-⟩ := linked_append.mp hok.linked
      have hnew := grow_headers (h:={ h with heapSize := h.heapSize+g*0x1000 }) (d:=g*0x1000-HEADER)
        (hok.at.congr fun _ _ _ => rfl) (q:=HEAP_START+h.heapSize)
        (by simp only [HEADER]; omega) (by simp only [W32]; omega) (by simp only [W32]; omega)
      rw [List.append_assoc]
      refine linked_append.mpr ⟨hlpre.congr fun c hc x _ hx => ?_,hnew⟩
      have hapart := (List.pairwise_append.mp hok.tiles.pairwise).2.2 c hc b (by simp)
      have hlow : x < b.addr := by simp only [stop,HEADER] at *; omega
      rw [mem_setNext _ _ _ (.inl hlow),mem_setNext _ _ _ (by omega),mem_setFlags _ _ _ (by omega),
        mem_setSize _ _ _ (by omega)]
    · refine tiles_append.mpr ⟨_,hok.tiles,rfl,?_,?_⟩
      · simp only [HEADER]; omega
      · simp only [Tiles,stop,HEADER,heapSize_setNext,heapSize_setFlags,heapSize_setSize]; omega
    · simpa [Nat.add_assoc] using hend
    · intro x hx hxb
      rw [mem_setNext _ _ _ hxb,mem_setNext _ _ _ (.inl hx),mem_setFlags _ _ _ (.inl hx),
        mem_setSize _ _ _ (.inl hx)]

theorem payload_apart {a e : ℕ} {bs : List Block} (ht : Tiles a bs e) {b c : Block}
    (hb : b ∈ bs) (hc : c ∈ bs) {x : ℕ} (hx : c.Payload x) : x < b.addr ∨ b.addr+HEADER ≤ x := by
  obtain ⟨h1,h2⟩ := hx
  rcases ht.eq_or_apart hb hc with rfl | h | h <;> simp only [stop,HEADER] at * <;> omega

/-- The block that `malloc` takes: found in the chain, or made of fresh pages. -/
theorem malloc_choice {pm : PageMapper} {h h' : Heap} {bs : List Block} {n p : ℕ}
    (hok : HeapOk h bs) (hret : malloc pm h n = .ok (p,h')) :
    ∃ r pre b post, HeapOk r (pre++b::post) ∧ b.free = true ∧ (n = 0 → HEADER+1 ≤ b.size) ∧
      (bs = pre++b::post ∨ bs = pre ∧ post = []) ∧
      (∀ c ∈ bs, ∀ x, c.Payload x → r.mem x = h.mem x) ∧ mallocTake r n b.addr = .ok (p,h') := by
  obtain ⟨found,hsearch,hret⟩ := Result.bind_eq_ok.mp hret
  obtain ⟨init,b₀,hbs⟩ := List.eq_nil_or_concat bs |>.resolve_left hok.nonempty
  have hspec := mallocSearch_spec n HEAP_START [] hok hok.length_lt
  rw [hok.head,hsearch] at hspec
  rcases hspec with ⟨xs,b,ys,rfl,hfree,hlen,heq⟩ | heq
  · obtain rfl := Except.ok.inj heq
    rw [if_pos (hok.valid (by simp))] at hret
    refine ⟨h,xs,b,ys,hok,hfree,fun hn => ?_,.inl rfl,fun _ _ _ _ => rfl,hret⟩
    have hpos := (hok.bounds (b:=b) (by simp)).2.1
    simp only [hn,HEADER,W32] at hlen ⊢
    omega
  · obtain rfl := Except.ok.inj heq
    rw [if_neg (by simp [zero_invalid])] at hret
    obtain ⟨⟨addr,r⟩,hgrow,hret⟩ := Result.bind_eq_ok.mp hret
    subst hbs
    rw [List.concat_eq_append] at hok hgrow
    rw [lastAddr_append_singleton] at hgrow
    obtain ⟨s,rfl,hs,hok',hmem⟩ := mallocGrow_spec hok hgrow
    refine ⟨r,init++[b₀],⟨_,s,true⟩,[],hok',rfl,fun _ => le_trans (by decide) hs,.inr ⟨?_,rfl⟩,
      fun c hc x hx => ?_,hret⟩
    · rw [List.concat_eq_append]
    · rw [List.concat_eq_append] at hc
      exact hmem x (lt_of_lt_of_le hx.2 (hok.tiles.mem hc).2.2)
        (payload_apart hok.tiles (by simp) hc hx)

/-- What `malloc` does to a chain: an allocated block that was not there before, and
all allocated blocks stay as they are. -/
theorem malloc_spec {pm : PageMapper} {h h' : Heap} {bs : List Block} {n p : ℕ}
    (hok : HeapOk h bs) (hn : 1 ≤ n) (hret : malloc pm h n = .ok (p,h')) :
    ∃ bs' b, HeapOk h' bs' ∧ b ∈ bs' ∧ b.free = false ∧ p = b.addr+HEADER ∧ n ≤ b.size ∧
      ∀ c ∈ bs, c.free = false → c ∈ bs' ∧ c ≠ b ∧ ∀ x, c.Payload x → h'.mem x = h.mem x := by
  obtain ⟨r,pre,b,post,hok₁,hfree,-,hbs,hpay,htake⟩ := malloc_choice hok hret
  obtain ⟨rfl,s,rest,hs,-,hok',hmem⟩ := mallocTake_spec hok₁ hn htake
  refine ⟨_,⟨b.addr,s,false⟩,hok',by simp,rfl,rfl,hs,fun c hc hcf => ?_⟩
  have hc' : c ∈ pre++b::post := by
    rcases hbs with rfl | ⟨rfl,-⟩
    · exact hc
    · exact List.mem_append_left _ hc
  have hcb : c ≠ b := fun he => by rw [he,hfree] at hcf; cases hcf
  have hapart := (hok₁.tiles.eq_or_apart hc' (by simp : b ∈ pre++b::post)).resolve_left hcb
  refine ⟨?_,fun he => ?_,fun x hx => ?_⟩
  · rcases List.mem_append.mp hc' with hc' | hc'
    · simp [hc']
    · rcases List.mem_cons.mp hc' with rfl | hc'
      · exact absurd rfl hcb
      · simp [hc']
  · have : c.addr = b.addr := by rw [he]
    have := (hok₁.tiles.mem hc').2.1
    simp only [stop,HEADER] at hapart
    omega
  · rw [hmem x (by have := hx.1; have := hx.2; simp only [stop,HEADER] at *; omega),hpay c hc x hx]

end Heap

/-! ## Merging and release -/

/-- One pass of `__mem_merge` over a chain. A block that has swallowed its successor
is not looked at again. -/
def mergePass : List Block → List Block
  | [] => []
  | [b] => [b]
  | b::c::bs =>
    if b.free && c.free then ⟨b.addr,b.size+(Heap.HEADER+c.size),true⟩::mergePass bs
    else b::mergePass (c::bs)

theorem mem_mergePass {bs : List Block} {c : Block} (hc : c.free = false) :
    c ∈ mergePass bs ↔ c ∈ bs := by
  fun_induction mergePass bs with
  | case1 => rfl
  | case2 => rfl
  | case3 b d bs hfree ih =>
    simp only [Bool.and_eq_true] at hfree
    have hb : c ≠ b := fun he => by rw [he,hfree.1] at hc; cases hc
    have hd : c ≠ d := fun he => by rw [he,hfree.2] at hc; cases hc
    have hm : c ≠ ⟨b.addr,b.size+(Heap.HEADER+d.size),true⟩ := fun he => by rw [he] at hc; cases hc
    simp [ih,hb,hd,hm]
  | case4 b d bs hfree ih => simp [ih]

/-- A free block of a tiling lies in a free block of what a pass leaves. -/
theorem mergePass_covers {a e : ℕ} {bs : List Block} (ht : Tiles a bs e) {b : Block} (hb : b ∈ bs)
    (hfree : b.free = true) :
    ∃ c ∈ mergePass bs, c.free = true ∧ c.addr ≤ b.addr ∧ b.stop ≤ c.stop := by
  fun_induction mergePass bs generalizing a with
  | case1 => cases hb
  | case2 d =>
    obtain rfl := List.mem_singleton.mp hb
    exact ⟨b,by simp,hfree,le_rfl,le_rfl⟩
  | case3 d e bs hde ih =>
    obtain ⟨rfl,-,headdr,-,hrest⟩ := ht
    simp only [stop] at headdr
    rcases List.mem_cons.mp hb with rfl | hb
    · refine ⟨_,List.mem_cons_self,rfl,le_rfl,?_⟩
      simp only [stop]
      omega
    · rcases List.mem_cons.mp hb with rfl | hb
      · refine ⟨_,List.mem_cons_self,rfl,?_,?_⟩ <;> simp only [stop] <;> omega
      · obtain ⟨c,hc,hcov⟩ := ih hrest hb
        exact ⟨c,List.mem_cons_of_mem _ hc,hcov⟩
  | case4 d e bs hde ih =>
    rcases List.mem_cons.mp hb with rfl | hb
    · exact ⟨b,List.mem_cons_self,hfree,le_rfl,le_rfl⟩
    · obtain ⟨c,hc,hcov⟩ := ih ht.2.2 hb
      exact ⟨c,List.mem_cons_of_mem _ hc,hcov⟩

namespace Heap

theorem merge_headers {h : Heap} {b c : Block} {q next : ℕ} (hb : b.At h q) (hc : c.At h next)
    (hfree : b.free = true) (hapart : b.addr+HEADER ≤ c.addr) (hlt : b.size+(HEADER+c.size) < W32) :
    (⟨b.addr,b.size+(HEADER+c.size),true⟩ : Block).At
      ((h.setSize b.addr ((b.size+(HEADER+c.size))%W32)).setNext b.addr
        ((h.setSize b.addr ((b.size+(HEADER+c.size))%W32)).next c.addr)) next := by
  have hc' : c.At (h.setSize b.addr ((b.size+(HEADER+c.size))%W32)) next :=
    hc.congr fun x hx _ => mem_setSize _ _ _ (.inr (by omega))
  have hnext : next < W32 := hc.next ▸ next_lt h c.addr
  refine ⟨?_,?_,?_⟩
  · simpa using hlt
  · simpa [isFree,hfree] using hb.free
  · simpa [hc'.next] using hnext

theorem memMergeLoop_spec (pre : List Block) {bs : List Block} {h : Heap} {fuel : ℕ}
    (hok : HeapOk h (pre++bs)) (hfuel : bs.length < fuel) :
    ∃ h', memMergeLoop fuel (headAddr 0 bs) h = .ok h' ∧ HeapOk h' (pre++mergePass bs) ∧
      ∀ x, (∀ b ∈ bs, x < b.addr ∨ b.addr+HEADER ≤ x) → h'.mem x = h.mem x := by
  fun_induction mergePass bs generalizing pre h fuel with
  | case1 =>
    obtain ⟨fuel,rfl⟩ : ∃ k, fuel = k+1 := ⟨fuel-1,by simp at hfuel; omega⟩
    exact ⟨h,by simp [memMergeLoop,headAddr,zero_invalid,pure,Except.pure],hok,fun _ _ => rfl⟩
  | case2 b =>
    obtain ⟨fuel,rfl⟩ : ∃ k, fuel = k+2 := ⟨fuel-2,by simp at hfuel; omega⟩
    refine ⟨h,?_,hok,fun _ _ => rfl⟩
    simp [memMergeLoop,headAddr,hok.valid (b:=b) (by simp),hok.at.next,zero_invalid,
      pure,Except.pure]
  | case3 b c bs hfree ih =>
    obtain ⟨fuel,rfl⟩ : ∃ k, fuel = k+1 := ⟨fuel-1,by simp at hfuel; omega⟩
    simp only [Bool.and_eq_true] at hfree
    have hb := hok.at
    have hokc : HeapOk h ((pre++[b])++c::bs) := by simpa using hok
    have hc := hokc.at
    obtain ⟨m,-,hbaddr,hbpos,hcaddr,hcpos,hrest⟩ := tiles_append.mp hok.tiles
    obtain ⟨-,-,hstop,hend⟩ := hok.bounds (b:=c) (by simp)
    have hlt : HEAP_END < W32 := by decide
    simp only [stop,HEADER] at hcaddr hstop
    have hadj : (M_MEMORY b.addr+b.size)%W32 = c.addr := by
      rw [M_MEMORY,Nat.mod_eq_of_lt (a:=b.addr+HEADER) (by simp only [HEADER]; omega)]
      rw [Nat.mod_eq_of_lt (by simp only [HEADER]; omega),HEADER,hcaddr]
    have hmerged := merge_headers hb hc hfree.1 (by simp only [HEADER]; omega)
      (by simp only [HEADER]; omega)
    set h₁ := (h.setSize b.addr ((b.size+(HEADER+c.size))%W32)).setNext b.addr
      ((h.setSize b.addr ((b.size+(HEADER+c.size))%W32)).next c.addr) with hh₁
    have hmem₁ : ∀ x, x < b.addr ∨ b.addr+HEADER ≤ x → h₁.mem x = h.mem x := fun x hx => by
      rw [hh₁,mem_setNext _ _ _ hx,mem_setSize _ _ _ hx]
    have hok₁ : HeapOk h₁ ((pre++[⟨b.addr,b.size+(HEADER+c.size),true⟩])++bs) := by
      rw [List.append_assoc]
      refine hok.replace [c] [] (e:=c.stop) ⟨rfl,hbpos,?_,hcpos,rfl⟩
        ⟨rfl,?_,?_⟩ ⟨hmerged,trivial⟩ (fun x hx => hmem₁ x ?_) rfl
      · simp only [stop,HEADER]; omega
      · simp only; omega
      · simp only [Tiles,stop,HEADER]; omega
      · simp only [stop,HEADER] at *; omega
    obtain ⟨h',hret,hok',hmem⟩ := ih _ hok₁ (show bs.length < fuel by simp at hfuel; omega)
    refine ⟨h',?_,by simpa using hok',fun x hx => ?_⟩
    · simp only [memMergeLoop,headAddr,hok.valid (b:=b) (by simp),hb.next,hb.free,hfree.1,
        hok.valid (b:=c) (by simp),hc.free,hfree.2,hb.size,hc.size,hadj]
      simp only [Bool.and_self,decide_true,if_true]
      rw [← hh₁,hmerged.next]
      exact hret
    · rw [hmem x fun d hd => hx d (by simp [hd]),hmem₁ x (hx b (by simp))]
  | case4 b c bs hfree ih =>
    obtain ⟨fuel,rfl⟩ : ∃ k, fuel = k+1 := ⟨fuel-1,by simp at hfuel; omega⟩
    have hb := hok.at
    have hokc : HeapOk h ((pre++[b])++c::bs) := by simpa using hok
    obtain ⟨h',hret,hok',hmem⟩ := ih _ hokc (Nat.lt_of_succ_lt_succ hfuel)
    refine ⟨h',?_,by simpa using hok',fun x hx => hmem x fun d hd => hx d (by simp [hd])⟩
    have hno : (b.free && h.memHeapIsValidBlock c.addr && c.free &&
        decide (c.addr = (M_MEMORY b.addr+b.size)%W32)) = false := by
      cases hbf : b.free <;> cases hcf : c.free <;> simp_all
    simp only [memMergeLoop,headAddr,hok.valid (b:=b) (by simp),hb.next,hb.free,hb.size,
      hokc.at.free,hno,if_true,Bool.false_eq_true,if_false]
    exact hret

theorem memMerge_spec {h : Heap} {bs : List Block} (hok : HeapOk h bs) :
    ∃ h', memMerge h = .ok h' ∧ HeapOk h' (mergePass bs) ∧
      ∀ c ∈ bs, ∀ x, c.Payload x → h'.mem x = h.mem x := by
  obtain ⟨h',hret,hok',hmem⟩ := memMergeLoop_spec [] hok hok.length_lt
  rw [hok.head] at hret
  exact ⟨h',hret,hok',fun c hc x hx => hmem x fun b hb => payload_apart hok.tiles hb hc hx⟩

theorem M_HEADER_addr {h : Heap} {bs : List Block} (hok : HeapOk h bs) {b : Block} (hb : b ∈ bs) :
    M_HEADER (b.addr+HEADER) = b.addr := by
  have hlt : HEAP_END < W32 := by decide
  obtain ⟨-,-,hstop,hend⟩ := hok.bounds hb
  simp only [stop] at hstop
  rw [M_HEADER,show b.addr+HEADER+W32-HEADER = b.addr+W32 by omega,Nat.add_mod_right]
  exact Nat.mod_eq_of_lt (by omega)

/-- Releasing an allocated block returns, and is a pass over the chain with the block free. -/
theorem free_chain {h : Heap} {pre post : List Block} {b : Block} (hok : HeapOk h (pre++b::post))
    (halloc : b.free = false) :
    ∃ h', free h (b.addr+HEADER) = .ok h' ∧
      HeapOk h' (mergePass (pre++{ b with free := true }::post)) ∧
      ∀ c ∈ pre++b::post, ∀ x, c.Payload x → h'.mem x = h.mem x := by
  have hb : b ∈ pre++b::post := by simp
  have hset := hok.setFlags (h.flags b.addr ||| M_BLOCK_FREE)
  rw [set_free_flag] at hset
  set h₁ : Heap := { h.setFlags b.addr (h.flags b.addr ||| M_BLOCK_FREE) with
    freed := (h.freed+(h.setFlags b.addr (h.flags b.addr ||| M_BLOCK_FREE)).size b.addr)%W32 }
  have hok₁ : HeapOk h₁ _ := hset.of_mem_eq rfl rfl
  obtain ⟨h',hret,hok',hmem⟩ := memMerge_spec hok₁
  refine ⟨h',?_,hok',fun c hc x hx => ?_⟩
  · simp only [free,M_HEADER_addr hok hb,hok.valid hb,hok.at.free,halloc]
    exact hret
  · have hpay : h₁.mem x = h.mem x := mem_setFlags _ _ _ (payload_apart hok.tiles hb hc hx)
    rw [← hpay]
    rcases List.mem_append.mp hc with hc | hc
    · exact hmem c (by simp [hc]) x hx
    · rcases List.mem_cons.mp hc with rfl | hc
      · exact hmem { c with free := true } (by simp) x hx
      · exact hmem c (by simp [hc]) x hx

/-- Releasing an allocated block makes it part of a free one, and takes nothing else from the
chain. -/
theorem free_spec {h : Heap} {bs : List Block} (hok : HeapOk h bs) {b : Block} (hb : b ∈ bs)
    (halloc : b.free = false) :
    ∃ h' bs', free h (b.addr+HEADER) = .ok h' ∧ HeapOk h' bs' ∧
      (∃ c ∈ bs', c.free = true ∧ c.addr ≤ b.addr ∧ b.stop ≤ c.stop) ∧
      ∀ c ∈ bs, c.free = false → c ≠ b → c ∈ bs' ∧ ∀ x, c.Payload x → h'.mem x = h.mem x := by
  obtain ⟨pre,post,rfl⟩ := List.append_of_mem hb
  obtain ⟨h',hret,hok',hmem⟩ := free_chain hok halloc
  have htiles : Tiles HEAP_START (pre++{ b with free := true }::post) (HEAP_START+h.heapSize) := by
    obtain ⟨m,hpre,hpost⟩ := tiles_append.mp hok.tiles
    exact tiles_append.mpr ⟨m,hpre,hpost⟩
  refine ⟨h',_,hret,hok',mergePass_covers htiles (b:={ b with free := true }) (by simp) rfl,
    fun c hc hcf hcb => ⟨(mem_mergePass hcf).mpr ?_,hmem c hc⟩⟩
  rcases List.mem_append.mp hc with hc | hc
  · simp [hc]
  · rcases List.mem_cons.mp hc with rfl | hc
    · exact absurd rfl hcb
    · simp [hc]

end Heap

/-- Writing to payloads, or to addresses outside the heap, keeps the chain. -/
theorem HeapOk.store {h : Heap} {bs : List Block} (hok : HeapOk h bs) {m : Mem}
    (hm : ∀ x, m x ≠ h.mem x → (∃ b ∈ bs, b.Payload x) ∨ x < HEAP_START ∨
      HEAP_START+h.heapSize ≤ x) : HeapOk { h with mem := m } bs := by
  refine ⟨hok.linked.congr fun b hb x h1 h2 => ?_,hok.tiles,hok.fits,hok.nonempty⟩
  by_contra hne
  obtain ⟨hlow,-,hstop,-⟩ := hok.bounds hb
  rcases hm x hne with ⟨c,hc,hx⟩ | hx
  · have := Heap.payload_apart hok.tiles hb hc hx
    omega
  · simp only [stop] at hstop
    omega

theorem HeapOk.store_copy {h : Heap} {bs : List Block} (hok : HeapOk h bs) {d : Block}
    (hd : d ∈ bs) (src : ℕ) (n : ℕ) (hn : n ≤ d.size) :
    HeapOk { h with mem := copy h.mem (d.addr+Heap.HEADER) src n } bs := by
  refine hok.store fun x hx => .inl ⟨d,hd,?_⟩
  by_contra hno
  refine hx (copy_outside _ ?_)
  simp only [Payload,stop] at hno
  omega

namespace Heap

/-- `realloc` gives a block of the new size that starts with the old contents, and
gives up the old one unless it is the same; every other allocated block stays. -/
theorem realloc_spec {pm : PageMapper} {h h' : Heap} {bs : List Block} {b : Block} {n p : ℕ}
    (hok : HeapOk h bs) (hb : b ∈ bs) (halloc : b.free = false) (hn : 1 ≤ n)
    (hret : realloc pm h (b.addr+HEADER) n = .ok (p,h')) :
    ∃ bs' d, HeapOk h' bs' ∧ d ∈ bs' ∧ d.free = false ∧ p = d.addr+HEADER ∧ n ≤ d.size ∧
      (∀ i, i < b.size → i < n → h'.mem (p+i) = h.mem (b.addr+HEADER+i)) ∧
      (p = b.addr+HEADER ∨ ∃ c ∈ bs', c.free = true ∧ c.addr ≤ b.addr ∧ b.stop ≤ c.stop) ∧
      ∀ c ∈ bs, c.free = false → c ≠ b →
        c ∈ bs' ∧ c ≠ d ∧ ∀ x, c.Payload x → h'.mem x = h.mem x := by
  simp only [realloc,M_HEADER_addr hok hb] at hret
  obtain ⟨pre,post,hbs⟩ := List.append_of_mem hb
  have hat := (hbs ▸ hok).at
  rw [hat.size] at hret
  split at hret
  · rename_i hsize
    obtain ⟨rfl,rfl⟩ := Prod.mk.inj (Except.ok.inj hret)
    exact ⟨bs,b,hok,hb,halloc,rfl,hsize.ge,fun _ _ _ => rfl,.inl rfl,
      fun c hc _ hcb => ⟨hc,hcb,fun _ _ => rfl⟩⟩
  · obtain ⟨⟨q,h₁⟩,hmalloc,hret⟩ := Result.bind_eq_ok.mp hret
    obtain ⟨h₂,hfree,hret⟩ := Result.bind_eq_ok.mp hret
    obtain ⟨rfl,rfl⟩ := Prod.mk.inj (Except.ok.inj hret)
    obtain ⟨bs₁,d,hok₁,hd,hdf,rfl,hdn,hkeep⟩ := malloc_spec hok hn hmalloc
    obtain ⟨hb₁,hbd,hbpay⟩ := hkeep b hb halloc
    obtain ⟨pre₁,post₁,hbs₁⟩ := List.append_of_mem hb₁
    have hat₁ := (hbs₁ ▸ hok₁).at
    rw [hat₁.size] at hfree
    have hok₂ := hok₁.store_copy hd (b.addr+HEADER) (if b.size < n then b.size else n)
      (by split <;> omega)
    obtain ⟨h₃,bs₃,hret₃,hok₃,hcover,hkeep₃⟩ := free_spec hok₂ hb₁ halloc
    rw [hret₃] at hfree
    obtain rfl := Except.ok.inj hfree
    obtain ⟨hd₃,hdpay⟩ := hkeep₃ d hd hdf (Ne.symm hbd)
    refine ⟨bs₃,d,hok₃,hd₃,hdf,rfl,hdn,fun i hib hin => ?_,.inr hcover,fun c hc hcf hcb => ?_⟩
    · -- the copy puts the byte into the new payload, and neither call moves it
      have hcopied : i < if b.size < n then b.size else n := by split <;> omega
      rw [hdpay _ ⟨by omega,by simp only [stop]; omega⟩]
      exact (copy_inside _ hcopied).trans (hbpay _ ⟨by omega,by simp only [stop]; omega⟩)
    obtain ⟨hc₁,hcd,hpay₁⟩ := hkeep c hc hcf
    obtain ⟨hc₃,hpay₃⟩ := hkeep₃ c hc₁ hcf hcb
    refine ⟨hc₃,hcd,fun x hx => ?_⟩
    rw [hpay₃ x hx,← hpay₁ x hx]
    refine copy_outside _ ?_
    have hapart := (hok₁.tiles.eq_or_apart hc₁ hd).resolve_left hcd
    have h1 := hx.1
    have h2 := hx.2
    simp only [stop] at *
    split <;> omega

end Heap
end ScalesOS
