import ScalesOS.Ata
import ScalesOS.Loops
import ScalesOS.Paging

/-!
# The table of memory regions

`__ata_prepare_prdt` and the loop of `__ata_read_internal` of `modules/ata/main.c`, with the
table as memory that keeps what was in it. Each drive has 16 pages for its table.
-/

namespace ScalesOS.Ata

open Loops

abbrev Table := ℕ → Prdt

/-- The entry `i`, with `left` bytes from there on. -/
def prdtEntry (s : Vm) (buffer i left : ℕ) : Prdt where
  address := s.kMemPagingVirt2phys ((buffer+i*BYTES_PER_PRD)%W32)
  size := if BYTES_PER_PRD < left then 0 else if left = BYTES_PER_PRD then 0 else left%0x10000
  last := if BYTES_PER_PRD < left then 0x0 else 0x8000

/-- The loop of `__ata_prepare_prdt`, with its rounds that are left. -/
def prepareLoop (s : Vm) (buffer dma_size : ℕ) : (rounds i : ℕ) → Table → Table
  | 0,_,prdt => prdt
  | rounds+1,i,prdt =>
    let left := sub32 (dma_size*512%W32) (i*BYTES_PER_PRD%W32)
    if left = 0 then prdt
    else prepareLoop s buffer dma_size rounds (i+1)
      (Function.update prdt i (prdtEntry s buffer i left))

def preparePrdt (s : Vm) (buffer dma_size : ℕ) (prdt : Table) : Table :=
  prepareLoop s buffer dma_size (dma_size*512%W32/BYTES_PER_PRD+1) 0 prdt

/-- The variables of the loop of `__ata_read_internal`, and the sectors of its commands. -/
structure Transfer where
  dma_size : ℕ
  lba : ℕ
  i : ℕ
  reads : List ℕ

/-- `while(dma_size)` -/
def readTurn (prdt : Table) (x : Transfer) : Result (Transfer ⊕ Transfer) :=
  if x.dma_size = 0 then pure (.inr x)
  else
    let read := (if (prdt x.i).size ≠ 0 then (prdt x.i).size else BYTES_PER_PRD)/512
    pure (.inl ⟨sub32 x.dma_size read,(x.lba+read)%W32,x.i+1,x.reads++[read]⟩)

/-- The bytes of an entry. -/
def Prdt.bytes (p : Prdt) : ℕ := if p.size = 0 then BYTES_PER_PRD else p.size

/-- The entries that are needed for some sectors. -/
def entries (dma_size : ℕ) : ℕ := (dma_size+127)/128

/-- Physical addresses follow one another as virtual ones do. -/
def Contiguous (s : Vm) (buffer length : ℕ) : Prop :=
  ∀ k < length, s.kMemPagingVirt2phys ((buffer+k)%W32) = s.kMemPagingVirt2phys buffer+k

/-- The first `n` entries cover `length` bytes from `address` on, and the last of them only says
so. -/
structure Describes (prdt : Table) (n address length : ℕ) : Prop where
  address : ∀ i < n, (prdt i).address = address+((List.range i).map fun j => (prdt j).bytes).sum
  length : ((List.range n).map fun j => (prdt j).bytes).sum = length
  last : ∀ i < n, (prdt i).last = if i+1 = n then 0x8000 else 0

section
variable {s : Vm} {buffer dma_size : ℕ} {prdt : Table}

theorem left_eq (hle : dma_size ≤ 2^20) {i : ℕ} (hi : i*128 ≤ dma_size) :
    sub32 (dma_size*512%W32) (i*BYTES_PER_PRD%W32) = dma_size*512-i*BYTES_PER_PRD := by
  simp only [W32,BYTES_PER_PRD]
  rw [Nat.mod_eq_of_lt (by omega),Nat.mod_eq_of_lt (by omega),sub32_eq (by omega)]

theorem prepareLoop_eq (hle : dma_size ≤ 2^20) (rounds : ℕ) : ∀ {i : ℕ}
    {prdt : Table}, i ≤ entries dma_size → i+rounds = dma_size/128+1 →
      prepareLoop s buffer dma_size rounds i prdt = fun j =>
        if i ≤ j ∧ j < entries dma_size then prdtEntry s buffer j (dma_size*512-j*BYTES_PER_PRD)
        else prdt j := by
  induction rounds with
  | zero =>
    intro i prdt hi hend
    have hlast : entries dma_size ≤ i := by
      simp only [entries]
      omega
    funext j
    rw [prepareLoop,if_neg (by omega)]
  | succ rounds ih =>
    intro i prdt hi hend
    rw [prepareLoop,left_eq hle (by omega)]
    by_cases hlast : i = entries dma_size
    · have hnone : dma_size*512-i*BYTES_PER_PRD = 0 := by
        simp only [hlast,entries,BYTES_PER_PRD]
        omega
      simp only [if_pos hnone]
      funext j
      rw [if_neg (by omega)]
    · have hsome : ¬ dma_size*512-i*BYTES_PER_PRD = 0 := by
        simp only [entries,BYTES_PER_PRD] at hi hlast ⊢
        omega
      simp only [if_neg hsome]
      rw [ih (by omega) (by omega)]
      funext j
      by_cases hj : j = i
      · subst hj
        rw [if_neg (by omega),if_pos (by omega),Function.update_self]
      · rw [Function.update_of_ne hj]
        by_cases hin : i+1 ≤ j ∧ j < entries dma_size
        · rw [if_pos hin,if_pos (by omega)]
        · rw [if_neg hin,if_neg (by omega)]

theorem preparePrdt_eq (hle : dma_size ≤ 2^20) : preparePrdt s buffer dma_size prdt = fun j =>
    if j < entries dma_size then prdtEntry s buffer j (dma_size*512-j*BYTES_PER_PRD)
    else prdt j := by
  have hrounds : 0+(dma_size*512%W32/BYTES_PER_PRD+1) = dma_size/128+1 := by
    simp only [W32,BYTES_PER_PRD]
    omega
  rw [preparePrdt,prepareLoop_eq hle _ (Nat.zero_le _) hrounds]
  simp

theorem bytes_entry {i left : ℕ} (hleft : 0 < left) :
    (prdtEntry s buffer i left).bytes = min BYTES_PER_PRD left := by
  have hsize : BYTES_PER_PRD = 65536 := rfl
  rw [Prdt.bytes,prdtEntry]
  by_cases hfull : BYTES_PER_PRD < left
  · simp [hfull,hfull.le]
  · by_cases hexact : left = BYTES_PER_PRD
    · simp [hexact]
    · have hword : left%0x10000 = left := Nat.mod_eq_of_lt (by omega)
      simp only [if_neg hfull,if_neg hexact,hword,if_neg hleft.ne']
      omega

theorem left_pos {i : ℕ} (hi : i < entries dma_size) : i*BYTES_PER_PRD < dma_size*512 := by
  simp only [entries,BYTES_PER_PRD] at hi ⊢
  omega

theorem sum_bytes (hle : dma_size ≤ 2^20) {i : ℕ} (hi : i ≤ entries dma_size) :
    ((List.range i).map fun j => (preparePrdt s buffer dma_size prdt j).bytes).sum =
    min (i*BYTES_PER_PRD) (dma_size*512) := by
  induction i with
  | zero => simp
  | succ i ih =>
    rw [List.range_succ,List.map_append,List.sum_append,ih (by omega),preparePrdt_eq hle]
    have hin : i < entries dma_size := hi
    have hleft := left_pos hin
    simp only [List.map_singleton,List.sum_singleton,if_pos hin,
      bytes_entry (Nat.sub_pos_of_lt hleft)]
    simp only [BYTES_PER_PRD]
    omega

theorem preparePrdt_describes (hle : dma_size ≤ 2^20)
    (hcontiguous : Contiguous s buffer (dma_size*512)) :
    Describes (preparePrdt s buffer dma_size prdt) (entries dma_size)
        (s.kMemPagingVirt2phys buffer) (dma_size*512) := by
  refine ⟨fun i hi => ?_,?_,fun i hi => ?_⟩
  · have hin := left_pos hi
    rw [sum_bytes hle hi.le,min_eq_left hin.le,← hcontiguous _ hin,preparePrdt_eq hle]
    simp only [if_pos hi,prdtEntry]
  · rw [sum_bytes hle le_rfl]
    simp only [entries,BYTES_PER_PRD]
    omega
  · rw [preparePrdt_eq hle]
    have hsize : BYTES_PER_PRD = 65536 := rfl
    have hlast : BYTES_PER_PRD < dma_size*512-i*BYTES_PER_PRD ↔ i+1 ≠ entries dma_size := by
      simp only [entries,hsize] at hi ⊢
      omega
    simp only [if_pos hi,prdtEntry,hlast,ite_not]

/-- After `x.i` commands, with `n` entries left. -/
structure Reading (dma_size n : ℕ) (x : Transfer) : Prop where
  i : x.i+n = entries dma_size
  left : x.dma_size = dma_size-x.i*128
  reads : x.reads.sum = min (x.i*128) dma_size

theorem sectors_entry (dma_size i : ℕ) :
    min BYTES_PER_PRD (dma_size*512-i*BYTES_PER_PRD)/512 = min 128 (dma_size-i*128) := by
  have hcut : min BYTES_PER_PRD (dma_size*512-i*BYTES_PER_PRD) =
      min 128 (dma_size-i*128)*512 := by
    simp only [BYTES_PER_PRD]
    omega
  rw [hcut,Nat.mul_div_cancel _ (by decide)]

theorem readTurn_spec (hle : dma_size ≤ 2^20) (n : ℕ) (x : Transfer) (h : Reading dma_size n x) :
    ∃ y, readTurn (preparePrdt s buffer dma_size prdt) x = .ok y ∧
      y.elim (fun z => ∃ m < n, Reading dma_size m z)
        (fun z => z.dma_size = 0 ∧ z.i = entries dma_size ∧ z.reads.sum = dma_size) := by
  obtain ⟨hi,hleft,hreads⟩ := h
  rw [readTurn]
  by_cases hdone : x.dma_size = 0
  · rw [if_pos hdone]
    refine ⟨_,rfl,hdone,?_,?_⟩
    · simp only [entries] at hi ⊢
      omega
    · omega
  · have hin : x.i < entries dma_size := by
      simp only [entries] at hi ⊢
      omega
    have hread :
      (if (preparePrdt s buffer dma_size prdt x.i).size ≠ 0 then
        (preparePrdt s buffer dma_size prdt x.i).size
        else BYTES_PER_PRD)/512 = min 128 (dma_size-x.i*128) := by
      have hbytes := @bytes_entry s buffer x.i _ (Nat.sub_pos_of_lt (left_pos hin))
      rw [Prdt.bytes] at hbytes
      rw [preparePrdt_eq hle]
      simp only [if_pos hin,ne_eq,ite_not]
      rw [hbytes,sectors_entry]
    rw [if_neg hdone]
    simp only [hread]
    refine ⟨_,rfl,n-1,by omega,by simp only; omega,?_,?_⟩
    · rw [sub32_eq (by omega)]
      simp only
      omega
    · simp only [List.sum_append,List.sum_singleton,hreads]
      omega

/-- The table covers the buffer, and the commands take all of its entries and sectors. -/
theorem prdt_covers (hpos : 1 ≤ dma_size) (hle : dma_size ≤ 2^20)
    (hcontiguous : Contiguous s buffer (dma_size*512)) :
    ∃ n, 1 ≤ n ∧ n ≤ 16*0x1000/8 ∧
      Describes (preparePrdt s buffer dma_size prdt) n (s.kMemPagingVirt2phys buffer)
      (dma_size*512) ∧ (∀ i, n ≤ i → preparePrdt s buffer dma_size prdt i = prdt i) ∧
      ∀ lba fuel, n < fuel → ∃ x,
        iterate .loop (readTurn (preparePrdt s buffer dma_size prdt)) fuel ⟨dma_size,
          lba,0,[]⟩ = .ok x ∧ x.dma_size = 0 ∧ x.i = n ∧ x.reads.sum = dma_size := by
  refine ⟨entries dma_size,?_,?_,preparePrdt_describes hle hcontiguous,fun i hi => ?_,
    fun lba fuel hfuel => ?_⟩
  · simp only [entries]
    omega
  · simp only [entries]
    omega
  · rw [preparePrdt_eq hle]
    exact if_neg (by omega)
  · exact iterate_spec _ (readTurn_spec hle) fuel ⟨Nat.zero_add _,by simp,by simp⟩ hfuel

def identity : Vm where
  pmm := ⟨fun _ => 0,0,0,0,0,0⟩
  phys := fun frame i => if frame = 0 then (if i = 1023 then 1 else 0x1001) else i*0x1000+1
  directory := 0
  firstFreeAddress := 0
  heapEnd := 0

theorem identity_virt2phys {a : ℕ} (ha : a < 0x400000) : identity.kMemPagingVirt2phys a = a := by
  have hpde : Vm.pde identity (PDE a) = 0x1001 := by
    have hzero : PDE a = 0 := Nat.div_eq_of_lt ha
    rw [hzero]
    rfl
  have hpte : Vm.pte identity (PDE a) (PTE a) = PTE a*0x1000+1 := by
    have hzero : PDE a = 0 := Nat.div_eq_of_lt ha
    rw [hzero]
    rfl
  have hpresent : Entry.present (PTE a*0x1000+1) = true := by
    rw [Entry.present,beq_iff_eq]
    omega
  simp only [Vm.kMemPagingVirt2phys,hpde,hpte]
  rw [if_neg (by decide),if_neg (by decide),if_pos hpresent,Entry.page,PTE]
  omega

/-- A cluster and one sector more. -/
theorem prdt_covers_two : ∃ n, 1 ≤ n ∧ n ≤ 16*0x1000/8 ∧
    Describes (preparePrdt identity 0x1000 129 fun _ =>
      ⟨0,0,0⟩) n (identity.kMemPagingVirt2phys 0x1000) (129*512) ∧
    (∀ i, n ≤ i → preparePrdt identity 0x1000 129 (fun _ => ⟨0,0,0⟩) i = ⟨0,0,0⟩) ∧
    ∀ lba fuel, n < fuel → ∃ x,
      iterate .loop (readTurn (preparePrdt identity 0x1000 129 fun _ => ⟨0,0,0⟩)) fuel ⟨129,
        lba,0,[]⟩ = .ok x ∧ x.dma_size = 0 ∧ x.i = n ∧ x.reads.sum = 129 := by
  refine prdt_covers (by decide) (by decide) fun k hk => ?_
  rw [Nat.mod_eq_of_lt (by simp only [W32]; omega),identity_virt2phys (by omega),
    identity_virt2phys (by omega)]

end
end ScalesOS.Ata
