import ScalesOS.Machine
import ScalesOS.ByteMemory

/-! Reading bytes from a disk: `ata_read` of `modules/ata/main.c`, which transfers whole
sectors to a buffer of its own and copies them from there, and `__ata_read_internal`
below it, which issues the commands of one transfer. The controller is taken to transfer
exactly the requested sectors. -/
namespace ScalesOS.Ata
open ByteMemory

def BYTES_PER_PRD : ℕ := 64*1024

/-- An entry of the table of memory regions. The address counts from the start of the
buffer, and size 0 stands for `BYTES_PER_PRD`. -/
structure Prdt where
  address : ℕ
  size : ℕ
  last : ℕ

def ataPreparePrdt (dma_size : ℕ) : List Prdt :=
  let left : ℕ → ℕ := fun i => dma_size*512-i*BYTES_PER_PRD
  ((List.range (dma_size*512/BYTES_PER_PRD+1)).takeWhile fun i => left i ≠ 0).map fun i =>
    if BYTES_PER_PRD < left i then ⟨i*BYTES_PER_PRD,0,0⟩
    else ⟨i*BYTES_PER_PRD,if left i = BYTES_PER_PRD then 0 else left i,0x8000⟩

def ataCommands (disk : Mem) : List Prdt → ℕ → ℕ → Mem → Mem
  | [],_,_,buffer => buffer
  | p::ps,lba,dma_size,buffer =>
    if dma_size = 0 then buffer
    else
      let read := (if p.size ≠ 0 then p.size else BYTES_PER_PRD)/512
      ataCommands disk ps (lba+read) (dma_size-read)
        (store buffer p.address (load disk (lba%2^24*512) (read*512)))

def ataReadInternal (disk : Mem) (lba dma_size : ℕ) (buffer : Mem) : Mem :=
  ataCommands disk (ataPreparePrdt dma_size) lba dma_size buffer

abbrev Written := ℕ → Option (BitVec 8)

def Written.put (out : Written) (a : ℕ) (data : List (BitVec 8)) : Written := fun x =>
  if a ≤ x ∧ x < a+data.length then some (data.getD (x-a) 0) else out x

/-- The loop of `ata_read`. It makes no progress, and so never ends, if the internal
buffer has no room for a sector. -/
def ataReadLoop (disk : Mem) (internal_buffer_size lba_offset : ℕ) :
    (dma_size part_offset buffer_offset : ℕ) → Mem → Written → Result Written
  | 0,_,_,_,out => .ok out
  | dma_size+1,part_offset,buffer_offset,internal_buffer,out =>
    let read_size := min (internal_buffer_size/512) (dma_size+1)
    if h : read_size = 0 then .error .loop
    else
      let internal_buffer :=
        ataReadInternal disk ((lba_offset+buffer_offset/512)%W32) read_size internal_buffer
      ataReadLoop disk internal_buffer_size lba_offset (dma_size+1-read_size) 0
        ((buffer_offset+read_size*512)%W32) internal_buffer
        (out.put buffer_offset (load internal_buffer part_offset (read_size*512)))
  termination_by dma_size => dma_size

/-- The `size` that is left after the cut at the end of the node. -/
def clipped (node_size offset size : ℕ) : ℕ :=
  if node_size ≤ (size+offset)%W32 then node_size-offset else size

/-- The number of sectors that are transferred; `last_sector` is unsigned. -/
def sectors (offset size : ℕ) : ℕ :=
  size/512+(if 0 < sub32 (size%512) (offset%512) then 1 else 0)+(if 0 < offset%512 then 1 else 0)

def internalBufferSize (size : ℕ) : ℕ := if size ≤ BYTES_PER_PRD then size else BYTES_PER_PRD

/-- `internal_buffer` is memory of the DMA allocator, with whatever it holds. -/
def ataRead (disk : Mem) (node_size : ℕ) (internal_buffer : Mem) (offset size : ℕ) :
    Result (ℕ × Written) :=
  if size = 0 then pure (0,fun _ => none)
  else if node_size < offset then pure (0,fun _ => none)
  else do
    let size := clipped node_size offset size
    let out ← ataReadLoop disk (internalBufferSize size) (offset/512)
      (sectors offset size) (offset%512) 0
      internal_buffer fun _ => none
    pure (size,out)

/-- Neither a transfer nor the copy from it goes behind the pages of the internal buffer. -/
theorem read_inside {size part_offset read_size : ℕ} (hpart : part_offset < 512)
    (hread : read_size ≤ internalBufferSize size/512) :
    part_offset+read_size*512 ≤ (internalBufferSize size/0x1000+1)*0x1000 := by
  omega

theorem ataPreparePrdt_eq {dma_size : ℕ} (hpos : 0 < dma_size) (hle : dma_size ≤ 128) :
    ataPreparePrdt dma_size = [⟨0,if dma_size = 128 then 0 else dma_size*512,0x8000⟩] := by
  rcases Nat.lt_or_eq_of_le hle with hlt | rfl
  · have hone : dma_size*512/BYTES_PER_PRD = 0 :=
      Nat.div_eq_of_lt (by simp only [BYTES_PER_PRD]; omega)
    have hleft : dma_size ≠ 0 := by omega
    have hsize : ¬ BYTES_PER_PRD < dma_size*512 := by simp only [BYTES_PER_PRD]; omega
    have hpart : ¬ dma_size*512 = BYTES_PER_PRD := by simp only [BYTES_PER_PRD]; omega
    simp [ataPreparePrdt,hone,hleft,hsize,hpart,hlt.ne]
  · rfl

theorem ataReadInternal_eq (disk buffer : Mem) {lba dma_size : ℕ} (hpos : 0 < dma_size)
    (hle : dma_size ≤ 128) (hlba : lba < 2^24) :
    ataReadInternal disk lba dma_size buffer =
        store buffer 0 (load disk (lba*512) (dma_size*512)) := by
  have hread : (if (if dma_size = 128 then 0 else dma_size*512) ≠ 0 then
      (if dma_size = 128 then 0 else dma_size*512) else BYTES_PER_PRD)/512 = dma_size := by
    simp only [BYTES_PER_PRD]
    split_ifs <;> omega
  rw [ataReadInternal,ataPreparePrdt_eq hpos hle,ataCommands,if_neg hpos.ne']
  simp only [hread,Nat.mod_eq_of_lt hlba,ataCommands]

@[simp] theorem Written.put_inside (out : Written) {a x : ℕ} {data : List (BitVec 8)}
    (h : a ≤ x ∧ x < a+data.length) : out.put a data x = some (data.getD (x-a) 0) := if_pos h

@[simp] theorem Written.put_outside (out : Written) {a x : ℕ} {data : List (BitVec 8)}
    (h : ¬ (a ≤ x ∧ x < a+data.length)) : out.put a data x = out x := if_neg h

section
variable (disk : Mem) {internal_buffer_size : ℕ} (lba_offset : ℕ)

/-- With room for a sector the loop ends, and it has written to all of the range that the
sectors take. -/
theorem ataReadLoop_covers (hroom : 512 ≤ internal_buffer_size) (dma_size : ℕ) :
    ∀ (part_offset buffer_offset : ℕ) (internal_buffer : Mem) (out : Written), buffer_offset < W32 →
      ∃ out', ataReadLoop disk internal_buffer_size lba_offset dma_size part_offset buffer_offset
          internal_buffer out = .ok out' ∧
        (∀ x, out x ≠ none → out' x ≠ none) ∧
        ∀ x, buffer_offset ≤ x → x < buffer_offset+dma_size*512 → x < W32 → out' x ≠ none := by
  induction dma_size using Nat.strong_induction_on with
  | _ dma_size ih =>
    intro part_offset buffer_offset internal_buffer out hoffset
    cases dma_size with
    | zero =>
      refine ⟨out,by rw [ataReadLoop],fun _ h => h,?_⟩
      intro x hlow hhigh
      omega
    | succ k =>
      have hsector : 0 < internal_buffer_size/512 := by omega
      have hread : ¬ min (internal_buffer_size/512) (k+1) = 0 := by omega
      rw [ataReadLoop,dif_neg hread]
      generalize hr : min (internal_buffer_size/512) (k+1) = r at hread
      have hmod : (buffer_offset+r*512)%W32 < W32 := Nat.mod_lt _ (by decide)
      obtain ⟨out',hok,hkeep,hcover⟩ := ih (k+1-r) (by omega) 0 _
        (ataReadInternal disk ((lba_offset+buffer_offset/512)%W32) r internal_buffer)
        (out.put buffer_offset (load (ataReadInternal disk ((lba_offset+buffer_offset/512)%W32) r
          internal_buffer) part_offset (r*512))) hmod
      refine ⟨out',hok,?_,?_⟩
      · intro x hx
        apply hkeep
        by_cases hin : buffer_offset ≤ x ∧ x < buffer_offset+r*512
        · rw [Written.put_inside _ (by simpa using hin)]
          simp
        · rwa [Written.put_outside _ (by simpa using hin)]
      · intro x hlow hhigh hx
        by_cases hin : x < buffer_offset+r*512
        · apply hkeep
          rw [Written.put_inside _ (by simpa using ⟨hlow,hin⟩)]
          simp
        · have hnext : (buffer_offset+r*512)%W32 = buffer_offset+r*512 :=
            Nat.mod_eq_of_lt (by omega)
          apply hcover x (by omega) _ hx
          rw [hnext]
          omega

set_option maxRecDepth 2000 in
/-- Without an offset in the first sector, what has been written are the sectors' bytes. -/
theorem ataReadLoop_aligned (hroom : 512 ≤ internal_buffer_size)
    (hmany : internal_buffer_size/512 ≤ 128)
    (dma_size : ℕ) : ∀ (buffer_offset : ℕ) (internal_buffer : Mem) (out : Written),
      buffer_offset%512 = 0 → lba_offset+buffer_offset/512+dma_size ≤ 2^23 →
        buffer_offset+dma_size*512 < W32 →
      ∃ out', ataReadLoop disk internal_buffer_size lba_offset dma_size 0 buffer_offset
          internal_buffer out = .ok out' ∧
        ∀ x, out' x = if buffer_offset ≤ x ∧ x < buffer_offset+dma_size*512 then
          some (disk (lba_offset*512+x)) else out x := by
  induction dma_size using Nat.strong_induction_on with
  | _ dma_size ih =>
    intro buffer_offset internal_buffer out haligned hdisk hfits
    cases dma_size with
    | zero =>
      refine ⟨out,by rw [ataReadLoop],?_⟩
      intro x
      rw [if_neg (by omega)]
    | succ k =>
      have hsector : 0 < internal_buffer_size/512 := by omega
      have hread : ¬ min (internal_buffer_size/512) (k+1) = 0 := by omega
      rw [ataReadLoop,dif_neg hread]
      have hbound : min (internal_buffer_size/512) (k+1) ≤ 128 := by omega
      generalize hr : min (internal_buffer_size/512) (k+1) = r at hread hbound
      have hrle : r ≤ k+1 := by omega
      have hnext : buffer_offset+r*512 < W32 := by omega
      have hlba_bits : lba_offset+buffer_offset/512 < 2^24 := by omega
      have hlba : lba_offset+buffer_offset/512 < W32 := hlba_bits.trans (by decide)
      have hsector_address :
        (lba_offset+buffer_offset/512)*512 = lba_offset*512+buffer_offset := by omega
      rw [Nat.mod_eq_of_lt hlba,Nat.mod_eq_of_lt hnext,
        ataReadInternal_eq disk internal_buffer (by omega) hbound hlba_bits,hsector_address]
      obtain ⟨out',hok,hout⟩ := ih (k+1-r) (by omega) (buffer_offset+r*512)
        (store internal_buffer 0 (load disk (lba_offset*512+buffer_offset) (r*512)))
        (out.put buffer_offset (load (store internal_buffer 0
          (load disk (lba_offset*512+buffer_offset) (r*512))) 0 (r*512)))
        (by omega) (by omega) (by omega)
      refine ⟨out',hok,?_⟩
      intro x
      rw [hout x]
      by_cases hlater : buffer_offset+r*512 ≤ x ∧ x < buffer_offset+r*512+(k+1-r)*512
      · rw [if_pos hlater,if_pos (by omega)]
      · rw [if_neg hlater]
        by_cases hnow : buffer_offset ≤ x ∧ x < buffer_offset+r*512
        · rw [Written.put_inside _ (by simpa using hnow),getD_load _ _ (by omega),store_load,
            if_pos (by omega),if_pos (by omega)]
          congr 2
          omega
        · rw [Written.put_outside _ (by simpa using hnow),if_neg (by omega)]

end

/-- The bytes that a read has to deliver. -/
def length (node_size offset size : ℕ) : ℕ := min size (node_size-offset)

/-- A read that ends, says how much it read, and has written exactly these bytes. -/
def Delivers (disk : Mem) (node_size offset size : ℕ) (result : Result (ℕ × Written)) : Prop :=
  ∃ out, result = .ok (length node_size offset size,out) ∧
    (∀ i, i < length node_size offset size → out i = some (disk (offset+i))) ∧
    ∀ i, length node_size offset size ≤ i → out i = none

section
variable {node_size offset size : ℕ}

/-- The cut is right unless the sum wraps round to below the end of the node. -/
theorem clipped_eq (hnode : node_size < W32) (hoffset : offset ≤ node_size) :
    clipped node_size offset size = length node_size offset size ↔
      size+offset < W32 ∨ node_size ≤ (size+offset)%W32 := by
  rw [clipped,length]
  by_cases hwrap : size+offset < W32
  · rw [Nat.mod_eq_of_lt hwrap]
    split_ifs <;> omega
  · split_ifs with hcut
    · exact ⟨fun _ => Or.inr hcut,fun _ => by omega⟩
    · constructor
      · intro h
        omega
      · rintro (h | h)
        · exact absurd h hwrap
        · exact absurd h hcut

theorem sectors_pos (h : ¬ (offset%512 = 0 ∧ size%512 = 0)) : 0 < sectors offset size := by
  rw [sectors,sub32]
  split_ifs <;> omega

/-- An access that is not made of whole sectors takes one sector too many. -/
theorem sectors_gt (h : ¬ (offset%512 = 0 ∧ size%512 = 0)) : size < sectors offset size*512 := by
  rw [sectors,sub32]
  split_ifs <;> omega

theorem sectors_eq (hoffset : offset%512 = 0) (hsize : size%512 = 0) :
    sectors offset size*512 = size := by
  rw [sectors,sub32]
  split_ifs <;> omega

theorem internalBufferSize_room (h : 512 ≤ size) : 512 ≤ internalBufferSize size := by
  rw [internalBufferSize]
  split_ifs
  · exact h
  · decide

theorem internalBufferSize_many : internalBufferSize size/512 ≤ 128 := by
  rw [internalBufferSize]
  split_ifs with h
  · simp only [BYTES_PER_PRD] at h
    omega
  · decide

theorem length_add (size : ℕ) (hoffset : offset ≤ node_size) :
    length node_size offset size+offset ≤ node_size := by
  rw [length]
  omega

/-- A read delivers its bytes exactly if the cut does not go wrong and only whole sectors
are read. -/
theorem delivers_iff (disk internal_buffer : Mem) (hnode : node_size < W32)
    (hoffset : offset ≤ node_size) (hpos : 0 < size) (hsize : size < W32) :
    Delivers disk node_size offset size (ataRead disk node_size internal_buffer offset size) ↔
      (size+offset < W32 ∨ node_size ≤ (size+offset)%W32) ∧
        offset%512 = 0 ∧ length node_size offset size%512 = 0 := by
  rw [← clipped_eq hnode hoffset,ataRead,if_neg hpos.ne',if_neg (by omega)]
  dsimp only
  have hn : length node_size offset size < W32 := (Nat.min_le_left _ _).trans_lt hsize
  by_cases hcut : clipped node_size offset size = length node_size offset size
  swap
  · apply iff_of_false
    · rintro ⟨out,hok,-⟩
      obtain ⟨out',-,hout⟩ := Result.bind_eq_ok.mp hok
      exact hcut (Prod.mk.inj (Except.ok.inj hout)).1
    · exact fun h => hcut h.1
  rw [hcut]
  by_cases haligned : offset%512 = 0 ∧ length node_size offset size%512 = 0
  · refine iff_of_true ?_ ⟨rfl,haligned⟩
    have hsectors := sectors_eq haligned.1 haligned.2
    have hend := length_add size hoffset
    by_cases hnone : length node_size offset size = 0
    · have hzero : sectors offset (length node_size offset size) = 0 := by omega
      refine ⟨fun _ => none,?_,fun i hi => by omega,fun _ _ => rfl⟩
      rw [hzero,ataReadLoop]
      rfl
    · have hroom : 512 ≤ length node_size offset size := by omega
      obtain ⟨out,hok,hout⟩ := ataReadLoop_aligned disk (offset/512)
        (internalBufferSize_room hroom) internalBufferSize_many
        (sectors offset (length node_size offset size)) 0 internal_buffer (fun _ => none) rfl
        (by simp only [W32] at hnode; omega) (by omega)
      rw [haligned.1,hok]
      refine ⟨out,rfl,?_,?_⟩
      · intro i hi
        rw [hout,if_pos (by omega),Nat.div_mul_cancel (Nat.dvd_of_mod_eq_zero haligned.1)]
      · intro i hi
        rw [hout,if_neg (by omega)]
  · apply iff_of_false
    · have hpos := sectors_pos haligned
      have hover := sectors_gt haligned
      by_cases hroom : 512 ≤ length node_size offset size
      · obtain ⟨out,hok,-,hcover⟩ :=
          ataReadLoop_covers disk (offset/512) (internalBufferSize_room hroom)
          (sectors offset (length node_size offset size)) (offset%512) 0 internal_buffer (fun _ =>
            none)
          (by decide)
        rintro ⟨out',hout,-,hnone⟩
        rw [hok] at hout
        have hsame : out = out' := (Prod.mk.inj (Except.ok.inj hout)).2
        rw [← hsame] at hnone
        exact hcover _ (Nat.zero_le _) (by rw [Nat.zero_add]; exact hover) hn (hnone _ le_rfl)
      · rintro ⟨out,hok,-⟩
        obtain ⟨out',hloop,-⟩ := Result.bind_eq_ok.mp hok
        obtain ⟨k,hk⟩ := Nat.exists_eq_add_of_lt hpos
        rw [internalBufferSize,if_pos (by simp only [BYTES_PER_PRD]; omega),hk,
          Nat.zero_add,ataReadLoop,dif_pos (by omega)] at hloop
        cases hloop
    · exact fun h => haligned h.2

end

/-- A sector of zeros is read by one transfer. -/
theorem delivers_sector : Delivers (fun _ =>
    0) 512 0 512 (ataRead (fun _ => 0) 512 (fun _ => 0) 0 512) :=
  (delivers_iff (fun _ => 0) (fun _ => 0) (by decide) (by decide) (by decide) (by decide)).mpr
    ⟨Or.inl (by decide),by decide,by decide⟩

/-- One byte is never read: there is no room for a sector. The two sectors that hold the
first 513 bytes are both copied whole. -/
theorem one_byte_never_read :
    ataRead (fun _ => 0) 1024 (fun _ => 0) 0 1 = .error .loop ∧
      ∃ out, ataRead (fun _ => 0) 1024 (fun _ => 0) 0 513 = .ok (513,out) ∧ out 513 = some 0 := by
  constructor
  · have hsectors : sectors 0 1 = 1 := by decide
    have hclip : clipped 1024 0 1 = 1 := by decide
    rw [ataRead,if_neg (by decide),if_neg (by decide)]
    dsimp only
    rw [hclip,hsectors,ataReadLoop,dif_pos (by decide)]
    rfl
  · have hsectors : sectors 0 513 = 2 := by decide
    have hclip : clipped 1024 0 513 = 513 := by decide
    obtain ⟨out,hok,hout⟩ :=
      ataReadLoop_aligned (fun _ => 0) 0 (show 512 ≤ 513 by decide) (by decide)
      2 0 (fun _ => 0) (fun _ => none) rfl (by decide) (by decide)
    refine ⟨out,?_,by rw [hout]; rfl⟩
    rw [ataRead,if_neg (by decide),if_neg (by decide)]
    dsimp only
    rw [hclip,hsectors]
    exact congrArg (fun r => r >>= fun out => pure (513,out)) hok

end ScalesOS.Ata
