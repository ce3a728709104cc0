import ScalesOS.Ata

/-!
# Writing bytes to a disk

`ata_write` of `modules/ata/main.c`, and `__ata_write_internal` below it. The sectors at both ends
are read over the data that has been put there, and over the memory behind, and the number of
sectors has eight bits.
-/

namespace ScalesOS.Ata
open ByteMemory

/-- The number of sectors that a command takes from its register, where 0 stands for 256. -/
def sectorCount (dma_size : ℕ) : ℕ := if dma_size%256 = 0 then 256 else dma_size%256

def ataWriteInternal (disk : Mem) (lba dma_size : ℕ) (buffer : Mem) : Mem :=
  store disk (lba%2^24*512) (load buffer 0 (sectorCount dma_size*512))

/-- A read into the part of a buffer from `base` on. -/
def ataReadInto (disk : Mem) (lba dma_size base : ℕ) (buffer : Mem) : Mem := fun x =>
  if base ≤ x then ataReadInternal disk lba dma_size (fun y => buffer (base+y)) (x-base)
  else buffer x

/-- The value of a call, and what it leaves on the disk, in its caller's buffer, and in memory from
`internal_buffer` on. -/
structure WriteResult where
  value : ℕ
  disk : Mem
  buffer : Mem
  memory : Mem

/-- The bytes that `k_mem_dma_alloc` is asked for. -/
def room (offset size : ℕ) : ℕ := (sectors offset size*512%W32/0x1000+1)*0x1000

/-- `ata_write`. The reads of the sectors at both ends ask for 512 sectors, and the data is copied
back into the caller's buffer after the first of them. `internal_buffer` is the memory from that
address on; the call owns the first `room` bytes of it. -/
def ataWrite (disk : Mem) (node_size : ℕ) (internal_buffer buffer : Mem)
    (offset size : ℕ) : WriteResult :=
  if size = 0 then ⟨0,disk,buffer,internal_buffer⟩
  else if node_size < offset then ⟨0,disk,buffer,internal_buffer⟩
  else
    let lba_offset := offset/512
    let part_offset := offset%512
    let last_sector := sub32 (size%512) part_offset
    let dma_size := sectors offset size
    let internal := store internal_buffer part_offset (load buffer 0 size)
    let internal :=
      if part_offset ≠ 0 then ataReadInternal disk lba_offset 512 internal else internal
    let copied := store buffer 0 (load internal part_offset size)
    let internal :=
      if last_sector ≠ 0 then
        ataReadInto disk (lba_offset+dma_size-1) 512 ((dma_size-1)*512%W32) internal else internal
    ⟨size,ataWriteInternal disk lba_offset dma_size internal,copied,internal⟩

/-- The data is on the disk, and nothing else has changed: neither the rest of the disk nor the
caller's buffer, nor what lies in memory behind the pages of `internal_buffer`. -/
structure Stored (disk internal_buffer buffer : Mem) (offset size : ℕ)
    (r : WriteResult) : Prop where
  value : r.value = size
  data : ∀ i < size, r.disk (offset+i) = buffer i
  rest : ∀ x, x < offset ∨ offset+size ≤ x → r.disk x = disk x
  buffer : r.buffer = buffer
  behind : ∀ x, room offset size ≤ x → r.memory x = internal_buffer x

/-- How much of the data reaches the disk: whole sectors at the start of a sector, as many as the
command can count. -/
def transferred (offset size : ℕ) : ℕ :=
  if offset%512 = 0 then 512*min (size/512) (sectorCount (sectors offset size)) else 0

/-- The sectors at the ends are read over byte `x` of the internal buffer. -/
def ReadOver (offset size x : ℕ) : Prop :=
  (offset%512 ≠ 0 ∧ x < 512*512) ∨
    (size%512 ≠ offset%512 ∧ (sectors offset size-1)*512 ≤ x ∧
      x < (sectors offset size-1)*512+512*512)

instance (offset size x : ℕ) : Decidable (ReadOver offset size x) := by
  unfold ReadOver; infer_instance

/-- A command for 64 KiB goes on where the ones before it have ended. -/
theorem ataCommands_next (disk buffer : Mem) (ps : List Prdt) {lba k dma_size last : ℕ}
    (hlba : lba+k < 2^24) (hpos : 0 < dma_size) :
    ataCommands disk (⟨k*512,0,last⟩::ps) (lba+k) dma_size
      (store buffer 0 (load disk (lba*512) (k*512))) =
      ataCommands disk ps (lba+(k+128)) (dma_size-128)
          (store buffer 0 (load disk (lba*512) ((k+128)*512))) := by
  have hread : (if (0 : ℕ) ≠ 0 then 0 else BYTES_PER_PRD)/512 = 128 := rfl
  have hnext :
      load disk (lba*512) ((k+128)*512) =
          load disk (lba*512) (k*512)++load disk ((lba+k)*512) (128*512) := by
    rw [Nat.add_mul,load_add,Nat.add_mul lba]
  rw [ataCommands,if_neg hpos.ne']
  dsimp only
  rw [hread,Nat.mod_eq_of_lt hlba,hnext,store_append,length_load,Nat.zero_add,Nat.add_assoc]

theorem ataReadInternal_512 (disk buffer : Mem) {lba : ℕ} (hlba : lba+512 ≤ 2^24) :
    ataReadInternal disk lba 512 buffer = store buffer 0 (load disk (lba*512) (512*512)) := by
  have hprdt : ataPreparePrdt 512 = [⟨0,0,0⟩,⟨128*512,0,0⟩,⟨256*512,0,0⟩,⟨384*512,0,0x8000⟩] := rfl
  have hstart :=
    @ataCommands_next disk buffer [⟨128*512,0,0⟩,⟨256*512,0,0⟩,⟨384*512,0,0x8000⟩] lba 0 512 0 (by
      omega) (by decide)
  rw [Nat.zero_mul,load_zero,store_nil,Nat.add_zero] at hstart
  rw [ataReadInternal,hprdt,hstart,Nat.zero_add,ataCommands_next _ _ _ (by omega) (by decide),
    ataCommands_next _ _ _ (by omega) (by decide),ataCommands_next _ _ _ (by omega) (by decide)]
  rfl

theorem ataReadInto_512 (disk buffer : Mem) {lba base x : ℕ} (hlba : lba+512 ≤ 2^24)
    (hlow : base ≤ x) (hhigh : x < base+512*512) :
    ataReadInto disk lba 512 base buffer x = disk (lba*512+(x-base)) := by
  rw [ataReadInto,if_pos hlow,ataReadInternal_512 disk _ hlba,store_load,
    if_pos (by omega),Nat.sub_zero]

/-- What a read of 512 sectors leaves, inside of its range and outside. -/
theorem ataReadInto_apply (disk buffer : Mem) {lba base x : ℕ} (hlba : lba+512 ≤ 2^24) :
    ataReadInto disk lba 512 base buffer x =
      if base ≤ x ∧ x < base+512*512 then disk (lba*512+(x-base)) else buffer x := by
  by_cases hlow : base ≤ x
  · rw [ataReadInto,if_pos hlow,ataReadInternal_512 disk _ hlba,store_load]
    by_cases hhigh : x < base+512*512
    · rw [if_pos (by omega),if_pos ⟨hlow,hhigh⟩,Nat.sub_zero]
    · rw [if_neg (by omega),if_neg (by omega)]
      exact congrArg buffer (by omega)
  · rw [ataReadInto,if_neg hlow,if_neg (by omega)]

theorem sectorCount_le (n : ℕ) : 0 < sectorCount n ∧ sectorCount n ≤ 256 ∧
    (0 < n → sectorCount n ≤ n) := by
  rw [sectorCount]
  split <;> omega

section
variable {node_size offset size : ℕ} (disk internal_buffer buffer : Mem)

theorem sectors_bound (hnode : node_size < W32) (hwhole : 512 ∣ node_size) (hpos : 0 < size)
    (hin : offset+size ≤ node_size) :
    0 < sectors offset size ∧ (sectors offset size-1)*512 < W32 ∧
        offset/512+sectors offset size ≤ 2^23+1 := by
  obtain ⟨n,rfl⟩ := hwhole
  have hword : W32 = 0x100000000 := rfl
  rw [sectors,sub32]
  split_ifs <;> omega

theorem lastSector_eq_zero_iff : sub32 (size%512) (offset%512) = 0 ↔ size%512 = offset%512 := by
  rw [sub32]
  split <;> omega

/-- What a write leaves in memory: the sectors that were read, else the data, else what was
there. -/
theorem ataWrite_memory (hnode : node_size < W32) (hwhole : 512 ∣ node_size) (hpos : 0 < size)
    (hin : offset+size ≤ node_size) (x : ℕ) :
    (ataWrite disk node_size internal_buffer buffer offset size).memory x =
      if ReadOver offset size x then disk (offset/512*512+x)
      else if offset%512 ≤ x ∧ x < offset%512+size then buffer (x-offset%512)
      else internal_buffer x := by
  obtain ⟨hsectors,hbase,hend⟩ := sectors_bound hnode hwhole hpos hin
  have hlba : offset/512 < 2^23 := by
    have hword : W32 = 0x100000000 := rfl
    omega
  rw [ataWrite,if_neg hpos.ne',if_neg (by omega)]
  dsimp only
  rw [Nat.mod_eq_of_lt hbase,if_congr (not_congr lastSector_eq_zero_iff) rfl rfl]
  -- the memory after the first read
  have hfirst : (if offset%512 ≠ 0 then
        ataReadInternal disk (offset/512) 512
          (store internal_buffer (offset%512) (load buffer 0 size))
      else store internal_buffer (offset%512) (load buffer 0 size)) x =
      if offset%512 ≠ 0 ∧ x < 512*512 then disk (offset/512*512+x)
      else if offset%512 ≤ x ∧ x < offset%512+size then buffer (x-offset%512)
      else internal_buffer x := by
    have hdata : store internal_buffer (offset%512) (load buffer 0 size) x =
        if offset%512 ≤ x ∧ x < offset%512+size then buffer (x-offset%512)
        else internal_buffer x := by
      rw [store_load,Nat.zero_add]
    by_cases hpart : offset%512 ≠ 0
    · rw [if_pos hpart,ataReadInternal_512 disk _ (by omega),store_load,hdata]
      simp [hpart]
    · have hnone : ¬ (offset%512 ≠ 0 ∧ x < 512*512) := fun h => hpart h.1
      rw [if_neg hpart,hdata,if_neg hnone]
  split
  · rename_i hlast
    rw [ataReadInto_apply disk _ (by omega),hfirst]
    by_cases hover : (sectors offset size-1)*512 ≤ x ∧ x < (sectors offset size-1)*512+512*512
    · have hread : ReadOver offset size x := Or.inr ⟨hlast,hover⟩
      rw [if_pos hover,if_pos hread]
      exact congrArg disk (by omega)
    · rw [if_neg hover]
      refine if_congr ⟨Or.inl,fun h => h.resolve_right fun h => hover h.2⟩ rfl rfl
  · rename_i hlast
    rw [hfirst]
    exact if_congr ⟨Or.inl,fun h => h.resolve_right fun h => hlast h.1⟩ rfl rfl

/-- Memory behind the pages is as it was exactly if what is stored there was there before. -/
theorem ataWrite_behind_iff (hnode : node_size < W32) (hwhole : 512 ∣ node_size) (hpos : 0 < size)
    (hin : offset+size ≤ node_size) :
    (∀ x, room offset size ≤ x →
        (ataWrite disk node_size internal_buffer buffer offset size).memory x = internal_buffer x) ↔
      (∀ x, room offset size ≤ x → ReadOver offset size x →
        disk (offset/512*512+x) = internal_buffer x) ∧
        ∀ i < size, room offset size ≤ offset%512+i → ¬ ReadOver offset size (offset%512+i) →
          buffer i = internal_buffer (offset%512+i) := by
  constructor
  · intro h
    refine ⟨fun x hx hover => ?_,fun i hi hx hover => ?_⟩
    · rw [← h x hx,ataWrite_memory disk internal_buffer buffer hnode hwhole hpos hin,if_pos hover]
    · rw [← h _ hx,ataWrite_memory disk internal_buffer buffer hnode hwhole hpos hin,if_neg hover,
        if_pos (by omega),Nat.add_sub_cancel_left]
  · rintro ⟨hread,hdata⟩ x hx
    rw [ataWrite_memory disk internal_buffer buffer hnode hwhole hpos hin]
    by_cases hover : ReadOver offset size x
    · rw [if_pos hover,hread x hx hover]
    rw [if_neg hover]
    split
    · rename_i hin
      obtain ⟨i,rfl⟩ := Nat.exists_eq_add_of_le hin.1
      rw [Nat.add_sub_cancel_left]
      exact hdata i (by omega) hx hover
    · rfl

/-- The data fits the pages unless they are of 4 GiB. -/
theorem data_inside (hsectors : sectors offset size*512 < W32) :
    offset%512+size ≤ room offset size := by
  rw [room,Nat.mod_eq_of_lt hsectors,sectors,sub32]
  split_ifs <;> omega

/-- Behind a write that does not begin with a sector the disk is what it was. -/
theorem ataWrite_unaligned (hnode : node_size < W32) (hwhole : 512 ∣ node_size) (hpos : 0 < size)
    (hin : offset+size ≤ node_size) (hpart : offset%512 ≠ 0) :
    (ataWrite disk node_size internal_buffer buffer offset size).disk = disk ∧
      ∀ x, (ataWrite disk node_size internal_buffer buffer offset size).buffer x =
        if x < size ∧ offset%512+x < 512*512 then disk (offset+x) else buffer x := by
  obtain ⟨hsectors,hbase,hend⟩ := sectors_bound hnode hwhole hpos hin
  have hcount := sectorCount_le (sectors offset size)
  have hlba : offset/512 < 2^23 := by
    have hword : W32 = 0x100000000 := rfl
    omega
  rw [ataWrite,if_neg hpos.ne',if_neg (by omega)]
  dsimp only
  rw [if_pos hpart,Nat.mod_eq_of_lt hbase,ataReadInternal_512 disk _ (by omega)]
  constructor
  · funext x
    rw [ataWriteInternal,Nat.mod_eq_of_lt (by omega),store_load]
    split
    · rename_i hx
      by_cases hlast : sub32 (size%512) (offset%512) ≠ 0 ∧
        (sectors offset size-1)*512 ≤ x-offset/512*512
      · rw [if_pos hlast.1,Nat.zero_add,ataReadInto_512 disk _ (by omega) hlast.2 (by omega)]
        exact congrArg disk (by omega)
      · have hfirst :
          store (store internal_buffer (offset%512) (load buffer 0 size)) 0
            (load disk (offset/512*512) (512*512))
            (x-offset/512*512) = disk x := by
          rw [store_load,if_pos (by omega)]
          exact congrArg disk (by omega)
        rw [Nat.zero_add]
        split
        · rename_i hsub
          rw [ataReadInto,if_neg fun h => hlast ⟨hsub,h⟩,hfirst]
        · exact hfirst
    · rfl
  · intro x
    rw [store_load]
    by_cases hx : x < size
    · rw [if_pos (by omega),Nat.sub_zero,store_load]
      by_cases hover : offset%512+x < 512*512
      · rw [if_pos (by omega),if_pos ⟨hx,hover⟩]
        exact congrArg disk (by omega)
      · rw [if_neg (by omega),if_neg (by omega),store_load,if_pos (by omega)]
        exact congrArg buffer (by omega)
    · rw [if_neg (by omega),if_neg (by omega)]

/-- At the start of a sector the data comes before what is read, and it is not changed. -/
theorem ataWrite_aligned (hnode : node_size < W32) (hwhole : 512 ∣ node_size) (hpos : 0 < size)
    (hin : offset+size ≤ node_size) (hpart : offset%512 = 0) :
    (ataWrite disk node_size internal_buffer buffer offset size).buffer = buffer ∧
      ∀ x, (ataWrite disk node_size internal_buffer buffer offset size).disk x =
        if offset ≤ x ∧ x < offset+transferred offset size then buffer (x-offset) else disk x := by
  obtain ⟨hsectors,hbase,hend⟩ := sectors_bound hnode hwhole hpos hin
  have hcount := sectorCount_le (sectors offset size)
  have hlba : offset/512 < 2^23 := by
    have hword : W32 = 0x100000000 := rfl
    omega
  have hsub : sub32 (size%512) (offset%512) = size%512 := by
    rw [hpart]
    exact sub32_eq (Nat.zero_le _)
  have hnumber : sectors offset size = size/512+if 0 < size%512 then 1 else 0 := by
    rw [sectors,hsub,hpart]
    rfl
  rw [ataWrite,if_neg hpos.ne',if_neg (by omega)]
  dsimp only
  rw [if_neg (not_not_intro hpart),hsub,Nat.mod_eq_of_lt hbase,hpart]
  constructor
  · funext x
    rw [store_load]
    split
    · rw [store_load,if_pos (by omega)]
      exact congrArg buffer (by omega)
    · rfl
  · intro x
    rw [ataWriteInternal,Nat.mod_eq_of_lt (by omega),store_load,transferred,if_pos hpart]
    have hfirst : ∀ y < size, store internal_buffer 0 (load buffer 0 size) y = buffer y := by
      intro y hy
      rw [store_load,if_pos (by omega)]
      exact congrArg buffer (by omega)
    by_cases hlast : size%512 ≠ 0
    · rw [if_pos hlast,Nat.zero_add]
      rw [if_pos (by omega)] at hnumber
      by_cases hx : offset ≤ x ∧ x < offset+512*min (size/512) (sectorCount (sectors offset size))
      · rw [if_pos (by omega),if_pos hx,ataReadInto,if_neg (by omega),hfirst _ (by omega)]
        exact congrArg buffer (by omega)
      · rw [if_neg hx]
        split
        · rw [ataReadInto_512 disk _ (by omega) (by omega) (by omega)]
          exact congrArg disk (by omega)
        · rfl
    · rw [if_neg hlast,Nat.zero_add]
      rw [if_neg (by omega),Nat.add_zero] at hnumber
      by_cases hx : offset ≤ x ∧ x < offset+512*min (size/512) (sectorCount (sectors offset size))
      · rw [if_pos (by omega),if_pos hx,hfirst _ (by omega)]
        exact congrArg buffer (by omega)
      · rw [if_neg (by omega),if_neg hx]

/-- For all disks of whole sectors, requests on the disk and data, a write is right exactly if what
is not transferred of the data is on the disk already, and what goes to memory behind the pages of
the internal buffer is there already. -/
theorem stored_iff (hnode : node_size < W32) (hwhole : 512 ∣ node_size) (hpos : 0 < size)
    (hin : offset+size ≤ node_size) :
    Stored disk internal_buffer buffer offset size
    (ataWrite disk node_size internal_buffer buffer offset size) ↔
      (∀ i, transferred offset size ≤ i → i < size → disk (offset+i) = buffer i) ∧
      (∀ x, room offset size ≤ x → ReadOver offset size x →
        disk (offset/512*512+x) = internal_buffer x) ∧
      ∀ i < size, room offset size ≤ offset%512+i → ¬ ReadOver offset size (offset%512+i) →
        buffer i = internal_buffer (offset%512+i) := by
  rw [← ataWrite_behind_iff disk internal_buffer buffer hnode hwhole hpos hin]
  have hvalue : (ataWrite disk node_size internal_buffer buffer offset size).value = size := by
    rw [ataWrite,if_neg hpos.ne',if_neg (by omega)]
  by_cases hpart : offset%512 = 0
  · obtain ⟨hbuffer,hdisk⟩ :=
      ataWrite_aligned disk internal_buffer buffer hnode hwhole hpos hin hpart
    have hle : transferred offset size ≤ size := by
      rw [transferred,if_pos hpart]
      omega
    constructor
    · intro h
      refine ⟨fun i hlow hhigh => ?_,h.behind⟩
      rw [← h.data i hhigh,hdisk,if_neg (by omega)]
    · rintro ⟨h,hbehind⟩
      refine ⟨hvalue,fun i hi => ?_,fun x hx => ?_,hbuffer,hbehind⟩
      · rw [hdisk]
        split
        · rw [Nat.add_sub_cancel_left]
        · exact h i (by omega) hi
      · rw [hdisk,if_neg (by omega)]
  · obtain ⟨hdisk,hbuffer⟩ :=
      ataWrite_unaligned disk internal_buffer buffer hnode hwhole hpos hin hpart
    rw [transferred,if_neg hpart]
    constructor
    · intro h
      refine ⟨fun i _ hi => ?_,h.behind⟩
      rw [← h.data i hi,hdisk]
    · rintro ⟨h,hbehind⟩
      refine ⟨hvalue,fun i hi => by rw [hdisk,h i (Nat.zero_le _) hi],
        fun x _ => by rw [hdisk],?_,hbehind⟩
      funext x
      rw [hbuffer]
      split
      · rename_i hx
        exact h x (Nat.zero_le _) hx.1
      · rfl

end

/-- All of the data is transferred if it is up to 256 whole sectors. -/
theorem transferred_eq_iff {offset size : ℕ} (hpos : 0 < size) :
    transferred offset size = size ↔ offset%512 = 0 ∧ size%512 = 0 ∧ size ≤ 256*512 := by
  rw [transferred]
  by_cases hpart : offset%512 = 0
  · rw [if_pos hpart,sectors,hpart,sub32_eq (Nat.zero_le _),sectorCount]
    split_ifs <;> omega
  · rw [if_neg hpart]
    omega

theorem not_readOver {offset size : ℕ} (hoffset : offset%512 = 0) (hsize : size%512 = 0) (x : ℕ) :
    ¬ ReadOver offset size x := by
  rw [ReadOver]
  omega

/-- A sector of ones on a disk of zeros. -/
theorem stored_sector : Stored (fun _ => 0) (fun _ => 0) (fun _ => 1) 512 512
    (ataWrite (fun _ => 0) 1024 (fun _ => 0) (fun _ => 1) 512 512) := by
  refine (stored_iff (fun _ => 0) (fun _ => 0) (fun _ => 1) (by decide) (by decide) (by
    decide) (by decide)).mpr
    ⟨?_,fun x _ hover => absurd hover (not_readOver rfl rfl x),fun i hi hroom => ?_⟩
  · have hall : transferred 512 512 = 512 := by decide
    rw [hall]
    intro i hlow hhigh
    omega
  · have hpages : room 512 512 = 0x1000 := by decide
    omega

/-- One byte at the start of a sector is read over before the sector is written. One byte inside
of a sector is lost as well, and the caller's buffer gets what was on the disk. With 513 bytes the
read of the last sector goes on behind the one page of the internal buffer. -/
theorem one_byte_not_stored :
    (ataWrite (fun _ => 0) 1024 (fun _ => 0) (fun _ => 1) 0 1).disk 0 = 0 ∧
      (ataWrite (fun _ => 0) 1024 (fun _ => 0) (fun _ => 1) 1 1).disk 1 = 0 ∧
      (ataWrite (fun _ => 0) 1024 (fun _ => 0) (fun _ => 1) 1 1).buffer 0 = 0 ∧
      room 0 513 = 0x1000 ∧ (ataWrite (fun _ => 0) 1024 (fun _ => 7) (fun _ => 0) 0 513).memory
      0x1000 = 0 := by
  obtain ⟨-,hfirst⟩ := @ataWrite_aligned 1024 0 1 (fun _ => 0) (fun _ => 0) (fun _ => 1)
    (by decide) (by decide) (by decide) (by decide) (by decide)
  obtain ⟨hdisk,hbuffer⟩ := @ataWrite_unaligned 1024 1 1 (fun _ => 0) (fun _ => 0) (fun _ => 1)
    (by decide) (by decide) (by decide) (by decide) (by decide)
  refine ⟨?_,by rw [hdisk],?_,by decide,?_⟩
  · rw [hfirst,if_neg (by decide)]
  · rw [hbuffer,if_pos (by decide)]
  · rw [ataWrite_memory _ _ _ (by decide) (by decide) (by decide) (by decide),if_pos (by decide)]

end ScalesOS.Ata
