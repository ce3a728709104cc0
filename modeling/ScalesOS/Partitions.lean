import Mathlib
import ScalesOS.Machine
import ScalesOS.Storage

/-! Partitions of `modules/dospart/main.c`: an entry of the partition table, the read and
the write of its device file, and which bytes of the drive they reach. All products and
sums of the source are of 32 bits. Both go to the drive through `k_fs_vfs_read` and
`k_fs_vfs_write`, which look at the mode that the drive was opened with. -/
namespace ScalesOS
open Storage

/-- The `fs_node_t` of a drive. -/
structure DriveNode where
  device : Device
  mode : ℕ

namespace DriveNode

def O_RDONLY : ℕ := 1
def O_WRONLY : ℕ := 2

def Readable (drive : DriveNode) : Prop := drive.mode &&& O_RDONLY ≠ 0
def Writable (drive : DriveNode) : Prop := drive.mode &&& O_WRONLY ≠ 0

instance (drive : DriveNode) : Decidable drive.Readable := by unfold Readable; infer_instance
instance (drive : DriveNode) : Decidable drive.Writable := by unfold Writable; infer_instance

/-- The bytes read, or `none` for `-EPERM`. -/
def kFsVfsRead (drive : DriveNode) (offset size : ℕ) : Option (List (BitVec 8)) :=
  if drive.Readable then some (drive.device.read offset size) else none

/-- The number of bytes written, or `none` for `-EPERM`. -/
def kFsVfsWrite (drive : DriveNode) (offset : ℕ) (buffer : List (BitVec 8)) :
    Option ℕ × DriveNode :=
  if drive.Writable then
    (some (drive.device.available offset buffer.length),
      { drive with device := drive.device.write offset buffer })
  else (none,drive)

/-- The drive as `load` opens it. -/
def load (device : Device) : DriveNode := ⟨device,O_RDONLY⟩

theorem load_readable (device : Device) : (load device).Readable :=
  show O_RDONLY &&& O_RDONLY ≠ 0 by decide

theorem load_not_writable (device : Device) : ¬ (load device).Writable :=
  show ¬ O_RDONLY &&& O_WRONLY ≠ 0 by decide

end DriveNode

/-- An entry of the partition table. Its fields are of 32 bits. -/
structure MbrPatrition where
  lba_start : ℕ
  size : ℕ
  lba_start_lt : lba_start < W32
  size_lt : size < W32

namespace MbrPatrition
variable (patr : MbrPatrition)

def patrOffset : ℕ := patr.lba_start*512%W32

def patrSize : ℕ := patr.size*512%W32

def bound : ℕ := (patr.patrOffset+patr.patrSize)%W32

def request (offset size : ℕ) : Option (ℕ × ℕ) :=
  if patr.bound ≤ offset then none
  else if patr.bound ≤ (offset+size)%W32 then some ((patr.patrOffset+offset)%W32,patr.bound-offset)
  else some ((patr.patrOffset+offset)%W32,size)

def dospartRead (drive : DriveNode) (offset size : ℕ) : Option (List (BitVec 8)) :=
  match patr.request offset size with
  | none => some []
  | some (start,n) => drive.kFsVfsRead start n

def dospartWrite (drive : DriveNode) (offset : ℕ) (buffer : List (BitVec 8)) :
    Option ℕ × DriveNode :=
  match patr.request offset buffer.length with
  | none => (some 0,drive)
  | some (start,n) => drive.kFsVfsWrite start (buffer.take n)

def accessed (offset size : ℕ) : Set ℕ :=
  {x | ∃ start n, patr.request offset size = some (start,n) ∧ start ≤ x ∧ x < start+n}

/-- The drive bytes that a read accesses, and those that a write does. -/
def readFrom (drive : DriveNode) (offset size : ℕ) : Set ℕ :=
  {x | drive.Readable ∧ x ∈ patr.accessed offset size}

def writtenTo (drive : DriveNode) (offset size : ℕ) : Set ℕ :=
  {x | drive.Writable ∧ x ∈ patr.accessed offset size}

/-- The bytes of the partition. -/
def extent : Set ℕ := {x | patr.lba_start*512 ≤ x ∧ x < (patr.lba_start+patr.size)*512}

/-- An access that stays inside: it is turned away, it is empty, or it neither wraps round
nor is longer, once cut at the bound, than what the partition has. -/
def Fits (offset size : ℕ) : Prop :=
  patr.bound ≤ offset ∨ size = 0 ∨
    patr.lba_start*512+offset < W32 ∧
      (offset+size ≤ patr.size*512 ∨ patr.bound ≤ (offset+size)%W32 ∧ patr.bound ≤ patr.size*512)

instance (offset size : ℕ) : Decidable (patr.Fits offset size) := by unfold Fits; infer_instance

theorem bound_lt : patr.bound < W32 := Nat.mod_lt _ (by decide)

theorem patrOffset_add (offset : ℕ) :
    (patr.patrOffset+offset)%W32 = (patr.lba_start*512+offset)%W32 := by
  rw [patrOffset,Nat.mod_add_mod]

theorem dospartRead_congr {d e : DriveNode} {offset size : ℕ} (hmode : e.mode = d.mode)
    (hsize : e.device.size = d.device.size)
    (h : ∀ x ∈ patr.readFrom d offset size, e.device.byte x = d.device.byte x) :
    patr.dospartRead e offset size = patr.dospartRead d offset size := by
  rw [dospartRead,dospartRead]
  cases hreq : patr.request offset size with
  | none => rfl
  | some r =>
    have hsame : e.Readable ↔ d.Readable := by rw [DriveNode.Readable,hmode,DriveNode.Readable]
    simp only [DriveNode.kFsVfsRead,hsame]
    refine ite_congr rfl (fun hread => congrArg some ?_) fun _ => rfl
    exact Device.read_congr hsize fun x hlow hhigh => h x ⟨hread,r.1,r.2,hreq,hlow,hhigh⟩

theorem dospartWrite_outside (d : DriveNode) {offset x : ℕ} {buffer : List (BitVec 8)}
    (h : x ∉ patr.writtenTo d offset buffer.length) :
    (patr.dospartWrite d offset buffer).2.device.byte x = d.device.byte x := by
  rw [dospartWrite]
  cases hreq : patr.request offset buffer.length with
  | none => rfl
  | some r =>
    simp only [DriveNode.kFsVfsWrite]
    split
    · rename_i hwrite
      apply Device.byte_write_outside
      by_contra hin
      have hlen := List.length_take_le r.2 buffer
      exact h ⟨hwrite,r.1,r.2,hreq,by omega,by omega⟩
    · rfl

theorem dospartWrite_same (d : DriveNode) (offset : ℕ) (buffer : List (BitVec 8)) :
    (patr.dospartWrite d offset buffer).2.mode = d.mode ∧
      (patr.dospartWrite d offset buffer).2.device.size = d.device.size := by
  rw [dospartWrite]
  cases patr.request offset buffer.length with
  | none => exact ⟨rfl,rfl⟩
  | some r =>
    simp only [DriveNode.kFsVfsWrite]
    split <;> exact ⟨rfl,rfl⟩

/-- A range of addresses from `(low+offset)%W32` on lies in the partition only if it is
empty, or if the sum does not wrap round and the range ends with the partition. -/
theorem range_subset_extent {offset n : ℕ} (hoffset : offset < W32) :
    (∀ x, (patr.lba_start*512+offset)%W32 ≤ x → x < (patr.lba_start*512+offset)%W32+n →
      x ∈ patr.extent) ↔
      n = 0 ∨ patr.lba_start*512+offset < W32 ∧ offset+n ≤ patr.size*512 := by
  constructor
  · intro h
    by_cases hn : n = 0
    · exact Or.inl hn
    · have hfirst := h _ le_rfl (by omega)
      have hlast := h _ (Nat.le_add_right _ (n-1)) (by omega)
      simp only [extent,Set.mem_ofPred_eq] at hfirst hlast
      have hwrap : patr.lba_start*512+offset < W32 := by
        by_contra hge
        have hmod := Nat.mod_lt (patr.lba_start*512+offset) (show 0 < W32 by decide)
        have hsub : (patr.lba_start*512+offset)%W32 ≤ patr.lba_start*512+offset-W32 := by
          rw [Nat.mod_eq_sub_mod (by omega)]
          exact Nat.mod_le _ _
        omega
      rw [Nat.mod_eq_of_lt hwrap] at hlast
      exact Or.inr ⟨hwrap,by omega⟩
  · intro h x hlow hhigh
    rcases h with rfl | ⟨hwrap,hend⟩
    · omega
    · rw [Nat.mod_eq_of_lt hwrap] at hlow hhigh
      simp only [extent,Set.mem_ofPred_eq]
      omega

theorem accessed_subset {offset size : ℕ} (hoffset : offset < W32) :
    patr.accessed offset size ⊆ patr.extent ↔ patr.Fits offset size := by
  have hbound := patr.bound_lt
  by_cases hturned : patr.bound ≤ offset
  · have hnone : patr.request offset size = none := if_pos hturned
    constructor
    · exact fun _ => Or.inl hturned
    · rintro _ x ⟨start,n,hreq,-⟩
      rw [hnone] at hreq
      cases hreq
  have hrange : ∀ n, patr.request offset size = some ((patr.patrOffset+offset)%W32,n) →
      (patr.accessed offset size ⊆ patr.extent ↔
        n = 0 ∨ patr.lba_start*512+offset < W32 ∧ offset+n ≤ patr.size*512) := by
    intro n hreq
    rw [← patr.range_subset_extent hoffset,← patrOffset_add]
    constructor
    · intro h x hlow hhigh
      exact h ⟨_,_,hreq,hlow,hhigh⟩
    · rintro h x ⟨start,k,hk,hlow,hhigh⟩
      obtain ⟨rfl,rfl⟩ := Prod.mk.inj (Option.some.inj (hreq.symm.trans hk))
      exact h x hlow hhigh
  have hmod := Nat.mod_le (offset+size) W32
  by_cases hcut : patr.bound ≤ (offset+size)%W32
  · rw [hrange _ (by rw [request,if_neg hturned,if_pos hcut]),Fits]
    by_cases hsize : size = 0
    · rw [hsize,Nat.add_zero,Nat.mod_eq_of_lt hoffset] at hcut
      omega
    · omega
  · rw [hrange _ (by rw [request,if_neg hturned,if_neg hcut]),Fits]
    omega

/-- Two partitions without a byte in common. -/
def Apart (p q : MbrPatrition) : Prop := Disjoint p.extent q.extent

/-- Two accesses through partitions without a byte in common do not meet if both stay inside. -/
theorem independent {p q : MbrPatrition} (hapart : Apart p q) {drive : DriveNode}
    {offset offset' size' : ℕ}
    {buffer : List (BitVec 8)} (hwrite : p.writtenTo drive offset buffer.length ⊆ p.extent)
    (hread : q.readFrom drive offset' size' ⊆ q.extent) :
    q.dospartRead (p.dospartWrite drive offset buffer).2 offset' size' =
      q.dospartRead drive offset' size' := by
  obtain ⟨hmode,hsize⟩ := p.dospartWrite_same drive offset buffer
  apply dospartRead_congr q hmode hsize
  intro x hx
  apply p.dospartWrite_outside
  intro hin
  exact Set.disjoint_left.mp hapart (hwrite hin) (hread hx)

/-- On a drive that `load` has opened, a write through one partition and a following read through
another stay in their partitions, and the read does not see the write, exactly if the read fits.
No write reaches such a drive. -/
theorem containment (p q : MbrPatrition) (device : Device) {offset offset' size' : ℕ}
    {buffer : List (BitVec 8)} (hoffset' : offset' < W32) :
    (p.writtenTo (.load device) offset buffer.length ⊆ p.extent ∧
      q.readFrom (.load device) offset' size' ⊆ q.extent ∧
      (Apart p q → q.dospartRead (p.dospartWrite (.load device) offset buffer).2 offset' size' =
        q.dospartRead (.load device) offset' size')) ↔
      q.Fits offset' size' := by
  have hread : q.readFrom (.load device) offset' size' = q.accessed offset' size' :=
    Set.ext fun x => and_iff_right (DriveNode.load_readable device)
  have hwrite : p.writtenTo (.load device) offset buffer.length ⊆ p.extent :=
    fun x hx => absurd hx.1 (DriveNode.load_not_writable device)
  rw [← q.accessed_subset hoffset',← hread]
  exact ⟨fun h => h.2.1,fun h => ⟨hwrite,h,fun hapart => independent hapart hwrite h⟩⟩

def second : MbrPatrition := ⟨1,1,by decide,by decide⟩
def third : MbrPatrition := ⟨2,1,by decide,by decide⟩

def marked : Device := ⟨2048,fun x => if x = 1024 then 7 else 0⟩

theorem containment_inside :
    second.writtenTo (.load marked) 0 ([1] : List (BitVec 8)).length ⊆ second.extent ∧
      third.readFrom (.load marked) 0 512 ⊆ third.extent ∧
      (Apart second third → third.dospartRead (second.dospartWrite (.load marked) 0 [1]).2 0 512 =
        third.dospartRead (.load marked) 0 512) :=
  (containment second third marked (by decide)).mpr (by decide +kernel)

/-- The bound is an offset of the drive, so one sector past its end a partition still
accepts reads, and they return bytes of its neighbour. -/
theorem neighbour_read : Apart second third ∧
    ¬ second.readFrom (.load marked) 512 1 ⊆ second.extent ∧
    second.dospartRead (.load marked) 512 1 = some [7] := by
  refine ⟨?_,?_,by decide +kernel⟩
  · apply Set.disjoint_left.mpr
    rintro x ⟨-,hp⟩ ⟨hq,-⟩
    simp only [second,third] at hp hq
    omega
  · intro hsub
    have hread : 1024 ∈ second.readFrom (.load marked) 512 1 :=
      ⟨DriveNode.load_readable _,1024,1,by decide +kernel,le_rfl,by omega⟩
    have hin := (hsub hread).2
    simp [second] at hin

end MbrPatrition
end ScalesOS
