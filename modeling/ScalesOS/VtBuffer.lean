import ScalesOS.Machine

/-!
# The buffer of a virtual terminal

Every write appends to the buffer, which all nodes of a terminal share. Its capacity is the
size of the node that the write goes through: `k_fs_vfs_open` and `k_fs_vfs_dup` copy it,
and a write doubles it once.
-/

namespace ScalesOS
namespace VtBuffer

abbrev Byte := BitVec 8

/-- `vt_buffer_t`: the memory from `data` on and the number of bytes allocated there. -/
structure Buffer where
  data : ℕ → Byte
  length : BitVec 32
  occupied : BitVec 32

/-- The buffer of the device and the sizes of its nodes; the first one is the mounted node. -/
structure Vt where
  buffer : Buffer
  sizes : List (BitVec 32)

/-- What `__k_dev_vt_create` leaves; `malloc` leaves some bytes in the block. -/
def vtCreate (fill : ℕ → Byte) : Vt := ⟨⟨fill,32,0⟩,[32]⟩

/-- `k_realloc` keeps the bytes up to the smaller length; what comes behind them is arbitrary. -/
def Buffer.realloc (b : Buffer) (size : BitVec 32) (fill : ℕ → Byte) : Buffer :=
  { b with
    data := fun i => if i < b.length.toNat ∧ i < size.toNat then b.data i else fill i
    length := size }

/-- `memcpy(data+offs,buffer,size)`, wherever the block ends. -/
def Buffer.store (b : Buffer) (offs : ℕ) (buffer : List Byte) : Buffer :=
  { b with data := fun i => if h : offs ≤ i ∧ i-offs < buffer.length then
    buffer[i-offs] else b.data i }

namespace Vt

/-- A copy of a node: `k_fs_vfs_open` makes one of the mounted node, `k_fs_vfs_dup` of any. -/
def copy (vt : Vt) (n : ℕ) : Vt := { vt with sizes := vt.sizes++(vt.sizes[n]?).toList }

/-- `__k_dev_vt_write` through the node `n`, whose size is `nodeSize`. -/
def vtWrite (vt : Vt) (n : ℕ) (nodeSize : BitVec 32) (buffer : List Byte) (fill : ℕ → Byte) : Vt :=
  let size := BitVec.ofNat 32 buffer.length
  let offs := vt.buffer.occupied
  let freeSize := nodeSize-offs
  let vt :=
    if freeSize ≤ size then ⟨vt.buffer.realloc (nodeSize*2) fill,vt.sizes.set n (nodeSize*2)⟩
    else vt
  let b := vt.buffer.store offs.toNat buffer
  { vt with buffer := { b with occupied := b.occupied+size } }

end Vt

/-- Nothing lies behind the block, and its bytes are all that was written. -/
structure Holds (vt : Vt) (written : List Byte) : Prop where
  inside : vt.buffer.occupied.toNat ≤ vt.buffer.length.toNat
  contents : (List.range vt.buffer.occupied.toNat).map vt.buffer.data = written

/-- The block that the write uses, after its one doubling, has room for the bytes. -/
def Room (vt : Vt) (nodeSize : BitVec 32) (size : ℕ) : Prop :=
  vt.buffer.occupied.toNat+size ≤
    (if nodeSize-vt.buffer.occupied ≤ BitVec.ofNat 32 size then nodeSize*2
      else vt.buffer.length).toNat

/-- Copies of nodes, and writes through any node that meet a condition. -/
inductive Step (condition : Vt → BitVec 32 → ℕ → Prop) : Vt × List Byte → Vt × List Byte → Prop
  | copy {vt : Vt} {written : List Byte} (n : ℕ) : Step condition (vt,written) (vt.copy n,written)
  | write {vt : Vt} {written buffer : List Byte} {n : ℕ} {nodeSize : BitVec 32} {fill : ℕ → Byte}
      (hn : vt.sizes[n]? = some nodeSize) (hsize : buffer.length < 2^32)
      (hmeets : condition vt nodeSize buffer.length) :
      Step condition (vt,written) (vt.vtWrite n nodeSize buffer fill,written++buffer)

variable {vt : Vt} {written buffer : List Byte} {n : ℕ} {nodeSize : BitVec 32} {fill : ℕ → Byte}

theorem vtWrite_occupied : (vt.vtWrite n nodeSize buffer fill).buffer.occupied =
    vt.buffer.occupied+BitVec.ofNat 32 buffer.length := by
  rw [Vt.vtWrite]
  split <;> rfl

theorem vtWrite_length : (vt.vtWrite n nodeSize buffer fill).buffer.length =
    if nodeSize-vt.buffer.occupied ≤ BitVec.ofNat 32 buffer.length then nodeSize*2
    else vt.buffer.length := by
  rw [Vt.vtWrite]
  split <;> rfl

theorem vtWrite_data_new {i : ℕ} (hi : i < buffer.length) :
    (vt.vtWrite n nodeSize buffer fill).buffer.data (vt.buffer.occupied.toNat+i) = buffer[i] := by
  have hstore : ∀ b :
      Buffer, (b.store vt.buffer.occupied.toNat buffer).data (vt.buffer.occupied.toNat+i) =
          buffer[i] := by
    intro b
    simp [Buffer.store,hi]
  rw [Vt.vtWrite]
  split <;> exact hstore _

theorem vtWrite_data_old {i : ℕ} (hi : i < vt.buffer.occupied.toNat)
    (hlength : i < vt.buffer.length.toNat)
    (hroom : i < (vt.vtWrite n nodeSize buffer fill).buffer.length.toNat) :
    (vt.vtWrite n nodeSize buffer fill).buffer.data i = vt.buffer.data i := by
  have hstore : ∀ b :
      Buffer, (b.store vt.buffer.occupied.toNat buffer).data i = b.data i := fun b =>
    dif_neg fun h => absurd h.1 (by omega)
  rw [vtWrite_length] at hroom
  rw [Vt.vtWrite]
  split at hroom
  · rename_i hgrow
    simp only [if_pos hgrow,hstore]
    exact if_pos ⟨hlength,hroom⟩
  · rename_i hgrow
    simp only [if_neg hgrow,hstore]

/-- A write that follows others keeps this if and only if it has room. -/
theorem write_holds_iff (h : Holds vt written) (hsize : buffer.length < 2^32) :
    Holds (vt.vtWrite n nodeSize buffer fill) (written++buffer) ↔
    Room vt nodeSize buffer.length := by
  have hocc : vt.buffer.occupied.toNat = written.length := by
    rw [← h.contents,List.length_map,List.length_range]
  rw [Room,← @vtWrite_length _ _ n _ fill]
  constructor
  · intro hafter
    have hlength := congrArg List.length hafter.contents
    rw [List.length_map,List.length_range,List.length_append] at hlength
    rw [hocc,← hlength]
    exact hafter.inside
  · intro hroom
    have hlt := (vt.vtWrite n nodeSize buffer fill).buffer.length.isLt
    have hnew :
        (vt.vtWrite n nodeSize buffer fill).buffer.occupied.toNat =
        vt.buffer.occupied.toNat+buffer.length := by
      rw [vtWrite_occupied,BitVec.toNat_add,BitVec.toNat_ofNat]
      omega
    refine ⟨by rw [hnew]; exact hroom,?_⟩
    rw [hnew,List.range_add,List.map_append,List.map_map,← h.contents]
    congr 1
    · refine List.map_congr_left fun i hi => ?_
      have hi := List.mem_range.mp hi
      exact vtWrite_data_old hi (hi.trans_le h.inside) (by omega)
    · refine List.ext_getElem (by simp) fun i hi hi' => ?_
      rw [List.getElem_map,List.getElem_range]
      exact vtWrite_data_new hi'

/-- Through a node whose size is the length of the block, the bytes have to fit twice that size. -/
theorem room_iff_of_length (hlength : vt.buffer.length = nodeSize)
    (hocc : vt.buffer.occupied.toNat ≤ nodeSize.toNat)
    (hdouble : nodeSize.toNat*2 < 2^32) {size : ℕ} (hsize : size < 2^32) :
    Room vt nodeSize size ↔ vt.buffer.occupied.toNat+size ≤ nodeSize.toNat*2 := by
  have hgrow : nodeSize-vt.buffer.occupied ≤ BitVec.ofNat 32 size ↔
      nodeSize.toNat-vt.buffer.occupied.toNat ≤ size := by
    rw [BitVec.le_def,BitVec.toNat_sub_of_le (BitVec.le_def.mpr hocc),BitVec.toNat_ofNat,
      Nat.mod_eq_of_lt hsize]
  have htwo : (nodeSize*2).toNat = nodeSize.toNat*2 := by
    rw [BitVec.toNat_mul]
    exact Nat.mod_eq_of_lt hdouble
  rw [Room]
  simp only [hgrow]
  split
  · rw [htwo]
  · rw [hlength]
    omega

theorem copy_holds (h : Holds vt written) (n : ℕ) : Holds (vt.copy n) written :=
  ⟨h.inside,h.contents⟩

theorem create_holds (fill : ℕ → Byte) : Holds (vtCreate fill) [] := ⟨Nat.zero_le _,rfl⟩

/-- Where every write has room the buffer has what was written; the next write has to have room,
too. -/
theorem written_holds (hrun : Relation.ReflTransGen (Step Room) (vtCreate fill,[]) (vt,written)) :
    Holds vt written ∧ ∀ n nodeSize buffer junk, vt.sizes[n]? = some nodeSize →
    buffer.length < 2^32 → (Holds (vt.vtWrite n nodeSize buffer junk) (written++buffer) ↔
        Room vt nodeSize buffer.length) := by
  have hholds : Holds vt written := by
    generalize hs : (vt,written) = s at hrun
    induction hrun generalizing vt written with
    | refl =>
      obtain ⟨rfl,rfl⟩ := Prod.mk.inj hs
      exact create_holds fill
    | tail _ hstep ih =>
      cases hstep with
      | copy n =>
        obtain ⟨rfl,rfl⟩ := Prod.mk.inj hs
        exact copy_holds (ih rfl) n
      | write hn hsize hmeets =>
        obtain ⟨rfl,rfl⟩ := Prod.mk.inj hs
        exact (write_holds_iff (ih rfl) hsize).mpr hmeets
  exact ⟨hholds,fun _ _ _ _ _ hsize => write_holds_iff hholds hsize⟩

/-- A write of 40 bytes, and one of 30 through a copy made after it. -/
theorem written_holds_two : ∃ vt, Relation.ReflTransGen (Step Room) (vtCreate fun _ => 0,[])
    (vt,List.replicate 40 7++List.replicate 30 9) ∧
    Holds vt (List.replicate 40 7++List.replicate 30 9) := by
  have hfirst :
    Step Room (vtCreate fun _ => 0,
      []) ((vtCreate fun _ => 0).vtWrite 0 32 (List.replicate 40 7) fun _ => 1,
      List.replicate 40 7) := .write rfl (by decide) (by rw [Room]; decide)
  have hrun := ((Relation.ReflTransGen.single hfirst).tail (.copy 0)).tail
    (@Step.write _ _ _ (List.replicate 30 9) 1 64 (fun _ => 2) (by decide) (by decide) (by
      rw [Room]; decide))
  exact ⟨_,hrun,(written_holds hrun).1⟩

/-- A first write of 100 bytes gets a block of 64. -/
theorem first_write_overflows : ¬ ∀ fill vt written,
    Relation.ReflTransGen (Step fun _ _ _ => True) (vtCreate fill,[]) (vt,written) →
    Holds vt written := by
  intro h
  have hafter := h (fun _ => 0) _ _ (.single (@Step.write _ _ _ (List.replicate 100 7) 0 32
    (fun _ => 0) rfl (by decide) trivial))
  have hroom := (write_holds_iff (create_holds _) (by decide)).mp hafter
  rw [Room] at hroom
  revert hroom
  decide

end VtBuffer
end ScalesOS
