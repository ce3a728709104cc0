import ScalesOS.ByteMemory

/-! Byte-addressed storage. A transfer to or from a device moves the bytes of the requested
range that exist on the device, and says how many they are. A file grows as it is written. -/
namespace Storage
open ByteMemory

/-- A device that holds the bytes `0` to `size`. -/
structure Device where
  size : ℕ
  byte : Mem

namespace Device
variable (d : Device)

def available (offset n : ℕ) : ℕ := min n (d.size-offset)

def read (offset n : ℕ) : List (BitVec 8) := load d.byte offset (d.available offset n)

def write (offset : ℕ) (data : List (BitVec 8)) : Device where
  size := d.size
  byte := store d.byte offset (data.take (d.available offset data.length))

@[simp] theorem size_write (offset : ℕ) (data : List (BitVec 8)) :
    (d.write offset data).size = d.size := rfl

@[simp] theorem length_read (offset n : ℕ) : (d.read offset n).length = d.available offset n :=
  length_load _ _ _

theorem available_le (offset n : ℕ) : d.available offset n ≤ n := min_le_left _ _

theorem available_eq {offset n : ℕ} (h : offset+n ≤ d.size) : d.available offset n = n :=
  min_eq_left (by omega)

theorem read_eq {offset n : ℕ} (h : offset+n ≤ d.size) :
    d.read offset n = load d.byte offset n := by
  rw [read,d.available_eq h]

theorem byte_write_outside {offset x : ℕ} {data : List (BitVec 8)}
    (h : x < offset ∨ offset+data.length ≤ x) :
    (d.write offset data).byte x = d.byte x := by
  have hle := d.available_le offset data.length
  have hmin := min_eq_left hle
  exact store_outside _ (by rw [List.length_take]; omega)

theorem byte_write_eq (offset x : ℕ) (data : List (BitVec 8)) :
    (d.write offset data).byte x =
      if offset ≤ x ∧ x < offset+data.length ∧ x < d.size then data.getD (x-offset) 0
      else d.byte x := by
  have hle := d.available_le offset data.length
  by_cases hx : offset ≤ x ∧ x < offset+data.length ∧ x < d.size
  · have hin : x-offset < d.available offset data.length := by
      rw [available]
      omega
    rw [if_pos hx,write]
    dsimp only
    rw [store,if_pos (by rw [List.length_take]; omega),List.getD_eq_getElem?_getD,
      List.getD_eq_getElem?_getD,List.getElem?_take_of_lt hin]
  · have hout : x < offset ∨ offset+(data.take (d.available offset data.length)).length ≤ x := by
      rw [List.length_take,available]
      omega
    rw [if_neg hx,write]
    exact store_outside _ hout

theorem read_congr {d e : Device} {offset n : ℕ} (hsize : e.size = d.size)
    (h : ∀ x, offset ≤ x → x < offset+n → e.byte x = d.byte x) :
    e.read offset n = d.read offset n := by
  have hle := d.available_le offset n
  rw [read,read,available,hsize]
  exact load_congr fun x hlow hhigh => h x hlow (by rw [available] at hle; omega)

end Device

/-- A file. What has never been written is zero. -/
structure File where
  size : ℕ
  byte : Mem

namespace File
variable {f : File} {m m' : Mem} {base held offset n : ℕ} {data : List (BitVec 8)}

def empty : File where
  size := 0
  byte := fun _ => 0

def write (f : File) (offset : ℕ) (data : List (BitVec 8)) : File where
  size := max f.size (offset+data.length)
  byte := store f.byte offset data

def read (f : File) (offset n : ℕ) : List (BitVec 8) := load f.byte offset (min n (f.size-offset))

/-- The first `held` bytes of the file are in a memory from `base` on, and there are no
others. -/
structure Backed (f : File) (m : Mem) (base held : ℕ) : Prop where
  size_le : f.size ≤ held
  inside : ∀ x < held, f.byte x = m (base+x)
  outside : ∀ x, held ≤ x → f.byte x = 0

theorem Backed.empty (m : Mem) (base : ℕ) : Backed empty m base 0 :=
  ⟨le_rfl,fun _ h => absurd h (Nat.not_lt_zero _),fun _ _ => rfl⟩

theorem Backed.grow (h : Backed f m base held) {more : ℕ}
    (hold : ∀ x < held, m' (base+x) = m (base+x))
    (hnew : ∀ x, held ≤ x → x < held+more → m' (base+x) = 0) : Backed f m' base (held+more) := by
  refine ⟨h.size_le.trans (Nat.le_add_right _ _),?_,fun x hx => h.outside x (by omega)⟩
  intro x hx
  by_cases hin : x < held
  · rw [hold x hin,h.inside x hin]
  · rw [hnew x (by omega) hx,h.outside x (by omega)]

theorem Backed.write (h : Backed f m base held) (hin : offset+data.length ≤ held) :
    Backed (f.write offset data) (store m (base+offset) data) base held := by
  refine ⟨Nat.max_le.mpr ⟨h.size_le,hin⟩,?_,?_⟩
  · intro x hx
    rw [File.write]
    dsimp only
    rw [store,store]
    by_cases hdata : offset ≤ x ∧ x < offset+data.length
    · rw [if_pos hdata,if_pos (by omega)]
      congr 1
      omega
    · rw [if_neg hdata,if_neg (by omega)]
      exact h.inside x hx
  · intro x hx
    rw [File.write]
    dsimp only
    rw [store_outside _ (by omega)]
    exact h.outside x hx

theorem Backed.read (h : Backed f m base held) (offset n : ℕ) :
    f.read offset n = load m (base+offset) (min n (f.size-offset)) := by
  have hsize := h.size_le
  apply List.map_congr_left
  intro i hi
  have hi := List.mem_range.mp hi
  rw [h.inside _ (by omega),Nat.add_assoc]

end File
end Storage
