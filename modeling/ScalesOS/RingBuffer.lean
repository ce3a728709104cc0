import ScalesOS.Circular
import ScalesOS.Machine

/-!
# Ring buffers

The buffer of `kernel/src/util/types/ringbuffer.c` and the inner loops of `ringbuffer_write`
and `ringbuffer_read`.
-/

namespace ScalesOS

abbrev Byte := BitVec 8

/-- `ringbuffer_t` without its queues. -/
structure Ringbuffer where
  buffer : ℕ → Byte
  size : ℕ
  readPtr : ℕ
  writePtr : ℕ

namespace Ringbuffer

/-- `ringbuffer_create`. The memory of the buffer is not cleared. -/
def create (size : ℕ) (memory : ℕ → Byte) : Ringbuffer := ⟨memory,size,0,0⟩

def readAvailable (rb : Ringbuffer) : ℕ :=
  if rb.readPtr = rb.writePtr then 0
  else if rb.readPtr > rb.writePtr then rb.size-rb.readPtr+rb.writePtr
  else rb.writePtr-rb.readPtr

def writeAvailable (rb : Ringbuffer) : ℕ :=
  if rb.readPtr = rb.writePtr then rb.size-1
  else if rb.readPtr > rb.writePtr then rb.readPtr-rb.writePtr-1
  else rb.size-rb.writePtr+rb.readPtr-1

/-- One byte is stored, and the write pointer goes on. -/
def store (rb : Ringbuffer) (b : Byte) : Ringbuffer :=
  { rb with
    buffer := Function.update rb.buffer rb.writePtr b
    writePtr := if rb.writePtr+1 = rb.size then 0 else rb.writePtr+1 }

def drop (rb : Ringbuffer) : Ringbuffer :=
  { rb with readPtr := if rb.readPtr+1 = rb.size then 0 else rb.readPtr+1 }

/-- The inner loop of `ringbuffer_write`: the buffer and the bytes that are left. -/
def storeLoop : List Byte → Ringbuffer → Ringbuffer × List Byte
  | [], rb => (rb,[])
  | b :: rest, rb => if rb.writeAvailable = 0 then (rb,b :: rest) else storeLoop rest (rb.store b)

/-- The inner loop of `ringbuffer_read`: the buffer and the bytes that were read. -/
def takeLoop : ℕ → Ringbuffer → Ringbuffer × List Byte
  | 0, rb => (rb,[])
  | n+1, rb =>
    if rb.readAvailable = 0 then (rb,[])
    else
      let (rb',bytes) := takeLoop n rb.drop
      (rb',rb.buffer rb.readPtr :: bytes)

variable {rb : Ringbuffer}

/-- The pointers are inside the buffer. -/
structure Valid (rb : Ringbuffer) : Prop where
  two_le : 2 ≤ rb.size
  read_lt : rb.readPtr < rb.size
  write_lt : rb.writePtr < rb.size

/-- The bytes that have been stored and not read. -/
def contents (rb : Ringbuffer) : List Byte :=
  Circular.contents rb.buffer rb.size rb.readPtr (Circular.dist rb.size rb.readPtr rb.writePtr)

theorem readAvailable_eq (rb : Ringbuffer) : rb.readAvailable = rb.contents.length := by
  rw [contents,Circular.length_contents,readAvailable,Circular.dist]
  split_ifs <;> omega

theorem Valid.available (h : rb.Valid) : rb.readAvailable+rb.writeAvailable = rb.size-1 := by
  have hr := h.read_lt
  have hw := h.write_lt
  rw [readAvailable,writeAvailable]
  split_ifs <;> omega

theorem Valid.store (h : rb.Valid) (b : Byte) : (rb.store b).Valid :=
  ⟨h.two_le,h.read_lt,Circular.next_lt h.write_lt⟩

theorem Valid.drop (h : rb.Valid) : rb.drop.Valid :=
  ⟨h.two_le,Circular.next_lt h.read_lt,h.write_lt⟩

theorem Valid.contents_store (h : rb.Valid) (b : Byte) (hroom : rb.writeAvailable ≠ 0) :
    (rb.store b).contents = rb.contents++[b] := by
  have hsum := h.available
  have hread := readAvailable_eq rb
  rw [contents,Circular.length_contents] at hread
  have hlt : Circular.dist rb.size rb.readPtr rb.writePtr+1 < rb.size := by omega
  exact Circular.contents_push rb.buffer b h.read_lt h.write_lt hlt

theorem Valid.contents_drop (h : rb.Valid) (hne : rb.readAvailable ≠ 0) :
    rb.contents = rb.buffer rb.readPtr :: rb.drop.contents := by
  refine Circular.contents_pop rb.buffer h.read_lt h.write_lt fun heq => hne ?_
  rw [readAvailable,if_pos heq]

theorem storeLoop_spec (data : List Byte) : ∀ rb : Ringbuffer, rb.Valid →
    (storeLoop data rb).1.Valid ∧ (storeLoop data rb).1.size = rb.size ∧
      (storeLoop data rb).1.contents = rb.contents++data.take rb.writeAvailable ∧
      (storeLoop data rb).2 = data.drop rb.writeAvailable := by
  induction data with
  | nil =>
    intro rb h
    simp [storeLoop,h]
  | cons b rest ih =>
    intro rb h
    rw [storeLoop]
    split
    · rename_i hfull
      simp [h,hfull]
    · rename_i hroom
      obtain ⟨hv,hsize,hcontents,hrest⟩ := ih (rb.store b) (h.store b)
      have hstore := h.contents_store b hroom
      have hleft : rb.writeAvailable = (rb.store b).writeAvailable+1 := by
        have h1 := h.available
        have h2 := (h.store b).available
        rw [readAvailable_eq] at h1 h2
        rw [hstore,List.length_append,List.length_singleton] at h2
        have hsame : (rb.store b).size = rb.size := rfl
        omega
      refine ⟨hv,hsize,?_,?_⟩
      · rw [hcontents,hstore,hleft,List.take_succ_cons,List.append_assoc]
        rfl
      · rw [hrest,hleft,List.drop_succ_cons]

theorem takeLoop_spec (n : ℕ) : ∀ rb : Ringbuffer, rb.Valid →
    (takeLoop n rb).1.Valid ∧ (takeLoop n rb).1.size = rb.size ∧
      (takeLoop n rb).1.contents = rb.contents.drop n ∧ (takeLoop n rb).2 = rb.contents.take n := by
  induction n with
  | zero =>
    intro rb h
    simp [takeLoop,h]
  | succ n ih =>
    intro rb h
    rw [takeLoop]
    split
    · rename_i hempty
      have hnil : rb.contents = [] :=
        List.length_eq_zero_iff.mp ((readAvailable_eq rb).symm.trans hempty)
      simp [h,hnil]
    · rename_i hne
      obtain ⟨hv,hsize,hcontents,htaken⟩ := ih rb.drop h.drop
      refine ⟨hv,hsize,?_,?_⟩
      · rw [h.contents_drop hne,List.drop_succ_cons]
        exact hcontents
      · rw [h.contents_drop hne,List.take_succ_cons]
        exact congrArg _ htaken

end Ringbuffer
end ScalesOS
