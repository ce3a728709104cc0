import ScalesOS.DescriptorTable
import ScalesOS.Lists

/-! The memory of a descriptor table under `sys_dup2`. The array of pointers at `fds.nodes` is
a block of the kernel heap that `realloc` replaces; what the new block holds behind the old
contents is left from before. -/

open ScalesOS.Lists

namespace ScalesOS

open ByteMemory

/-- `fd_list_t` in memory. `bytes` is the size in the header of the block at `nodes`; `links`
are those of the `fd_t` that the slots point to. -/
structure FdTable where
  mem : Mem
  nodes : ℕ
  size : ℕ
  bytes : ℕ
  links : Ptr → BitVec 32

namespace FdTable

/-- The address of `fds->nodes[i]`. -/
def slotAddr (t : FdTable) (i : ℕ) : ℕ := (t.nodes+4*i)%W32

/-- The value of `fds->nodes[i]`, 0 if there is no descriptor. -/
def slot (t : FdTable) (i : ℕ) : Ptr := readPtr t.mem (t.slotAddr i)

def setSlot (t : FdTable) (i : ℕ) (fd : Ptr) : FdTable :=
  { t with mem := writePtr t.mem (t.slotAddr i) fd }

def addLink (t : FdTable) (fd : Ptr) : FdTable :=
  { t with links := Function.update t.links fd (t.links fd+1) }

def view (t : FdTable) : FdList :=
  ⟨fun i => if t.slot i = 0 then none else some (t.slot i).toNat,0,t.size⟩

/-- `difference` has the operands the other way around. -/
def enlargedSize (size fd2 : ℕ) : ℕ := (size+(size+W32-fd2+1))%W32

/-- The part of `sys_dup2` that makes room for slot `fd2`. -/
def makeRoom (A : Allocator) (t : FdTable) (fd2 : ℕ) : Except Stop FdTable :=
  if t.size ≤ fd2 then
    let size := enlargedSize t.size fd2
    match A.realloc t.mem t.nodes t.bytes (4*size%W32) with
    | some (p,mem) => pure { t with mem := mem, nodes := p, size := size, bytes := 4*size%W32 }
    | none => throw .outOfMemory
  else pure t

def sysDup2 (A : Allocator) (t : FdTable) (fd1 fd2 : ℤ) : Except Stop (ℕ × FdTable) :=
  if fd1 < 0 then pure (Vm.failed EINVAL,t)
  else if t.size ≤ fd1.toNat ∨ t.slot fd1.toNat = 0 then pure (Vm.failed EINVAL,t)
  else do
    let fd := Files.dupTarget t.view fd2
    let t ← t.makeRoom A fd
    let t := t.setSlot fd (t.slot fd1.toNat)
    pure (fd,t.addLink (t.slot fd1.toNat))

/-- The block holds the table, and the address space has room for two of them. -/
structure Ok (t : FdTable) : Prop where
  holds : 4*t.size ≤ t.bytes
  fits : t.nodes+t.bytes ≤ W32
  small : t.size ≤ 2^29

/-- What `sys_dup2` is for. -/
def Duplicates (A : Allocator) (t : FdTable) (fd1 fd2 : ℕ) : Prop :=
  ∃ r t', t.sysDup2 A fd1 fd2 = .ok (r,t') ∧ fd2 < t'.size ∧ t'.slot fd2 = t.slot fd1 ∧
    (∀ i < t.size, i ≠ fd2 → t'.slot i = t.slot i) ∧
    (∀ i, t.size ≤ i → i < t'.size → i ≠ fd2 → t'.slot i = 0) ∧ t.size ≤ t'.size

variable {t : FdTable} {A : Allocator} {i j fd1 fd2 : ℕ}

@[simp] theorem slot_addLink (t : FdTable) (fd : Ptr) (i : ℕ) : (t.addLink fd).slot i = t.slot i :=
  rfl

@[simp] theorem slot_setSlot_self (t : FdTable) (i : ℕ) (fd : Ptr) : (t.setSlot i fd).slot i = fd :=
  read32_write32_ptr _ _ _

/-- Slots are apart as long as the array does not run over the end of the address space. -/
theorem slot_setSlot_of_ne (h : i ≠ j) (hi : t.nodes+4*i+4 ≤ W32)
    (hj : t.nodes+4*j+4 ≤ W32) (fd : Ptr) :
    (t.setSlot i fd).slot j = t.slot j := by
  simp only [W32] at hi hj
  refine readPtr_congr fun x hx => write32_outside _ ?_
  simp only [slotAddr,setSlot,W32]
  omega

theorem slot_add (t : FdTable) (i : ℕ) : t.slot (i+2^30) = t.slot i := by
  have haddr : t.slotAddr (i+2^30) = t.slotAddr i := by
    simp only [slotAddr,W32]
    omega
  rw [slot,slot,haddr]

/-- An open descriptor is duplicated in the table with room for the copy. -/
theorem sysDup2_eq (h1 : fd1 < t.size) (hopen : t.slot fd1 ≠ 0) (fd2 : ℕ) : t.sysDup2 A fd1 fd2 =
    (t.makeRoom A fd2).map fun t =>
      (fd2,(t.setSlot fd2 (t.slot fd1)).addLink ((t.setSlot fd2 (t.slot fd1)).slot fd1)) := by
  have htarget : Files.dupTarget t.view fd2 = fd2 := if_neg (by omega)
  have hin : ¬(t.size ≤ (fd1 : ℤ).toNat ∨ t.slot (fd1 : ℤ).toNat = 0) := by
    rw [Int.toNat_natCast,not_or]
    exact ⟨h1.not_ge,hopen⟩
  rw [sysDup2,if_neg (by omega),if_neg hin,htarget]
  simp only [Int.toNat_natCast,bind,Except.bind,Except.map]
  cases t.makeRoom A fd2 <;> rfl

theorem makeRoom_of_lt (h : fd2 < t.size) : t.makeRoom A fd2 = .ok t := if_neg (by omega)

theorem makeRoom_size {t' : FdTable} (hle : t.size ≤ fd2) (h : t.makeRoom A fd2 = .ok t') :
    t'.size = enlargedSize t.size fd2 := by
  rw [makeRoom,if_pos hle] at h
  dsimp only at h
  split at h
  · rw [← Except.ok.inj h]
  · cases h

theorem makeRoom_self (ht : t.Ok) : t.makeRoom A t.size =
    match A.realloc t.mem t.nodes t.bytes (4*(t.size+1)) with
    | some (p,mem) => pure { t with
        mem := mem, nodes := p, size := t.size+1, bytes := 4*(t.size+1) }
    | none => throw .outOfMemory := by
  have hsmall := ht.small
  have hsize : enlargedSize t.size t.size = t.size+1 := by
    simp only [enlargedSize,W32]
    omega
  have hbytes : 4*(t.size+1)%W32 = 4*(t.size+1) := Nat.mod_eq_of_lt (by simp only [W32]; omega)
  rw [makeRoom,if_pos le_rfl,hsize]
  dsimp only
  rw [hbytes]

theorem makeRoom_next (ht : t.Ok) (hA : A.Contract) {t' : FdTable}
    (h : t.makeRoom A t.size = .ok t') :
    t'.size = t.size+1 ∧ t'.nodes+4*(t.size+1) ≤ W32 ∧ ∀ i < t.size, t'.slot i = t.slot i := by
  rw [makeRoom_self ht] at h
  split at h
  · rename_i p mem hret
    obtain rfl := Except.ok.inj h
    have hfits := (hA.realloc_fits hret).2
    refine ⟨rfl,hfits,fun i hi => ?_⟩
    have hnew : (p+4*i)%W32 = p+4*i := Nat.mod_eq_of_lt (by omega)
    have hold : (t.nodes+4*i)%W32 = t.nodes+4*i :=
      Nat.mod_eq_of_lt (by have := ht.holds; have := ht.fits; omega)
    simp only [slot,slotAddr,hnew,hold]
    refine readPtr_congr fun x hx => ?_
    have hkeep := hA.realloc_keeps hret (4*i+x) (by have := ht.holds; omega) (by omega)
    simpa only [Nat.add_assoc] using hkeep
  · cases h

/-- With a target up to the size of the table there is a right result if there is memory. -/
theorem duplicates_of_le (ht : t.Ok) (hA : A.Contract) (h1 : fd1 < t.size) (hopen : t.slot fd1 ≠ 0)
    (h : fd2 < t.size ∨ (fd2 = t.size ∧ (A.realloc t.mem t.nodes t.bytes (4*(t.size+1))).isSome)) :
    t.Duplicates A fd1 fd2 := by
  have hholds := ht.holds
  have hfits := ht.fits
  rcases h with h2 | ⟨rfl,hsome⟩
  · have hret :
        t.sysDup2 A fd1 fd2 =
            .ok (fd2,(t.setSlot fd2 (t.slot fd1)).addLink
                ((t.setSlot fd2 (t.slot fd1)).slot fd1)) := by
      rw [sysDup2_eq h1 hopen,makeRoom_of_lt h2]
      rfl
    refine ⟨_,_,hret,h2,by simp,fun i hi hne => ?_,fun i hlo hhi => absurd hhi hlo.not_gt,le_rfl⟩
    rw [slot_addLink,slot_setSlot_of_ne (Ne.symm hne) (by omega) (by omega)]
  · obtain ⟨t',hroom⟩ : ∃ t', t.makeRoom A t.size = .ok t' := by
      obtain ⟨⟨p,mem⟩,hret⟩ := Option.isSome_iff_exists.mp hsome
      rw [makeRoom_self ht,hret]
      exact ⟨_,rfl⟩
    obtain ⟨hsize,hnodes,hslots⟩ := makeRoom_next ht hA hroom
    have hret : t.sysDup2 A fd1 t.size =
        .ok (t.size,(t'.setSlot t.size (t'.slot fd1)).addLink
            ((t'.setSlot t.size (t'.slot fd1)).slot fd1)) := by
      rw [sysDup2_eq h1 hopen,hroom]
      rfl
    refine ⟨_,_,hret,?_,?_,fun i hi hne => ?_,fun i hlo hhi hne => ?_,?_⟩
    · change t.size < t'.size
      omega
    · rw [slot_addLink,slot_setSlot_self,hslots fd1 h1]
    · rw [slot_addLink,slot_setSlot_of_ne (Ne.symm hne) (by omega) (by omega),hslots i hi]
    · change i < t'.size at hhi
      omega
    · change t.size ≤ t'.size
      omega

/-- A call for a target beyond the size shrinks the table, or asks for so many slots that they
lie over each other. -/
theorem not_duplicates_of_gt (hsmall : t.size ≤ 2^29) (h1 : fd1 < t.size) (hopen : t.slot fd1 ≠ 0)
    (h2 : t.size < fd2) (hint : fd2 < 2^31) : ¬t.Duplicates A fd1 fd2 := by
  rintro ⟨r,t',hret,hin,-,hold,hnew,-⟩
  rw [sysDup2_eq h1 hopen] at hret
  have hsize : t'.size = enlargedSize t.size fd2 := by
    cases hroom : t.makeRoom A fd2 with
    | error e => simp [hroom,Except.map] at hret
    | ok t₁ =>
      rw [hroom] at hret
      have hsame : t₁.size = t'.size :=
        congrArg (fun r : ℕ × FdTable => r.2.size) (Except.ok.inj hret)
      exact hsame.symm.trans (makeRoom_size h2.le hroom)
  by_cases hwrap : fd2 ≤ 2*t.size+1
  · have hle : enlargedSize t.size fd2 ≤ t.size := by
      simp only [enlargedSize,W32]
      omega
    omega
  · have hhuge : 2^31+t.size < enlargedSize t.size fd2 := by
      simp only [enlargedSize,W32]
      omega
    -- one of the two slots at the address of `fd1` is new and not `fd2`
    have hkept := hold fd1 h1 (by omega)
    by_cases hfirst : fd1+2^30 = fd2
    · have hempty := hnew (fd1+2^30+2^30) (by omega) (by omega) (by omega)
      rw [slot_add,slot_add,hkept] at hempty
      exact hopen hempty
    · have hempty := hnew (fd1+2^30) (by omega) (by omega) hfirst
      rw [slot_add,hkept] at hempty
      exact hopen hempty

/-- For an open `fd1`, `sys_dup2` does what it is for exactly if the target lies in the table,
or right behind it and there is memory for one slot more. -/
theorem duplicates_iff (ht : t.Ok) (hA : A.Contract) (h1 : fd1 < t.size) (hopen : t.slot fd1 ≠ 0)
    (hint : fd2 < 2^31) :
    t.Duplicates A fd1 fd2 ↔
      fd2 < t.size ∨ (fd2 = t.size ∧ (A.realloc t.mem t.nodes t.bytes (4*(t.size+1))).isSome) := by
  refine ⟨fun h => ?_,duplicates_of_le ht hA h1 hopen⟩
  by_contra hc
  push Not at hc
  obtain ⟨hge,hnext⟩ := hc
  by_cases h2 : fd2 = t.size
  · obtain ⟨r,t',hret,-⟩ := h
    subst h2
    have hnone : A.realloc t.mem t.nodes t.bytes (4*(t.size+1)) = none := by simpa using hnext rfl
    rw [sysDup2_eq h1 hopen,makeRoom_self ht,hnone] at hret
    cases hret
  · exact not_duplicates_of_gt ht.small h1 hopen (by omega) hint h

/-- One descriptor, whose `fd_t` is at address 16. -/
def oneDescriptor : FdTable := ⟨fun a => if a = 0x10000 then 16 else 0,0x10000,1,4,fun _ => 1⟩

theorem duplicates_iff_next : oneDescriptor.Duplicates twoPlaces 0 1 :=
  (duplicates_iff ⟨by decide,by decide,by decide⟩ twoPlaces_contract (by decide) (by
    decide) (by decide)).mpr
    (.inr ⟨rfl,rfl⟩)

/-- For target 2 the table of one slot stays as it is, and the copy lands behind it. -/
theorem dup2_outside_table : ¬∀ (A : Allocator) (t : FdTable) (fd1 fd2 : ℕ), A.Contract →
    t.Ok → fd1 < t.size →
    t.slot fd1 ≠ 0 → fd2 < 2^31 → (A.realloc t.mem t.nodes t.bytes (4*(fd2+1))).isSome →
    t.Duplicates A fd1 fd2 := by
  intro h
  have hdup :=
    h twoPlaces oneDescriptor 0 2 twoPlaces_contract ⟨by decide,by decide,by decide⟩ (by
      decide) (by decide)
    (by decide) rfl
  exact not_duplicates_of_gt (by decide) (by decide) (by decide) (by decide) (by decide) hdup

end FdTable
end ScalesOS
