import ScalesOS.Mmap
import ScalesOS.Storage

/-!
# Mapped files

The pages of a file mapping come from the file when they are touched, and those of a shared
mapping go back to it: `k_mem_mmap_handle_pagefault` and `k_mem_mmap_sync_block` of
`kernel/src/mem/mmap.c`, with `sys_munmap` and with `sys_msync` without `MS_INVALIDATE`. A frame
for a page holds whatever was in it before.
-/

namespace ScalesOS
namespace MappedFiles

open ByteMemory Storage

/-- The address space of a process as it sees it, by page numbers, its open files with their
modes, and the regular files behind them. -/
structure Space where
  mapped : ℕ → Bool
  memory : Mem
  fdt : ℤ → Option (ℕ × ℕ)
  file : ℕ → File

/-- `k_fs_vfs_read`; `none` is an error. -/
def vfsRead (s : Space) (f : ℕ × ℕ) (offset size : ℕ) : Option (List (BitVec 8)) :=
  if f.2 &&& O_RDONLY = 0 then none else some ((s.file f.1).read offset size)

def vfsWrite (s : Space) (f : ℕ × ℕ) (offset : ℕ) (data : List (BitVec 8)) : Space :=
  if f.2 &&& O_WRONLY = 0 then s
  else { s with file := Function.update s.file f.1 ((s.file f.1).write offset data) }

/-- The end of a successful page fault; `frame` is what the new frame holds. -/
def fillPage (s : Space) (f : ℕ × ℕ) (page offset : ℕ) (frame : List (BitVec 8)) : Space :=
  let s := { s with mapped := Function.update s.mapped (page/0x1000) true
                    memory := store s.memory page frame }
  match vfsRead s f offset 0x1000 with
  | none => { s with memory := store s.memory page (List.replicate 0x1000 0) }
  | some [] => { s with memory := store s.memory page (List.replicate 0x1000 0) }
  | some data => { s with memory := store s.memory page data }

/-- `write` is the second bit of the error code. -/
def handlePagefault (info : MmapInfo) (frame : List (BitVec 8)) (address : ℕ) (write : Bool)
    (s : Space) : ℕ × Space :=
  match Vm.kMemMmapGetMapping info address with
  | none => (1,s)
  | some block =>
    if block.prot = PROT_NONE then (2,s)
    else if block.prot &&& PROT_READ = 0 ∧ write = false then (3,s)
    else if block.prot &&& PROT_WRITE = 0 ∧ write = true then (4,s)
    else if block.type &&& (MAP_PRIVATE ||| MAP_SHARED) = 0 then (5,s)
    else
      match s.fdt block.fd with
      | none => (6,s)
      | some f =>
        let page := address/0x1000*0x1000
        if s.mapped (page/0x1000) then (7,s)
        else
          let pageOffset := (page-block.start)/0x1000
          (0,fillPage s f page ((block.offset+pageOffset*0x1000)%W32) frame)

def syncPage (block : MmapBlock) (f : ℕ × ℕ) (s : Space) (i : ℕ) : Space :=
  if s.mapped ((block.start+i*0x1000)/0x1000) then
    vfsWrite s f ((block.offset+i*0x1000)%W32) (load s.memory (block.start+i*0x1000) 0x1000)
  else s

def syncBlock (block : MmapBlock) (s : Space) : Space :=
  if block.type &&& MAP_SHARED = 0 ∨ block.flags &&& MMAP_FLAG_SHM ≠ 0 then s
  else
    match s.fdt block.fd with
    | none => s
    | some f => (List.range (block.size/0x1000)).foldl (syncPage block f) s

/-- The pages that `k_mem_mmap_free_block` unmaps. -/
def freeBlock (block : MmapBlock) (s : Space) : Space :=
  { s with mapped := fun n => if block.start/0x1000 ≤ n ∧ n < block.start/0x1000+block.size/0x1000
    then false else s.mapped n }

/-- `sys_munmap` for an address of the block. -/
def munmap (block : MmapBlock) (s : Space) : Space := freeBlock block (syncBlock block s)

/-- Steps of a process with a block of which it is recorded what it has stored there: page faults
that succeed, stores to mapped pages, `msync` without `MS_INVALIDATE`, and writes to other files. -/
inductive Step (info : MmapInfo) (block : MmapBlock) (node : ℕ) :
    Space × (ℕ → Option (BitVec 8)) → Space × (ℕ → Option (BitVec 8)) → Prop
  | fault {s s' : Space} {written : ℕ →
      Option (BitVec 8)} {frame : List (BitVec 8)} {address : ℕ} {write : Bool} :
      frame.length = 0x1000 → handlePagefault info frame address write s = (0,s') →
        Step info block node (s,written) (s',written)
  | store {s : Space} {written : ℕ → Option (BitVec 8)} (address : ℕ) (b : BitVec 8) :
      s.mapped (address/0x1000) = true →
      Step info block node (s,written) ({ s with memory := Function.update s.memory address b },
        if block.start ≤ address ∧ address < block.start+block.size then
        Function.update written (address-block.start) (some b)
        else written)
  | msync {s : Space} {written : ℕ → Option (BitVec 8)} {b : MmapBlock} : b ∈ info.mmapBlocks →
      Step info block node (s,written) (syncBlock b s,written)
  | other {s : Space} {written : ℕ → Option (BitVec 8)} (n : ℕ) (f : File) : n ≠ node →
      Step info block node (s,written) ({ s with file := Function.update s.file n f },written)

/-- A block of pages over the file `node`, which no other block of the process shares. -/
structure Maps (info : MmapInfo) (block : MmapBlock) (node : ℕ) (s : Space) : Prop where
  mem : block ∈ info.mmapBlocks
  aligned : ∀ b ∈ info.mmapBlocks, b.start%0x1000 = 0 ∧ b.stop%0x1000 = 0
  stop : block.stop = block.start+block.size
  fits : block.offset+block.size ≤ W32
  fd : ∃ mode, s.fdt block.fd = some (node,mode) ∧ mode &&& O_RDONLY ≠ 0
  apart : ∀ b ∈ info.mmapBlocks, b ≠ block → b.stop ≤ block.start ∨ block.stop ≤ b.start
  own : ∀ b ∈ info.mmapBlocks, b ≠ block → b.type &&& MAP_SHARED ≠ 0 →
    ∀ f, s.fdt b.fd = some f → f.1 ≠ node

/-- The byte of the block that the process expects: the last one that it has stored there, or
that of the file. -/
def expected (block : MmapBlock) (f₀ : File) (written : ℕ → Option (BitVec 8)) (i : ℕ) :
    Option (BitVec 8) :=
  (written i).or (if block.offset+i < f₀.size then some (f₀.byte (block.offset+i)) else none)

/-- What is mapped is what the process expects, and what is not mapped is still in the file. -/
structure Faithful (block : MmapBlock) (node : ℕ) (f₀ : File) (s : Space)
    (written : ℕ → Option (BitVec 8)) : Prop where
  mapped : ∀ i < block.size, s.mapped (block.start/0x1000+i/0x1000) = true →
    ∀ b, expected block f₀ written i = some b → s.memory (block.start+i) = b
  unmapped : ∀ i < block.size, s.mapped (block.start/0x1000+i/0x1000) = false → written i = none
  size : f₀.size ≤ (s.file node).size
  file : ∀ q < f₀.size, (∀ i < block.size, q = block.offset+i →
    s.mapped (block.start/0x1000+i/0x1000) = false) → (s.file node).byte q = f₀.byte q

variable {info : MmapInfo} {block b : MmapBlock} {node address page offset : ℕ} {f : ℕ × ℕ}
    {f₀ : File} {s s' : Space}
  {written : ℕ → Option (BitVec 8)} {frame data : List (BitVec 8)} {write : Bool}

theorem file_read_byte {g : File} {j : ℕ} (hj : j < 0x1000) (hsize : offset+j < g.size) :
    (g.read offset 0x1000).getD j 0 = g.byte (offset+j) ∧ j < (g.read offset 0x1000).length := by
  have hlt : j < min 0x1000 (g.size-offset) := by omega
  have hlength : (g.read offset 0x1000).length = min 0x1000 (g.size-offset) := by
    simp [File.read,load]
  refine ⟨?_,by omega⟩
  rw [File.read,List.getD_eq_getElem?_getD,getElem?_load _ _ hlt,Option.getD_some]

theorem fillPage_eq (s : Space) (f : ℕ × ℕ) (page offset : ℕ) (frame : List (BitVec 8)) : ∃ data :
    List (BitVec 8), fillPage s f page offset frame = { s with
      mapped := Function.update s.mapped (page/0x1000) true, memory :=
        store (store s.memory page frame) page data } ∧
    data.length ≤ 0x1000 ∧ (f.2 &&& O_RDONLY ≠ 0 → ∀ j < 0x1000, offset+j < (s.file f.1).size →
      data.getD j 0 = (s.file f.1).byte (offset+j) ∧ j < data.length) := by
  by_cases hmode : f.2 &&& O_RDONLY = 0
  · refine ⟨List.replicate 0x1000 0,?_,List.length_replicate.le,fun h => absurd hmode h⟩
    simp only [fillPage,vfsRead,if_pos hmode]
  · cases hdata : (s.file f.1).read offset 0x1000 with
    | nil =>
      refine ⟨List.replicate 0x1000 0,?_,List.length_replicate.le,fun _ j hj hsize => ?_⟩
      · simp only [fillPage,vfsRead,if_neg hmode,hdata]
      · have hlt := (file_read_byte hj hsize).2
        rw [hdata] at hlt
        cases hlt
    | cons b data =>
      refine ⟨b :: data,?_,?_,fun _ j hj hsize => hdata ▸ file_read_byte hj hsize⟩
      · simp only [fillPage,vfsRead,if_neg hmode,hdata]
      · rw [← hdata,File.read,length_load]
        omega

/-- A new page has the bytes of the file, as far as that goes, and nothing else changes. -/
theorem fillPage_spec (s : Space) (f : ℕ × ℕ) (page offset : ℕ) (hframe : frame.length = 0x1000) :
    (fillPage s f page offset frame).mapped = Function.update s.mapped (page/0x1000) true ∧
    (fillPage s f page offset frame).fdt = s.fdt ∧ (fillPage s f page offset frame).file = s.file ∧
    (∀ x, x < page ∨ page+0x1000 ≤ x → (fillPage s f page offset frame).memory x = s.memory x) ∧
    (f.2 &&& O_RDONLY ≠ 0 → ∀ j < 0x1000, offset+j < (s.file f.1).size →
      (fillPage s f page offset frame).memory (page+j) = (s.file f.1).byte (offset+j)) := by
  obtain ⟨data,heq,hlength,hbytes⟩ := fillPage_eq s f page offset frame
  rw [heq]
  refine ⟨rfl,rfl,rfl,fun x hx => ?_,fun hmode j hj hsize => ?_⟩
  · simp only
    rw [store_outside _ (by omega),store_outside _ (by omega)]
  · obtain ⟨hbyte,hlt⟩ := hbytes hmode j hj hsize
    simp only
    rw [store_inside _ _ hlt,hbyte]

theorem handlePagefault_done (h : handlePagefault info frame address write s = (0,s')) :
    ∃ b f, b ∈ info.mmapBlocks ∧
    b.start ≤ address ∧ address < b.stop ∧ s.fdt b.fd = some f ∧ s.mapped (address/0x1000) = false ∧
    s' = fillPage s f (address/0x1000*0x1000)
    ((b.offset+(address/0x1000*0x1000-b.start)/0x1000*0x1000)%W32) frame := by
  rw [handlePagefault] at h
  split at h
  · cases h
  · rename_i b hb
    have hmem := List.mem_of_find?_eq_some hb
    have hin := List.find?_some hb
    simp only [Bool.and_eq_true,decide_eq_true_eq] at hin
    split at h
    · cases h
    · split at h
      · cases h
      · split at h
        · cases h
        · split at h
          · cases h
          · split at h
            · cases h
            · rename_i f hf
              simp only [Nat.mul_div_cancel _ (show 0 < 0x1000 by decide)] at h
              split at h
              case isTrue => cases h
              case isFalse hmapped =>
                exact ⟨b,f,hmem,hin.1,hin.2,hf,by simpa using hmapped,(Prod.mk.inj h).2.symm⟩

theorem expected_file {i : ℕ} {x : BitVec 8} (hnone : written i = none)
    (h : expected block f₀ written i = some x) :
    block.offset+i < f₀.size ∧ x = f₀.byte (block.offset+i) := by
  rw [expected,hnone,Option.none_or] at h
  split at h
  case isTrue hlt => exact ⟨hlt,(Option.some.inj h).symm⟩
  case isFalse => cases h

theorem Faithful.fault (h : Faithful block node f₀ s written) (hm : Maps info block node s)
    (hframe : frame.length = 0x1000)
    (hfault : handlePagefault info frame address write s = (0,s')) :
    Faithful block node f₀ s' written ∧ s'.fdt = s.fdt := by
  obtain ⟨b,f,hb,hlow,hhigh,hf,hnot,rfl⟩ := handlePagefault_done hfault
  obtain ⟨hmapped,hfdt,hfile,houtside,hinside⟩ := fillPage_spec s f (address/0x1000*0x1000)
    ((b.offset+(address/0x1000*0x1000-b.start)/0x1000*0x1000)%W32) hframe
  rw [Nat.mul_div_cancel _ (show 0 < 0x1000 by decide)] at hmapped
  obtain ⟨hstart,hstop⟩ := hm.aligned block hm.mem
  obtain ⟨hstart',hstop'⟩ := hm.aligned b hb
  have hsize := hm.stop
  have hfits := hm.fits
  refine ⟨⟨fun i hi hin x hx => ?_,fun i hi hin => ?_,?_,fun q hq hout => ?_⟩,hfdt⟩
  · by_cases hpage : address/0x1000 = block.start/0x1000+i/0x1000
    · -- the page is one of the block
      have hown : b = block := by
        by_contra hne
        rcases hm.apart b hb hne with hapart | hapart <;> omega
      subst hown
      obtain ⟨mode,hmode,hread⟩ := hm.fd
      obtain rfl : f = (node,mode) := Option.some.inj (hf.symm.trans hmode)
      obtain ⟨hlt,rfl⟩ := expected_file (h.unmapped i hi (hpage ▸ hnot)) hx
      have hoffset :
          (b.offset+(address/0x1000*0x1000-b.start)/0x1000*0x1000)%W32 =
          b.offset+i/0x1000*0x1000 := by
        rw [Nat.mod_eq_of_lt] <;> omega
      have hbyte := hinside hread (i%0x1000) (Nat.mod_lt i (by decide))
      rw [hoffset] at hbyte ⊢
      have hat : b.offset+i/0x1000*0x1000+i%0x1000 = b.offset+i := by omega
      have hat' : address/0x1000*0x1000+i%0x1000 = b.start+i := by omega
      rw [hat,hat'] at hbyte
      have hsize₀ := h.size
      rw [hbyte (by simp only; omega)]
      refine h.file _ hlt fun k hk heq => ?_
      obtain rfl : i = k := by omega
      exact hpage ▸ hnot
    · rw [hmapped,Function.update_of_ne (Ne.symm hpage)] at hin
      rw [houtside _ (by omega)]
      exact h.mapped i hi hin x hx
  · rw [hmapped] at hin
    by_cases hpage : address/0x1000 = block.start/0x1000+i/0x1000
    · rw [hpage,Function.update_self] at hin
      cases hin
    · rw [Function.update_of_ne (Ne.symm hpage)] at hin
      exact h.unmapped i hi hin
  · rw [hfile]
    exact h.size
  · rw [hfile]
    refine h.file q hq fun i hi heq => ?_
    have hnone := hout i hi heq
    rw [hmapped] at hnone
    by_cases hpage : address/0x1000 = block.start/0x1000+i/0x1000
    · rw [hpage,Function.update_self] at hnone
      cases hnone
    · rwa [Function.update_of_ne (Ne.symm hpage)] at hnone

theorem Faithful.store (h : Faithful block node f₀ s written)
    (hm : Maps info block node s) (b : BitVec 8)
    (hin : s.mapped (address/0x1000) = true) : Faithful block node f₀
    { s with memory := Function.update s.memory address b }
      (if block.start ≤ address ∧ address < block.start+block.size then
        Function.update written (address-block.start) (some b)
        else written) := by
  obtain ⟨hstart,-⟩ := hm.aligned block hm.mem
  refine ⟨fun i hi hmap x hx => ?_,fun i hi hmap => ?_,h.size,h.file⟩
  · by_cases hat : address = block.start+i
    · subst hat
      rw [if_pos (by omega),expected,Nat.add_sub_cancel_left,Function.update_self,
        Option.some_or] at hx
      simp only [Function.update_self]
      exact Option.some.inj hx
    · simp only [Function.update_of_ne (Ne.symm hat)]
      have hsame : (if block.start ≤ address ∧ address < block.start+block.size then
          Function.update written (address-block.start) (some b) else written) i = written i := by
        split
        · exact Function.update_of_ne (by omega) _ _
        · rfl
      rw [expected,hsame] at hx
      exact h.mapped i hi hmap x hx
  · split
    case isTrue hblock =>
      have hne : i ≠ address-block.start := by
        rintro rfl
        have hpage : block.start/0x1000+(address-block.start)/0x1000 = address/0x1000 := by omega
        rw [hpage,hin] at hmap
        cases hmap
      rw [Function.update_of_ne hne]
      exact h.unmapped i hi hmap
    case isFalse => exact h.unmapped i hi hmap

theorem syncPage_kept (s : Space) (b : MmapBlock) (f : ℕ × ℕ) (k : ℕ) :
    (syncPage b f s k).mapped = s.mapped ∧ (syncPage b f s k).memory = s.memory ∧
    (syncPage b f s k).fdt = s.fdt ∧ ∀ n, n ≠ f.1 → (syncPage b f s k).file n = s.file n := by
  rw [syncPage]
  split
  · rw [vfsWrite]
    split
    · exact ⟨rfl,rfl,rfl,fun _ _ => rfl⟩
    · exact ⟨rfl,rfl,rfl,fun n hn => Function.update_of_ne hn _ _⟩
  · exact ⟨rfl,rfl,rfl,fun _ _ => rfl⟩

theorem syncPages_kept (b : MmapBlock) (f : ℕ × ℕ) (ks : List ℕ) (s : Space) :
    (ks.foldl (syncPage b f) s).mapped = s.mapped ∧ (ks.foldl (syncPage b f) s).memory = s.memory ∧
      (ks.foldl (syncPage b f) s).fdt = s.fdt ∧ ∀ n, n ≠ f.1 →
      (ks.foldl (syncPage b f) s).file n = s.file n := by
  induction ks generalizing s with
  | nil => exact ⟨rfl,rfl,rfl,fun _ _ => rfl⟩
  | cons k ks ih =>
    obtain ⟨h₁,h₂,h₃,h₄⟩ := ih (syncPage b f s k)
    obtain ⟨k₁,k₂,k₃,k₄⟩ := syncPage_kept s b f k
    exact ⟨h₁.trans k₁,h₂.trans k₂,h₃.trans k₃,fun n hn => (h₄ n hn).trans (k₄ n hn)⟩

theorem syncBlock_kept (b : MmapBlock) (s : Space) :
    (syncBlock b s).mapped = s.mapped ∧ (syncBlock b s).memory = s.memory ∧
    (syncBlock b s).fdt = s.fdt := by
  rw [syncBlock]
  split
  · exact ⟨rfl,rfl,rfl⟩
  · split
    · exact ⟨rfl,rfl,rfl⟩
    · obtain ⟨h₁,h₂,h₃,-⟩ := syncPages_kept b _ (List.range (b.size/0x1000)) s
      exact ⟨h₁,h₂,h₃⟩

theorem syncPage_file {mode k : ℕ} (hm : Maps info block node s) (hwrite : mode &&& O_WRONLY ≠ 0)
    (hk : k < block.size/0x1000) :
    (s.file node).size ≤ ((syncPage block (node,mode) s k).file node).size ∧
    (∀ q, (∀ i < block.size, q = block.offset+i → i/0x1000 = k →
      s.mapped (block.start/0x1000+k) = false) →
      ((syncPage block (node,mode) s k).file node).byte q = (s.file node).byte q) ∧
    (s.mapped (block.start/0x1000+k) = true → ∀ i, i/0x1000 = k →
      ((syncPage block (node,mode) s k).file node).byte (block.offset+i) =
      s.memory (block.start+i) ∧
        block.offset+i < ((syncPage block (node,mode) s k).file node).size) := by
  obtain ⟨hstart,-⟩ := hm.aligned block hm.mem
  have hfits := hm.fits
  have hpage : (block.start+k*0x1000)/0x1000 = block.start/0x1000+k := by omega
  have hoffset : (block.offset+k*0x1000)%W32 = block.offset+k*0x1000 := Nat.mod_eq_of_lt (by omega)
  by_cases hmapped : s.mapped (block.start/0x1000+k) = true
  · have heq : (syncPage block (node,mode) s k).file node =
        (s.file node).write (block.offset+k*0x1000)
        (load s.memory (block.start+k*0x1000) 0x1000) := by
      rw [syncPage,hpage,if_pos hmapped,vfsWrite,if_neg hwrite,hoffset]
      exact Function.update_self _ _ _
    rw [heq]
    refine ⟨le_max_left _ _,fun q hq => store_outside _ ?_,fun _ i hi => ⟨?_,?_⟩⟩
    · rw [length_load]
      by_contra hin
      have hcontra := hq (q-block.offset) (by omega) (by omega) (by omega)
      rw [hmapped] at hcontra
      cases hcontra
    · have hin := store_inside (s.file node).byte (block.offset+k*0x1000)
        (by rw [length_load]; omega : i%0x1000 < (load s.memory
          (block.start+k*0x1000) 0x1000).length)
      rw [getD_load _ _ (Nat.mod_lt i (by decide))] at hin
      have hat : block.offset+k*0x1000+i%0x1000 = block.offset+i := by omega
      have hat' : block.start+k*0x1000+i%0x1000 = block.start+i := by omega
      rwa [hat,hat'] at hin
    · refine lt_of_lt_of_le ?_ (le_max_right _ _)
      rw [length_load]
      omega
  · have heq : syncPage block (node,mode) s k = s := by
      rw [syncPage,hpage,if_neg hmapped]
    rw [heq]
    exact ⟨le_rfl,fun _ _ => rfl,fun h => absurd h hmapped⟩

theorem Maps.syncPage {mode k : ℕ} (hm : Maps info block node s) :
    Maps info block node (syncPage block (node,mode) s k) := by
  obtain ⟨-,-,hfdt,-⟩ := syncPage_kept s block (node,mode) k
  exact ⟨hm.mem,hm.aligned,hm.stop,hm.fits,by rw [hfdt]; exact hm.fd,hm.apart,
    by rw [hfdt]; exact hm.own⟩

/-- After some pages have been written back, these pages of the file are what is in memory, and the
others are as they were. -/
theorem syncPages_file {mode : ℕ} (hwrite : mode &&& O_WRONLY ≠ 0) (ks : List ℕ) (s : Space)
    (hm : Maps info block node s) (hks : ∀ k ∈ ks, k < block.size/0x1000) :
    (s.file node).size ≤ ((ks.foldl (MappedFiles.syncPage block (node,mode)) s).file node).size ∧
    (∀ q, (∀ i < block.size, q = block.offset+i → s.mapped (block.start/0x1000+i/0x1000) = false) →
      ((ks.foldl (MappedFiles.syncPage block (node,mode)) s).file node).byte q =
      (s.file node).byte q) ∧
    ∀ i, (i/0x1000 ∈ ks ∨ (s.file node).byte (block.offset+i) = s.memory (block.start+i) ∧
      block.offset+i < (s.file node).size) → s.mapped (block.start/0x1000+i/0x1000) = true →
      ((ks.foldl (MappedFiles.syncPage block (node,mode)) s).file node).byte (block.offset+i) =
      s.memory (block.start+i) ∧
        block.offset+i < ((ks.foldl (MappedFiles.syncPage block (node,mode)) s).file
          node).size := by
  induction ks generalizing s with
  | nil => exact ⟨le_rfl,fun _ _ => rfl,fun i hi _ => hi.resolve_left List.not_mem_nil⟩
  | cons k ks ih =>
    obtain ⟨hmapped,hmemory,-,-⟩ := syncPage_kept s block (node,mode) k
    obtain ⟨hsize,hother,hpage⟩ := syncPage_file hm hwrite (hks k List.mem_cons_self)
    obtain ⟨hsize',hother',hpage'⟩ := ih (MappedFiles.syncPage block (node,mode) s k) hm.syncPage
      fun k' hk' => hks k' (List.mem_cons_of_mem k hk')
    rw [List.foldl_cons]
    rw [hmapped] at hother' hpage'
    rw [hmemory] at hpage'
    refine ⟨hsize.trans hsize',fun q hq => (hother' q hq).trans (hother q fun i hi heq hik =>
      hik ▸ hq i hi heq),fun i hi hin => ?_⟩
    refine hpage' i ?_ hin
    by_cases hik : i/0x1000 = k
    · exact .inr (hpage (hik ▸ hin) i hik)
    · rcases hi with hi | ⟨hbyte,hlt⟩
      · exact .inl ((List.mem_cons.mp hi).resolve_left hik)
      · refine .inr ⟨(hother _ fun j _ heq hjk => ?_).trans hbyte,hlt.trans_le hsize⟩
        obtain rfl : i = j := by omega
        exact absurd hjk hik

/-- A block that is written back through its descriptor. -/
structure WritesBack (block : MmapBlock) (s : Space) : Prop where
  shared : block.type &&& MAP_SHARED ≠ 0
  regular : block.flags &&& MMAP_FLAG_SHM = 0
  mode : ∀ f, s.fdt block.fd = some f → f.2 &&& O_WRONLY ≠ 0

theorem syncBlock_eq (h : WritesBack block s) (hf : s.fdt block.fd = some f) :
    syncBlock block s = (List.range (block.size/0x1000)).foldl (syncPage block f) s := by
  rw [syncBlock,if_neg (by simp [h.shared,h.regular]),hf]

/-- Without that, and for other blocks, nothing happens to the file. -/
theorem syncBlock_other (hm : Maps info block node s) (hb : b ∈ info.mmapBlocks)
    (hother : b ≠ block ∨ ¬WritesBack block s) : (syncBlock b s).file node = s.file node := by
  rw [syncBlock]
  split
  case isTrue => rfl
  case isFalse hshared =>
    obtain ⟨hshared,hregular⟩ := not_or.mp hshared
    split
    · rfl
    · rename_i f hf
      by_cases hblock : b = block
      · subst hblock
        have hmode : f.2 &&& O_WRONLY = 0 := by
          by_contra hmode
          refine (hother.resolve_left (not_not.mpr rfl)) ⟨hshared,by simpa using hregular,
            fun f' hf' => ?_⟩
          rwa [← Option.some.inj (hf.symm.trans hf')]
        have hpages : ∀ (ks : List ℕ) (t : Space), (ks.foldl (syncPage b f) t).file = t.file := by
          intro ks
          induction ks with
          | nil => exact fun _ => rfl
          | cons k ks ih =>
            intro t
            rw [List.foldl_cons,ih,syncPage,vfsWrite,if_pos hmode]
            split <;> rfl
        rw [hpages]
      · exact (syncPages_kept b f _ s).2.2.2 node (Ne.symm (hm.own b hb hblock hshared f hf))

theorem Faithful.sync (h : Faithful block node f₀ s written) (hm : Maps info block node s)
    (hb : b ∈ info.mmapBlocks) :
    Faithful block node f₀ (syncBlock b s) written := by
  obtain ⟨hmapped,hmemory,-⟩ := syncBlock_kept b s
  by_cases hback : b = block ∧ WritesBack block s
  · obtain ⟨rfl,hback⟩ := hback
    obtain ⟨mode,hf,-⟩ := hm.fd
    obtain ⟨hsize,hother,-⟩ :=
      syncPages_file (hback.mode _ hf) (List.range (b.size/0x1000)) s hm fun k hk =>
        List.mem_range.mp hk
    rw [← syncBlock_eq hback hf] at hsize hother
    refine ⟨by rw [hmapped,hmemory]; exact h.mapped,by rw [hmapped]; exact h.unmapped,
      h.size.trans hsize,fun q hq hout => ?_⟩
    rw [hmapped] at hout
    rw [hother q hout]
    exact h.file q hq hout
  · have hfile := syncBlock_other hm hb (by
      by_cases hblock : b = block
      · exact .inr fun hw => hback ⟨hblock,hw⟩
      · exact .inl hblock)
    exact ⟨by rw [hmapped,hmemory]; exact h.mapped,by rw [hmapped]; exact h.unmapped,
      by rw [hfile]; exact h.size,by rw [hfile,hmapped]; exact h.file⟩

theorem Maps.congr (hm : Maps info block node s) (hfdt : s'.fdt = s.fdt) :
    Maps info block node s' :=
  ⟨hm.mem,hm.aligned,hm.stop,hm.fits,by rw [hfdt]; exact hm.fd,hm.apart,by rw [hfdt]; exact hm.own⟩

variable {x y z : Space × (ℕ → Option (BitVec 8))}

theorem Step.faithful (hstep : Step info block node x y) (hm : Maps info block node x.1)
    (h : Faithful block node f₀ x.1 x.2) :
    Maps info block node y.1 ∧ Faithful block node f₀ y.1 y.2 := by
  cases hstep with
  | fault hframe hfault =>
    obtain ⟨hfaithful,hfdt⟩ := h.fault hm hframe hfault
    exact ⟨hm.congr hfdt,hfaithful⟩
  | store address b hin => exact ⟨hm.congr rfl,h.store hm b hin⟩
  | msync hb => exact ⟨hm.congr (syncBlock_kept _ _).2.2,h.sync hm hb⟩
  | @other s _ n f hn =>
    have hfile : Function.update s.file n f node = s.file node :=
      Function.update_of_ne (Ne.symm hn) _ _
    exact ⟨hm.congr rfl,⟨h.mapped,h.unmapped,by simp only [hfile]; exact h.size,
      by simp only [hfile]; exact h.file⟩⟩

theorem WritesBack.congr (hfdt : s'.fdt = s.fdt) : WritesBack block s' ↔ WritesBack block s := by
  constructor <;> rintro ⟨hshared,hregular,hmode⟩
  · exact ⟨hshared,hregular,fun f hf => hmode f (by rwa [hfdt])⟩
  · exact ⟨hshared,hregular,fun f hf => hmode f (by rwa [← hfdt])⟩

/-- The descriptors stay, and so does the file if the block is not written back. -/
theorem Step.kept (hstep : Step info block node x y) (hm : Maps info block node x.1) :
    y.1.fdt = x.1.fdt ∧ (¬WritesBack block x.1 → y.1.file node = x.1.file node) := by
  cases hstep with
  | @fault s _ _ frame address _ hframe hfault =>
    obtain ⟨b,f,-,-,-,-,-,rfl⟩ := handlePagefault_done hfault
    obtain ⟨-,hfdt,hfile,-⟩ := fillPage_spec s f (address/0x1000*0x1000)
      ((b.offset+(address/0x1000*0x1000-b.start)/0x1000*0x1000)%W32) hframe
    exact ⟨hfdt,fun _ => congrFun hfile node⟩
  | store => exact ⟨rfl,fun _ => rfl⟩
  | msync hb => exact ⟨(syncBlock_kept _ _).2.2,fun hback => syncBlock_other hm hb (.inr hback)⟩
  | other n f hn => exact ⟨rfl,fun _ => Function.update_of_ne (Ne.symm hn) _ _⟩

/-- What `munmap` leaves in the file of a block that is written back. -/
theorem Faithful.munmap (h : Faithful block node f₀ s written) (hm : Maps info block node s)
    (hback : WritesBack block s) :
    (∀ i < block.size, ∀ b, expected block f₀ written i = some b →
      ((munmap block s).file node).byte (block.offset+i) = b ∧
      block.offset+i < ((munmap block s).file node).size) ∧
    ∀ q < f₀.size, (q < block.offset ∨ block.offset+block.size ≤ q) →
    ((munmap block s).file node).byte q = f₀.byte q := by
  obtain ⟨mode,hf,-⟩ := hm.fd
  have hsync := h.sync hm hm.mem
  obtain ⟨hmapped,-,-⟩ := syncBlock_kept block s
  have hpages : ∀ i < block.size, s.mapped (block.start/0x1000+i/0x1000) = true →
      ((syncBlock block s).file node).byte (block.offset+i) = s.memory (block.start+i) ∧
        block.offset+i < ((syncBlock block s).file node).size := by
    intro i hi hin
    obtain ⟨hstart,hstop⟩ := hm.aligned block hm.mem
    have hsize := hm.stop
    obtain ⟨-,-,hpage⟩ :=
      syncPages_file (hback.mode _ hf) (List.range (block.size/0x1000)) s hm fun k hk =>
        List.mem_range.mp hk
    rw [← syncBlock_eq hback hf] at hpage
    exact hpage i (.inl (List.mem_range.mpr (by omega))) hin
  refine ⟨fun i hi b hb => ?_,fun q hq hout => hsync.file q hq fun i hi heq => by omega⟩
  change ((syncBlock block s).file node).byte (block.offset+i) = b ∧
    block.offset+i < ((syncBlock block s).file node).size
  cases hin : s.mapped (block.start/0x1000+i/0x1000) with
  | true =>
    obtain ⟨hbyte,hlt⟩ := hpages i hi hin
    exact ⟨hbyte.trans (h.mapped i hi hin b hb),hlt⟩
  | false =>
    -- the page was never touched
    obtain ⟨hlt,rfl⟩ := expected_file (h.unmapped i hi hin) hb
    refine ⟨hsync.file _ hlt fun j hj heq => ?_,hlt.trans_le hsync.size⟩
    obtain rfl : i = j := by omega
    rwa [hmapped]

def pageBlock : MmapBlock := ⟨0x1000,0x2000,0x1000,0,3,PROT_READ ||| PROT_WRITE,MAP_SHARED,0⟩

end MappedFiles
end ScalesOS
