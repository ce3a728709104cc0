import ScalesOS.FreshPages
import ScalesOS.ModuleLoader
import ScalesOS.PmmInit
import ScalesOS.SharedMapping

/-!
# The segments of an executable

`k_util_exec_elf` of `util/exec.c` up to the point where the program is in memory. The copy of the
kernel's directory is already current, and the old address space is gone. The bytes themselves are
left out: clearing and copying only need their pages. A dynamic executable is handed to its
interpreter, which is executed in its place.
-/

namespace ScalesOS
namespace ElfImage

open Vm Entry

inductive SegmentType
  | load
  | dynamic
  | interp
  | other
  deriving DecidableEq, Repr

/-- `Elf32_Phdr` without `p_offset`: the headers and the bytes of the segments lie in the file. -/
structure Phdr where
  type : SegmentType
  vaddr : ℕ
  filesz : ℕ
  memsz : ℕ
  deriving DecidableEq, Repr

/-- A file that could be opened, what a read of all of it has returned, and its headers. -/
structure Executable where
  size : ℕ
  read : ℕ
  header : ModElf.Ehdr
  entry : ℕ
  phdrs : List Phdr

def ET_EXEC : BitVec 16 := 2
def ENOENT : ℤ := 2
def EIO : ℤ := 5
def ENOEXEC : ℤ := 8
def USER_HEAP_INITIAL_SIZE : ℕ := 4*1024

def accessible (s : Vm) (vaddr : ℕ) : Bool :=
  present (s.pde (PDE vaddr)) &&
    (large (s.pde (PDE vaddr)) || present (s.pte (PDE vaddr) (PTE vaddr)))

/-- `memset` and `memcpy` store byte by byte. A page fault of the kernel ends in a panic, whose text
goes on with the error code and the directory. -/
def touch (s : Vm) (dest n : ℕ) : Result Unit :=
  match (List.range n).find? fun i => !accessible s ((dest+i)%W32) with
  | some i => throw (.panic ("Page fault at 0x" ++ fmtX8 ((dest+i)%W32)))
  | none => pure ()

def loadSegment (phdr : Phdr) (s : Vm) : Result Vm := do
  let s ← s.kMemPagingMapRegion (phdr.vaddr &&& 0xFFFFF000) 0 (phdr.memsz/0x1000+1) 7 false
  touch s phdr.vaddr phdr.memsz
  touch s phdr.vaddr phdr.filesz
  pure s

/-- The loop itself, with `executable_end`. -/
def loadSegments : List Phdr → ℕ → Vm → Result (ℕ × Vm)
  | [], executableEnd, s => pure (executableEnd,s)
  | phdr::phdrs, executableEnd, s =>
    if phdr.type = .load then do
      let s ← loadSegment phdr s
      let segmentEnd := (phdr.vaddr+phdr.memsz)%W32
      loadSegments phdrs (if executableEnd < segmentEnd then segmentEnd else executableEnd) s
    else loadSegments phdrs executableEnd s

structure Image where
  userStack : ℕ
  heap : ℕ
  heapSize : ℕ
  mmapStart : ℕ
  entry : ℕ
  deriving DecidableEq, Repr

/-- `executable_end` behind the loop, where the heap begins. -/
def heapStart (executableEnd : ℕ) : ℕ := (Pmm.ALIGN executableEnd 0x1000+0x1000)%W32

def USER_PAGE : ℕ := PAGE_PRESENT ||| PAGE_WRITABLE ||| PAGE_USER

def loadImage (file : Executable) (s : Vm) : Result (Image × Vm) := do
  let (executableEnd,s) ← loadSegments file.phdrs 0 s
  let heap := heapStart executableEnd
  let s ← s.kMemPagingMapRegion USER_STACK_END 0 (USER_STACK_SIZE/0x1000) USER_PAGE false
  let mmapStart := if (heap+USER_HEAP_INITIAL_SIZE)%W32 < USER_MMAP_START then USER_MMAP_START
    else (heap+USER_HEAP_INITIAL_SIZE)%W32
  let s ← s.kMemPagingMapRegion heap 0 (USER_HEAP_INITIAL_SIZE/0x1000) USER_PAGE false
  pure (⟨USER_STACK_START,heap,USER_HEAP_INITIAL_SIZE,mmapStart,file.entry⟩,s)

inductive Outcome
  | error (code : ℤ)
  | interpreter
  | entered (image : Image) (s : Vm)

def kUtilExecElf (node : Option Executable) (s : Vm) : Result Outcome :=
  match node with
  | none => pure (.error (-ENOENT))
  | some file =>
    if file.read ≠ file.size then pure (.error (- EIO))
    else if ¬file.header.check ∨ file.header.type ≠ ET_EXEC then pure (.error (-ENOEXEC))
    else if file.phdrs.any fun phdr => phdr.type = .dynamic then pure .interpreter
    else do
      let (image,s) ← loadImage file s
      pure (.entered image s)

/-- The bytes from `p_vaddr` on that a segment takes. In a well-formed file they are `p_memsz`. -/
def Phdr.size (seg : Phdr) : ℕ := max seg.memsz seg.filesz

/-- The user area ends where the stack of the program begins. -/
def Phdr.InUserArea (seg : Phdr) : Prop :=
  seg.vaddr < USER_STACK_START ∧ seg.vaddr+seg.size ≤ USER_STACK_START

instance (seg : Phdr) : Decidable seg.InUserArea := inferInstanceAs (Decidable (_ ∧ _))

def Phdr.Touches (seg : Phdr) (n : ℕ) : Prop := ∃ i < seg.size, (seg.vaddr+i)/0x1000 = n

/-- The pages that are mapped for a segment. -/
def Phdr.pages (seg : Phdr) : Finset ℕ :=
  .Ico (seg.vaddr/0x1000) (seg.vaddr/0x1000+(seg.memsz/0x1000+1))

def segmentsOf (phdrs : List Phdr) : List Phdr := phdrs.filter fun phdr => phdr.type = .load

def Executable.segments (file : Executable) : List Phdr := segmentsOf file.phdrs

/-- A file that is loaded without an interpreter. -/
def Executable.Static (file : Executable) : Prop :=
  file.read = file.size ∧ file.header.check = true ∧ file.header.type = ET_EXEC ∧
    ∀ phdr ∈ file.phdrs, phdr.type ≠ .dynamic

instance (file : Executable) : Decidable file.Static := inferInstanceAs (Decidable (_ ∧ _))

def endOf (segs : List Phdr) : ℕ := (segs.map fun seg => seg.vaddr+seg.memsz).foldr max 0

def stackPages : Finset ℕ := .Ico (USER_STACK_END/0x1000) (USER_STACK_START/0x1000)

def heapPages (segs : List Phdr) : Finset ℕ := {endOf segs/0x1000+2}

def Executable.ranges (file : Executable) : List (Finset ℕ) :=
  file.segments.map Phdr.pages++[stackPages,heapPages file.segments]

/-- Every page that a segment touches is mapped for it or for an earlier one, or has been mapped all
along. -/
def Covered (s : Vm) (M : Finset ℕ) : List Phdr → Prop
  | [] => True
  | seg::segs => (∀ n, seg.Touches n → s.lookup s.directory n ≠ none ∨ n ∈ M ∪ seg.pages) ∧
      Covered s (M ∪ seg.pages) segs

/-- The pages that are mapped for the segments, the stack and the heap are different ones and not
yet mapped, they cover what is touched, and there are frames for them and for their tables. -/
structure Loadable (s : Vm) (file : Executable) : Prop where
  apart : file.ranges.Pairwise Disjoint
  unmapped : ∀ n ∈ pagesOf file.ranges, s.lookup s.directory n = none
  covered : Covered s ∅ file.segments
  enough : s.cost (pagesOf file.ranges) ≤ s.pmm.frames.card

variable {s t t' : Vm} {M : Finset ℕ} {seg : Phdr} {segs phdrs : List Phdr} {file : Executable}

theorem and_page_mask {v : ℕ} (hv : v < W32) : v &&& 0xFFFFF000 = v/0x1000*0x1000 := by
  have hhigh : v/0x1000 &&& 0xFFFFF = v/0x1000 := by
    rw [Nat.and_two_pow_sub_one_eq_mod _ 20]
    exact Nat.mod_eq_of_lt (by simp only [W32] at hv; omega)
  have hshift : v &&& 0xFFFFF000 = (v/2^12 &&& 0xFFFFF)*2^12 := by
    apply Nat.eq_of_testBit_eq
    intro i
    have hmask : (0xFFFFF000 : ℕ) = 0xFFFFF*2^12 := by decide
    rw [hmask,Nat.testBit_and,Nat.testBit_mul_two_pow,Nat.testBit_mul_two_pow,Nat.testBit_and,
      Nat.testBit_div_two_pow]
    by_cases hi : 12 ≤ i
    · simp [hi]
    · simp [hi]
  rw [hshift]
  exact congrArg (·*0x1000) hhigh

theorem accessible_iff (hs : s.Paged) {v : ℕ} (hv : v < VIRTUAL_BASE) : accessible s v = true ↔
    s.lookup s.directory (v/0x1000) ≠ none := by
  have hslot : PDE v < KERNEL_PD := by
    simp only [VIRTUAL_BASE] at hv
    rw [PDE,KERNEL_PD]
    omega
  have hd := hs.windowsOk.dirOk
  rw [accessible]
  by_cases hp : present (s.pde (PDE v)) = true
  · have ht := hs.isTable (.inl hslot) hp
    rw [hp,hs.user_small _ hslot hp,Bool.true_and,Bool.false_or]
    exact hd.pte_iff ht
  · have hpage : v/0x1000 < 1023*1024 := by simp only [VIRTUAL_BASE] at hv; omega
    have hindex : v/0x1000/1024 = PDE v := by rw [PDE]; omega
    have hnone := lookup_of_not_table hpage fun ht : s.IsTable s.directory _ => hp (hindex ▸ ht.2.1)
    rw [Bool.eq_false_of_not_eq_true hp,hnone]
    simp

theorem touch_iff (s : Vm) (dest n : ℕ) : touch s dest n = .ok () ↔
    ∀ i < n, accessible s ((dest+i)%W32) = true := by
  rw [touch]
  split
  · rename_i i hfind
    have hfound := List.find?_some hfind
    refine iff_of_false (fun h => by cases h) fun hall => ?_
    rw [hall i (List.mem_range.mp (List.mem_of_find?_eq_some hfind))] at hfound
    cases hfound
  · rename_i hfind
    refine iff_of_true rfl fun i hi => ?_
    have hnot := List.find?_eq_none.mp hfind i (List.mem_range.mpr hi)
    simpa using hnot

/-- The bytes of one page are all accessible with its first one. -/
theorem touch_page {page n : ℕ} (hpage : page%0x1000 = 0) (hn : n ≤ 0x1000)
    (hend : page+0x1000 ≤ W32) (hfirst : accessible s page = true) : touch s page n = .ok () := by
  refine (touch_iff s page n).mpr fun i hi => ?_
  rw [Nat.mod_eq_of_lt (by omega)]
  have hpde : PDE (page+i) = PDE page := by
    simp only [PDE]
    omega
  have hpte : PTE (page+i) = PTE page := by
    simp only [PTE]
    omega
  rwa [accessible,hpde,hpte]

theorem touches_iff (hs : t.Paged) (harea : seg.InUserArea) :
    (touch t seg.vaddr seg.memsz = .ok () ∧ touch t seg.vaddr seg.filesz = .ok ()) ↔
      ∀ n, seg.Touches n → t.lookup t.directory n ≠ none := by
  have hbase : USER_STACK_START < VIRTUAL_BASE := by decide
  have hmax : VIRTUAL_BASE < W32 := by decide
  have hend := harea.2
  have haddr : ∀ i < seg.size, (seg.vaddr+i)%W32 = seg.vaddr+i := fun i hi =>
    Nat.mod_eq_of_lt (by omega)
  have hbyte : ∀ i < seg.size, accessible t ((seg.vaddr+i)%W32) = true ↔
      t.lookup t.directory ((seg.vaddr+i)/0x1000) ≠ none := by
    intro i hi
    rw [haddr i hi]
    exact accessible_iff hs (by omega)
  rw [touch_iff,touch_iff]
  constructor
  · rintro ⟨hclear,hcopy⟩ n ⟨i,hi,rfl⟩
    exact (hbyte i hi).mp ((lt_max_iff.mp hi).elim (hclear i) (hcopy i))
  · intro hall
    have hmapped : ∀ i < seg.size, accessible t ((seg.vaddr+i)%W32) = true := fun i hi =>
      (hbyte i hi).mpr (hall _ ⟨i,hi,rfl⟩)
    exact ⟨fun i hi => hmapped i (lt_max_of_lt_left hi),fun i hi =>
      hmapped i (lt_max_of_lt_right hi)⟩

theorem page_lt (harea : seg.InUserArea) {n : ℕ} (h : seg.Touches n) : n < 1023*1024 := by
  have hbase : USER_STACK_START = 0xBFFFF000 := rfl
  obtain ⟨i,hi,rfl⟩ := h
  have hend := harea.2
  omega

/-- The pages of a segment get frames, and then it is cleared and copied. -/
theorem loadSegment_iff (h : s.Backed t M) (harea : seg.InUserArea) :
    ((∃ t', loadSegment seg t = .ok t') ↔
      s.Mappable M seg.pages ∧ ∀ n, seg.Touches n → s.lookup s.directory n ≠ none ∨
      n ∈ M ∪ seg.pages) ∧ ∀ t', loadSegment seg t = .ok t' → s.Backed t' (M ∪ seg.pages) := by
  have hbase : USER_STACK_START = 0xBFFFF000 := rfl
  have htop : VIRTUAL_BASE = 0xC0000000 := rfl
  have hsize : seg.memsz ≤ seg.size := le_max_left _ _
  obtain ⟨hstart,hend⟩ := harea
  have hmask := and_page_mask (show seg.vaddr < W32 by simp only [W32]; omega)
  have hpage : seg.vaddr/0x1000*0x1000/0x1000 = seg.vaddr/0x1000 := Nat.mul_div_cancel _ (by decide)
  have hodd : mapFlags 7%2 = 1 := rfl
  obtain ⟨hiff,hbacked⟩ :=
    h.mapScattered hodd (seg.memsz/0x1000+1) (i:=0) (v:=seg.vaddr/0x1000*0x1000) (by omega)
  rw [hpage] at hiff hbacked
  have hcovered : ∀ t₁, s.Backed t₁ (M ∪ seg.pages) →
    ((touch t₁ seg.vaddr seg.memsz = .ok () ∧ touch t₁ seg.vaddr seg.filesz = .ok ()) ↔
      ∀ n, seg.Touches n → s.lookup s.directory n ≠ none ∨ n ∈ M ∪ seg.pages) := by
    intro t₁ h₁
    rw [touches_iff h₁.ready.paged ⟨hstart,hend⟩]
    refine forall_congr' fun n => imp_congr_right fun hn => ?_
    rw [← not_iff_not,not_not,h₁.lookup_iff (page_lt ⟨hstart,hend⟩ hn),not_or,not_not]
  have hload :
      loadSegment seg t = mapScattered 0 7 (seg.memsz/0x1000+1) 0 (seg.vaddr/0x1000*0x1000) t >>=
          fun t₁ =>
      touch t₁ seg.vaddr seg.memsz >>= fun _ =>
          touch t₁ seg.vaddr seg.filesz >>= fun _ => pure t₁ := by
    rw [loadSegment,hmask]
    rfl
  rw [hload]
  refine ⟨⟨?_,?_⟩,fun t' h' => ?_⟩
  · rintro ⟨t',h'⟩
    obtain ⟨t₁,h₁,h'⟩ := Result.bind_eq_ok.mp h'
    obtain ⟨_,hclear,h'⟩ := Result.bind_eq_ok.mp h'
    obtain ⟨_,hcopy,h'⟩ := Result.bind_eq_ok.mp h'
    exact ⟨hiff.mp ⟨t₁,h₁⟩,(hcovered t₁ (hbacked t₁ h₁)).mp ⟨hclear,hcopy⟩⟩
  · rintro ⟨hmappable,hall⟩
    obtain ⟨t₁,h₁⟩ := hiff.mpr hmappable
    obtain ⟨hclear,hcopy⟩ := (hcovered t₁ (hbacked t₁ h₁)).mpr hall
    exact ⟨t₁,Result.bind_eq_ok.mpr ⟨t₁,h₁,
      Result.bind_eq_ok.mpr ⟨(),hclear,Result.bind_eq_ok.mpr ⟨(),hcopy,rfl⟩⟩⟩⟩
  · obtain ⟨t₁,h₁,h'⟩ := Result.bind_eq_ok.mp h'
    obtain ⟨-,-,h'⟩ := Result.bind_eq_ok.mp h'
    obtain ⟨-,-,h'⟩ := Result.bind_eq_ok.mp h'
    obtain rfl := Except.ok.inj h'
    exact hbacked t₁ h₁

/-- Its own pages cover a segment unless its offset in the first page takes it over the end of the
last one. -/
theorem pages_cover_iff (seg : Phdr) :
    (∀ n, seg.Touches n → n ∈ seg.pages) ↔
    seg.vaddr%0x1000+seg.size ≤ (seg.memsz/0x1000+1)*0x1000 := by
  constructor
  · intro hall
    by_cases hempty : seg.size = 0
    · omega
    · have hlast := (Finset.mem_Ico.mp (hall _ ⟨seg.size-1,by omega,rfl⟩)).2
      omega
  · rintro hfits n ⟨i,hi,rfl⟩
    exact Finset.mem_Ico.mpr ⟨by omega,by omega⟩

theorem covered_of_own (h : ∀ seg ∈ segs,
    seg.vaddr%0x1000+seg.size ≤ (seg.memsz/0x1000+1)*0x1000) : Covered s M segs := by
  induction segs generalizing M with
  | nil => trivial
  | cons seg segs ih =>
    obtain ⟨hfirst,hlater⟩ := List.forall_mem_cons.mp h
    exact ⟨fun n hn => .inr (Finset.mem_union_right _ ((pages_cover_iff seg).mpr hfirst n hn)),
      ih hlater⟩

theorem segmentsOf_cons (phdr : Phdr) (phdrs : List Phdr) :
    segmentsOf (phdr::phdrs) = if phdr.type = .load then phdr::segmentsOf phdrs
    else segmentsOf phdrs := by
  rw [segmentsOf,List.filter_cons]
  split <;> simp_all [segmentsOf]

theorem loadSegments_iff (phdrs : List Phdr) : ∀ {e : ℕ} {t : Vm} {M : Finset ℕ}, s.Backed t M →
    (∀ seg ∈ segmentsOf phdrs, seg.InUserArea) →
      ((∃ r, loadSegments phdrs e t = .ok r) ↔ MapAll s M ((segmentsOf phdrs).map Phdr.pages) ∧
        Covered s M (segmentsOf phdrs)) ∧ ∀ r, loadSegments phdrs e t = .ok r →
          s.Backed r.2 (M ∪ pagesOf ((segmentsOf phdrs).map Phdr.pages)) ∧
          r.1 = max e (endOf (segmentsOf phdrs)) := by
  induction phdrs with
  | nil =>
    intro e t M h _
    refine ⟨iff_of_true ⟨_,rfl⟩ ⟨trivial,trivial⟩,fun r hr => ?_⟩
    obtain rfl := Except.ok.inj hr
    exact ⟨(Finset.union_empty M).symm ▸ h,(Nat.max_zero e).symm⟩
  | cons phdr phdrs ih =>
    intro e t M h harea
    rw [loadSegments]
    by_cases hload : phdr.type = .load
    · rw [segmentsOf_cons,if_pos hload] at harea ⊢
      rw [if_pos hload]
      obtain ⟨hfirst,hlater⟩ := List.forall_mem_cons.mp harea
      have hend := hfirst.2
      have hbase : USER_STACK_START < W32 := by decide
      have hsize : phdr.memsz ≤ phdr.size := le_max_left _ _
      have hword : (phdr.vaddr+phdr.memsz)%W32 = phdr.vaddr+phdr.memsz :=
        Nat.mod_eq_of_lt (by omega)
      have hmax : ∀ a : ℕ, (if e < a then a else e) = max e a := fun a => by split <;> omega
      obtain ⟨hiff,hbacked⟩ := loadSegment_iff h hfirst
      dsimp only
      rw [hword,hmax,List.map_cons,MapAll,Covered]
      refine ⟨⟨?_,?_⟩,fun r hr => ?_⟩
      · rintro ⟨r,hr⟩
        obtain ⟨t₁,h₁,hr⟩ := Result.bind_eq_ok.mp hr
        obtain ⟨hmappable,hall⟩ := hiff.mp ⟨t₁,h₁⟩
        obtain ⟨hmapAll,hcovered⟩ := (ih (hbacked t₁ h₁) hlater).1.mp ⟨r,hr⟩
        exact ⟨⟨hmappable,hmapAll⟩,hall,hcovered⟩
      · rintro ⟨⟨hmappable,hmapAll⟩,hall,hcovered⟩
        obtain ⟨t₁,h₁⟩ := hiff.mpr ⟨hmappable,hall⟩
        obtain ⟨r,hr⟩ := (ih (hbacked t₁ h₁) hlater).1.mpr ⟨hmapAll,hcovered⟩
        exact ⟨r,Result.bind_eq_ok.mpr ⟨t₁,h₁,hr⟩⟩
      · obtain ⟨t₁,h₁,hr⟩ := Result.bind_eq_ok.mp hr
        obtain ⟨hrest,hmaxEnd⟩ := (ih (hbacked t₁ h₁) hlater).2 r hr
        rw [Finset.union_assoc] at hrest
        exact ⟨hrest,hmaxEnd.trans (max_assoc _ _ _)⟩
    · rw [segmentsOf_cons,if_neg hload] at harea ⊢
      rw [if_neg hload]
      exact ih h harea

theorem covered_mem (hcovered : Covered s M segs) (hseg : seg ∈ segs) {n : ℕ} (hn : seg.Touches n) :
    s.lookup s.directory n ≠ none ∨ n ∈ M ∪ pagesOf (segs.map Phdr.pages) := by
  induction segs generalizing M with
  | nil => cases hseg
  | cons first segs ih =>
    obtain ⟨hfirst,hlater⟩ := hcovered
    rw [List.map_cons,pagesOf,List.foldr_cons,← Finset.union_assoc]
    rcases List.mem_cons.mp hseg with rfl | hseg
    · exact (hfirst n hn).imp_right fun hin => Finset.mem_union_left _ hin
    · exact ih hlater hseg

theorem endOf_eq (segs : List Phdr) : endOf segs = 0 ∨ ∃ seg ∈ segs,
    endOf segs = seg.vaddr+seg.memsz := by
  induction segs with
  | nil => exact .inl rfl
  | cons seg segs ih =>
    have hcons : endOf (seg::segs) = max (seg.vaddr+seg.memsz) (endOf segs) := rfl
    rcases max_choice (seg.vaddr+seg.memsz) (endOf segs) with h | h
    · exact .inr ⟨seg,List.mem_cons_self,hcons.trans h⟩
    · rw [hcons,h]
      exact ih.imp_right fun ⟨seg',hmem,heq⟩ => ⟨seg',List.mem_cons_of_mem _ hmem,heq⟩

/-- Segments that stay clear of the stack end so far below it that the heap has a user page. -/
theorem heap_page_lt (harea : ∀ seg ∈ segs, seg.InUserArea) (hcovered : Covered s ∅ segs)
    (hstack : s.Mappable (pagesOf (segs.map Phdr.pages)) stackPages) :
    endOf segs/0x1000+2 < 0xC0000 := by
  have htop : USER_STACK_START = 0xBFFFF000 := rfl
  rcases endOf_eq segs with hzero | ⟨seg,hseg,heq⟩
  · omega
  by_contra hhigh
  obtain ⟨hstart,hend⟩ := harea seg hseg
  have hsize : seg.memsz ≤ seg.size := le_max_left _ _
  -- the last page of the segment is a page of the stack
  have hout : ∀ n, 0xBFFFD ≤ n → n < 0xBFFFF → n ∈ stackPages := fun n h1 h2 =>
    Finset.mem_Ico.mpr ⟨(show USER_STACK_END/0x1000 ≤ 0xBFFFD by decide).trans h1,h2⟩
  have hapart : ∀ n ∈ stackPages, n ∉ pagesOf (segs.map Phdr.pages) := fun n hn hin =>
    Finset.disjoint_left.mp hstack.disjoint hin hn
  by_cases hempty : seg.memsz = 0
  · have hin : seg.vaddr/0x1000 ∈ seg.pages := Finset.mem_Ico.mpr ⟨le_rfl,by omega⟩
    exact hapart _ (hout _ (by omega) (by omega))
      (mem_pagesOf.mpr ⟨seg.pages,List.mem_map_of_mem hseg,hin⟩)
  · have hlast : seg.Touches ((seg.vaddr+(seg.memsz-1))/0x1000) := ⟨seg.memsz-1,by omega,rfl⟩
    have hpage := hout ((seg.vaddr+(seg.memsz-1))/0x1000) (by omega) (by omega)
    rcases covered_mem hcovered hseg hlast with hmapped | hin
    · exact hmapped (hstack.unmapped _ hpage)
    · rw [Finset.empty_union] at hin
      exact hapart _ hpage hin

theorem heapStart_eq {e : ℕ} (he : e/0x1000+2 < 0xC0000) : heapStart e = (e/0x1000+2)*0x1000 := by
  rw [heapStart,Pmm.ALIGN,Nat.mod_eq_of_lt (by simp only [W32]; omega)]
  omega

theorem loadable_iff (s : Vm) (file : Executable) : Loadable s file ↔
    MapAll s ∅ file.ranges ∧ Covered s ∅ file.segments := by
  rw [mapAll_iff (show s.cost ∅ ≤ s.pmm.frames.card by simp [cost])]
  constructor
  · rintro ⟨hapart,hunmapped,hcovered,henough⟩
    exact ⟨⟨hapart,Finset.disjoint_empty_left _,hunmapped,
      (Finset.empty_union (pagesOf file.ranges)).symm ▸ henough⟩,hcovered⟩
  · rintro ⟨⟨hapart,hmappable⟩,hcovered⟩
    exact ⟨hapart,hmappable.unmapped,hcovered,Finset.empty_union (pagesOf file.ranges) ▸
      hmappable.enough⟩

theorem loadImage_iff (hs : s.Ready) (harea : ∀ seg ∈ file.segments, seg.InUserArea) :
    (∃ r, loadImage file s = .ok r) ↔ Loadable s file := by
  have hodd : mapFlags USER_PAGE%2 = 1 := rfl
  have hone : USER_HEAP_INITIAL_SIZE/0x1000 = 1 := by decide
  have hstackRange :
    Finset.Ico (USER_STACK_END/0x1000) (USER_STACK_END/0x1000+USER_STACK_SIZE/0x1000) =
      stackPages := rfl
  obtain ⟨hiff,hbacked⟩ := loadSegments_iff file.phdrs hs.backed harea (e:=0)
  rw [loadable_iff,Executable.ranges,mapAll_append,MapAll,MapAll,MapAll,and_true]
  have hstack : ∀ t, s.Backed t (∅ ∪ pagesOf (file.segments.map Phdr.pages)) →
      ((∃ t', t.kMemPagingMapRegion USER_STACK_END 0 (USER_STACK_SIZE/0x1000) USER_PAGE false =
        .ok t') ↔
        s.Mappable (∅ ∪ pagesOf (file.segments.map Phdr.pages)) stackPages) ∧
      ∀ t', t.kMemPagingMapRegion USER_STACK_END 0 (USER_STACK_SIZE/0x1000) USER_PAGE false =
      .ok t' → s.Backed t' (∅ ∪ pagesOf (file.segments.map Phdr.pages) ∪ stackPages) := by
    intro t ht
    obtain ⟨h1,h2⟩ :=
      ht.mapScattered hodd (USER_STACK_SIZE/0x1000) (i:=0) (v:=USER_STACK_END) (by decide)
    rw [hstackRange] at h1 h2
    exact ⟨h1,h2⟩
  have hheap : ∀ t, s.Backed t (∅ ∪ pagesOf (file.segments.map Phdr.pages) ∪ stackPages) →
    endOf file.segments/0x1000+2 < 0xC0000 →
      ((∃ t', t.kMemPagingMapRegion (heapStart (endOf file.segments)) 0
        (USER_HEAP_INITIAL_SIZE/0x1000) USER_PAGE false = .ok t') ↔
        s.Mappable (∅ ∪ pagesOf (file.segments.map Phdr.pages) ∪
          stackPages) (heapPages file.segments)) := by
    intro t ht hlow
    rw [heapStart_eq hlow,hone]
    have hpage :=
      (ht.mapScattered hodd 1 (i:=0) (v:=(endOf file.segments/0x1000+2)*0x1000) (by
        simp only [VIRTUAL_BASE]; omega)).1
    rw [Nat.mul_div_cancel _ (by decide : 0 < 0x1000),Nat.Ico_succ_singleton] at hpage
    exact hpage
  constructor
  · rintro ⟨r,hr⟩
    obtain ⟨⟨e,t⟩,hsegments,hr⟩ := Result.bind_eq_ok.mp hr
    obtain ⟨t₂,hstack₂,hr⟩ := Result.bind_eq_ok.mp hr
    obtain ⟨t₃,hheap₃,-⟩ := Result.bind_eq_ok.mp hr
    obtain ⟨hmapAll,hcovered⟩ := hiff.mp ⟨_,hsegments⟩
    obtain ⟨hfill,hend⟩ := hbacked _ hsegments
    obtain rfl : e = endOf file.segments := hend.trans (Nat.zero_max _)
    have hmappable := (hstack t hfill).1.mp ⟨t₂,hstack₂⟩
    have hlow := heap_page_lt harea hcovered (Finset.empty_union (pagesOf _) ▸ hmappable)
    exact ⟨⟨hmapAll,hmappable,(hheap t₂ ((hstack t hfill).2 t₂ hstack₂) hlow).mp ⟨t₃,hheap₃⟩⟩,
      hcovered⟩
  · rintro ⟨⟨hmapAll,hmappable,hlast⟩,hcovered⟩
    obtain ⟨⟨e,t⟩,hsegments⟩ := hiff.mpr ⟨hmapAll,hcovered⟩
    obtain ⟨hfill,hend⟩ := hbacked _ hsegments
    obtain rfl : e = endOf file.segments := hend.trans (Nat.zero_max _)
    obtain ⟨t₂,hstack₂⟩ := (hstack t hfill).1.mpr hmappable
    have hlow := heap_page_lt harea hcovered (Finset.empty_union (pagesOf _) ▸ hmappable)
    obtain ⟨t₃,hheap₃⟩ := (hheap t₂ ((hstack t hfill).2 t₂ hstack₂) hlow).mpr hlast
    exact ⟨_,Result.bind_eq_ok.mpr ⟨_,hsegments,
      Result.bind_eq_ok.mpr ⟨t₂,hstack₂,Result.bind_eq_ok.mpr ⟨t₃,hheap₃,rfl⟩⟩⟩⟩

theorem kUtilExecElf_iff (file : Executable) (s : Vm) :
    (∃ r, kUtilExecElf (some file) s = .ok r) ↔ (file.Static → ∃ r, loadImage file s = .ok r) := by
  rw [kUtilExecElf]
  split_ifs with hread hcheck hdynamic
  · exact iff_of_true ⟨_,rfl⟩ fun h => absurd h.1 hread
  · exact iff_of_true ⟨_,rfl⟩ fun h => (hcheck.elim (· h.2.1) (· h.2.2.1)).elim
  · refine iff_of_true ⟨_,rfl⟩ fun h => ?_
    obtain ⟨phdr,hmem,htype⟩ := List.any_eq_true.mp hdynamic
    exact absurd (of_decide_eq_true htype) (h.2.2.2 phdr hmem)
  · obtain ⟨hhead,htype⟩ := not_or.mp hcheck
    have hstatic : file.Static := by
      refine ⟨not_not.mp hread,not_not.mp hhead,not_not.mp htype,fun phdr hmem hdyn => hdynamic ?_⟩
      exact List.any_eq_true.mpr ⟨phdr,hmem,decide_eq_true hdyn⟩
    rw [forall_prop_of_true hstatic]
    constructor
    · rintro ⟨r,hr⟩
      obtain ⟨image,himage,-⟩ := Result.bind_eq_ok.mp hr
      exact ⟨image,himage⟩
    · rintro ⟨image,himage⟩
      exact ⟨_,Result.bind_eq_ok.mpr ⟨image,himage,rfl⟩⟩

def staticFile (phdrs : List Phdr) : Executable where
  size := 0x2000
  read := 0x2000
  header := ⟨![0x7f,0x45,0x4c,0x46,1,1,1,0,0,0,0,0,0,0,0,0],ET_EXEC,3,1,0,0⟩
  entry := 0x8048000
  phdrs := phdrs

theorem kernelMachine_ready : kernelMachine.Ready where
  paged := kernelMachine_paged
  sound := by
    refine ⟨fun k hk => ?_,kernelMachine_used (by decide),by decide⟩
    by_contra hlow
    have hindex : kernelMachine.pmm.firstFreeIndex = 0x80 := rfl
    exact kernelMachine_used (show k < 0x1000 by omega) hk

theorem kernelMachine_lookup {n : ℕ} (hn : n < 0xC0000) :
    kernelMachine.lookup kernelMachine.directory n = none := by
  refine lookup_of_not_table (by omega) fun ht => ?_
  have hslot := (kernelMachine_isTable.mp ht).1
  have hhalf : KERNEL_PD = 768 := rfl
  omega

theorem kernelMachine_frames : 0x1000 ≤ kernelMachine.pmm.frames.card := by
  have hsub : Finset.Ico 0x1000 0x2000 ⊆ kernelMachine.pmm.frames := fun k hk => by
    obtain ⟨h1,h2⟩ := Finset.mem_Ico.mp hk
    have hword : kernelMachine.pmm.bitmap (k/32) = BitVec.allOnes 32 := if_neg (by omega)
    refine Pmm.mem_frames.mpr ⟨by omega,show k/32 < 0x400 by omega,?_⟩
    rw [BitArray.bit,hword,BitVec.getLsbD_allOnes]
    exact decide_eq_true (Nat.mod_lt _ (by decide))
  have hcard := Finset.card_le_card hsub
  rwa [Nat.card_Ico] at hcard

/-- The call returns, with the program in memory or with an error, exactly if the file is not loaded
at all or the pages that it asks for can be mapped and cover its segments. -/
theorem kUtilExecElf_returns_iff (hs : s.Ready) (harea : ∀ seg ∈ file.segments, seg.InUserArea) :
    (∃ r, kUtilExecElf (some file) s = .ok r) ↔ (file.Static → Loadable s file) := by
  rw [kUtilExecElf_iff,loadImage_iff hs harea]

theorem kUtilExecElf_returns_program : ∃ r,
    kUtilExecElf (some (staticFile [⟨.load,0x8048000,0x1200,0x1200⟩,
      ⟨.load,0x804b000,0x100,0x300⟩])) kernelMachine = .ok r := by
  refine (kUtilExecElf_returns_iff kernelMachine_ready (by decide +kernel)).mpr fun _ =>
    ⟨by decide +kernel,?_,covered_of_own ?_,?_⟩
  · have hlow :
        ∀ n ∈ pagesOf (staticFile [⟨.load,0x8048000,0x1200,0x1200⟩,
            ⟨.load,0x804b000,0x100,0x300⟩]).ranges, n < 0xC0000 := by
      decide +kernel
    exact fun n hn => kernelMachine_lookup (hlow n hn)
  · decide +kernel
  · exact (cost_le _ _).trans (le_trans (by decide +kernel) kernelMachine_frames)

/-- Bytes of the two segments are apart. -/
def Phdr.Apart (a b : Phdr) : Prop := a.vaddr+a.memsz ≤ b.vaddr ∨ b.vaddr+b.memsz ≤ a.vaddr

instance : DecidableRel Phdr.Apart := fun _ _ => inferInstanceAs (Decidable (_ ∨ _))

def faultOf {α : Type} : Result α → Option Fault
  | .error e => some e
  | .ok _ => none

theorem faultOf_eq_some {α : Type} {r : Result α} {e : Fault} :
    faultOf r = some e ↔ r = .error e := by
  cases r <;> simp [faultOf]

/-- Eight bytes over the end of a page get one page. A page of bytes gets two, the second of which
belongs to the neighbour. -/
theorem segments_panic :
    faultOf (kUtilExecElf (some (staticFile [⟨.load,0x8048ffc,8,8⟩])) kernelMachine) =
    some (.panic "Page fault at 0x08049000") ∧
    faultOf (kUtilExecElf (some (staticFile [⟨.load,0x8048000,0x1000,0x1000⟩,
      ⟨.load,0x8049000,0x100,0x100⟩])) kernelMachine) =
      some (.panic "Remapping 0x08049000") := by
  constructor
  · decide +kernel
  · have hrun : ((kernelMachine.kMemPagingMapRegion 0x8048000 0 2 7 false).toOption.any fun t =>
        accessible t 0x8048000 && decide (faultOf (loadSegment ⟨.load,0x8049000,0x100,0x100⟩ t) =
          some (.panic "Remapping 0x08049000"))) = true := by
      decide +kernel
    obtain ⟨t,hmap,h⟩ := (Option.any_eq_true _ _).mp hrun
    obtain ⟨hfirst,hremap⟩ := Bool.and_eq_true_iff.mp h
    have htouch : touch t 0x8048000 0x1000 = .ok () :=
      touch_page (by decide) le_rfl (by decide) hfirst
    have hfirstLoad : loadSegment ⟨.load,0x8048000,0x1000,0x1000⟩ kernelMachine = .ok t := by
      refine Result.bind_eq_ok.mpr ⟨t,Result.eq_ok_of_toOption hmap,?_⟩
      exact Result.bind_eq_ok.mpr ⟨(),htouch,Result.bind_eq_ok.mpr ⟨(),htouch,rfl⟩⟩
    have hsegments : loadSegments [⟨.load,0x8048000,0x1000,0x1000⟩,⟨.load,0x8049000,0x100,0x100⟩]
        0 kernelMachine = .error (.panic "Remapping 0x08049000") := by
      rw [loadSegments,if_pos rfl,hfirstLoad]
      change loadSegments _ _ t = _
      rw [loadSegments,if_pos rfl,faultOf_eq_some.mp (of_decide_eq_true hremap)]
      rfl
    rw [faultOf_eq_some]
    change (loadSegments [_,_] 0 kernelMachine >>= _) >>= _ = _
    rw [hsegments]
    rfl

theorem segments_not_loaded : ¬∀ (s : Vm) (file : Executable), s.Ready → file.Static →
    (∀ seg ∈ file.segments, seg.InUserArea ∧ seg.filesz ≤ seg.memsz) →
    file.segments.Pairwise Phdr.Apart → s.cost (pagesOf file.ranges) ≤ s.pmm.frames.card →
      ∃ r, kUtilExecElf (some file) s = .ok r := by
  intro h
  obtain ⟨r,hr⟩ :=
    h kernelMachine (staticFile [⟨.load,0x8048ffc,8,8⟩]) kernelMachine_ready (by
      decide +kernel) (by decide +kernel)
    (by decide +kernel) ((cost_le _ _).trans (le_trans (by decide +kernel) kernelMachine_frames))
  have hpanic := segments_panic.1
  rw [hr] at hpanic
  cases hpanic

end ElfImage
end ScalesOS
