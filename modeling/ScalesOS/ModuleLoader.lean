import ScalesOS.Relocation
import ScalesOS.StackImage

/-!
# Loading kernel modules

`k_mod_elf_load_module` makes one pass over the section headers of a relocatable file in
memory: it gives memory to sections without contents, relocates, and looks for the module's
info and its functions. The tables of the file are given as what they hold, and no relocation
writes to them.
-/

namespace ScalesOS
namespace ModElf

open ByteMemory
open Ld (Addr Rel readWord writeWord)

/-- `sym_t` -/
structure Symbol where
  name : String
  mod : String
  addr : Addr
  deriving DecidableEq, Repr

def getSymbol (symbols : List Symbol) (name mod : String) : Addr :=
  match symbols.find? fun s => s.name = name ∧ s.mod = mod with
  | some s => s.addr
  | none => 0

/-- `Elf32_Sym`, with the name that `st_name` leads to. -/
structure Sym where
  nameOffset : BitVec 32
  name : String
  value : Addr
  info : BitVec 8
  shndx : BitVec 16
  deriving DecidableEq, Repr

def SHN_UNDEF : BitVec 16 := 0
def SHN_ABS : BitVec 16 := 0xfff1
def STB_WEAK : BitVec 8 := 2
def STT_FUNC : BitVec 8 := 2

/-- `ELF32_ST_BIND` -/
def Sym.binding (symbol : Sym) : BitVec 8 := symbol.info >>> 4

/-- `ELF32_ST_TYPE` -/
def Sym.type (symbol : Sym) : BitVec 8 := symbol.info &&& 0xf

inductive SectionType
  | nobits
  | rel
  | symtab
  | other
  deriving DecidableEq, Repr

def SHF_ALLOC : BitVec 32 := 2

/-- `Elf32_Shdr`, with the entries that the section holds as a symbol table or as a table of
relocations. -/
structure Section where
  type : SectionType
  flags : BitVec 32
  offset : Addr
  size : BitVec 32
  link : BitVec 32
  info : BitVec 32
  syms : List Sym
  rels : List Rel
  deriving DecidableEq

/-- `Elf32_Ehdr` -/
structure Ehdr where
  ident : Fin 16 → BitVec 8
  type : BitVec 16
  machine : BitVec 16
  version : BitVec 32
  shoff : BitVec 32
  shnum : BitVec 16

def ET_REL : BitVec 16 := 1

def Ehdr.check (hdr : Ehdr) : Bool :=
  hdr.ident 0 = 0x7f ∧ hdr.ident 1 = 0x45 ∧ hdr.ident 2 = 0x4c ∧ hdr.ident 3 = 0x46 ∧
    hdr.ident 4 = 1 ∧ hdr.ident 5 = 1 ∧ hdr.machine = 3 ∧ hdr.version = 1

/-- A file in memory. Behind the table of sections lies something that is read like one. -/
structure File where
  addr : Addr
  header : Ehdr
  sections : ℕ → Section

/-- What changes in the pass: the offsets in the section headers, the memory, the symbol table
of the kernel, and the variable `mod`. -/
structure State where
  offset : ℕ → Addr
  mem : Mem
  symbols : List Symbol
  mod : Addr

namespace File

variable (f : File) (s : State)

def getSymval (table idx : ℕ) : Addr :=
  if table = 0 ∨ idx = 0 then 0
  else match (f.sections table).syms[idx]? with
    | none => 0
    | some symbol =>
      -- 0 as well where the name is not found, whether the symbol is weak or not
      if symbol.shndx = SHN_UNDEF then getSymbol s.symbols symbol.name "kernel"
      else if symbol.shndx = SHN_ABS then symbol.value
      else f.addr+symbol.value+s.offset symbol.shndx.toNat

/-- `ELF32_R_TYPE` -/
def relType (rel : Rel) : BitVec 8 := rel.info.setWidth 8

def R_386_NONE : BitVec 8 := 0
def R_386_32 : BitVec 8 := 1
def R_386_PC32 : BitVec 8 := 2

/-- The `switch` over the type of a relocation. -/
def store (type : BitVec 8) (symval ref : Addr) (mem : Mem) : Option Mem :=
  if type = R_386_NONE then some mem
  else if type = R_386_32 then some (writeWord mem ref (symval+readWord mem ref))
  else if type = R_386_PC32 then some (writeWord mem ref (symval+readWord mem ref-ref))
  else none

def ref (reltab : Section) (rel : Rel) : Addr := f.addr+s.offset reltab.info.toNat+rel.offset

/-- `symval` in `k_mod_elf_relocate` -/
def symval (reltab : Section) (rel : Rel) : Addr :=
  if rel.sym ≠ 0 then f.getSymval s reltab.link.toNat rel.sym else 0

def relocate (reltab : Section) (rel : Rel) : Addr × State :=
  if rel.sym ≠ 0 ∧ f.symval s reltab rel = 0 then (0,s)
  else match store (relType rel) (f.symval s reltab rel) (f.ref s reltab rel) s.mem with
    | some mem => (f.symval s reltab rel,{ s with mem })
    | none => (0,s)

def relocateNext (reltab : Section) (rel : Rel) : Except State State :=
  if (f.relocate s reltab rel).1 = 0 then throw (f.relocate s reltab rel).2
  else pure (f.relocate s reltab rel).2

def getAddress (symbol : Sym) : Addr := f.addr+s.offset symbol.shndx.toNat+symbol.value

/-- `k_mod_symtable_define_symbol` -/
def define (name mod : String) (addr : Addr) : State :=
  { s with symbols := s.symbols++[⟨name,mod,addr⟩] }

def stringAt (mem : Mem) (a : Addr) : String :=
  String.ofList ((StackImage.Stack.cstring mem 0x100000000 a.toNat).map fun c => Char.ofNat c.toNat)

/-- `mod->name`, the first field of a `module_info_t`. -/
def infoName : String := stringAt s.mem (readWord s.mem s.mod)

def isInfo (symbol : Sym) : Bool := symbol.nameOffset ≠ 0 ∧ symbol.name = "__k_module_info"

def findInfo (syms : List Sym) : Addr :=
  if s.mod ≠ 0 then s.mod
  else match syms.find? isInfo with
    | some symbol => f.getAddress s symbol
    | none => 0

def fillNext (symbol : Sym) : State :=
  if symbol.type = STT_FUNC ∧ symbol.nameOffset ≠ 0 ∧ f.getAddress s symbol ≠ 0 then
    define s symbol.name (infoName s) (f.getAddress s symbol)
  else s

def symtabSection (syms : List Sym) : State :=
  let s := { s with mod := f.findInfo s syms }
  if s.mod ≠ 0 then syms.foldl f.fillNext s else s

/-- The section takes part in the image, and the file has no contents for it. -/
def Allocates (shdr : Section) : Prop :=
  shdr.type = .nobits ∧ shdr.size ≠ 0 ∧ shdr.flags &&& SHF_ALLOC ≠ 0

instance (shdr : Section) : Decidable (Allocates shdr) := inferInstanceAs (Decidable (_ ∧ _))

/-- `malloc` and `memset` for section `i`, whose offset leads to the memory from then on. -/
def nobitsSection (malloc : ℕ → Addr) (i : ℕ) : State :=
  if Allocates (f.sections i) then
    { s with
      offset := Function.update s.offset i (malloc i-f.addr)
      mem := fun x => if (malloc i).toNat ≤ x ∧ x < (malloc i).toNat+(f.sections i).size.toNat then
        0 else s.mem x }
  else s

/-- The body of the loop over the sections; `malloc i` is what it gets for section `i`. -/
def sectionNext (malloc : ℕ → Addr) (i : ℕ) : Except State State :=
  match (f.sections i).type with
  | .nobits => pure (f.nobitsSection s malloc i)
  | .rel => (f.sections i).rels.foldlM (fun s rel => f.relocateNext s (f.sections i) rel) s
  | .symtab => pure (f.symtabSection s (f.sections i).syms)
  | .other => pure s

/-- The first `n` sections. -/
def pass (malloc : ℕ → Addr) (n : ℕ) : Except State State :=
  (List.range n).foldlM (fun s i => f.sectionNext s malloc i) s

/-- The headers as they are in the file. -/
def start (mem : Mem) (symbols : List Symbol) : State where
  offset i := (f.sections i).offset
  mem := mem
  symbols := symbols
  mod := 0

/-- `k_mod_elf_load_module`. The first part of the result is what it returns. -/
def loadModule (malloc : ℕ → Addr) (mem : Mem) (symbols : List Symbol) : Addr × State :=
  let s := f.start mem symbols
  if f.header.check = false ∨ f.header.type ≠ ET_REL ∨ f.header.shoff = 0 then (0,s)
  else match f.pass s malloc f.header.shnum.toNat with
    | .error s => (0,s)
    | .ok s => (s.mod,if s.mod ≠ 0 then define s (infoName s) (infoName s) s.mod else s)

variable {f : File} {s t : State} {malloc : ℕ → Addr} {reltab : Section} {rel : Rel} {i n : ℕ}

@[simp] theorem pass_zero (f : File) (s : State) (malloc : ℕ → Addr) : f.pass s malloc 0 = .ok s :=
  rfl

theorem pass_succ (f : File) (s : State) (malloc : ℕ → Addr) (n : ℕ) :
    f.pass s malloc (n+1) = (f.pass s malloc n).bind fun t => f.sectionNext t malloc n := by
  rw [pass,List.range_succ,List.foldlM_append]
  congr 1
  funext t
  simp

theorem pass_succ_ok : f.pass s malloc (n+1) = .ok t ↔ ∃ u, f.pass s malloc n = .ok u ∧
    f.sectionNext u malloc n = .ok t := by
  rw [pass_succ]
  cases f.pass s malloc n with
  | error e => simp [Except.bind]
  | ok u => simp [Except.bind]

theorem pass_of_le (hret : f.pass s malloc n = .ok t) (hi : i ≤ n) :
    ∃ u, f.pass s malloc i = .ok u := by
  induction n generalizing t with
  | zero =>
    obtain rfl : i = 0 := by omega
    exact ⟨s,rfl⟩
  | succ n ih =>
    by_cases he : i = n+1
    · exact ⟨t,he ▸ hret⟩
    · obtain ⟨u,hu,-⟩ := pass_succ_ok.mp hret
      exact ih hu (by omega)

theorem relocateNext_ok (hret : f.relocateNext s reltab rel = .ok t) :
    (f.relocate s reltab rel).1 ≠ 0 ∧ (f.relocate s reltab rel).2 = t := by
  rw [relocateNext] at hret
  split at hret
  · cases hret
  · rename_i hne
    exact ⟨hne,Except.ok.inj hret⟩

theorem relocate_keeps (f : File) (s : State) (reltab : Section) (rel : Rel) :
    ∃ mem, (f.relocate s reltab rel).2 = { s with mem } := by
  rw [relocate]
  split
  · exact ⟨s.mem,rfl⟩
  · split
    · exact ⟨_,rfl⟩
    · exact ⟨s.mem,rfl⟩

theorem relocateAll_keeps {rels : List Rel}
    (hret : rels.foldlM (fun s rel => f.relocateNext s reltab rel) s = .ok t) :
    ∃ mem, t = { s with mem } := by
  induction rels generalizing s with
  | nil =>
    obtain rfl := Except.ok.inj hret
    exact ⟨s.mem,rfl⟩
  | cons rel rels ih =>
    rw [List.foldlM_cons] at hret
    cases h₁ : f.relocateNext s reltab rel with
    | error e => simp [h₁,bind,Except.bind] at hret
    | ok u =>
      simp only [h₁,bind,Except.bind] at hret
      obtain ⟨mem,hu⟩ := relocate_keeps f s reltab rel
      rw [(relocateNext_ok h₁).2] at hu
      subst hu
      obtain ⟨mem',rfl⟩ := ih hret
      exact ⟨mem',rfl⟩

/-- Defining the functions adds to the symbol table, under the name of the module. -/
theorem fill_keeps (syms : List Sym) (s : State) :
    ∃ added, syms.foldl f.fillNext s = { s with symbols := s.symbols++added } ∧ ∀ e ∈ added,
    e.mod = infoName s := by
  induction syms generalizing s with
  | nil => exact ⟨[],by simp,by simp⟩
  | cons symbol syms ih =>
    obtain ⟨added,hret,hadded⟩ := ih (f.fillNext s symbol)
    rw [List.foldl_cons,hret]
    rw [fillNext] at hadded ⊢
    split at hadded
    · rename_i hdef
      rw [if_pos hdef]
      refine ⟨⟨symbol.name,infoName s,f.getAddress s symbol⟩::added,by simp [define],fun e he => ?_⟩
      rcases List.mem_cons.mp he with rfl | he
      · rfl
      · exact hadded e he
    · rename_i hdef
      rw [if_neg hdef]
      exact ⟨added,rfl,hadded⟩

theorem symtabSection_keeps (f : File) (s : State) (syms : List Sym) :
    ∃ added, f.symtabSection s syms =
      { s with mod := f.findInfo s syms, symbols := s.symbols++added } ∧
      ∀ e ∈ added, f.findInfo s syms ≠ 0 ∧ e.mod = infoName (f.symtabSection s syms) := by
  rw [symtabSection]
  dsimp only
  split
  · rename_i hmod
    obtain ⟨added,hret,hadded⟩ := fill_keeps (f:=f) syms { s with mod := f.findInfo s syms }
    rw [hret]
    exact ⟨added,rfl,fun e he => ⟨hmod,hadded e he⟩⟩
  · exact ⟨[],by simp,by simp⟩

def Allocated (f : File) (k : ℕ) : Prop := k < f.header.shnum.toNat ∧ Allocates (f.sections k)

theorem sectionNext_offset (hret : f.sectionNext s malloc i = .ok t) :
    t.offset = if Allocates (f.sections i) then Function.update s.offset i (malloc i-f.addr)
    else s.offset := by
  rw [sectionNext] at hret
  split at hret
  · obtain rfl := Except.ok.inj hret
    rw [nobitsSection]
    split <;> rfl
  · rename_i htype
    obtain ⟨mem,rfl⟩ := relocateAll_keeps hret
    rw [if_neg (by simp [Allocates,htype])]
  · rename_i htype
    obtain rfl := Except.ok.inj hret
    obtain ⟨added,hkeeps,-⟩ := symtabSection_keeps f s (f.sections i).syms
    rw [hkeeps,if_neg (by simp [Allocates,htype])]
  · rename_i htype
    obtain rfl := Except.ok.inj hret
    rw [if_neg (by simp [Allocates,htype])]

/-- Before section `n`, the sections in front of it have their memory. -/
theorem pass_offset {mem : Mem} {symbols : List Symbol}
    (hret : f.pass (f.start mem symbols) malloc n = .ok t) (k : ℕ) :
    t.offset k = if k < n ∧ Allocates (f.sections k) then malloc k-f.addr
        else (f.sections k).offset := by
  induction n generalizing t with
  | zero =>
    obtain rfl := Except.ok.inj hret
    simp [start]
  | succ n ih =>
    obtain ⟨u,hu,hstep⟩ := pass_succ_ok.mp hret
    rw [sectionNext_offset hstep]
    by_cases hk : k = n
    · subst hk
      by_cases ha : Allocates (f.sections k)
      · simp [ha]
      · simp [ha,ih hu]
    · have hlt : k < n+1 ↔ k < n := by omega
      by_cases ha : Allocates (f.sections n) <;> simp [ha,hk,ih hu,hlt]

end File
end ModElf
end ScalesOS
