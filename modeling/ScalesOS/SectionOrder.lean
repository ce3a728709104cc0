import ScalesOS.ModuleLoader

/-!
# The order of sections in a kernel module

The loader allocates memory and relocates in one pass. A relocation against a symbol in a
section without contents uses that section's memory only if the section has been passed.
-/

namespace ScalesOS
namespace ModElf
namespace File

open ByteMemory
open Ld (Addr Rel)

variable {f : File} {malloc : ℕ → Addr} {mem : Mem} {symbols : List Symbol} {i : ℕ}
    {rel : Rel} {symbol : Sym}
  {s : State}

/-- A relocation of section `i` refers to a symbol that the file defines. -/
structure Against (f : File) (i : ℕ) (rel : Rel) (symbol : Sym) : Prop where
  lt : i < f.header.shnum.toNat
  type : (f.sections i).type = .rel
  mem : rel ∈ (f.sections i).rels
  table : (f.sections i).link.toNat ≠ 0
  sym : rel.sym ≠ 0
  entry : (f.sections (f.sections i).link.toNat).syms[rel.sym]? = some symbol
  defined : symbol.shndx ≠ SHN_UNDEF
  relative : symbol.shndx ≠ SHN_ABS

/-- The state in which the pass gets to a relocation of section `i`. -/
def AppliedIn (f : File) (malloc : ℕ → Addr) (mem : Mem) (symbols : List Symbol) (i : ℕ)
    (rel : Rel) (s : State) : Prop :=
  ∃ u before after, f.pass (f.start mem symbols) malloc i = .ok u ∧
    (f.sections i).rels = before++rel::after ∧
    before.foldlM (fun s rel => f.relocateNext s (f.sections i) rel) u = .ok s

/-- The address of a symbol in the image: in the memory of its section, or in the file. -/
def imageAddress (f : File) (malloc : ℕ → Addr) (symbol : Sym) : Addr :=
  if symbol.shndx.toNat < f.header.shnum.toNat ∧ Allocates (f.sections symbol.shndx.toNat) then
    malloc symbol.shndx.toNat+symbol.value
  else f.addr+symbol.value+(f.sections symbol.shndx.toNat).offset

theorem memory_address (a v m : Addr) : a+v+(m-a) = m+v := by
  bv_omega

theorem pass_of_load (hload : (f.loadModule malloc mem symbols).1 ≠ 0) :
    ∃ t, f.pass (f.start mem symbols) malloc f.header.shnum.toNat = .ok t ∧
      (f.loadModule malloc mem symbols).2.offset = t.offset := by
  rw [loadModule] at hload ⊢
  split at hload
  · exact absurd rfl hload
  · rename_i haccept
    rw [if_neg haccept]
    cases hpass : f.pass (f.start mem symbols) malloc f.header.shnum.toNat with
    | error e => simp [hpass] at hload
    | ok t =>
      refine ⟨t,rfl,?_⟩
      dsimp only
      split <;> rfl

theorem imageAddress_eq (hload : (f.loadModule malloc mem symbols).1 ≠ 0) (symbol : Sym) :
    f.addr+symbol.value+(f.loadModule malloc mem symbols).2.offset symbol.shndx.toNat =
    f.imageAddress malloc symbol := by
  obtain ⟨t,hpass,hoffset⟩ := pass_of_load hload
  rw [hoffset,pass_offset hpass,imageAddress]
  split
  · exact memory_address _ _ _
  · rfl

theorem relocations_reached (hload : (f.loadModule malloc mem symbols).1 ≠ 0)
    (h : f.Against i rel symbol) :
    ∃ s, f.AppliedIn malloc mem symbols i rel s := by
  obtain ⟨t,hpass,-⟩ := pass_of_load hload
  obtain ⟨v,hv⟩ := pass_of_le hpass (Nat.succ_le_of_lt h.lt)
  obtain ⟨u,hu,hstep⟩ := pass_succ_ok.mp hv
  obtain ⟨before,after,hrels⟩ := List.append_of_mem h.mem
  have hfold :
      (f.sections i).rels.foldlM (fun s rel => f.relocateNext s (f.sections i) rel) u = .ok v := by
    rw [sectionNext] at hstep
    simpa only [h.type] using hstep
  rw [hrels,List.foldlM_append] at hfold
  cases hbefore : before.foldlM (fun s rel => f.relocateNext s (f.sections i) rel) u with
  | error e => simp [hbefore,bind,Except.bind] at hfold
  | ok s => exact ⟨s,u,before,after,hu,hrels,hbefore⟩

theorem symval_eq (h : f.Against i rel symbol) (hs : f.AppliedIn malloc mem symbols i rel s) :
    f.symval s (f.sections i) rel = f.addr+symbol.value+
      if symbol.shndx.toNat < i ∧ Allocates (f.sections symbol.shndx.toNat) then
        malloc symbol.shndx.toNat-f.addr
      else (f.sections symbol.shndx.toNat).offset := by
  obtain ⟨u,before,after,hu,-,hbefore⟩ := hs
  obtain ⟨mem',rfl⟩ := relocateAll_keeps hbefore
  rw [symval,if_pos h.sym,getSymval,if_neg (by simp [h.table,h.sym]),h.entry]
  simp only [h.defined,h.relative,if_false]
  rw [pass_offset hu]

/-- In an accepted module, every relocation against a symbol of the file uses the address that
the symbol has in the image if and only if every section without contents that a relocation
refers to lies in front of the relocation, or gets the memory at its offset in the file. -/
theorem relocations_use_image_iff (hload : (f.loadModule malloc mem symbols).1 ≠ 0) :
    (∀ i rel symbol s, f.Against i rel symbol → f.AppliedIn malloc mem symbols i rel s →
      f.symval s (f.sections i) rel = f.imageAddress malloc symbol) ↔
    ∀ i rel symbol, f.Against i rel symbol → symbol.shndx.toNat < f.header.shnum.toNat →
      Allocates (f.sections symbol.shndx.toNat) →
      symbol.shndx.toNat < i ∨
      malloc symbol.shndx.toNat = f.addr+(f.sections symbol.shndx.toNat).offset := by
  constructor
  · intro huse i rel symbol h hlt ha
    by_contra hnot
    obtain ⟨hi,hmem⟩ := not_or.mp hnot
    obtain ⟨s,hs⟩ := relocations_reached hload h
    have haddr := huse i rel symbol s h hs
    rw [symval_eq h hs,imageAddress,if_neg fun hc => hi hc.1,if_pos ⟨hlt,ha⟩] at haddr
    exact hmem (by bv_omega)
  · intro horder i rel symbol s h hs
    rw [symval_eq h hs,imageAddress]
    by_cases ha : symbol.shndx.toNat < f.header.shnum.toNat ∧
      Allocates (f.sections symbol.shndx.toNat)
    · by_cases hi : symbol.shndx.toNat < i
      · rw [if_pos ⟨hi,ha.2⟩,if_pos ha]
        exact memory_address _ _ _
      · have hmem := (horder i rel symbol h ha.1 ha.2).resolve_left hi
        rw [if_neg fun hc => hi hc.1,if_pos ha,hmem]
        bv_omega
    · rw [if_neg (fun hc => ha ⟨hc.1.trans h.lt,hc.2⟩),if_neg ha]

def relocatable (shnum : BitVec 16) : Ehdr where
  ident := ![0x7f,0x45,0x4c,0x46,1,1,1,0,0,0,0,0,0,0,0,0]
  type := ET_REL
  machine := 3
  version := 1
  shoff := 0x400
  shnum := shnum

/-- Code, its relocations, data, and the variable, which the code refers to. The section of the
variable has index `bss`, and the relocations the index after or before it. -/
def counterModule (bss rel : ℕ) : File where
  addr := 0xc0000000
  header := relocatable 6
  sections i :=
    if i = bss then ⟨.nobits,3,0x200,4,0,0,[],[]⟩
    else if i = rel then ⟨.rel,0,0x280,8,5,1,[],[⟨0x10,0x101⟩]⟩
    else if i = 4 then ⟨.other,3,0x300,12,0,0,[],[]⟩
    else if i = 5 then ⟨.symtab,0,0x320,48,0,0,
      [⟨0,"",0,0,0⟩,⟨1,"counter",0,0x11,.ofNat 16 bss⟩,⟨9,"__k_module_info",0,0x11,4⟩],[]⟩
    else ⟨.other,6,0x100,0x40,0,0,[],[]⟩

/-- With the variable in front, the relocation uses its address in memory. -/
theorem relocations_use_image_counter :
    ∃ s, (counterModule 2 3).AppliedIn (fun _ => 0xd0000000) (fun _ => 0) [] 3 ⟨0x10,0x101⟩ s ∧
    (counterModule 2 3).symval s ((counterModule 2 3).sections 3) ⟨0x10,0x101⟩ = 0xd0000000 := by
  have hload : ((counterModule 2 3).loadModule (fun _ => 0xd0000000) (fun _ => 0) []).1 ≠ 0 := by
    decide +kernel
  have hagainst : (counterModule 2 3).Against 3 ⟨0x10,0x101⟩ ⟨1,"counter",0,0x11,2⟩ :=
    ⟨by decide,rfl,by decide,by decide,by decide,rfl,by decide,by decide⟩
  obtain ⟨s,hs⟩ := relocations_reached hload hagainst
  refine ⟨s,hs,((relocations_use_image_iff hload).mpr ?_ 3 _ _ s hagainst hs).trans (by decide)⟩
  intro i rel symbol h hlt ha
  have hbss : symbol.shndx.toNat = 2 := by
    have hcases : ∀ k < 6, Allocates ((counterModule 2 3).sections k) → k = 2 := by decide
    exact hcases _ hlt ha
  have hrel : i = 3 := by
    have hcases : ∀ k < 6, ((counterModule 2 3).sections k).type = .rel → k = 3 := by decide
    exact hcases _ h.lt h.type
  exact .inl (by omega)

/-- With the relocations in front, the code is left with the variable's place in the file. -/
theorem counter_in_file : ((counterModule 3 2).loadModule (fun _ =>
    0xd0000000) (fun _ => 0) []).1 ≠ 0 ∧
    ¬ ∀ i rel symbol s, (counterModule 3 2).Against i rel symbol →
      (counterModule 3 2).AppliedIn (fun _ => 0xd0000000) (fun _ => 0) [] i rel s →
      (counterModule 3 2).symval s ((counterModule 3 2).sections i) rel =
        (counterModule 3 2).imageAddress (fun _ => 0xd0000000) symbol := by
  refine ⟨by decide +kernel,fun huse => ?_⟩
  have haddr :=
    huse 2 ⟨0x10,0x101⟩ ⟨1,"counter",0,0x11,3⟩ ((counterModule 3 2).start (fun _ => 0) [])
    ⟨by decide,rfl,by decide,by decide,by decide,rfl,by decide,by decide⟩
    ⟨_,[],[],rfl,rfl,rfl⟩
  revert haddr
  decide +kernel

end File
end ModElf
end ScalesOS
