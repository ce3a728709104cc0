import ScalesOS.SectionOrder

/-!
# Modules that are refused

`k_mod_elf_relocate` returns the value of the symbol, and 0 for an error. A relocation whose
symbol has the value 0 by right is taken for an error.
-/

namespace ScalesOS
namespace ModElf
namespace File

open ByteMemory
open Ld (Addr Rel)

variable {f : File} {malloc : ℕ → Addr} {mem : Mem} {symbols : List Symbol} {i n : ℕ}
    {reltab : Section} {rel : Rel}
  {symbol : Sym} {s t : State}

/-- A relocation of section `i`. -/
structure Relocates (f : File) (i : ℕ) (rel : Rel) : Prop where
  lt : i < f.header.shnum.toNat
  type : (f.sections i).type = .rel
  mem : rel ∈ (f.sections i).rels

/-- The symbol that a relocation names. -/
def Names (f : File) (reltab : Section) (rel : Rel) (symbol : Sym) : Prop :=
  rel.sym ≠ 0 ∧ (f.sections reltab.link.toNat).syms[rel.sym]? = some symbol

def Missing (symbols : List Symbol) (symbol : Sym) : Prop :=
  symbol.shndx = SHN_UNDEF ∧ ∀ e ∈ symbols, e.mod = "kernel" → e.name ≠ symbol.name

def Supported (type : BitVec 8) : Prop := type = R_386_NONE ∨ type = R_386_32 ∨ type = R_386_PC32

inductive Bad (f : File) (symbols : List Symbol) (reltab : Section) (rel : Rel) : Prop
  | type (htype : ¬ Supported (relType rel))
  | symbol {symbol : Sym} (hnames : f.Names reltab rel symbol) (hmissing : Missing symbols symbol)
      (hstrong : symbol.binding ≠ STB_WEAK)

/-- A value of 0 that is none: of the symbol with index 0, of an absolute symbol with this
value, or of an undefined weak symbol. -/
inductive Zero (f : File) (symbols : List Symbol) (reltab : Section) (rel : Rel) : Prop
  | none (hsym : rel.sym = 0)
  | absolute {symbol : Sym} (hnames : f.Names reltab rel symbol) (habs : symbol.shndx = SHN_ABS)
      (hvalue : symbol.value = 0)
  | weak {symbol : Sym} (hnames : f.Names reltab rel symbol) (hmissing : Missing symbols symbol)
      (hweak : symbol.binding = STB_WEAK)

def Faulty (f : File) (symbols : List Symbol) : Prop :=
  ∃ i rel, f.Relocates i rel ∧ f.Bad symbols (f.sections i) rel

/-- A relocatable file that defines `__k_module_info`. Relocations name entries of symbol
tables, no symbol that it defines lies at the null pointer, whether its section has got memory
yet or not, and the module is not called like the kernel, whose exported symbols lie nowhere
at the null pointer either. -/
structure WellFormed (f : File) (malloc : ℕ → Addr) (mem : Mem) (symbols : List Symbol) : Prop where
  check : f.header.check = true
  type : f.header.type = ET_REL
  shoff : f.header.shoff ≠ 0
  entry : ∀ {i rel}, f.Relocates i rel → rel.sym ≠ 0 →
    (f.sections i).link.toNat ≠ 0 ∧ rel.sym < (f.sections (f.sections i).link.toNat).syms.length
  placed : ∀ {i rel symbol}, f.Relocates i rel → f.Names (f.sections i) rel symbol →
    symbol.shndx ≠ SHN_UNDEF →
    symbol.shndx ≠ SHN_ABS → f.addr+symbol.value+(f.sections symbol.shndx.toNat).offset ≠ 0 ∧
      (Allocates (f.sections symbol.shndx.toNat) → malloc symbol.shndx.toNat+symbol.value ≠ 0)
  defines : ∃ i < f.header.shnum.toNat, (f.sections i).type = .symtab ∧
    ∃ symbol ∈ (f.sections i).syms, isInfo symbol = true
  infoPlaced : ∀ {i symbol}, i < f.header.shnum.toNat → (f.sections i).type = .symtab →
    symbol ∈ (f.sections i).syms →
    isInfo symbol = true → f.addr+(f.sections symbol.shndx.toNat).offset+symbol.value ≠ 0 ∧
      (Allocates (f.sections symbol.shndx.toNat) → malloc symbol.shndx.toNat+symbol.value ≠ 0)
  named : ∀ {n s}, n ≤ f.header.shnum.toNat →
    f.pass (f.start mem symbols) malloc n = .ok s → s.mod ≠ 0 →
    infoName s ≠ "kernel"
  exports : ∀ e ∈ symbols, e.mod = "kernel" → e.addr ≠ 0

def relocated (f : File) (reltab : Section) (s : State) (rel : Rel) : State :=
  { s with mem := (store (relType rel) (f.symval s reltab rel)
    (f.ref s reltab rel) s.mem).getD s.mem }

def sectionDone (f : File) (malloc : ℕ → Addr) (s : State) (i : ℕ) : State :=
  match (f.sections i).type with
  | .nobits => f.nobitsSection s malloc i
  | .rel => (f.sections i).rels.foldl (f.relocated (f.sections i)) s
  | .symtab => f.symtabSection s (f.sections i).syms
  | .other => s

def allDone (f : File) (malloc : ℕ → Addr) (mem : Mem) (symbols : List Symbol) : State :=
  (List.range f.header.shnum.toNat).foldl (f.sectionDone malloc) (f.start mem symbols)

/-- The loader returns null for faulty modules only, and carries out all relocations of the
others. -/
def LoadsRight (f : File) (malloc : ℕ → Addr) (mem : Mem) (symbols : List Symbol) : Prop :=
  ((f.loadModule malloc mem symbols).1 = 0 ↔ f.Faulty symbols) ∧
  (¬ f.Faulty symbols → ∃ s, f.allDone malloc mem symbols = s ∧
    f.loadModule malloc mem symbols = (s.mod,define s (infoName s) (infoName s) s.mod))

/-- What the steps of the pass keep: each section is at one of its two places, and the kernel
exports what it did. -/
structure Kept (f : File) (malloc : ℕ → Addr) (symbols : List Symbol) (s : State) : Prop where
  offset : ∀ k, s.offset k = (f.sections k).offset ∨
    (Allocates (f.sections k) ∧ s.offset k = malloc k-f.addr)
  kernel : ∀ name, getSymbol s.symbols name "kernel" = getSymbol symbols name "kernel"

theorem Kept.setMem (h : f.Kept malloc symbols s) (mem : Mem) :
    f.Kept malloc symbols { s with mem } := ⟨h.offset,h.kernel⟩

theorem getSymbol_eq_zero_iff (hexports : ∀ e ∈ symbols, e.mod = "kernel" → e.addr ≠ 0)
    (name : String) :
    getSymbol symbols name "kernel" = 0 ↔ ∀ e ∈ symbols, e.mod = "kernel" → e.name ≠ name := by
  rw [getSymbol]
  cases hfind : symbols.find? fun s => s.name = name ∧ s.mod = "kernel" with
  | none =>
    simp only [true_iff]
    intro e he hmod hname
    have := List.find?_eq_none.mp hfind e he
    simp [hmod,hname] at this
  | some e =>
    have hmem := List.mem_of_find?_eq_some hfind
    have hprop : e.name = name ∧ e.mod = "kernel" := by simpa using List.find?_some hfind
    simp only [hexports e hmem hprop.2,false_iff]
    exact fun hall => hall e hmem hprop.2 hprop.1

theorem getSymbol_append {added : List Symbol} (hadded : ∀ e ∈ added, e.mod ≠ "kernel")
    (name : String) :
    getSymbol (symbols++added) name "kernel" = getSymbol symbols name "kernel" := by
  have hnone : added.find? (fun s => s.name = name ∧ s.mod = "kernel") = none :=
    List.find?_eq_none.mpr fun e he hc => hadded e he (of_decide_eq_true hc).2
  rw [getSymbol,getSymbol,List.find?_append,hnone,Option.or_none]

theorem Kept.place_ne_zero (h : f.Kept malloc symbols s) {k : ℕ} {v : Addr}
    (hfile : f.addr+v+(f.sections k).offset ≠ 0)
    (hmem : Allocates (f.sections k) → malloc k+v ≠ 0) : f.addr+v+s.offset k ≠ 0 := by
  rcases h.offset k with ho | ⟨ha,ho⟩
  · rwa [ho]
  · rw [ho,memory_address]
    exact hmem ha

theorem symval_eq_zero_iff (hwf : f.WellFormed malloc mem symbols) (h : f.Kept malloc symbols s)
    (hrel : f.Relocates i rel) :
    f.symval s (f.sections i) rel = 0 ↔ f.Zero symbols (f.sections i) rel ∨
      ∃ symbol, f.Names (f.sections i) rel symbol ∧ Missing symbols symbol ∧
      symbol.binding ≠ STB_WEAK := by
  by_cases hsym : rel.sym = 0
  · simp only [symval,hsym,ne_eq,not_true_eq_false,if_false,true_iff]
    exact .inl (.none hsym)
  · obtain ⟨htable,hlt⟩ := hwf.entry hrel hsym
    obtain ⟨symbol,hentry⟩ :
        ∃ symbol, (f.sections (f.sections i).link.toNat).syms[rel.sym]? = some symbol :=
      ⟨_,List.getElem?_eq_getElem hlt⟩
    have hnames : f.Names (f.sections i) rel symbol := ⟨hsym,hentry⟩
    have hunique : ∀ other, f.Names (f.sections i) rel other → other = symbol := fun other ho =>
      Option.some.inj (ho.2.symm.trans hentry)
    have hval : f.symval s (f.sections i) rel = if symbol.shndx = SHN_UNDEF then
      getSymbol symbols symbol.name "kernel"
        else if symbol.shndx = SHN_ABS then symbol.value
        else f.addr+symbol.value+s.offset symbol.shndx.toNat := by
      rw [symval,if_pos hsym,getSymval,if_neg (by simp [htable,hsym]),hentry,← h.kernel]
    rw [hval]
    constructor
    · intro hzero
      split at hzero
      · rename_i hundef
        have hmissing : Missing symbols symbol :=
          ⟨hundef,(getSymbol_eq_zero_iff hwf.exports _).mp hzero⟩
        by_cases hweak : symbol.binding = STB_WEAK
        · exact .inl (.weak hnames hmissing hweak)
        · exact .inr ⟨symbol,hnames,hmissing,hweak⟩
      · rename_i hundef
        split at hzero
        · rename_i habs
          exact .inl (.absolute hnames habs hzero)
        · rename_i habs
          obtain ⟨hfile,hmem⟩ := hwf.placed hrel hnames hundef habs
          exact absurd hzero (h.place_ne_zero hfile hmem)
    · have hmissing : Missing symbols symbol →
        (if symbol.shndx = SHN_UNDEF then getSymbol symbols symbol.name "kernel"
          else if symbol.shndx = SHN_ABS then symbol.value
          else f.addr+symbol.value+s.offset symbol.shndx.toNat) = 0 :=
        fun hm => by
          rw [if_pos hm.1]
          exact (getSymbol_eq_zero_iff hwf.exports _).mpr hm.2
      rintro (hz | ⟨other,hother,hm,-⟩)
      · cases hz with
        | none hnone => exact absurd hnone hsym
        | absolute hother habs hvalue =>
          obtain rfl := hunique _ hother
          rw [if_neg (by rw [habs]; decide),if_pos habs]
          exact hvalue
        | weak hother hm =>
          obtain rfl := hunique _ hother
          exact hmissing hm
      · obtain rfl := hunique _ hother
        exact hmissing hm

theorem store_eq_none_iff {type : BitVec 8} {v r : Addr} : store type v r mem = none ↔
    ¬ Supported type := by
  rw [store,Supported]
  split
  · simp_all
  · split
    · simp_all
    · split <;> simp_all

theorem relocate_eq_zero_iff : (f.relocate s reltab rel).1 = 0 ↔ f.symval s reltab rel = 0 ∨
    ¬ Supported (relType rel) := by
  rw [relocate]
  by_cases hzero : f.symval s reltab rel = 0
  · simp only [hzero,and_true,true_or,iff_true]
    split
    · rfl
    · split <;> rfl
  · simp only [hzero,and_false,if_false,false_or]
    cases hstore : store (relType rel) (f.symval s reltab rel) (f.ref s reltab rel) s.mem with
    | none => simp [store_eq_none_iff.mp hstore]
    | some mem' =>
      have hsupported : Supported (relType rel) := by
        by_contra hnot
        rw [store_eq_none_iff.mpr hnot] at hstore
        cases hstore
      exact iff_of_false hzero fun hnot => hnot hsupported

theorem relocateNext_error (hwf : f.WellFormed malloc mem symbols) (h : f.Kept malloc symbols s)
    (hrel : f.Relocates i rel) :
    (∃ e, f.relocateNext s (f.sections i) rel = .error e) ↔
      f.Bad symbols (f.sections i) rel ∨ f.Zero symbols (f.sections i) rel := by
  have hret : (∃ e, f.relocateNext s (f.sections i) rel = .error e) ↔
      (f.relocate s (f.sections i) rel).1 = 0 := by
    rw [relocateNext]
    by_cases hzero : (f.relocate s (f.sections i) rel).1 = 0
    · rw [if_pos hzero]
      exact iff_of_true ⟨_,rfl⟩ hzero
    · rw [if_neg hzero]
      refine iff_of_false ?_ hzero
      rintro ⟨e,he⟩
      cases he
  rw [hret,relocate_eq_zero_iff,symval_eq_zero_iff hwf h hrel]
  constructor
  · rintro ((hz | ⟨symbol,hnames,hmissing,hstrong⟩) | htype)
    · exact .inr hz
    · exact .inl (.symbol hnames hmissing hstrong)
    · exact .inl (.type htype)
  · rintro (hb | hz)
    · cases hb with
      | type htype => exact .inr htype
      | symbol hnames hmissing hstrong => exact .inl (.inr ⟨_,hnames,hmissing,hstrong⟩)
    · exact .inl (.inl hz)

theorem relocateNext_eq (hret : f.relocateNext s reltab rel = .ok t) :
    t = f.relocated reltab s rel := by
  obtain ⟨hne,rfl⟩ := relocateNext_ok hret
  rw [Ne,relocate_eq_zero_iff,not_or] at hne
  rw [relocate,if_neg (fun h => hne.1 h.2),relocated]
  cases hstore : store (relType rel) (f.symval s reltab rel) (f.ref s reltab rel) s.mem with
  | none => exact absurd (store_eq_none_iff.mp hstore) hne.2
  | some mem' => rfl

theorem relocateAll_error (hwf : f.WellFormed malloc mem symbols) (h : f.Kept malloc symbols s)
    {rels : List Rel} (hrels : ∀ rel ∈ rels, f.Relocates i rel) :
    (∃ e, rels.foldlM (fun s rel => f.relocateNext s (f.sections i) rel) s = .error e) ↔
      ∃ rel ∈ rels, f.Bad symbols (f.sections i) rel ∨ f.Zero symbols (f.sections i) rel := by
  induction rels generalizing s with
  | nil => simp [pure,Except.pure]
  | cons rel rels ih =>
    have hfirst := relocateNext_error hwf h (hrels rel (by simp))
    rw [List.foldlM_cons]
    cases hret : f.relocateNext s (f.sections i) rel with
    | error e =>
      have hstop := hfirst.mp ⟨e,hret⟩
      simp only [bind,Except.bind]
      exact ⟨fun _ => ⟨rel,by simp,hstop⟩,fun _ => ⟨e,rfl⟩⟩
    | ok t =>
      have hgo :
          ¬ (f.Bad symbols (f.sections i) rel ∨ f.Zero symbols (f.sections i) rel) :=
            fun hstop => by
        obtain ⟨e,he⟩ := hfirst.mpr hstop
        rw [hret] at he
        cases he
      obtain ⟨mem',ht⟩ := relocate_keeps f s (f.sections i) rel
      rw [(relocateNext_ok hret).2] at ht
      have hrest := ih (ht ▸ h.setMem mem') fun r hr => hrels r (by simp [hr])
      simp only [bind,Except.bind,hrest,List.mem_cons,exists_eq_or_imp,hgo,false_or]

theorem relocateAll_eq {rels : List Rel}
    (hret : rels.foldlM (fun s rel => f.relocateNext s reltab rel) s = .ok t) :
    t = rels.foldl (f.relocated reltab) s := by
  induction rels generalizing s with
  | nil => exact (Except.ok.inj hret).symm
  | cons rel rels ih =>
    rw [List.foldlM_cons] at hret
    cases h₁ : f.relocateNext s reltab rel with
    | error e => simp [h₁,bind,Except.bind] at hret
    | ok u =>
      simp only [h₁,bind,Except.bind] at hret
      rw [List.foldl_cons,← relocateNext_eq h₁]
      exact ih hret

theorem sectionNext_error (hwf : f.WellFormed malloc mem symbols) (h : f.Kept malloc symbols s)
    (hi : i < f.header.shnum.toNat) : (∃ e, f.sectionNext s malloc i = .error e) ↔
      ∃ rel, f.Relocates i rel ∧
      (f.Bad symbols (f.sections i) rel ∨ f.Zero symbols (f.sections i) rel) := by
  rw [sectionNext]
  cases htype : (f.sections i).type with
  | rel =>
    simp only
    rw [relocateAll_error hwf h fun rel hrel => ⟨hi,htype,hrel⟩]
    constructor
    · rintro ⟨rel,hrel,hstop⟩
      exact ⟨rel,⟨hi,htype,hrel⟩,hstop⟩
    · rintro ⟨rel,hrel,hstop⟩
      exact ⟨rel,hrel.mem,hstop⟩
  | nobits => simpa [pure,Except.pure] using fun rel hrel => by cases htype.symm.trans hrel.type
  | symtab => simpa [pure,Except.pure] using fun rel hrel => by cases htype.symm.trans hrel.type
  | other => simpa [pure,Except.pure] using fun rel hrel => by cases htype.symm.trans hrel.type

theorem sectionNext_eq (hret : f.sectionNext s malloc i = .ok t) :
    t = f.sectionDone malloc s i := by
  revert hret
  rw [sectionNext,sectionDone]
  cases (f.sections i).type with
  | rel => exact relocateAll_eq
  | nobits => exact fun hret => (Except.ok.inj hret).symm
  | symtab => exact fun hret => (Except.ok.inj hret).symm
  | other => exact fun hret => (Except.ok.inj hret).symm

/-- A module that is not called like the kernel does not export for it. -/
theorem Kept.sectionNext (h : f.Kept malloc symbols s) (hret : f.sectionNext s malloc i = .ok t)
    (hname : t.mod ≠ 0 → infoName t ≠ "kernel") : f.Kept malloc symbols t := by
  refine ⟨fun k => ?_,fun name => ?_⟩
  · rw [sectionNext_offset hret]
    split
    · rename_i ha
      by_cases hk : k = i
      · subst hk
        rw [Function.update_self]
        exact .inr ⟨ha,rfl⟩
      · rw [Function.update_of_ne hk]
        exact h.offset k
    · exact h.offset k
  · rw [← h.kernel name]
    rw [File.sectionNext] at hret
    split at hret
    · obtain rfl := Except.ok.inj hret
      rw [nobitsSection]
      split <;> rfl
    · obtain ⟨mem',rfl⟩ := relocateAll_keeps hret
      rfl
    · obtain rfl := Except.ok.inj hret
      obtain ⟨added,hkeeps,hadded⟩ := symtabSection_keeps f s (f.sections i).syms
      have hmod :
        (f.symtabSection s (f.sections i).syms).mod = f.findInfo s (f.sections i).syms := by
          rw [hkeeps]
      have hother : ∀ e ∈ added, e.mod ≠ "kernel" := fun e he => by
        obtain ⟨hne,hown⟩ := hadded e he
        rw [hown]
        exact hname (hmod ▸ hne)
      rw [hkeeps]
      exact getSymbol_append hother name
    · obtain rfl := Except.ok.inj hret
      rfl

/-- `mod` is found with the first symbol that defines it, and stays. -/
theorem sectionNext_mod (hwf : f.WellFormed malloc mem symbols) (h : f.Kept malloc symbols s)
    (hi : i < f.header.shnum.toNat) (hret : f.sectionNext s malloc i = .ok t)
    (hmod : s.mod ≠ 0 ∨ (f.sections i).type = .symtab ∧ ∃ symbol ∈ (f.sections i).syms,
      isInfo symbol = true) : t.mod ≠ 0 := by
  rw [sectionNext] at hret
  split at hret <;> rename_i htype
  · obtain rfl := Except.ok.inj hret
    rw [nobitsSection]
    split <;> exact hmod.resolve_right fun hc => by cases htype.symm.trans hc.1
  · obtain ⟨mem',rfl⟩ := relocateAll_keeps hret
    exact hmod.resolve_right fun hc => by cases htype.symm.trans hc.1
  · obtain rfl := Except.ok.inj hret
    obtain ⟨added,hkeeps,-⟩ := symtabSection_keeps f s (f.sections i).syms
    rw [hkeeps]
    change f.findInfo s (f.sections i).syms ≠ 0
    rw [findInfo]
    split
    · assumption
    · rename_i hnone
      obtain ⟨-,symbol,hmem,hinfo⟩ := hmod.resolve_left hnone
      cases hfind : (f.sections i).syms.find? isInfo with
      | none => exact absurd hinfo (List.find?_eq_none.mp hfind symbol hmem)
      | some found =>
        obtain ⟨hfile,hmem'⟩ :=
          hwf.infoPlaced hi htype (List.mem_of_find?_eq_some hfind) (List.find?_some hfind)
        have hplace := h.place_ne_zero (k:=found.shndx.toNat) (v:=found.value) (by bv_omega) hmem'
        simp only [getAddress]
        bv_omega
  · obtain rfl := Except.ok.inj hret
    exact hmod.resolve_right fun hc => by cases htype.symm.trans hc.1

theorem kept_start (f : File) (malloc : ℕ → Addr) (mem : Mem) (symbols : List Symbol) :
    f.Kept malloc symbols (f.start mem symbols) := ⟨fun _ => .inl rfl,fun _ => rfl⟩

theorem pass_kept (hwf : f.WellFormed malloc mem symbols) (hn : n ≤ f.header.shnum.toNat)
    (hret : f.pass (f.start mem symbols) malloc n = .ok t) : f.Kept malloc symbols t := by
  induction n generalizing t with
  | zero =>
    obtain rfl := Except.ok.inj hret
    exact kept_start f malloc mem symbols
  | succ n ih =>
    obtain ⟨u,hu,hstep⟩ := pass_succ_ok.mp hret
    exact (ih (by omega) hu).sectionNext hstep (hwf.named hn hret)

/-- The pass stops at the first relocation that is bad or has the value 0. -/
theorem pass_error (hwf : f.WellFormed malloc mem symbols) (hn : n ≤ f.header.shnum.toNat) :
    (∃ e, f.pass (f.start mem symbols) malloc n = .error e) ↔
      ∃ i < n, ∃ rel, f.Relocates i rel ∧
      (f.Bad symbols (f.sections i) rel ∨ f.Zero symbols (f.sections i) rel) := by
  induction n with
  | zero => simp
  | succ n ih =>
    have hbefore := ih (by omega)
    rw [pass_succ]
    cases hpass : f.pass (f.start mem symbols) malloc n with
    | error e =>
      obtain ⟨i,hi,hstop⟩ := hbefore.mp ⟨e,hpass⟩
      simp only [Except.bind]
      exact ⟨fun _ => ⟨i,by omega,hstop⟩,fun _ => ⟨e,rfl⟩⟩
    | ok u =>
      simp only [Except.bind]
      rw [sectionNext_error hwf (pass_kept hwf (by omega) hpass) (by omega)]
      constructor
      · exact fun hstop => ⟨n,by omega,hstop⟩
      · rintro ⟨i,hi,hstop⟩
        by_cases he : i = n
        · exact he ▸ hstop
        · obtain ⟨e,herr⟩ := hbefore.mpr ⟨i,by omega,hstop⟩
          rw [hpass] at herr
          cases herr

theorem pass_eq (hret : f.pass s malloc n = .ok t) :
    t = (List.range n).foldl (f.sectionDone malloc) s := by
  induction n generalizing t with
  | zero => exact (Except.ok.inj hret).symm
  | succ n ih =>
    obtain ⟨u,hu,hstep⟩ := pass_succ_ok.mp hret
    rw [List.range_succ,List.foldl_append,← ih hu]
    exact sectionNext_eq hstep

theorem pass_mod (hwf : f.WellFormed malloc mem symbols) (hn : n ≤ f.header.shnum.toNat)
    (hret : f.pass (f.start mem symbols) malloc n = .ok t)
    (hinfo : ∃ i < n, (f.sections i).type = .symtab ∧ ∃ symbol ∈ (f.sections i).syms,
      isInfo symbol = true) : t.mod ≠ 0 := by
  induction n generalizing t with
  | zero =>
    obtain ⟨i,hi,-⟩ := hinfo
    cases hi
  | succ n ih =>
    obtain ⟨u,hu,hstep⟩ := pass_succ_ok.mp hret
    refine sectionNext_mod hwf (pass_kept hwf (by omega) hu) (by omega) hstep ?_
    obtain ⟨i,hi,hdef⟩ := hinfo
    by_cases he : i = n
    · exact .inr (he ▸ hdef)
    · exact .inl (ih (by omega) hu ⟨i,by omega,hdef⟩)

theorem loadModule_eq (hwf : f.WellFormed malloc mem symbols) : f.loadModule malloc mem symbols =
    match f.pass (f.start mem symbols) malloc f.header.shnum.toNat with
    | .error s => (0,s)
    | .ok s => (s.mod,if s.mod ≠ 0 then define s (infoName s) (infoName s) s.mod else s) := by
  have haccept : ¬ (f.header.check = false ∨ f.header.type ≠ ET_REL ∨ f.header.shoff = 0) := by
    rintro (h | h | h)
    · exact Bool.noConfusion (h.symm.trans hwf.check)
    · exact h hwf.type
    · exact hwf.shoff h
  exact if_neg haccept

/-- A well-formed module is loaded as it should be if and only if it is faulty, and is refused
anyway, or none of its relocations has the value 0 by right. -/
theorem loads_right_iff (hwf : f.WellFormed malloc mem symbols) : f.LoadsRight malloc mem symbols ↔
    f.Faulty symbols ∨ ¬ ∃ i rel, f.Relocates i rel ∧ f.Zero symbols (f.sections i) rel := by
  have herror := pass_error hwf le_rfl
  rw [LoadsRight,loadModule_eq hwf]
  cases hpass : f.pass (f.start mem symbols) malloc f.header.shnum.toNat with
  | error e =>
    obtain ⟨i,hi,rel,hrel,hstop⟩ := herror.mp ⟨e,hpass⟩
    by_cases hfaulty : f.Faulty symbols
    · simp [hfaulty]
    · have hzero : ∃ i rel, f.Relocates i rel ∧ f.Zero symbols (f.sections i) rel :=
        ⟨i,rel,hrel,hstop.resolve_left fun hb => hfaulty ⟨i,rel,hrel,hb⟩⟩
      simp [hfaulty,hzero]
  | ok t =>
    have hgo : ∀ {i rel}, f.Relocates i rel →
        ¬ (f.Bad symbols (f.sections i) rel ∨ f.Zero symbols (f.sections i) rel) :=
      fun {i rel} hrel hstop => by
        obtain ⟨e,he⟩ := herror.mpr ⟨i,hrel.lt,rel,hrel,hstop⟩
        rw [hpass] at he
        cases he
    have hmod := pass_mod hwf le_rfl hpass hwf.defines
    have hfaulty : ¬ f.Faulty symbols := fun ⟨_,_,hrel,hb⟩ => hgo hrel (.inl hb)
    have hzero : ¬ ∃ i rel, f.Relocates i rel ∧ f.Zero symbols (f.sections i) rel :=
      fun ⟨_,_,hrel,hz⟩ => hgo hrel (.inr hz)
    refine iff_of_true ⟨iff_of_false hmod hfaulty,fun _ => ⟨t,(pass_eq hpass).symm,?_⟩⟩ (.inr hzero)
    simp only [if_pos hmod]

theorem counterModule_wellFormed :
    (counterModule 2 3).WellFormed (fun _ => 0xd0000000) (fun _ => 0) [] where
  check := by decide
  type := rfl
  shoff := by decide
  entry hrel _ := by
    have hall : ∀ i < 6, ∀ rel ∈ ((counterModule 2 3).sections i).rels,
      ((counterModule 2 3).sections i).link.toNat ≠ 0 ∧ rel.sym < ((counterModule 2 3).sections
        ((counterModule 2 3).sections i).link.toNat).syms.length := by decide
    exact hall _ hrel.lt _ hrel.mem
  placed hrel hnames hundef habs := by
    have hall :
      ∀ i < 6, ∀ symbol ∈ ((counterModule 2 3).sections
        ((counterModule 2 3).sections i).link.toNat).syms,
      symbol.shndx ≠ SHN_UNDEF → symbol.shndx ≠ SHN_ABS →
        0xc0000000+symbol.value+((counterModule 2 3).sections symbol.shndx.toNat).offset ≠ 0 ∧
        (Allocates ((counterModule 2 3).sections symbol.shndx.toNat) →
          0xd0000000+symbol.value ≠ 0) := by decide
    exact hall _ hrel.lt _ (List.mem_of_getElem? hnames.2) hundef habs
  defines := ⟨5,by decide,rfl,⟨9,"__k_module_info",0,0x11,4⟩,by decide,by decide⟩
  infoPlaced hi _ hmem _ := by
    have hall : ∀ i < 6, ∀ symbol ∈ ((counterModule 2 3).sections i).syms,
      0xc0000000+((counterModule 2 3).sections symbol.shndx.toNat).offset+symbol.value ≠ 0 ∧
        (Allocates ((counterModule 2 3).sections symbol.shndx.toNat) →
          0xd0000000+symbol.value ≠ 0) := by decide
    exact hall _ hi _ hmem
  named {n s} hn hpass hmod := by
    have hall :
      ∀ n < 7, ((counterModule 2 3).pass ((counterModule 2 3).start (fun _ => 0) []) (fun _ =>
        0xd0000000) n).toOption.all
        (fun s => s.mod = 0 ∨ infoName s ≠ "kernel") = true := by decide +kernel
    have hs := hall n (Nat.lt_succ_of_le hn)
    rw [hpass] at hs
    exact (of_decide_eq_true hs).resolve_left hmod
  exports := by simp

theorem loads_right_counter : (counterModule 2 3).LoadsRight (fun _ => 0xd0000000) (fun _ => 0)
    [] := by
  refine (loads_right_iff counterModule_wellFormed).mpr (.inr ?_)
  rintro ⟨i,rel,hrel,hzero⟩
  have hsyms : ∀ i < 6, ∀ rel ∈ ((counterModule 2 3).sections i).rels, rel.sym ≠ 0 ∧
    (((counterModule 2 3).sections ((counterModule 2 3).sections i).link.toNat).syms[rel.sym]?).all
      (fun symbol => symbol.shndx ≠ SHN_UNDEF ∧ symbol.shndx ≠ SHN_ABS) = true := by decide
  obtain ⟨hsym,hall⟩ := hsyms i hrel.lt rel hrel.mem
  cases hzero with
  | none hnone => exact hsym hnone
  | absolute hnames habs =>
    rw [hnames.2] at hall
    exact (of_decide_eq_true hall).2 habs
  | weak hnames hmissing =>
    rw [hnames.2] at hall
    exact (of_decide_eq_true hall).1 hmissing.1

def weakModule : File where
  addr := 0xc0000000
  header := relocatable 5
  sections i :=
    if i = 2 then ⟨.rel,0,0x280,8,4,1,[],[⟨0x10,0x101⟩]⟩
    else if i = 3 then ⟨.other,3,0x300,12,0,0,[],[]⟩
    else if i = 4 then ⟨.symtab,0,0x320,48,0,0,
      [⟨0,"",0,0,0⟩,⟨1,"hook",0,0x20,SHN_UNDEF⟩,⟨6,"__k_module_info",0,0x11,3⟩],[]⟩
    else ⟨.other,6,0x100,0x40,0,0,[],[]⟩

theorem weakModule_wellFormed : weakModule.WellFormed (fun _ => 0) (fun _ => 0) [] where
  check := by decide
  type := rfl
  shoff := by decide
  entry hrel _ := by
    have hall : ∀ i < 5, ∀ rel ∈ (weakModule.sections i).rels,
      (weakModule.sections i).link.toNat ≠ 0 ∧
      rel.sym < (weakModule.sections (weakModule.sections i).link.toNat).syms.length := by decide
    exact hall _ hrel.lt _ hrel.mem
  placed hrel hnames hundef habs := by
    have hall : ∀ i < 5, ∀ rel ∈ (weakModule.sections i).rels,
      ((weakModule.sections (weakModule.sections i).link.toNat).syms[rel.sym]?).all
        (fun symbol => symbol.shndx = SHN_UNDEF) = true := by decide
    have hall := hall _ hrel.lt _ hrel.mem
    rw [hnames.2] at hall
    exact absurd (of_decide_eq_true hall) hundef
  defines := ⟨4,by decide,rfl,⟨6,"__k_module_info",0,0x11,3⟩,by decide,by decide⟩
  infoPlaced hi _ hmem _ := by
    have hall : ∀ i < 5, ∀ symbol ∈ (weakModule.sections i).syms,
      0xc0000000+(weakModule.sections symbol.shndx.toNat).offset+symbol.value ≠ 0 ∧
        ¬ Allocates (weakModule.sections symbol.shndx.toNat) := by decide
    obtain ⟨hplace,hfile⟩ := hall _ hi _ hmem
    exact ⟨hplace,fun ha => absurd ha hfile⟩
  named {n s} hn hpass hmod := by
    have hall :
      ∀ n < 6, (weakModule.pass (weakModule.start (fun _ => 0) []) (fun _ => 0) n).toOption.all
        (fun s => s.mod = 0 ∨ infoName s ≠ "kernel") = true := by decide +kernel
    have hs := hall n (Nat.lt_succ_of_le hn)
    rw [hpass] at hs
    exact (of_decide_eq_true hs).resolve_left hmod
  exports := by simp

/-- It is refused, though its only relocation is one with 0. -/
theorem weak_refused : weakModule.WellFormed (fun _ => 0) (fun _ => 0) [] ∧ ¬ weakModule.Faulty
    [] ∧ (weakModule.loadModule (fun _ => 0) (fun _ => 0) []).1 = 0 ∧
    ¬ weakModule.LoadsRight (fun _ => 0) (fun _ => 0) [] := by
  have hret : (weakModule.loadModule (fun _ => 0) (fun _ => 0) []).1 = 0 := by decide +kernel
  have hfaulty : ¬ weakModule.Faulty [] := by
    rintro ⟨i,rel,hrel,hbad⟩
    have hrels : ∀ i < 5, ∀ rel ∈ (weakModule.sections i).rels, relType rel = R_386_32 ∧
      ((weakModule.sections (weakModule.sections i).link.toNat).syms[rel.sym]?).all
        (fun symbol => symbol.binding = STB_WEAK) = true := by decide
    obtain ⟨htype,hall⟩ := hrels i hrel.lt rel hrel.mem
    cases hbad with
    | type hunsupported => exact hunsupported (.inr (.inl htype))
    | symbol hnames _ hstrong =>
      rw [hnames.2] at hall
      exact hstrong (of_decide_eq_true hall)
  exact ⟨weakModule_wellFormed,hfaulty,hret,fun h => hfaulty (h.1.mp hret)⟩

end File
end ModElf
end ScalesOS
