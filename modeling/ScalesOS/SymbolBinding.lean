import ScalesOS.Relocation

/-! Where the references to a symbol lead after `relocate_objects`. An image is a set of
loaded objects as the linker and the loader make them; it is relocated rightly if every symbol
that some object defines has one address, that of a definition, to which all references to the
symbol lead. -/
namespace ScalesOS.Ld
open ByteMemory

def Mapped.DefinedAt (object : Mapped) (name : String) (a : Addr) : Prop :=
  ∃ sym ∈ object.dynSymtab, sym.name = name ∧ sym.value ≠ 0 ∧ object.base+sym.value = a

def Mapped.CopyAt (object : Mapped) (name : String) (a : Addr) : Prop :=
  ∃ rel ∈ object.reldyn, rel.type = .R_386_COPY ∧ (object.symbol rel).name = name ∧
    object.location rel = a

def Mapped.Copies (object : Mapped) (name : String) : Prop := ∃ a, object.CopyAt name a

def Mapped.definition (object : Mapped) (name : String) : Option Addr :=
  (object.dynSymtab.find? fun sym => sym.name = name ∧ sym.value ≠ 0).map fun sym =>
  object.base+sym.value

/-- The relocations of some objects, one object after the other. -/
def entries (rels : Mapped → List Rel) (objects : List Mapped) : List (Mapped × Rel) :=
  objects.flatMap fun object => (rels object).map (object,·)

/-- The order in which `relocate_object` makes the relocations of an object. -/
def Mapped.rels (object : Mapped) : List Rel := object.reldyn++object.relplt

/-- Two relocations change different bytes. -/
def Apart (x y : Mapped × Rel) : Prop :=
  (x.1.location x.2).toNat+x.1.width x.2 ≤ (y.1.location y.2).toNat ∨
    (y.1.location y.2).toNat+y.1.width y.2 ≤ (x.1.location x.2).toNat

instance : DecidableRel Apart := fun _ _ => inferInstanceAs (Decidable (_ ∨ _))

/-- The executable is at the addresses it was linked for. An object begins with its ELF
header, so nothing is defined at its base, and the executable defines a symbol that it copies
at the place of the copy. -/
structure Image where
  main : Mapped
  libs : List Mapped
  nodup : (main::libs).Nodup
  absolute : main.base = 0
  header : ∀ object ∈ main::libs, ∀ other ∈ main::libs, ∀ sym ∈ other.dynSymtab, sym.value ≠ 0 →
    other.base+sym.value ≠ object.base
  copied : ∀ object ∈ main::libs, ∀ rel ∈ object.reldyn, rel.type = .R_386_COPY →
    (object.symbol rel).value ≠ 0 ∧ (object.symbol rel).value = rel.offset
  apart : (entries Mapped.rels (libs++[main])).Pairwise Apart

namespace Image

/-- `loaded_libraries` -/
def objects (img : Image) : List Mapped := img.main::img.libs

def Copied (img : Image) (name : String) : Prop := ∃ object ∈ img.objects, object.Copies name

def Defined (img : Image) (name : String) : Prop :=
  ∃ object ∈ img.objects, ∃ a, object.DefinedAt name a

/-- No object defines the symbol. An object that has a copy does not define what it copies. -/
def Undefined (img : Image) (name : String) : Prop :=
  ∀ object ∈ img.objects, object.Copies name ∨ ∀ a, ¬object.DefinedAt name a

/-- After the relocation of `mem` to `mem'` a reference leads to `a`. A slot of the procedure
linkage table that was left as it was is bound by the first call through it. -/
def Leads (img : Image) (mem mem' : Mem) (object : Mapped) (rel : Rel) (a : Addr) : Prop :=
  let word := readWord mem (object.location rel)
  let word' := readWord mem' (object.location rel)
  match rel.type with
  | .R_386_GLOB_DAT => word' = a
  | .R_386_JMP_SLOT => word' = a ∨
    word' = word ∧ rel ∈ object.relplt ∧ ∃ bound,
    resolveSymbol img.objects object rel mem' = .ok (a,bound)
  | .R_386_32 => word' = word+a
  | .R_386_PC32 => word' = word+(a-object.location rel)
  | _ => True

/-- What the failure is about is a symbol that is not weak and that no object defines. -/
def Justified (img : Image) (e : Failure) : Prop :=
  ∃ symbol, (e = .unresolved symbol ∨ e = .copyUnresolved symbol) ∧ symbol.binding ≠ STB_WEAK ∧
    img.Undefined symbol.name

inductive CopyStops (img : Image) : Mapped × Rel → Failure → Prop
  | intro {object : Mapped} {rel : Rel} (ht : rel.type = .R_386_COPY)
    (hnone : ∀ other ∈ img.objects, other ≠ object →
      ∀ a, ¬other.DefinedAt (object.symbol rel).name a) :
    CopyStops img (object,rel) (.copyUnresolved (object.symbol rel))

inductive Stops (img : Image) : Mapped × Rel → Failure → Prop
  | unresolved {object : Mapped} {rel : Rel} (ht : rel.type = .R_386_32)
      (hvalue : (object.symbol rel).value = 0)
    (hweak : (object.symbol rel).binding &&& STB_WEAK = 0)
    (hcopy : ¬img.Copied (object.symbol rel).name) :
    Stops img (object,rel) (.unresolved (object.symbol rel))
  | noSource {object : Mapped} {rel : Rel} (ht : rel.type = .R_386_COPY)
      (hcopy : ¬img.Copied (object.symbol rel).name) :
    Stops img (object,rel) .copyWithoutSource
  | unknownType {object : Mapped} {rel : Rel} {type : BitVec 8} (ht : rel.type = .unknown type) :
    Stops img (object,rel) (.unknownType type)

/-- `e` is about the first relocation that the loader cannot make: it looks for the sources of
all copies first, then it relocates the libraries, and last the executable. -/
def StopsWith (img : Image) (e : Failure) : Prop :=
  FirstStop img.CopyStops e (entries Mapped.reldyn img.objects) ∨
    (∀ e', ¬FirstStop img.CopyStops e' (entries Mapped.reldyn img.objects)) ∧
      FirstStop img.Stops e (entries Mapped.rels (img.libs++[img.main]))

/-- The first definition in load order outside the object that refers to the symbol. -/
def Found (img : Image) (object : Mapped) (name : String) (a : Addr) : Prop :=
  (img.objects.filter (· ≠ object)).findSome? (·.definition name) = some a

/-- The objects that refer to the symbol define it at `a` themselves, or they only call it
through the procedure linkage table and it is found at `a`. -/
def Agrees (img : Image) (name : String) (a : Addr) : Prop :=
  ∀ object ∈ img.objects, ∀ rel ∈ object.rels, rel.Refers → (object.symbol rel).name = name →
    if (object.symbol rel).value = 0 then
      rel.type = .R_386_JMP_SLOT ∧ rel ∈ object.relplt ∧ img.Found object name a
    else object.base+(object.symbol rel).value = a

/-- The first relocation that the loader cannot make is against a symbol that is not weak and
that no object defines; or it can make all, and for every symbol that is defined but not
copied there is one definition on which the objects that refer to it agree. -/
def Covered (img : Image) : Prop :=
  (∃ e, img.StopsWith e ∧ img.Justified e) ∨
    (∀ e, ¬img.StopsWith e) ∧ ∀ name ≠ "", img.Defined name → ¬img.Copied name →
      ∃ a, (∃ object ∈ img.objects, object.DefinedAt name a) ∧ img.Agrees name a

end Image

theorem Mapped.definition_eq_some {object : Mapped} {name : String} {a : Addr}
    (h : object.definition name = some a) :
    object.DefinedAt name a := by
  obtain ⟨sym,hfind,rfl⟩ := Option.map_eq_some_iff.mp h
  have hsym : sym.name = name ∧ sym.value ≠ 0 := by simpa using List.find?_some hfind
  exact ⟨sym,List.mem_of_find?_eq_some hfind,hsym.1,hsym.2,rfl⟩

theorem lookupIn_eq (lib : Mapped) (name : String) :
    lookupIn lib name = (lib.definition name).getD 0 := by
  rw [lookupIn,Mapped.definition]
  cases lib.dynSymtab.find? fun sym => sym.name = name ∧ sym.value ≠ 0 <;> rfl

theorem lookupSymbol_eq {name : String} (requester : Mapped) {libs : List Mapped}
    (hlibs : ∀ lib ∈ libs, ∀ a, lib.DefinedAt name a → a ≠ 0) :
    lookupSymbol name requester libs =
        ((libs.filter (· ≠ requester)).findSome? (·.definition name)).getD 0 := by
  induction libs with
  | nil => rfl
  | cons lib libs ih =>
    have hrest := ih fun lib hlib => hlibs lib (List.mem_cons_of_mem _ hlib)
    rw [lookupSymbol]
    by_cases hreq : lib = requester
    · rw [if_pos hreq,hrest,List.filter_cons_of_neg (by simpa using hreq)]
    · rw [if_neg hreq,List.filter_cons_of_pos (by simpa using hreq),List.findSome?_cons,lookupIn_eq]
      cases hdef : lib.definition name with
      | none => simpa using hrest
      | some a => exact if_pos (hlibs lib List.mem_cons_self a (Mapped.definition_eq_some hdef))

namespace Image

variable {img : Image} {overrides : List Override} {object : Mapped} {rel : Rel}
    {name : String} {a : Addr}

theorem defined_ne_base (ho : object ∈ img.objects) {other : Mapped} (hother : other ∈ img.objects)
    (h : other.DefinedAt name a) : a ≠ object.base := by
  obtain ⟨sym,hsym,-,hvalue,rfl⟩ := h
  exact img.header object ho other hother sym hsym hvalue

theorem defined_ne_zero (ho : object ∈ img.objects) (h : object.DefinedAt name a) : a ≠ 0 :=
  img.absolute ▸ defined_ne_base List.mem_cons_self ho h

theorem lookup_eq (img : Image) (object : Mapped) (name : String) :
    lookupSymbol name object img.objects =
    ((img.objects.filter (· ≠ object)).findSome? (·.definition name)).getD 0 :=
  lookupSymbol_eq object fun _ hlib _ => defined_ne_zero hlib

end Image

end ScalesOS.Ld
