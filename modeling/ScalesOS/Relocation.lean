import ScalesOS.Loader
import ScalesOS.ByteMemory

/-! Relocation and symbol lookup in `user/ld/ld.c`: `relocate_objects` with all that it calls,
and `resolve_symbol`, which binds a slot of the procedure linkage table at the first call
through it. -/
namespace ScalesOS.Ld
open ByteMemory

/-- A word of the address space. -/
abbrev Addr := BitVec 32

def readWord (mem : Mem) (a : Addr) : Addr := .ofNat 32 (read32 mem a.toNat)

def writeWord (mem : Mem) (a v : Addr) : Mem := write32 mem a.toNat v.toNat

/-- What is read of an `Elf32_Sym`, with the name that `st_name` leads to. -/
structure Sym where
  name : String
  value : Addr
  size : BitVec 32
  info : BitVec 8
  deriving DecidableEq

def STB_WEAK : BitVec 8 := 2

/-- `ELF32_ST_BIND` -/
def Sym.binding (symbol : Sym) : BitVec 8 := symbol.info >>> 4

/-- The relocation types that have a case in `object_relocate_section`. -/
inductive RelType
  | R_386_32
  | R_386_PC32
  | R_386_COPY
  | R_386_GLOB_DAT
  | R_386_JMP_SLOT
  | R_386_RELATIVE
  | unknown (type : BitVec 8)
  deriving DecidableEq

/-- An `Elf32_Rel`. -/
structure Rel where
  offset : Addr
  info : BitVec 32
  deriving DecidableEq

/-- `ELF32_R_SYM` -/
def Rel.sym (rel : Rel) : ℕ := (rel.info >>> 8).toNat

/-- `ELF32_R_TYPE` -/
def Rel.type (rel : Rel) : RelType :=
  match (rel.info.setWidth 8).toNat with
  | 1 => .R_386_32
  | 2 => .R_386_PC32
  | 5 => .R_386_COPY
  | 6 => .R_386_GLOB_DAT
  | 7 => .R_386_JMP_SLOT
  | 8 => .R_386_RELATIVE
  | _ => .unknown (rel.info.setWidth 8)

/-- An object in memory. Its relocations name entries of its symbol table. -/
structure Mapped extends Object where
  base : Addr
  dynSymtab : List Sym
  reldyn : List Rel
  relplt : List Rel
  inTable : ∀ rel ∈ reldyn++relplt, rel.sym < dynSymtab.length
  deriving DecidableEq

def Mapped.symbol (object : Mapped) (rel : Rel) : Sym := object.dynSymtab.getD rel.sym ⟨"",0,0,0⟩

def Mapped.location (object : Mapped) (rel : Rel) : Addr := object.base+rel.offset

/-- `overriden_symbol_t` -/
structure Override where
  name : String
  addr : Addr
  src : Addr
  deriving DecidableEq

/-- The ways to `exit(-1)`. -/
inductive Failure
  | unresolved (symbol : Sym)
  | copyUnresolved (symbol : Sym)
  | copyWithoutSource
  | unknownType (type : BitVec 8)
  | lazyUnresolved (symbol : Sym)
  deriving DecidableEq

def Failure.message : Failure → String
  | .unresolved symbol => "Unresolved symbol: " ++ symbol.name ++ "\n"
  | .copyUnresolved symbol => "LD: failed to resolve symbol for copy: " ++ symbol.name ++ "\n"
  | .copyWithoutSource => "Copy without source? This should not be.\n"
  | .unknownType type => "LD: Unknown relocation type: " ++ toString type.toNat ++ "\n"
  | .lazyUnresolved symbol => "LD: Failed to resolve symbol: " ++ symbol.name ++ "\n"

def getSymbolOverride (overrides : List Override) (name : String) : Option Override :=
  overrides.find? fun s => s.name = name

/-- `lookup_symbol` in one object. -/
def lookupIn (lib : Mapped) (name : String) : Addr :=
  match lib.dynSymtab.find? fun sym => sym.name = name ∧ sym.value ≠ 0 with
  | some sym => lib.base+sym.value
  | none => 0

/-- `lookup_symbol` in all objects but the one that asks. -/
def lookupSymbol (name : String) (requester : Mapped) : List Mapped → Addr
  | [] => 0
  | lib::libs =>
    if lib = requester then lookupSymbol name requester libs
    else if lookupIn lib name ≠ 0 then lookupIn lib name
    else lookupSymbol name requester libs

/-- `rel` is the entry of `relplt` at the index that the slot's stub has pushed. -/
def resolveSymbol (loaded : List Mapped) (object : Mapped) (rel : Rel) (mem : Mem) :
    Except Failure (Addr × Mem) :=
  let symbol := object.symbol rel
  let addr := lookupSymbol symbol.name object loaded
  if addr ≠ 0 then pure (addr,writeWord mem (object.location rel) addr)
  else throw (.lazyUnresolved symbol)

def symbolAddress (overrides : List Override) (object : Mapped) (rel : Rel) : Addr :=
  match getSymbolOverride overrides (object.symbol rel).name with
  | none => object.base+(object.symbol rel).value
  | some ovs => ovs.addr

/-- The body of the loop in `object_relocate_section`. -/
def relocate (overrides : List Override) (object : Mapped) (mem : Mem) (rel : Rel) :
    Except Failure Mem :=
  let symbol := object.symbol rel
  let location := object.location rel
  let address := symbolAddress overrides object rel
  match rel.type with
  | .R_386_GLOB_DAT | .R_386_JMP_SLOT =>
    if address = object.base then pure mem else pure (writeWord mem location address)
  | .R_386_32 =>
    if address = object.base then
      if symbol.binding &&& STB_WEAK ≠ 0 then pure mem else throw (.unresolved symbol)
    else pure (writeWord mem location (readWord mem location+address))
  | .R_386_PC32 => pure (writeWord mem location (readWord mem location+(address-location)))
  | .R_386_RELATIVE => pure (writeWord mem location (readWord mem location+object.base))
  | .R_386_COPY =>
    match getSymbolOverride overrides symbol.name with
    | none => throw .copyWithoutSource
    | some ovs => pure (copy mem location.toNat ovs.src.toNat symbol.size.toNat)
  | .unknown type => throw (.unknownType type)

section
variable {σ α ε : Type}

def FirstStop (stops : α → ε → Prop) (e : ε) : List α → Prop
  | [] => False
  | a::list => stops a e ∨ (∀ e', ¬stops a e') ∧ FirstStop stops e list

end

inductive Stops (overrides : List Override) (object : Mapped) (rel : Rel) : Failure → Prop
  | unresolved (ht : rel.type = .R_386_32)
      (haddr : symbolAddress overrides object rel = object.base)
    (hweak : (object.symbol rel).binding &&& STB_WEAK = 0) :
    Stops overrides object rel (.unresolved (object.symbol rel))
  | noSource (ht : rel.type = .R_386_COPY)
      (hovs : getSymbolOverride overrides (object.symbol rel).name = none) :
    Stops overrides object rel .copyWithoutSource
  | unknownType {type : BitVec 8} (ht : rel.type = .unknown type) :
      Stops overrides object rel (.unknownType type)

/-- The number of bytes that a relocation changes. -/
def Mapped.width (object : Mapped) (rel : Rel) : ℕ :=
  if rel.type = .R_386_COPY then (object.symbol rel).size.toNat else 4

def relocated (overrides : List Override) (object : Mapped) (rel : Rel) (word : Addr) : Addr :=
  let address := symbolAddress overrides object rel
  match rel.type with
  | .R_386_GLOB_DAT | .R_386_JMP_SLOT => if address = object.base then word else address
  | .R_386_32 => if address = object.base then word else word+address
  | .R_386_PC32 => word+(address-object.location rel)
  | _ => word

/-- The relocations that refer to a symbol. -/
def Rel.Refers (rel : Rel) : Prop :=
  rel.type = .R_386_GLOB_DAT ∨ rel.type = .R_386_JMP_SLOT ∨ rel.type = .R_386_32 ∨
    rel.type = .R_386_PC32

end ScalesOS.Ld
