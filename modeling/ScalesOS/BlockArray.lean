import ScalesOS.Tmpfs
import Mathlib.Logic.Relation

/-!
# The block array of a file

Which words of the array the reads and writes of `fs/tmpfs.c` look at, and how many blocks
there are beside how many the array has been allocated for.
-/

namespace ScalesOS
open ByteMemory Storage

/-- A call on a file. `node_size` is the size in the caller's node. -/
inductive TmpfsCall
  | write (supply : Supply) (offset : ℕ) (data : List (BitVec 8))
  | read (supply : Supply) (node_size offset size : ℕ)

namespace TmpfsNode

abbrev Copy := ℕ × ℕ × List (BitVec 8)

def copies (buffer : Mem) (offset size : ℕ) : List Copy :=
  let block_offset := offset/TMPFS_BLOCK_SIZE
  let part_offset := offset%TMPFS_BLOCK_SIZE
  let part_size := partSize offset size
  let full_blocks_required := size/TMPFS_BLOCK_SIZE
  let first := block_offset+(if 0 < part_offset then 1 else 0)
  (if part_offset ≠ 0 then [(block_offset,part_offset,load buffer 0 part_size)] else [])++
    (List.range full_blocks_required).map (fun i =>
      (first+i,0,load buffer (part_size+i*TMPFS_BLOCK_SIZE) TMPFS_BLOCK_SIZE))++
    (if partBlockRequired offset size ≠ 0 then
      [(first+full_blocks_required,0,
        load buffer (part_size+full_blocks_required*TMPFS_BLOCK_SIZE)
        (partBlockRequired offset size))] else [])

def copyAll : List Copy → TmpfsNode → Result TmpfsNode
  | [], node => pure node
  | (i,word,data) :: rest, node => do
    let node ← node.copyIn i word data
    copyAll rest node

def copyDerefs : List Copy → TmpfsNode → List ℕ
  | [], _ => []
  | (i,word,data) :: rest, node =>
    i :: match node.copyIn i word data with
      | .ok node => copyDerefs rest node
      | .error _ => []

theorem copyAll_append (l l' : List Copy) : ∀ node, copyAll (l++l') node = copyAll l node >>=
    copyAll l' := by
  induction l with
  | nil => exact fun node => rfl
  | cons x l ih =>
    intro node
    obtain ⟨i,word,data⟩ := x
    rw [List.cons_append,copyAll,copyAll]
    cases node.copyIn i word data with
    | ok node => exact ih node
    | error e => rfl

theorem writeBlocks_eq (buffer : Mem) (first start n : ℕ) (node : TmpfsNode) :
    writeBlocks buffer first start n node =
    copyAll ((List.range n).map fun i =>
        (first+i,0,load buffer (start+i*TMPFS_BLOCK_SIZE) TMPFS_BLOCK_SIZE)) node := by
  induction n with
  | zero => rfl
  | succ n ih =>
    rw [List.range_succ,List.map_append,List.map_singleton,copyAll_append,← ih,writeBlocks]
    cases writeBlocks buffer first start n node with
    | ok node =>
      change node.copyIn _ _ _ = (node.copyIn _ _ _ >>= pure)
      exact (bind_pure _).symm
    | error e => rfl

theorem copyAll_if (c : Prop) [Decidable c] (i word : ℕ) (data : List (BitVec 8)) :
    copyAll (if c then [(i,word,data)] else []) = fun node => if c then node.copyIn i word data
    else pure node := by
  funext node
  split
  · exact bind_pure _
  · rfl

theorem storeData_eq (node : TmpfsNode) (buffer : Mem) (offset size : ℕ) :
    node.storeData buffer offset size = copyAll (copies buffer offset size) node := by
  rw [storeData,copies]
  dsimp only
  rw [copyAll_append,copyAll_append,copyAll_if,copyAll_if,bind_assoc]
  simp only [← writeBlocks_eq]
  by_cases hpart : offset%TMPFS_BLOCK_SIZE ≠ 0
  · rw [if_pos hpart,if_pos hpart]
  · rw [if_neg hpart,if_neg hpart]

variable {node node' : TmpfsNode} {supply : Supply} {i : ℕ}

/-- A write looks up as many blocks as it requires, from the one on that its offset is in. -/
theorem mem_copies (buffer : Mem) (offset size i : ℕ) :
    i ∈ (copies buffer offset size).map Prod.fst ↔
    offset/TMPFS_BLOCK_SIZE ≤ i ∧ i < offset/TMPFS_BLOCK_SIZE+requiredBlocks offset size := by
  have hmiddle : ∀ first n : ℕ, i ∈ (List.range n).map (fun k => first+k) ↔
      first ≤ i ∧ i < first+n := by
    intro first n
    rw [List.mem_map]
    constructor
    · rintro ⟨k,hk,rfl⟩
      have hlt := List.mem_range.mp hk
      omega
    · intro h
      exact ⟨i-first,List.mem_range.mpr (by omega),by omega⟩
  rw [copies,List.map_append,List.map_append,List.map_map,List.mem_append,
    List.mem_append,requiredBlocks]
  change (_ ∨ i ∈ (List.range (size/TMPFS_BLOCK_SIZE)).map (fun k =>
    offset/TMPFS_BLOCK_SIZE+(if 0 < offset%TMPFS_BLOCK_SIZE then 1 else 0)+k)) ∨ _ ↔ _
  rw [hmiddle]
  generalize partBlockRequired offset size = part
  generalize offset/TMPFS_BLOCK_SIZE = block_offset
  generalize size/TMPFS_BLOCK_SIZE = full
  generalize offset%TMPFS_BLOCK_SIZE = part_offset
  by_cases hoffset : part_offset = 0
  · by_cases hpart : part = 0
    · simp only [hoffset,hpart,lt_irrefl,not_true_eq_false,ne_eq,if_false,List.map_nil,
        List.not_mem_nil,false_or,or_false]
      omega
    · rw [if_neg (not_not_intro hoffset),if_pos hpart,if_neg (by omega),if_pos (by omega)]
      simp only [List.map_nil,List.not_mem_nil,false_or,List.map_singleton,List.mem_singleton]
      omega
  · by_cases hpart : part = 0
    · rw [if_pos hoffset,if_neg (not_not_intro hpart),if_pos (by omega),if_neg (by omega)]
      simp only [List.map_nil,List.not_mem_nil,or_false,List.map_singleton,List.mem_singleton]
      omega
    · rw [if_pos hoffset,if_pos hpart,if_pos (by omega),if_pos (by omega)]
      simp only [List.map_singleton,List.mem_singleton]
      omega

theorem copyIn_ret {word : ℕ} {data : List (BitVec 8)} (h : node.copyIn i word data = .ok node') :
    ∃ m, node' = {node with mappings := m} := by
  obtain ⟨block,-,h⟩ := Result.bind_eq_ok.mp h
  dsimp only at h
  split at h
  · exact ⟨_,(Except.ok.inj h).symm⟩
  · cases h

theorem copyAll_ret (l : List Copy) : ∀ {node}, copyAll l node = .ok node' →
    ∃ m, node' = {node with mappings := m} := by
  induction l with
  | nil => exact fun {node} h => ⟨node.mappings,(Except.ok.inj h).symm⟩
  | cons x l ih =>
    intro node h
    obtain ⟨i,word,data⟩ := x
    obtain ⟨one,hone,h⟩ := Result.bind_eq_ok.mp h
    obtain ⟨m,rfl⟩ := copyIn_ret hone
    obtain ⟨m',rfl⟩ := ih h
    exact ⟨m',rfl⟩

theorem copyDerefs_subset (l : List Copy) : ∀ node, copyDerefs l node ⊆ l.map Prod.fst := by
  induction l with
  | nil => exact fun node => List.Subset.refl _
  | cons x l ih =>
    intro node
    obtain ⟨i,word,data⟩ := x
    rw [copyDerefs,List.map_cons]
    refine List.cons_subset_cons i ?_
    split
    · exact ih _
    · exact List.nil_subset _

theorem copyDerefs_ok (l : List Copy) : ∀ {node}, copyAll l node = .ok node' →
    copyDerefs l node = l.map Prod.fst := by
  induction l with
  | nil => exact fun _ => rfl
  | cons x l ih =>
    intro node h
    obtain ⟨i,word,data⟩ := x
    obtain ⟨one,hone,h⟩ := Result.bind_eq_ok.mp h
    rw [copyDerefs,List.map_cons,hone]
    exact congrArg _ (ih h)

def MAX_BLOCKS : ℕ := (VIRTUAL_BASE-0x1000-TMPFS_MAP_START)/TMPFS_BLOCK_SIZE

/-- Arranged, but for the size of the array. -/
structure Placed (node : TmpfsNode) : Prop where
  last : node.last_map = blockAddress node.blocks_amount
  limit : node.blocks_amount ≤ MAX_BLOCKS
  slots : ∀ words, node.blocks = some words → ∀ i < node.blocks_amount, words i = blockAddress i
  blocks : node.block_array_size ≠ 0 → ∃ words, node.blocks = some words

theorem Placed.mappings (h : Placed node) (m : Mem) : Placed {node with mappings := m} :=
  ⟨h.last,h.limit,h.slots,h.blocks⟩

theorem mapBlock_placed (h : Placed node) (hlimit : node.last_map+0x1000 ≠ VIRTUAL_BASE) :
    node.blocks_amount < MAX_BLOCKS ∧ Placed {node with
      blocks_amount := node.blocks_amount+1
      blocks := node.blocks.map fun words => Function.update words node.blocks_amount node.last_map
      mappings := store node.mappings node.last_map (List.replicate 0x1000 0)
      last_map := node.last_map+TMPFS_BLOCK_SIZE} := by
  have hlast := h.last
  have hle := h.limit
  have hlt : node.blocks_amount < MAX_BLOCKS := by
    rw [blockAddress,TMPFS_MAP_START,TMPFS_BLOCK_SIZE] at hlast
    rw [VIRTUAL_BASE] at hlimit
    have hmax : MAX_BLOCKS = 0xAFFFF := by decide
    omega
  refine ⟨hlt,?_,hlt,?_,?_⟩
  · dsimp only
    rw [hlast,blockAddress,blockAddress,Nat.succ_mul,Nat.add_assoc]
  · exact slots_append hlast h.slots
  · exact fun hpos => blocks_map (h.blocks hpos) _

theorem mapBlocks_ret (n : ℕ) : ∀ {node}, Placed node → mapBlocks supply n node = .ok node' →
    Placed node' ∧ node'.blocks_amount = min (node.blocks_amount+n) MAX_BLOCKS ∧
      node'.block_array_size = node.block_array_size := by
  induction n with
  | zero =>
    intro node h hret
    obtain rfl := Except.ok.inj hret
    exact ⟨h,(min_eq_left h.limit).symm,rfl⟩
  | succ n ih =>
    intro node h hret
    rw [mapBlocks] at hret
    split at hret
    · rename_i hend
      obtain rfl := Except.ok.inj hret
      have hlast := h.last
      have hle := h.limit
      rw [blockAddress,TMPFS_MAP_START,TMPFS_BLOCK_SIZE] at hlast
      rw [VIRTUAL_BASE] at hend
      have hmax : MAX_BLOCKS = 0xAFFFF := by decide
      exact ⟨h,by omega,rfl⟩
    · rename_i hroom
      split at hret
      · obtain ⟨hlt,hplaced⟩ := mapBlock_placed h hroom
        obtain ⟨hplaced',hamount,harray⟩ := ih hplaced hret
        refine ⟨hplaced',hamount.trans ?_,harray⟩
        dsimp only
        rw [Nat.add_right_comm,Nat.add_assoc]
      · cases hret

theorem firstArray_ret (h : Placed node)
    (hzero : node.block_array_size = 0 → node.blocks_amount = 0)
    (hret : node.firstArray supply = .ok node') :
    Placed node' ∧ node'.blocks_amount = node.blocks_amount ∧
      node'.block_array_size = max node.block_array_size 1 := by
  rw [firstArray] at hret
  split at hret
  · rename_i harray
    obtain ⟨-,-,hret⟩ := Result.bind_eq_ok.mp hret
    obtain rfl := Except.ok.inj hret
    have hamount := hzero harray
    have hlast := h.last
    rw [hamount] at hlast
    refine ⟨⟨hlast,Nat.zero_le _,fun _ _ i hi => absurd hi (Nat.not_lt_zero i),fun _ => ⟨_,rfl⟩⟩,
      hamount.symm,?_⟩
    rw [harray]
    rfl
  · obtain rfl := Except.ok.inj hret
    exact ⟨h,rfl,by omega⟩

theorem doubleArray_ret (h : Placed node) (harray : node.blocks_amount ≤ node.block_array_size)
    (hword : 8*node.block_array_size < W32) {n : ℕ} (hret : node.doubleArray supply n = .ok node') :
    Placed node' ∧ node'.blocks_amount = node.blocks_amount ∧ node'.block_array_size =
      if node.blocks_amount+n ≤ node.block_array_size then 2*node.block_array_size
      else node.block_array_size := by
  rw [doubleArray] at hret
  split at hret
  · rename_i hfits
    obtain ⟨-,-,hret⟩ := Result.bind_eq_ok.mp hret
    obtain rfl := Except.ok.inj hret
    have hbytes : 4*node.block_array_size*2%W32 = 8*node.block_array_size := by
      rw [Nat.mod_eq_of_lt (by omega)]
      omega
    have hsize : node.block_array_size*2%W32 = 2*node.block_array_size := by
      rw [Nat.mod_eq_of_lt (by omega)]
      omega
    refine ⟨⟨h.last,h.limit,?_,?_⟩,rfl,?_⟩
    · exact slots_map (n:=node.blocks_amount) h.slots fun words i hi => if_pos (by omega)
    · intro hpos
      dsimp only at hpos
      exact blocks_map (h.blocks (by omega)) _
    · dsimp only
      rw [if_pos hfits,hsize]
  · rename_i hfew
    obtain rfl := Except.ok.inj hret
    exact ⟨h,rfl,(if_neg hfew).symm⟩

/-- The node after the blocks that a write requires have been allocated. -/
theorem ensureBlocks_ret (h : Placed node) (harray : node.blocks_amount ≤ node.block_array_size)
    {required : ℕ} (hword : node.blocks_amount < required → 8*max node.block_array_size 1 < W32)
    (hret : node.ensureBlocks supply required = .ok node') :
    Placed node' ∧ node'.blocks_amount = max node.blocks_amount (min required MAX_BLOCKS) ∧
      node'.block_array_size = if node.blocks_amount < required then
        (if required ≤ max node.block_array_size 1 then 2*max node.block_array_size 1
          else max node.block_array_size 1)
        else node.block_array_size := by
  have hlimit := h.limit
  rw [ensureBlocks] at hret
  split at hret
  · rename_i hfew
    have hword := hword hfew
    obtain ⟨one,hone,hret⟩ := Result.bind_eq_ok.mp hret
    obtain ⟨two,htwo,hret⟩ := Result.bind_eq_ok.mp hret
    obtain ⟨hplaced,hamount,hsize⟩ := firstArray_ret h (fun hzero => by omega) hone
    obtain ⟨hplaced',hamount',hsize'⟩ := doubleArray_ret hplaced (by omega) (by omega) htwo
    obtain ⟨hplaced'',hamount'',hsize''⟩ := mapBlocks_ret _ hplaced' hret
    refine ⟨hplaced'',by omega,?_⟩
    rw [hsize'',hsize',hamount,hsize,if_pos hfew,
      show node.blocks_amount+(required-node.blocks_amount) = required by omega]
  · rename_i hfew
    obtain rfl := Except.ok.inj hret
    exact ⟨h,by omega,(if_neg hfew).symm⟩

/-- The blocks that the loop and the end of a read look up, up to a block that is missing or a
page fault: `n` whole ones are left. -/
def readDerefs (node : TmpfsNode) (block_offset : ℕ) : (n i part_offset : ℕ) → List ℕ
  | 0, i, _ => [block_offset+i]
  | n+1, i, part_offset =>
    (block_offset+i) :: match node.slot (block_offset+i) with
      | .ok block =>
        if block = 0 then []
        else
          match node.copyOut block part_offset TMPFS_BLOCK_SIZE with
          | .ok _ => readDerefs node block_offset n (i+1) 0
          | .error _ => []
      | .error _ => []

def call (node : TmpfsNode) : TmpfsCall → Result TmpfsNode
  | .write supply offset data => do
    let (_,node) ← node.write supply offset data
    pure node
  | .read supply node_size offset size => do
    let _ ← node.read supply node_size offset size
    pure node

/-- The blocks that a call looks up in the array, each with the number of blocks at that time. -/
def derefs (node : TmpfsNode) : TmpfsCall → List (ℕ × ℕ)
  | .write supply offset data =>
    match supply.malloc data.length with
    | .error _ => []
    | .ok _ =>
      match node.ensureBlocks supply (requiredBlocks offset data.length) with
      | .error _ => []
      | .ok one =>
        (copyDerefs (copies (store supply.bytes 0 data) offset data.length) one).map fun i =>
        (i,one.blocks_amount)
  | .read supply node_size offset size =>
    if size = 0 ∨ node_size < offset then []
    else
      match supply.malloc (readSize node_size offset size) with
      | .error _ => []
      | .ok _ =>
        (readDerefs node (offset/TMPFS_BLOCK_SIZE)
          (readSize node_size offset size/TMPFS_BLOCK_SIZE) 0
          (offset%TMPFS_BLOCK_SIZE)).map fun i => (i,node.blocks_amount)

/-- Twice the array still has a size in bytes. -/
def Sizable (node : TmpfsNode) : Prop := 8*max node.block_array_size 1 < W32

/-- A write finds its blocks, or starts in the first block of a file whose array, before it
grows, has room for all that it requires. A read ends before the last block. -/
def Within (node : TmpfsNode) : TmpfsCall → Prop
  | .write _ offset data =>
    requiredBlocks offset data.length = 0 ∨
      offset/TMPFS_BLOCK_SIZE+requiredBlocks offset data.length ≤ node.blocks_amount ∨
      (offset < TMPFS_BLOCK_SIZE ∧ requiredBlocks offset data.length ≤ max node.block_array_size 1 ∧
        requiredBlocks offset data.length ≤ MAX_BLOCKS ∧ Sizable node)
  | .read _ node_size offset size =>
    size = 0 ∨ node_size < offset ∨
      offset/TMPFS_BLOCK_SIZE+readSize node_size offset size/TMPFS_BLOCK_SIZE < node.blocks_amount

instance (node : TmpfsNode) (c : TmpfsCall) : Decidable (Within node c) := by
  cases c <;> unfold Within Sizable <;> infer_instance

/-- What the array has to keep. -/
structure Bounded (node : TmpfsNode) : Prop extends Placed node where
  array : node.blocks_amount ≤ node.block_array_size

theorem readDerefs_le (node : TmpfsNode) (block_offset n : ℕ) : ∀ i part_offset,
    ∀ x ∈ readDerefs node block_offset n i part_offset, x ≤ block_offset+i+n := by
  induction n with
  | zero =>
    intro i part_offset x hx
    rw [List.mem_singleton.mp hx]
    rfl
  | succ n ih =>
    intro i part_offset x hx
    rw [readDerefs] at hx
    rcases List.mem_cons.mp hx with rfl | hx
    · omega
    · split at hx
      · split at hx
        · cases hx
        · split at hx
          · have hle := ih (i+1) 0 x hx
            omega
          · cases hx
      · cases hx

theorem readDerefs_ok (h : Placed node) (block_offset n : ℕ) : ∀ i part_offset copied r,
    node.readBlocks block_offset n i part_offset copied = .ok r →
    (∀ x ∈ readDerefs node block_offset n i part_offset, x < node.blocks_amount) →
    block_offset+i+n < node.blocks_amount := by
  induction n with
  | zero => exact fun i part_offset copied r _ hall => hall _ (List.mem_singleton.mpr rfl)
  | succ n ih =>
    intro i part_offset copied r hret hall
    obtain ⟨block,hslot,hret⟩ := Result.bind_eq_ok.mp hret
    have hi := hall (block_offset+i) (by rw [readDerefs]; exact List.mem_cons_self)
    -- the words of the blocks that are there are not null
    have hne : block ≠ 0 := by
      rw [slot] at hslot
      cases hwords : node.blocks with
      | none =>
        rw [hwords] at hslot
        cases hslot
      | some words =>
        rw [hwords] at hslot
        have hword := h.slots words hwords _ hi
        obtain rfl := Except.ok.inj hslot
        rw [hword,blockAddress,TMPFS_MAP_START]
        omega
    rw [if_neg hne] at hret
    obtain ⟨bytes,hbytes,hret⟩ := Result.bind_eq_ok.mp hret
    have hnext := ih (i+1) 0 _ r hret fun x hx => hall x (by
      rw [readDerefs,hslot]
      dsimp only
      rw [if_neg hne,hbytes]
      exact List.mem_cons_of_mem _ hx)
    omega

/-- The blocks that a write looks up are there if it keeps to the condition. -/
theorem write_within (h : Bounded node) {offset : ℕ} {data : List (BitVec 8)}
    (hsize : node.blocks_amount < requiredBlocks offset data.length → Sizable node)
    (hret : node.ensureBlocks supply (requiredBlocks offset data.length) = .ok node') :
    Placed node' ∧ ((node'.blocks_amount ≤ node'.block_array_size ∧
        ∀ i ∈ (copies (store supply.bytes 0 data) offset data.length).map Prod.fst,
        i < node'.blocks_amount) ↔
      Within node (.write supply offset data)) := by
  have harray := h.array
  have hlimit := h.limit
  obtain ⟨hplaced,hamount,hsize'⟩ := ensureBlocks_ret h.toPlaced harray hsize hret
  refine ⟨hplaced,?_⟩
  have hblock : offset < TMPFS_BLOCK_SIZE ↔ offset/TMPFS_BLOCK_SIZE = 0 := by
    rw [Nat.div_eq_zero_iff]
    exact ⟨.inr,fun h => h.resolve_left (by decide)⟩
  rw [Within,hblock]
  simp only [mem_copies]
  generalize requiredBlocks offset data.length = required at *
  generalize offset/TMPFS_BLOCK_SIZE = block_offset at *
  have hall : (∀ i, block_offset ≤ i ∧ i < block_offset+required → i < node'.blocks_amount) ↔
      required = 0 ∨ block_offset+required ≤ node'.blocks_amount := by
    constructor
    · intro hall
      by_cases hzero : required = 0
      · exact .inl hzero
      · have hlast := hall (block_offset+required-1) (by omega)
        exact .inr (by omega)
    · intro hor i hi
      omega
  rw [hall,hsize',hamount]
  split
  · rename_i hfew
    have hword := hsize hfew
    simp only [hword,and_true]
    split <;> omega
  · constructor
    · intro hor
      omega
    · rintro (hzero | hin | ⟨hfirst,-⟩) <;> omega

theorem Within.sizable {offset : ℕ} {data : List (BitVec 8)}
    (h : Within node (.write supply offset data))
    (hfew : node.blocks_amount < requiredBlocks offset data.length) : Sizable node := by
  rcases h with hzero | hin | hfirst
  · omega
  · exact absurd (le_trans (Nat.le_add_left _ _) hin) (by omega)
  · exact hfirst.2.2.2

theorem call_within (h : Bounded node) (c : TmpfsCall) :
    (Within node c → ∀ x ∈ node.derefs c, x.1 < x.2) ∧
    ∀ t, node.call c = .ok t → (Within node c → Bounded t) ∧ (Sizable node →
      (t.blocks_amount ≤ t.block_array_size ∧ (∀ x ∈ node.derefs c, x.1 < x.2) ↔
        Within node c)) := by
  cases c with
  | write supply offset data =>
    constructor
    · intro hwithin x hx
      rw [derefs] at hx
      split at hx
      · cases hx
      · split at hx
        · cases hx
        · rename_i one hone
          obtain ⟨i,hi,rfl⟩ := List.mem_map.mp hx
          exact ((write_within h hwithin.sizable hone).2.mpr hwithin).2 i (copyDerefs_subset _ _ hi)
    · intro t hret
      obtain ⟨r,hwrite,hret⟩ := Result.bind_eq_ok.mp hret
      obtain rfl := Except.ok.inj hret
      obtain ⟨⟨⟩,hmalloc,hwrite⟩ := Result.bind_eq_ok.mp hwrite
      obtain ⟨one,hone,hwrite⟩ := Result.bind_eq_ok.mp hwrite
      obtain ⟨two,hstore,hwrite⟩ := Result.bind_eq_ok.mp hwrite
      obtain rfl := Except.ok.inj hwrite
      rw [storeData_eq] at hstore
      have hderefs : node.derefs (.write supply offset data) =
          ((copies (store supply.bytes 0 data) offset data.length).map Prod.fst).map fun i =>
          (i,one.blocks_amount) := by
        rw [derefs,hmalloc]
        dsimp only
        rw [hone]
        dsimp only
        rw [copyDerefs_ok _ hstore]
      obtain ⟨m,rfl⟩ := copyAll_ret _ hstore
      refine ⟨fun hwithin => ?_,fun hsize => ?_⟩
      · obtain ⟨hplaced,hiff⟩ := write_within h hwithin.sizable hone
        exact ⟨⟨hplaced.last,hplaced.limit,hplaced.slots,hplaced.blocks⟩,(hiff.mpr hwithin).1⟩
      · rw [← (write_within h (fun _ => hsize) hone).2,hderefs,List.forall_mem_map]
  | read supply node_size offset size =>
    constructor
    · intro hwithin x hx
      rw [derefs] at hx
      split at hx
      · cases hx
      · rename_i hread
        rw [not_or] at hread
        split at hx
        · cases hx
        · obtain ⟨i,hi,rfl⟩ := List.mem_map.mp hx
          have hle := readDerefs_le _ _ _ _ _ i hi
          have hlast := (hwithin.resolve_left hread.1).resolve_left hread.2
          dsimp only
          omega
    · intro t hret
      obtain ⟨r,hread,hret⟩ := Result.bind_eq_ok.mp hret
      obtain rfl := Except.ok.inj hret
      refine ⟨fun _ => h,fun _ => ?_⟩
      rw [and_iff_right h.array,derefs,Within]
      rw [read] at hread
      by_cases hzero : size = 0
      · rw [if_pos (.inl hzero)]
        exact iff_of_true (fun x hx => by cases hx) (.inl hzero)
      · by_cases hbehind : node_size < offset
        · rw [if_pos (.inr hbehind)]
          exact iff_of_true (fun x hx => by cases hx) (.inr (.inl hbehind))
        · rw [if_neg (not_or.mpr ⟨hzero,hbehind⟩),or_iff_right hzero,or_iff_right hbehind]
          rw [if_neg hzero,if_neg hbehind] at hread
          dsimp only at hread
          obtain ⟨⟨⟩,hmalloc,hread⟩ := Result.bind_eq_ok.mp hread
          obtain ⟨r',hblocks,-⟩ := Result.bind_eq_ok.mp hread
          rw [hmalloc]
          dsimp only
          rw [List.forall_mem_map]
          constructor
          · exact readDerefs_ok h.toPlaced _ _ 0 _ [] r' hblocks
          · intro hlast i hi
            have hle := readDerefs_le _ _ _ _ _ i hi
            dsimp only
            omega

/-- Calls of a kind on one file. -/
def Step (allowed : TmpfsNode → TmpfsCall → Prop) (s t : TmpfsNode) : Prop :=
  ∃ c, allowed s c ∧ s.call c = .ok t

theorem create_bounded (memory : Mem) : Bounded (create memory) where
  last := show TMPFS_MAP_START = blockAddress 0 by decide
  limit := Nat.zero_le _
  slots := fun _ h => by cases h
  blocks := fun h => absurd rfl h
  array := le_rfl

/-- In every run of calls that keep to the condition there are at most as many blocks as the
array has been allocated for, and no call that keeps to it looks up a block that is not there.
A call that returns keeps both just if it keeps to the condition. -/
theorem block_array (memory : Mem) {s : TmpfsNode}
    (h : Relation.ReflTransGen (Step Within) (create memory) s) :
    s.blocks_amount ≤ s.block_array_size ∧ ∀ c, (Within s c → ∀ x ∈ s.derefs c, x.1 < x.2) ∧
      ∀ t, s.call c = .ok t → Sizable s →
        (t.blocks_amount ≤ t.block_array_size ∧ (∀ x ∈ s.derefs c, x.1 < x.2) ↔ Within s c) := by
  have hs : Bounded s :=
    reach_invariant (I:=Bounded) (fun s t hs ⟨c,hwithin,hret⟩ =>
      ((call_within hs c).2 t hret).1 hwithin) (create_bounded memory) h
  exact ⟨hs.array,fun c => ⟨(call_within hs c).1,fun t hret => ((call_within hs c).2 t hret).2⟩⟩

/-- Three bytes are written and read again. -/
theorem block_array_three : ∃ s :
    TmpfsNode, Relation.ReflTransGen (Step Within) (create fun _ => 0) s ∧
    s.blocks_amount ≤ s.block_array_size ∧ s.derefs (.read plenty 3 0 3) = [(0,1)] ∧
    (0 : ℕ) < 1 := by
  have hrun : (((create fun _ => 0).call (.write plenty 0 [1,2,3])).toOption.any fun s =>
      decide (s.derefs (.read plenty 3 0 3) = [(0,1)] ∧ Within s (.read plenty 3 0 3))) =
        true := by decide +kernel
  obtain ⟨s,hret,h⟩ := (Option.any_eq_true _ _).mp hrun
  obtain ⟨hderefs,hwithin⟩ := of_decide_eq_true h
  have hreach : Relation.ReflTransGen (Step Within) (create fun _ => 0) s :=
    .single ⟨_,by decide +kernel,Result.eq_ok_of_toOption hret⟩
  obtain ⟨harray,hcall⟩ := block_array (fun _ => 0) hreach
  exact ⟨s,hreach,harray,hderefs,(hcall _).1 hwithin _ (by rw [hderefs]; exact List.mem_cons_self)⟩

/-- Two blocks are written into an array for one; and a byte is written behind the first block of
an empty file, which gets one block for it. -/
theorem block_array_overrun :
    (¬ ∀ (memory : Mem) (s : TmpfsNode),
      Relation.ReflTransGen (Step fun _ _ => True) (create memory) s →
      s.blocks_amount ≤ s.block_array_size) ∧
    ¬ ∀ (memory : Mem) (s : TmpfsNode),
    Relation.ReflTransGen (Step fun _ _ => True) (create memory) s →
      ∀ c, ∀ x ∈ s.derefs c, x.1 < x.2 := by
  constructor
  · intro hall
    have hrun :
        (((create fun _ => 0).call (.write plenty 1 [1,2])).toOption.any fun s =>
        decide (s.blocks_amount = 2 ∧ s.block_array_size = 1)) = true := by decide +kernel
    obtain ⟨s,hret,h⟩ := (Option.any_eq_true _ _).mp hrun
    have hfew := of_decide_eq_true h
    have hle := hall (fun _ => 0) s (.single ⟨_,trivial,Result.eq_ok_of_toOption hret⟩)
    omega
  · intro hall
    have hderefs : (create fun _ => 0).derefs (.write plenty TMPFS_BLOCK_SIZE [1]) = [(1,1)] := by
      decide +kernel
    have hlt := hall (fun _ => 0) _ .refl _ (1,1) (by rw [hderefs]; exact List.mem_cons_self)
    exact absurd hlt (by decide)

end TmpfsNode
end ScalesOS
