import ScalesOS.Machine

/-!
# The status file of a process

`fctprintf` gives the text of the file to a callback, one character at a time. The callback
takes the address of the buffer before it makes the buffer larger, and a read copies from the
start of the buffer, whatever its offset is.
-/

namespace ScalesOS
namespace Procfs

/-- The blocks that `malloc` and `realloc` have given, by number: their sizes while they are
allocated, and their bytes. -/
structure Heap where
  fresh : ℕ
  size : ℕ → Option ℕ
  bytes : ℕ → ℕ → Char

/-- The buffer of `proc_fs_node_t`, and the stores that hit no allocated block. -/
structure Node where
  heap : Heap
  buffer : ℕ
  bufferLength : ℕ
  bufferCapacity : ℕ
  stray : List (ℕ × ℕ)

def Heap.malloc (h : Heap) (size : ℕ) : Heap × ℕ :=
  (⟨h.fresh+1,Function.update h.size h.fresh (some size),h.bytes⟩,h.fresh)

/-- To another size: a new block gets the bytes that fit, and the old one is freed. -/
def Heap.realloc (h : Heap) (old size : ℕ) : Heap × ℕ :=
  let kept := (h.size old).getD 0
  (⟨h.fresh+1,Function.update (Function.update h.size old none) h.fresh (some size),
    Function.update h.bytes h.fresh fun i => if i < kept ∧ i < size then h.bytes old i
    else h.bytes h.fresh i⟩,h.fresh)

namespace Node

/-- `buffer[i] = c`. -/
def store (n : Node) (buffer i : ℕ) (c : Char) : Node :=
  match n.heap.size buffer with
  | some size =>
    if i < size then
      { n with heap := { n.heap with
        bytes := Function.update n.heap.bytes buffer (Function.update (n.heap.bytes buffer) i c) } }
    else { n with stray := n.stray++[(buffer,i)] }
  | none => { n with stray := n.stray++[(buffer,i)] }

/-- The `while` loop of the callback. -/
def grow (n : Node) : Node :=
  if n.bufferCapacity ≤ n.bufferLength then
    let (heap,buffer) := n.heap.realloc n.buffer (n.bufferCapacity+64)
    grow { n with heap, buffer, bufferCapacity := n.bufferCapacity+64 }
  else n
  termination_by n.bufferLength+1-n.bufferCapacity

def writeBuffer (n : Node) (c : Char) : Node :=
  let buffer := n.buffer
  let n := n.grow
  let n := n.store buffer n.bufferLength c
  { n with bufferLength := n.bufferLength+1 }

end Node

def NUL : Char := Char.ofNat 0

structure Name where
  chars : List Char
  fits : chars.length ≤ 255
  noNul : NUL ∉ chars

/-- What the status file shows of `process_t`. -/
structure Process where
  name : Name
  pid : BitVec 32
  state : BitVec 8

def procfsState (proc : Process) : String :=
  if proc.state = 0 then "R (starting)"
  else if proc.state = 1 then "R (running)"
  else if proc.state = 3 then "S (sleeping)"
  else if proc.state = 2 then "Z (zombie)"
  else "Unknown"

/-- The format with its arguments. -/
def statusText (proc : Process) : List Char :=
  "Name:  ".toList++proc.name.chars++"\nState: ".toList++(procfsState
    proc).toList++"\nPid:   ".toList++
    (fmtD proc.pid.toNat).toList

/-- `_out_fct` does not pass the terminating character on. -/
def outFct (n : Node) (c : Char) : Node := if c = NUL then n else n.writeBuffer c

def fctprintf (n : Node) (text : List Char) : Node := (text++[NUL]).foldl outFct n

/-- `__k_fs_procfs_process_fill_status` for a node from `calloc`. -/
def fillStatus (heap : Heap) (proc : Process) : Node :=
  let (heap,buffer) := heap.malloc 64
  fctprintf ⟨heap,buffer,0,64,[]⟩ (statusText proc)

/-- The bytes that `__k_fs_procfs_process_read` copies; it returns their number. -/
def processRead (n : Node) (offset size : ℕ) : List Char :=
  if n.bufferLength < offset then []
  else
    let size := if n.bufferLength < (offset+size)%W32 then n.bufferLength-offset else size
    (List.range size).map (n.heap.bytes n.buffer)

/-- Reads one after the other, each from where the last one ended. -/
def readAll (n : Node) : ℕ → List ℕ → List (List Char)
  | _, [] => []
  | offset, size::sizes =>
    let piece := processRead n offset size
    piece::readAll n (offset+piece.length) sizes

/-- Exactly the text is in the buffer, and all stores were into it. -/
structure Filled (n : Node) (text : List Char) : Prop where
  inside : n.stray = []
  length : n.bufferLength = text.length
  contents : (List.range text.length).map (n.heap.bytes n.buffer) = text

/-- The text in pieces of at most these sizes; behind the end they are empty. -/
def pieces (text : List Char) : ℕ → List ℕ → List (List Char)
  | _, [] => []
  | offset, size::sizes =>
    let piece := (text.drop offset).take size
    piece::pieces text (offset+piece.length) sizes

/-- Each piece is also the beginning of the text, and no end of a piece needs more than 32 bits. -/
def Repeats (text : List Char) : ℕ → List ℕ → Prop
  | _, [] => True
  | offset, size::sizes =>
    let piece := (text.drop offset).take size
    offset+size < W32 ∧ piece <+: text ∧ Repeats text (offset+piece.length) sizes

theorem flatten_pieces (text : List Char) (offset : ℕ) (sizes : List ℕ) :
    (pieces text offset sizes).flatten = (text.drop offset).take sizes.sum := by
  induction sizes generalizing offset with
  | nil => simp [pieces]
  | cons size sizes ih =>
    rw [pieces,List.flatten_cons,ih,List.sum_cons,List.take_add,List.length_take,List.length_drop]
    congr 1
    rcases le_total size (text.length-offset) with h | h
    · rw [min_eq_left h,List.drop_drop]
    · rw [min_eq_right h,List.drop_eq_nil_of_le (by omega),
        List.drop_eq_nil_of_le (by rw [List.length_drop]; omega)]

theorem nul_not_mem_repr (n : ℕ) : NUL ∉ (Nat.repr n).toList := fun h => by
  rw [Nat.repr,String.toList_ofList] at h
  have hdigit : NUL.isDigit = true := Nat.isDigit_of_mem_toDigits (by norm_num) (by norm_num) h
  simp [NUL,Char.isDigit] at hdigit

theorem nul_not_mem_fmtD (x : ℕ) : NUL ∉ (fmtD x).toList := by
  rw [fmtD]
  generalize (BitVec.ofNat 32 x).toInt = z
  cases z with
  | ofNat n => exact nul_not_mem_repr n
  | negSucc n =>
    change NUL ∉ ("-"++Nat.repr (n+1)).toList
    rw [String.toList_append,List.mem_append]
    exact not_or.mpr ⟨by decide,nul_not_mem_repr _⟩

theorem nul_not_mem_state (proc : Process) : NUL ∉ (procfsState proc).toList := by
  rw [procfsState]
  split_ifs <;> decide

theorem nul_not_mem_statusText (proc : Process) : NUL ∉ statusText proc := by
  have hstart : NUL ∉ "Name:  ".toList := by decide
  have hstate : NUL ∉ "\nState: ".toList := by decide
  have hpid : NUL ∉ "\nPid:   ".toList := by decide
  have hname := List.not_mem_append (List.not_mem_append hstart proc.name.noNul) hstate
  exact List.not_mem_append (List.not_mem_append
    (List.not_mem_append hname (nul_not_mem_state proc)) hpid) (nul_not_mem_fmtD _)

variable {n : Node} {c : Char} {text chars : List Char} {proc : Process} {heap : Heap} {offset : ℕ}
    {sizes : List ℕ}

theorem foldl_outFct (h : NUL ∉ text) : fctprintf n text = text.foldl Node.writeBuffer n := by
  rw [fctprintf,List.foldl_append]
  have hpass : text.foldl outFct n = text.foldl Node.writeBuffer n :=
    List.foldl_ext outFct Node.writeBuffer n fun n c hc => by
      rw [outFct,if_neg fun he : c = NUL => h (he ▸ hc)]
  rw [hpass,List.foldl_cons,List.foldl_nil,outFct,if_pos rfl]

/-- The buffer is a block of its capacity. -/
def Node.Sound (n : Node) : Prop :=
  n.heap.size n.buffer = some n.bufferCapacity ∧ n.buffer < n.heap.fresh

theorem writeBuffer_room (hsound : n.Sound) (hroom : n.bufferLength < n.bufferCapacity) :
    n.writeBuffer c = { n with
      heap := { n.heap with bytes := Function.update n.heap.bytes n.buffer (Function.update
        (n.heap.bytes n.buffer) n.bufferLength c) }
      bufferLength := n.bufferLength+1 } := by
  have hgrow : n.grow = n := by rw [Node.grow,if_neg (by omega)]
  rw [Node.writeBuffer,hgrow,Node.store,hsound.1]
  simp only [if_pos hroom]

theorem writes_room (hsound : n.Sound) (hroom : n.bufferLength+chars.length ≤ n.bufferCapacity) :
    (chars.foldl Node.writeBuffer n).Sound ∧ (chars.foldl Node.writeBuffer n).stray = n.stray ∧
    (chars.foldl Node.writeBuffer n).bufferLength = n.bufferLength+chars.length ∧
    (chars.foldl Node.writeBuffer n).bufferCapacity = n.bufferCapacity ∧
    (List.range (n.bufferLength+chars.length)).map
      ((chars.foldl Node.writeBuffer n).heap.bytes (chars.foldl Node.writeBuffer n).buffer) =
      (List.range n.bufferLength).map (n.heap.bytes n.buffer)++chars := by
  induction chars generalizing n with
  | nil => exact ⟨hsound,rfl,rfl,rfl,by simp⟩
  | cons c chars ih =>
    rw [List.length_cons] at hroom
    have hwrite := writeBuffer_room (c:=c) hsound (by omega)
    have hsound' : (n.writeBuffer c).Sound := by
      rw [hwrite]
      exact hsound
    have hlength : (n.writeBuffer c).bufferLength = n.bufferLength+1 := by rw [hwrite]
    have hcapacity : (n.writeBuffer c).bufferCapacity = n.bufferCapacity := by rw [hwrite]
    have hbytes :
      (List.range (n.bufferLength+1)).map ((n.writeBuffer c).heap.bytes (n.writeBuffer c).buffer) =
        (List.range n.bufferLength).map (n.heap.bytes n.buffer)++[c] := by
      rw [hwrite,List.range_succ,List.map_append,List.map_singleton]
      congr 1
      · refine List.map_congr_left fun i hi => ?_
        have := List.mem_range.mp hi
        simp [Function.update_of_ne (show i ≠ n.bufferLength by omega)]
      · simp
    obtain ⟨h1,h2,h3,h4,h5⟩ := ih hsound' (by omega)
    rw [List.foldl_cons,List.length_cons]
    refine ⟨h1,h2.trans (by rw [hwrite]),by omega,h4.trans hcapacity,?_⟩
    rw [hlength,hbytes] at h5
    rw [show n.bufferLength+(chars.length+1) = n.bufferLength+1+chars.length by omega,h5]
    simp

/-- Without room the character goes to the block that was just freed. -/
theorem writeBuffer_full (hsound : n.Sound) (hfull : n.bufferLength = n.bufferCapacity) :
    (n.writeBuffer c).stray = n.stray++[(n.buffer,n.bufferLength)] := by
  have hne : n.buffer ≠ n.heap.fresh := hsound.2.ne
  rw [Node.writeBuffer,Node.grow,if_pos (by omega)]
  simp only [Heap.realloc]
  rw [Node.grow,if_neg (by simp only; omega),Node.store]
  simp [hne]

theorem store_stray (n : Node) (buffer i : ℕ) (c : Char) :
    n.stray <+: (n.store buffer i c).stray := by
  rw [Node.store]
  split
  · split
    · exact List.prefix_rfl
    · exact List.prefix_append _ _
  · exact List.prefix_append _ _

theorem grow_stray (n : Node) : n.grow.stray = n.stray := by
  induction n using Node.grow.induct with
  | case1 n h heap buffer hrealloc ih =>
    rw [Node.grow,if_pos h,hrealloc]
    exact ih
  | case2 n h => rw [Node.grow,if_neg h]

theorem writes_stray (chars : List Char) (n : Node) :
    n.stray <+: (chars.foldl Node.writeBuffer n).stray := by
  induction chars generalizing n with
  | nil => exact List.prefix_rfl
  | cons c chars ih =>
    refine List.IsPrefix.trans ?_ (ih (n.writeBuffer c))
    have hstore := store_stray n.grow n.buffer n.grow.bufferLength c
    rwa [grow_stray] at hstore

/-- What 64 bytes hold is stored as it is; one more character misses the buffer. -/
theorem filled_iff : Filled (fillStatus heap proc) (statusText proc) ↔
    (statusText proc).length ≤ 64 := by
  simp only [fillStatus,Heap.malloc]
  rw [foldl_outFct (nul_not_mem_statusText proc)]
  generalize statusText proc = text
  set n : Node :=
    ⟨⟨heap.fresh+1,Function.update heap.size heap.fresh (some 64),heap.bytes⟩,heap.fresh,
      0,64,[]⟩ with hn
  have hsound : n.Sound := ⟨by simp [hn],by simp [hn]⟩
  constructor
  · intro h
    by_contra hlong
    obtain ⟨c,rest,hrest⟩ : ∃ c rest, text.drop 64 = c::rest := by
      cases hd : text.drop 64 with
      | nil =>
        have := congrArg List.length hd
        rw [List.length_drop,List.length_nil] at this
        omega
      | cons c rest => exact ⟨c,rest,rfl⟩
    have hlength : (text.take 64).length = 64 := by
      rw [List.length_take]
      omega
    obtain ⟨h1,h2,h3,h4,-⟩ := @writes_room _ (text.take 64) hsound (by simp [hn,hlength])
    have hfull := writeBuffer_full (c:=c) h1 (by rw [h3,h4,hlength])
    have hstray := writes_stray rest (((text.take 64).foldl Node.writeBuffer n).writeBuffer c)
    have hsplit : text.foldl Node.writeBuffer n =
        rest.foldl Node.writeBuffer (((text.take 64).foldl Node.writeBuffer n).writeBuffer c) := by
      conv_lhs => rw [← List.take_append_drop 64 text,hrest,List.foldl_append,List.foldl_cons]
    rw [← hsplit,h.inside,hfull] at hstray
    simp at hstray
  · intro hshort
    obtain ⟨-,h2,h3,-,h5⟩ := @writes_room _ text hsound (by simpa [hn] using hshort)
    simp only [hn,Nat.zero_add] at h2 h3 h5
    exact ⟨h2,h3,by simpa using h5⟩

theorem Filled.bytes_take (h : Filled n text) {size : ℕ} (hsize : size ≤ text.length) :
    (List.range size).map (n.heap.bytes n.buffer) = text.take size := by
  have htake := congrArg (List.take size) h.contents
  rwa [← List.map_take,List.take_range,min_eq_left hsize] at htake

/-- A read gives the piece at its offset if and only if that is also the beginning of the text. -/
theorem Filled.read_eq_iff (h : Filled n text) (hoffset : offset ≤ text.length)
    (hlength : text.length < W32) {size : ℕ} (hsize : size < W32) :
    processRead n offset size = (text.drop offset).take size ↔
      offset+size < W32 ∧ (text.drop offset).take size <+: text := by
  have hpiece : ((text.drop offset).take size).length = min size (text.length-offset) := by
    rw [List.length_take,List.length_drop]
  have hword : W32 = 0x100000000 := rfl
  rw [processRead,h.length,if_neg (by omega)]
  by_cases hfits : offset+size < W32
  · have hcopied : (if text.length < (offset+size)%W32 then text.length-offset else size) =
        min size (text.length-offset) := by
      rw [Nat.mod_eq_of_lt hfits]
      split <;> omega
    simp only [hcopied,h.bytes_take (min_le_of_right_le (Nat.sub_le text.length offset)),hfits,
      true_and]
    rw [List.prefix_iff_eq_take,hpiece,eq_comm]
  · have hwrap : ¬ text.length < (offset+size)%W32 := by
      rw [hword]
      omega
    simp only [if_neg hwrap,hfits,false_and,iff_false]
    intro he
    have hle := congrArg List.length he
    rw [List.length_map,List.length_range,hpiece] at hle
    omega

theorem Filled.readAll_iff (h : Filled n text) (hoffset : offset ≤ text.length)
    (hlength : text.length < W32)
    (hsizes : ∀ size ∈ sizes, size < W32) : readAll n offset sizes = pieces text offset sizes ↔
    Repeats text offset sizes := by
  induction sizes generalizing offset with
  | nil => simp [readAll,pieces,Repeats]
  | cons size sizes ih =>
    have hread := h.read_eq_iff hoffset hlength (hsizes size List.mem_cons_self)
    have hnext : offset+((text.drop offset).take size).length ≤ text.length := by
      rw [List.length_take,List.length_drop]
      omega
    have hrest := ih hnext fun size hsize => hsizes size (List.mem_cons_of_mem _ hsize)
    simp only [readAll,pieces,Repeats,List.cons.injEq]
    constructor
    · rintro ⟨hpiece,hall⟩
      rw [hpiece] at hall
      obtain ⟨hfits,hfront⟩ := hread.mp hpiece
      exact ⟨hfits,hfront,hrest.mp hall⟩
    · rintro ⟨hfits,hfront,hall⟩
      have hpiece := hread.mpr ⟨hfits,hfront⟩
      exact ⟨hpiece,by rw [hpiece]; exact hrest.mpr hall⟩

/-- The status is there and read back in these pieces if and only if it has at most 64 characters
and begins in the same way at each offset that is read from. -/
theorem status_read_iff (heap : Heap) (proc : Process) {sizes : List ℕ}
    (hsizes : ∀ size ∈ sizes, size < W32) :
    Filled (fillStatus heap proc) (statusText proc) ∧
      readAll (fillStatus heap proc) 0 sizes = pieces (statusText proc) 0 sizes ↔
    (statusText proc).length ≤ 64 ∧ Repeats (statusText proc) 0 sizes := by
  have hword : W32 = 0x100000000 := rfl
  constructor
  · rintro ⟨hfilled,hread⟩
    have hshort := filled_iff.mp hfilled
    exact ⟨hshort,(hfilled.readAll_iff (Nat.zero_le _) (by omega) hsizes).mp hread⟩
  · rintro ⟨hshort,hrepeats⟩
    have hfilled := (@filled_iff _ heap).mpr hshort
    exact ⟨hfilled,(hfilled.readAll_iff (Nat.zero_le _) (by omega) hsizes).mpr hrepeats⟩

def emptyHeap : Heap := ⟨0,fun _ => none,fun _ _ => NUL⟩

/-- The process with pid 1 and this name. -/
def running (chars : List Char) (hfits : chars.length ≤ 255) (hname : NUL ∉ chars) : Process :=
  ⟨⟨chars,hfits,hname⟩,1,1⟩

def shell : Process := running ['s','h'] (by decide) (by decide)

/-- One read of everything, and one at the end. -/
theorem status_read_shell : Filled (fillStatus emptyHeap shell) (statusText shell) ∧
    readAll (fillStatus emptyHeap shell) 0 [100,100] = [statusText shell,[]] := by
  have hpieces : pieces (statusText shell) 0 [100,100] = [statusText shell,[]] := by decide +kernel
  rw [← hpieces]
  refine (status_read_iff emptyHeap shell (by decide)).mpr ⟨by decide +kernel,?_⟩
  exact ⟨by decide,by decide +kernel,by decide +kernel,by decide +kernel,trivial⟩

/-- A second read begins at the start again. -/
theorem second_read_repeats : ¬ ∀ (heap : Heap) (proc : Process)
    (sizes : List ℕ), (∀ size ∈ sizes, size < W32) →
    Filled (fillStatus heap proc) (statusText proc) ∧
      readAll (fillStatus heap proc) 0 sizes = pieces (statusText proc) 0 sizes := by
  intro h
  obtain ⟨hfilled,hread⟩ := h emptyHeap shell [4,4] (by decide)
  obtain ⟨-,-,-,hfront,-⟩ :=
    (hfilled.readAll_iff (Nat.zero_le _) (by decide +kernel) (by decide)).mp hread
  revert hfront
  decide +kernel

end Procfs
end ScalesOS
