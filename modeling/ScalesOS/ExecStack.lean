import ScalesOS.Machine
import ScalesOS.StackImage

/-! The image that `k_util_exec_elf` of `util/exec.c` leaves on the user stack of a
program that needs no interpreter: environment and arguments, each as strings and an
array of pointers to them, padding, and the four words that the program starts from. -/
namespace ScalesOS.Exec
open StackImage StackImage.Stack ByteMemory

abbrev Str := List (BitVec 8)

def pushEnvStrings (envp : List Str) (st : Stack) : Stack × List ℕ :=
  envp.reverse.foldl (fun r env => ((r.1.pushString env),r.2++[(r.1.pushString env).sp])) (st,[])

def pushEnv (envp : List Str) (st : Stack) : Stack × ℕ :=
  if envp.length = 0 then (st,0)
  else
    let r := pushEnvStrings envp st
    let st := r.2.foldl (fun st ptr => st.push32 ptr) r.1
    (st,st.sp)

def pushArgStrings (argv : List Str) (st : Stack) : Stack × List ℕ :=
  argv.foldr (fun arg r => (r.1.pushString arg,(r.1.pushString arg).sp::r.2)) (st,[])

def pushArgs (argv : List Str) (st : Stack) : Stack × ℕ :=
  let r := pushArgStrings argv st
  let st := r.1.pushArray r.2
  (st,st.sp)

def align (st : Stack) : Stack :=
  if st.sp%16 = 0 then st else align (st.push [0])
  termination_by st.sp%16
  decreasing_by simp only [Stack.push,List.length_singleton]; omega

/-- The stack with which the program is entered. -/
def kUtilExecElf (mem : Mem) (name : Str) (argv envp : List Str) : Stack :=
  let st : Stack := ⟨USER_STACK_START,mem,[]⟩
  let env := pushEnv envp st
  let args := pushArgs (name::argv) env.1
  let st := align args.1
  (((st.push32 env.2).push32 envp.length).push32 args.2).push32 (name::argv).length

/-- The strings that an array of `n` pointers leads to. -/
def strings (m : Mem) (a n : ℕ) : List Str := (array m a n).map (cstring m USER_STACK_SIZE)

/-- What the program finds: its arguments and its environment. -/
def decode (m : Mem) (sp : ℕ) : List Str × List Str :=
  (strings m (read32 m (sp+4)) (read32 m sp),strings m (read32 m (sp+12)) (read32 m (sp+8)))

def tableSize (strs : List Str) : ℕ := (strs.map fun str => str.length+1).sum+4*strs.length

/-- The size of the whole image. -/
def imageSize (name : Str) (argv envp : List Str) : ℕ :=
  let tables := tableSize envp+tableSize (name::argv)
  tables+(USER_STACK_START-tables)%16+16

/-- The two orders of the loops over the environment cancel: it is laid out as the
arguments are. -/
theorem pushEnvStrings_eq (envp : List Str) (st : Stack) :
    pushEnvStrings envp st = ((pushArgStrings envp st).1,(pushArgStrings envp st).2.reverse) := by
  rw [pushEnvStrings,List.foldl_reverse,pushArgStrings]
  induction envp with
  | nil => rfl
  | cons env envp ih => rw [List.foldr_cons,ih,List.foldr_cons,List.reverse_cons]

theorem pushEnv_eq {envp : List Str} (h : envp ≠ []) (st : Stack) :
    pushEnv envp st = pushArgs envp st := by
  have hlength : ¬ envp.length = 0 := by simpa using h
  rw [pushEnv,if_neg hlength,pushEnvStrings_eq,pushArgs]
  dsimp only
  rw [List.foldl_reverse,pushArray]

theorem pushArgStrings_length (argv : List Str) (st : Stack) :
    (pushArgStrings argv st).2.length = argv.length := by
  induction argv with
  | nil => rfl
  | cons arg argv ih => exact congrArg (·+1) ih

theorem pushArgStrings_grows (argv : List Str) (st : Stack) :
    Grows st (argv.map fun str => str.length+1).sum (pushArgStrings argv st).1 := by
  induction argv with
  | nil => exact .refl
  | cons arg argv ih =>
    rw [List.map_cons,List.sum_cons,Nat.add_comm]
    exact ih.trans (pushString_grows _ arg)

theorem pushArgs_grows (argv : List Str) (st : Stack) :
    Grows st (tableSize argv) (pushArgs argv st).1 := by
  have h := (pushArgStrings_grows argv st).trans (pushArray_grows _ (pushArgStrings argv st).2)
  rwa [pushArgStrings_length] at h

theorem pushArgStrings_le (argv : List Str) (st : Stack) : ∀ ptr ∈ (pushArgStrings argv st).2,
    ptr ≤ st.sp := by
  induction argv with
  | nil =>
    intro ptr hptr
    cases hptr
  | cons arg argv ih =>
    intro ptr hptr
    rcases List.mem_cons.mp hptr with rfl | hptr
    · have hgrows := (pushArgStrings_grows argv st).trans (pushString_grows _ arg)
      exact hgrows.sp.le.trans (Nat.sub_le _ _)
    · exact ih ptr hptr

/-- Where the strings of a list are, all of them from `low` on. -/
def Located (m : Mem) (low : ℕ) (ptrs : List ℕ) (strs : List Str) : Prop :=
  List.Forall₂ (fun ptr str => low ≤ ptr ∧ HoldsString m ptr str) ptrs strs

theorem Located.grows {s t : Stack} {n low : ℕ} {ptrs : List ℕ} {strs : List Str} (h : Grows s n t)
    (hfits : n ≤ s.sp) (hlow : s.sp ≤ low) (hl : Located s.mem low ptrs strs) :
    Located t.mem low ptrs strs := by
  apply hl.imp
  rintro ptr str ⟨hptr,hstr⟩
  refine ⟨hptr,?_⟩
  rw [HoldsString,h.load hfits (hlow.trans hptr)]
  exact hstr

theorem Located.mono {m : Mem} {low low' : ℕ} {ptrs : List ℕ} {strs : List Str} (hlow : low' ≤ low)
    (hl : Located m low ptrs strs) : Located m low' ptrs strs :=
  hl.imp fun _ _ h => ⟨hlow.trans h.1,h.2⟩

theorem pushArgStrings_located (argv : List Str) (st : Stack)
    (hfits : (argv.map fun str => str.length+1).sum ≤ st.sp) :
    Located (pushArgStrings argv st).1.mem (pushArgStrings argv st).1.sp
        (pushArgStrings argv st).2 argv := by
  induction argv with
  | nil => exact .nil
  | cons arg argv ih =>
    rw [List.map_cons,List.sum_cons] at hfits
    have hsp := (pushArgStrings_grows argv st).sp
    have hgrows := pushString_grows (pushArgStrings argv st).1 arg
    have hroom : arg.length+1 ≤ (pushArgStrings argv st).1.sp := by omega
    have hbelow :
        ((pushArgStrings argv st).1.pushString arg).sp ≤ (pushArgStrings argv st).1.sp := by
      rw [hgrows.sp]
      exact Nat.sub_le _ _
    exact .cons ⟨le_rfl,pushString_holds _ arg hroom⟩
      (((ih (by omega)).grows hgrows hroom le_rfl).mono hbelow)

/-- A table of strings in memory: an array of pointers, and the strings they lead to. -/
structure Table (m : Mem) (low a : ℕ) (strs : List Str) : Prop where
  low_le : low ≤ a
  located : Located m low (array m a strs.length) strs

theorem Table.grows {s t : Stack} {n low a : ℕ} {strs : List Str} (h : Grows s n t)
    (hfits : n ≤ s.sp)
    (hlow : s.sp ≤ low) (ht : Table s.mem low a strs) : Table t.mem low a strs := by
  refine ⟨ht.low_le,?_⟩
  rw [h.array hfits (hlow.trans ht.low_le)]
  exact ht.located.grows h hfits hlow

theorem pushArgs_table (argv : List Str) (st : Stack) (hfits : tableSize argv ≤ st.sp)
    (hsp : st.sp < W32) :
    Table (pushArgs argv st).1.mem (pushArgs argv st).1.sp (pushArgs argv st).2 argv := by
  rw [tableSize] at hfits
  have hlength := pushArgStrings_length argv st
  have hstrings := pushArgStrings_grows argv st
  have hlocated := pushArgStrings_located argv st (by omega)
  have harray := pushArray_grows (pushArgStrings argv st).1 (pushArgStrings argv st).2
  have hroom : 4*(pushArgStrings argv st).2.length ≤ (pushArgStrings argv st).1.sp := by
    rw [hstrings.sp]
    omega
  have hread :
      array (pushArgs argv st).1.mem (pushArgs argv st).1.sp argv.length =
          (pushArgStrings argv st).2 := by
    rw [← hlength]
    apply array_pushArray _ _ _ hroom
    intro ptr hptr
    exact (pushArgStrings_le argv st ptr hptr).trans_lt hsp
  refine ⟨le_rfl,?_⟩
  rw [pushArgs] at hread ⊢
  rw [hread]
  apply (hlocated.grows harray hroom le_rfl).mono
  rw [harray.sp]
  exact Nat.sub_le _ _

theorem Located.strings {m : Mem} {low : ℕ} {ptrs : List ℕ} {strs : List Str}
    (hl : Located m low ptrs strs) (hnul : ∀ str ∈ strs, (0 : BitVec 8) ∉ str)
    (hlength : ∀ str ∈ strs, str.length < USER_STACK_SIZE) :
    ptrs.map (cstring m USER_STACK_SIZE) = strs := by
  induction hl with
  | nil => rfl
  | @cons ptr str ptrs strs h _ ih =>
    rw [List.map_cons,h.2.cstring (hnul str List.mem_cons_self) (hlength str List.mem_cons_self),
      ih (fun s hs => hnul s (List.mem_cons_of_mem str hs)) (fun s hs =>
        hlength s (List.mem_cons_of_mem str hs))]

theorem pushEnv_grows (envp : List Str) (st : Stack) :
    Grows st (tableSize envp) (pushEnv envp st).1 := by
  by_cases h : envp = []
  · rw [h]
    exact .refl
  · rw [pushEnv_eq h]
    exact pushArgs_grows envp st

/-- The environment is found again, wherever its array is said to be if it is empty. -/
theorem pushEnv_table (envp : List Str) (st : Stack) (hfits : tableSize envp ≤ st.sp)
    (hsp : st.sp < W32) :
    envp = [] ∨ Table (pushEnv envp st).1.mem (pushEnv envp st).1.sp (pushEnv envp st).2 envp := by
  by_cases h : envp = []
  · exact Or.inl h
  · rw [pushEnv_eq h]
    exact Or.inr (pushArgs_table envp st hfits hsp)

theorem align_grows (st : Stack) : Grows st (st.sp%16) (align st) := by
  induction st using align.induct with
  | case1 st h =>
    rw [align,if_pos h,h]
    exact .refl
  | case2 st h ih =>
    rw [align,if_neg h]
    have hgrows := (Grows.one st [0]).trans ih
    have hpad : ([0] : Str).length+(st.push [0]).sp%16 = st.sp%16 := by
      simp only [Stack.push,List.length_singleton]
      omega
    rwa [hpad] at hgrows

theorem tableSize_ge (strs : List Str) : strs.length ≤ tableSize strs := by
  rw [tableSize]
  omega

theorem length_lt_tableSize {strs : List Str} {str : Str} (h : str ∈ strs) :
    str.length < tableSize strs := by
  have hle := List.single_le_sum (l := strs.map fun str => str.length+1) (by simp) _
    (List.mem_map_of_mem h)
  rw [tableSize]
  omega

theorem pushEnv_lt (envp : List Str) {st : Stack} (hsp : st.sp < W32) :
    (pushEnv envp st).2 < W32 := by
  by_cases h : envp = []
  · rw [h]
    exact (by decide : 0 < W32)
  · rw [pushEnv_eq h]
    exact ((pushArgs_grows envp st).sp.le.trans (Nat.sub_le _ _)).trans_lt hsp

/-- The strings of a table are found again after everything else has been pushed. -/
theorem Table.found {s t : Stack} {n a : ℕ} {strs : List Str} (h : Grows s n t) (hfits : n ≤ s.sp)
    (hnul : ∀ str ∈ strs, (0 : BitVec 8) ∉ str)
    (hlength : ∀ str ∈ strs, str.length < USER_STACK_SIZE)
    (ht : Table s.mem s.sp a strs) : strings t.mem a strs.length = strs :=
  (ht.grows h hfits le_rfl).located.strings hnul hlength

/-- A program finds its name, its arguments and its environment, in their order, in what
has been pushed for it; no two pushed objects overlap, and all are on the user stack. -/
theorem exec_stack (mem : Mem) {name : Str} {argv envp : List Str}
    (hnul : ∀ str ∈ (name::argv)++envp, (0 : BitVec 8) ∉ str)
    (hfits : imageSize name argv envp ≤ USER_STACK_SIZE) :
    decode (kUtilExecElf mem name argv envp).mem (kUtilExecElf mem name argv envp).sp =
      (name::argv,envp) ∧ (kUtilExecElf mem name argv envp).pushed.Pairwise Apart ∧
      ∀ r ∈ (kUtilExecElf mem name argv envp).pushed, USER_STACK_END ≤ r.1 ∧
      r.1+r.2 ≤ USER_STACK_START := by
  let st : Stack := ⟨USER_STACK_START,mem,[]⟩
  let env := pushEnv envp st
  let args := pushArgs (name::argv) env.1
  let padded := align args.1
  let words := [(name::argv).length,args.2,envp.length,env.2]
  let final := padded.pushArray words
  have hsize : USER_STACK_SIZE ≤ USER_STACK_START := by decide
  have hlimit : USER_STACK_START < W32 := by decide
  have hsp_st : st.sp = USER_STACK_START := rfl
  have henv : Grows st (tableSize envp) env.1 := pushEnv_grows envp st
  have hargs : Grows env.1 (tableSize (name::argv)) args.1 := pushArgs_grows (name::argv) env.1
  have hpad : Grows args.1 (args.1.sp%16) padded := align_grows args.1
  have hwords : Grows padded 16 final := pushArray_grows padded words
  have henv_sp := henv.sp
  have hargs_sp : args.1.sp = USER_STACK_START-(tableSize envp+tableSize (name::argv)) :=
    (henv.trans hargs).sp
  have hpad_sp := hpad.sp
  have hfinal_sp := hwords.sp
  rw [imageSize,← hargs_sp] at hfits
  have hafter : Grows args.1 (args.1.sp%16+16) final := hpad.trans hwords
  have hall : Grows st (tableSize envp+tableSize (name::argv)+(args.1.sp%16+16)) final :=
    (henv.trans hargs).trans hafter
  have hlength : ∀ str ∈ (name::argv)++envp, str.length < USER_STACK_SIZE := by
    intro str hstr
    rcases List.mem_append.mp hstr with h | h
    · have hlt := length_lt_tableSize h
      omega
    · have hlt := length_lt_tableSize h
      omega
  have htidy : final.Tidy USER_STACK_START :=
    hall.tidy (by omega) ⟨List.Pairwise.nil,fun _ hr => (List.not_mem_nil hr).elim,le_rfl⟩
  refine ⟨?_,htidy.apart,?_⟩
  · have hargv : strings final.mem args.2 (name::argv).length = name::argv :=
      Table.found hafter (by omega) (fun str h => hnul str (List.mem_append_left _ h))
        (fun str h => hlength str (List.mem_append_left _ h))
        (pushArgs_table (name::argv) env.1 (by omega) (by omega))
    have henvp : strings final.mem env.2 envp.length = envp := by
      rcases pushEnv_table envp st (by omega) (by omega) with h | h
      · rw [h]
        rfl
      · exact Table.found (hargs.trans hafter) (by omega) (fun str h =>
          hnul str (List.mem_append_right _ h))
          (fun str h => hlength str (List.mem_append_right _ h)) h
    have hcount := tableSize_ge (name::argv)
    have hcount' := tableSize_ge envp
    have hread : array final.mem final.sp 4 = words := by
      apply array_pushArray padded words _ (by
        simp only [words,List.length_cons,List.length_nil]; omega)
      intro v hv
      change v < W32
      have henv_lt : env.2 < W32 := pushEnv_lt envp (by omega)
      have hargs_lt : args.2 < W32 := by
        change args.1.sp < W32
        omega
      simp only [words,List.mem_cons,List.not_mem_nil,or_false] at hv
      rcases hv with rfl | rfl | rfl | rfl <;> omega
    have h0 : read32 final.mem final.sp = (name::argv).length := (List.cons.inj hread).1
    have h1 : read32 final.mem (final.sp+4) = args.2 := (List.cons.inj (List.cons.inj hread).2).1
    have h2 : read32 final.mem (final.sp+8) = envp.length :=
      (List.cons.inj (List.cons.inj (List.cons.inj hread).2).2).1
    have h3 : read32 final.mem (final.sp+12) = env.2 :=
      (List.cons.inj (List.cons.inj (List.cons.inj (List.cons.inj hread).2).2).2).1
    change decode final.mem final.sp = (name::argv,envp)
    rw [decode,h0,h1,h2,h3,hargv,henvp]
  · intro r hr
    have hbounds := htidy.above r hr
    have hend : USER_STACK_END ≤ final.sp := by
      rw [hall.sp,USER_STACK_END]
      omega
    exact ⟨hend.trans hbounds.1,hbounds.2⟩

/-- A program without environment that is called `a` and gets the arguments `b` and the
empty string. -/
theorem exec_stack_two :
    decode (kUtilExecElf (fun _ => 0) [97] [[98],[]] []).mem
    (kUtilExecElf (fun _ => 0) [97] [[98],[]] []).sp =
        ([[97],[98],[]],[]) ∧
      (kUtilExecElf (fun _ => 0) [97] [[98],[]] []).pushed.Pairwise Apart ∧
      ∀ r ∈ (kUtilExecElf (fun _ => 0) [97] [[98],[]] []).pushed, USER_STACK_END ≤ r.1 ∧
      r.1+r.2 ≤ USER_STACK_START :=
  exec_stack (fun _ => 0) (by decide) (by decide)

end ScalesOS.Exec
