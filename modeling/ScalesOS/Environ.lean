import Mathlib.Data.List.TakeWhile
import ScalesOS.Lists

/-!
# Environment variables

`libc/src/stdlib/env.c` with the string searches it uses. `environ` is an array of
`_envc` slots, each a string `name=value` or null. The arrays are allocated and never
freed; user memory ends at 3 GiB.
-/

open ScalesOS.Lists (Stop Ends)

namespace ScalesOS
namespace Environ

/-- A string without its terminator. -/
abbrev Str := List Char

/-! ### String searches -/

/-- The inner loop of `strstr`. -/
def startsWith : Str → Str → Bool
  | _, [] => true
  | [], _::_ => false
  | a::as, b::bs => a == b && startsWith as bs

def strstrLoop (substring : Str) : ℕ → Str → Option ℕ
  | _, [] => none
  | i, c::cs => if startsWith (c::cs) substring then some i else strstrLoop substring (i+1) cs

def strstr (string substring : Str) : Option ℕ :=
  if substring = [] then some 0 else strstrLoop substring 0 string

/-- Whether `strncmp` returns 0. -/
def strncmpEq : ℕ → Str → Str → Bool
  | 0, _, _ => true
  | _+1, [], [] => true
  | _+1, [], _::_ => false
  | _+1, _::_, [] => false
  | n+1, a::as, b::bs => a == b && strncmpEq n as bs

/-- The two loops of `strnstr` for a string that starts with `c`; the result is what
follows the first character found. -/
def strnstrLoop (c : Char) (find : Str) : ℕ → Str → Option Str
  | _, [] => none
  | 0, _::_ => none
  | slen+1, sc::s =>
    if sc ≠ c then strnstrLoop c find slen s
    else if slen < find.length then none
    else if strncmpEq find.length s find then some s
    else strnstrLoop c find slen s

def strnstr (s find : Str) (slen : ℕ) : Option Str :=
  match find with
  | [] => some s
  | c::find => (strnstrLoop c find slen s).map (c :: ·)

/-! ### The environment -/

structure Env where
  slots : List (Option Str)
  envc : ℕ
  /-- Bytes taken by all arrays so far. -/
  arrays : ℕ

def initArguments (envp : List Str) : Env := ⟨envp.map some++[none],envp.length+1,4*(envp.length+1)⟩

/-- `strstr(t, name) == t && t[len] == '='`. -/
def matchesName (t name : Str) : Bool := strstr t name = some 0 ∧ t[name.length]? = some '='

def getenvLoop (name : Str) : List (Option Str) → Except Stop (Option Str)
  | [] => throw .outOfBounds
  | none::_ => pure none
  | some t::e => if matchesName t name then pure (some (t.drop (name.length+1)))
      else getenvLoop name e

def getenv (env : Env) (name : Str) : Except Stop (Option Str) := getenvLoop name env.slots

/-- The character at place `k` of the entry in slot `i`. Behind the terminator it is
whatever stands in memory there. -/
def charAt (behind : ℕ → ℕ → Char) (i : ℕ) (entry : Str) (k : ℕ) : Char :=
  match entry[k]? with
  | some c => c
  | none => if k = entry.length then Char.ofNat 0 else behind i k

/-- The search of `putenv` in the slots from `i` on: where it ends, and whether it ends
at a match. -/
def putenvLoop (behind : ℕ → ℕ → Char) (name : Str) : ℕ → List (Option Str) → ℕ × Bool
  | i, [] => (i,false)
  | i, none::_ => (i,false)
  | i, some e::rest =>
    if strnstr name e name.length = none ∧ charAt behind i e name.length = '=' then (i,true)
    else putenvLoop behind name (i+1) rest

/-- `while (j < _new_envc && environ[j])`, with `_new_envc - j` slots left. -/
def copyLoop : ℕ → List (Option Str) → Except Stop (List (Option Str))
  | 0, _ => pure []
  | _+1, [] => throw .outOfBounds
  | _+1, none::_ => pure []
  | n+1, some e::rest => do
    let copied ← copyLoop n rest
    pure (some e::copied)

def grow (env : Env) : Except Stop Env :=
  let newEnvc := env.envc*2
  let bytes := 4*newEnvc%W32
  if env.arrays+bytes ≤ VIRTUAL_BASE then do
    let copied ← copyLoop newEnvc env.slots
    if 4*newEnvc ≤ bytes then
      pure ⟨copied++List.replicate (newEnvc-copied.length) none,newEnvc,env.arrays+bytes⟩
    else throw .outOfBounds
  else throw .outOfMemory

def makeSlot (env : Env) (i : ℕ) : Except Stop Env := if i = env.envc-1 then grow env else pure env

/-- `environ[i] = string`. -/
def Env.set (env : Env) (i : ℕ) (string : Option Str) : Except Stop Env :=
  if i < env.slots.length then pure { env with slots := env.slots.set i string }
  else throw .outOfBounds

def nameOf (string : Str) : Str := string.takeWhile (· != '=')
def valueOf (string : Str) : Str := (string.dropWhile (· != '=')).tail

def putenv (behind : ℕ → ℕ → Char) (env : Env) (string : Str) : Except Stop (ℕ × Env) :=
  if '=' ∈ string then do
    let r := putenvLoop behind (nameOf string) 0 (env.slots.take (env.envc-1))
    if r.2 then
      let env ← env.set r.1 (some string)
      pure (0,env)
    else
      let env ← makeSlot env r.1
      let env ← env.set r.1 (some string)
      pure (0,env)
  else pure (1,env)

def setenv (behind : ℕ → ℕ → Char) (env : Env) (name value : Str) (overwrite : Bool) :
    Except Stop (ℕ × Env) := do
  let tmp ← (if overwrite then pure none else getenv env name)
  if tmp.isSome then pure (0,env) else putenv behind env (name++ '='::value)

/-- The search of `unsetenv`: the first match and the last entry. -/
def unsetenvLoop (str : Str) : ℕ → List (Option Str) → Option ℕ → Option ℕ →
    Except Stop (Option ℕ × Option ℕ)
  | _, [], _, _ => throw .outOfBounds
  | _, none::_, found, last => pure (found,last)
  | i, some e::rest, found, _ =>
    unsetenvLoop str (i+1) rest (if found = none ∧ matchesName e str then some i
      else found) (some i)

def compact (env : Env) (found last : ℕ) : Except Stop Env :=
  if last = found then env.set last none
  else do
    let env ← env.set found (env.slots.getD last none)
    env.set last none

def unsetenv (env : Env) (str : Str) : Except Stop (ℕ × Env) := do
  let r ← unsetenvLoop str 0 env.slots none none
  match r with
  | (some found,some last) =>
    let env ← compact env found last
    pure (0,env)
  | _ => pure (0,env)

/-! ### What the searches find -/

theorem startsWith_iff (string substring : Str) : startsWith string substring = true ↔
    substring <+: string := by
  induction substring generalizing string with
  | nil => simp [startsWith]
  | cons b bs ih =>
    cases string with
    | nil => simp [startsWith]
    | cons a as =>
      rw [startsWith,Bool.and_eq_true,beq_iff_eq,ih,List.cons_prefix_cons]
      exact and_congr_left' eq_comm

theorem strstrLoop_ge {substring : Str} {i k : ℕ} {string : Str}
    (h : strstrLoop substring i string = some k) :
    i ≤ k := by
  induction string generalizing i with
  | nil => cases h
  | cons c cs ih =>
    rw [strstrLoop] at h
    split at h
    · exact (Option.some.inj h).le
    · exact (Nat.le_succ i).trans (ih h)

/-- `strstr` finds the string at place 0 exactly when the other one starts with it. -/
theorem strstr_zero_iff (string substring : Str) : strstr string substring = some 0 ↔
    substring <+: string := by
  rw [strstr]
  split
  · rename_i h
    simp [h]
  · rename_i h
    cases string with
    | nil => simp [strstrLoop,h]
    | cons c cs =>
      rw [strstrLoop,← startsWith_iff]
      constructor
      · intro hs
        split at hs
        · assumption
        · exact absurd (strstrLoop_ge hs) (by omega)
      · intro hp
        rw [if_pos hp]

theorem strncmpEq_take {n : ℕ} {s find : Str} (hn : n = find.length)
    (h : strncmpEq n s find = true) :
    find <+: s := by
  subst hn
  induction find generalizing s with
  | nil => exact List.nil_prefix
  | cons b bs ih =>
    cases s with
    | nil => simp [strncmpEq] at h
    | cons a as =>
      rw [List.length_cons,strncmpEq,Bool.and_eq_true,beq_iff_eq] at h
      rw [List.cons_prefix_cons]
      exact ⟨h.1.symm,ih h.2⟩

/-- What `strnstr` finds consists of characters of the string it searches. -/
theorem strnstr_subset {s find : Str} {slen : ℕ} (hfind : find ≠ []) {r : Str}
    (h : strnstr s find slen = some r) :
    find ⊆ s := by
  obtain ⟨c,find,rfl⟩ := List.exists_cons_of_ne_nil hfind
  obtain ⟨r,hr,-⟩ := Option.map_eq_some_iff.mp h
  clear h
  induction s generalizing slen with
  | nil => simp [strnstrLoop] at hr
  | cons sc s ih =>
    cases slen with
    | zero => simp [strnstrLoop] at hr
    | succ slen =>
      rw [strnstrLoop] at hr
      split_ifs at hr with h1 h2 h3
      · exact List.Subset.trans (ih hr) (List.subset_cons_self _ _)
      · obtain rfl := not_not.mp h1
        exact List.cons_subset_cons _ (strncmpEq_take rfl h3).subset
      · exact List.Subset.trans (ih hr) (List.subset_cons_self _ _)

/-- `putenv` asks whether the entry occurs in the name, which it never does. -/
theorem strnstr_entry {name e : Str} {slen : ℕ} (hname : '=' ∉ name) (he : '=' ∈ e) :
    strnstr name e slen = none := by
  cases h : strnstr name e slen with
  | none => rfl
  | some r => exact absurd (strnstr_subset (List.ne_nil_of_mem he) h he) hname

/-! ### Entries -/

theorem nameOf_eq {name value : Str} (h : '=' ∉ name) : nameOf (name++ '='::value) = name := by
  have hne : ∀ x ∈ name, (x != '=') = true := by
    intro x hx
    rw [bne_iff_ne]
    rintro rfl
    exact h hx
  rw [nameOf,List.takeWhile_append_of_pos hne]
  simp

theorem valueOf_eq {name value : Str} (h : '=' ∉ name) : valueOf (name++ '='::value) = value := by
  have hne : ∀ x ∈ name, (x != '=') = true := by
    intro x hx
    rw [bne_iff_ne]
    rintro rfl
    exact h hx
  rw [valueOf,List.dropWhile_append_of_pos hne]
  simp

theorem not_mem_nameOf (e : Str) : '=' ∉ nameOf e := by
  intro h
  have := List.mem_takeWhile_imp h
  simp at this

theorem entry_eq {e : Str} (h : '=' ∈ e) : e = nameOf e++ '='::valueOf e := by
  induction e with
  | nil => cases h
  | cons c cs ih =>
    by_cases hc : c = '='
    · subst hc
      simp [nameOf,valueOf]
    · have hrest := ih ((List.mem_cons.mp h).resolve_left fun h => hc h.symm)
      have hn : nameOf (c::cs) = c::nameOf cs := by simp [nameOf,hc]
      have hv : valueOf (c::cs) = valueOf cs := by simp [valueOf,hc]
      rw [hn,hv,List.cons_append,← hrest]

theorem getElem?_nameOf {e : Str} (h : '=' ∈ e) : e[(nameOf e).length]? = some '=' := by
  obtain ⟨n,v,hn,rfl⟩ : ∃ n v, '=' ∉ n ∧ e = n++ '='::v := ⟨_,_,not_mem_nameOf e,entry_eq h⟩
  rw [nameOf_eq hn]
  simp

theorem matchesName_iff {e name : Str} (he : '=' ∈ e) (hname : '=' ∉ name) :
    matchesName e name = true ↔ nameOf e = name := by
  rw [matchesName,decide_eq_true_iff,strstr_zero_iff]
  constructor
  · rintro ⟨⟨r,rfl⟩,hat⟩
    rw [List.getElem?_append_right le_rfl,Nat.sub_self] at hat
    cases r with
    | nil => cases hat
    | cons c r =>
      obtain rfl : c = '=' := by simpa using hat
      exact nameOf_eq hname
  · rintro rfl
    exact ⟨List.takeWhile_prefix _,getElem?_nameOf he⟩

/-- The value an environment gives a name: that of its first entry of that name. -/
def lookup (es : List Str) (name : Str) : Option Str :=
  (es.find? fun e => nameOf e = name).map valueOf

theorem lookup_cons (e : Str) (es : List Str) (name : Str) :
    lookup (e::es) name = if nameOf e = name then some (valueOf e) else lookup es name := by
  rw [lookup,List.find?_cons]
  by_cases h : nameOf e = name
  · simp [h]
  · simp [h,lookup]

theorem lookup_none {es : List Str} {name : Str} : lookup es name = none ↔
    name ∉ es.map nameOf := by
  simp [lookup]

theorem lookup_some {es : List Str} {name value : Str} (hd : (es.map nameOf).Nodup) :
    lookup es name = some value ↔ ∃ e ∈ es, nameOf e = name ∧ valueOf e = value := by
  induction es with
  | nil => simp [lookup]
  | cons e es ih =>
    obtain ⟨hnew,hd⟩ := List.nodup_cons.mp hd
    rw [lookup_cons]
    split
    · rename_i h
      constructor
      · exact fun hv => ⟨e,List.mem_cons_self,h,Option.some.inj hv⟩
      · rintro ⟨f,hf,hn,hv⟩
        rcases List.mem_cons.mp hf with rfl | hf
        · exact congrArg some hv
        · exact absurd (List.mem_map.mpr ⟨f,hf,hn.trans h.symm⟩) hnew
    · rename_i h
      rw [ih hd]
      constructor
      · rintro ⟨f,hf,hn⟩
        exact ⟨f,List.mem_cons_of_mem _ hf,hn⟩
      · rintro ⟨f,hf,hn,hv⟩
        rcases List.mem_cons.mp hf with rfl | hf
        · exact absurd hn h
        · exact ⟨f,hf,hn,hv⟩

theorem lookup_perm {es es' : List Str} (h : es.Perm es')
    (hd : (es.map nameOf).Nodup) (name : Str) :
    lookup es name = lookup es' name := by
  apply Option.ext
  intro v
  rw [lookup_some hd,lookup_some ((h.map nameOf).nodup_iff.mp hd)]
  simp only [h.mem_iff]

/-! ### The array -/

/-- The slots of an array with some entries and `k` free slots behind them. -/
def slotsOf (es : List Str) (k : ℕ) : List (Option Str) := es.map some++List.replicate k none

@[simp] theorem length_slotsOf (es : List Str) (k : ℕ) : (slotsOf es k).length = es.length+k := by
  simp [slotsOf]

theorem slotsOf_cons (e : Str) (es : List Str) (k : ℕ) :
    slotsOf (e::es) k = some e::slotsOf es k := rfl

theorem slotsOf_nil_succ (k : ℕ) : slotsOf [] (k+1) = none::slotsOf [] k := rfl

theorem slotsOf_set {es : List Str} {i : ℕ} (h : i < es.length) (e : Str) (k : ℕ) :
    (slotsOf es k).set i (some e) = slotsOf (es.set i e) k := by
  rw [slotsOf,List.set_append_left i _ (by simpa using h),← List.map_set]
  rfl

theorem slotsOf_push (es : List Str) (e : Str) (k : ℕ) :
    (slotsOf es (k+1)).set es.length (some e) = slotsOf (es++[e]) k := by
  rw [slotsOf,List.set_append_right _ _ (by simp)]
  simp [slotsOf,List.replicate_succ]

theorem slotsOf_pop (es : List Str) (e : Str) (k : ℕ) :
    (slotsOf (es++[e]) k).set es.length none = slotsOf es (k+1) := by
  rw [slotsOf,List.set_append_left _ _ (by simp),List.map_append,
    List.set_append_right _ _ (by simp)]
  simp [slotsOf,List.replicate_succ]

/-- The environment consists of the entries `es`: they stand in front, distinct names
and at least one null slot behind them. -/
structure Rep (env : Env) (es : List Str) : Prop where
  slots : env.slots = slotsOf es (env.envc-es.length)
  room : es.length < env.envc
  distinct : (es.map nameOf).Nodup
  entries : ∀ e ∈ es, '=' ∈ e
  small : 8*env.envc ≤ env.arrays+USER_STACK_SIZE
  user : env.arrays ≤ VIRTUAL_BASE

theorem Rep.length {env : Env} {es : List Str} (h : Rep env es) : env.slots.length = env.envc := by
  have hroom := h.room
  rw [h.slots,length_slotsOf]
  omega

theorem drop_nameOf {e : Str} (h : '=' ∈ e) : e.drop ((nameOf e).length+1) = valueOf e := by
  obtain ⟨n,v,hn,rfl⟩ : ∃ n v, '=' ∉ n ∧ e = n++ '='::v := ⟨_,_,not_mem_nameOf e,entry_eq h⟩
  rw [nameOf_eq hn,valueOf_eq hn,← List.drop_drop,List.drop_left]
  rfl

theorem getenvLoop_spec {name : Str} (hname : '=' ∉ name) {es : List Str}
    (hes : ∀ e ∈ es, '=' ∈ e) (k : ℕ) :
    getenvLoop name (slotsOf es (k+1)) = .ok (lookup es name) := by
  induction es with
  | nil => rfl
  | cons e es ih =>
    have he := hes e List.mem_cons_self
    rw [slotsOf_cons,getenvLoop,lookup_cons,ih fun e he => hes e (List.mem_cons_of_mem _ he)]
    by_cases h : nameOf e = name
    · rw [if_pos ((matchesName_iff he hname).mpr h),if_pos h,← h,drop_nameOf he]
      rfl
    · rw [if_neg (fun hm => h ((matchesName_iff he hname).mp hm)),if_neg h]

theorem getenv_spec {env : Env} {es : List Str} (h : Rep env es) {name : Str} (hname : '=' ∉ name) :
    getenv env name = .ok (lookup es name) := by
  have hroom := h.room
  obtain ⟨k,hk⟩ : ∃ k, env.envc-es.length = k+1 := ⟨env.envc-es.length-1,by omega⟩
  rw [getenv,h.slots,hk]
  exact getenvLoop_spec hname h.entries k

/-- The search of `putenv`: it ends at the first entry with `=` at the place behind the
name, whatever the entry's own name, or behind the last entry. -/
theorem putenvLoop_spec {behind : ℕ → ℕ → Char} {name : Str} (hname : '=' ∉ name) {es : List Str}
    (hes : ∀ e ∈ es, '=' ∈ e) (i k : ℕ) :
    (∃ j e, es[j]? = some e ∧ charAt behind (i+j) e name.length = '=' ∧
      (∀ l < j, ∀ f, es[l]? = some f → charAt behind (i+l) f name.length ≠ '=') ∧
      putenvLoop behind name i (slotsOf es k) = (i+j,true)) ∨
    ((∀ j e, es[j]? = some e → charAt behind (i+j) e name.length ≠ '=') ∧
      putenvLoop behind name i (slotsOf es k) = (i+es.length,false)) := by
  induction es generalizing i with
  | nil =>
    refine .inr ⟨fun j e h => by simp at h,?_⟩
    cases k with
    | zero => rfl
    | succ k => rfl
  | cons e es ih =>
    have he := hes e List.mem_cons_self
    rw [slotsOf_cons,putenvLoop]
    simp only [strnstr_entry hname he,true_and]
    by_cases hc : charAt behind i e name.length = '='
    · exact .inl ⟨0,e,rfl,hc,fun l hl => by omega,by rw [if_pos hc]; rfl⟩
    rw [if_neg hc]
    rcases ih (fun e he => hes e (List.mem_cons_of_mem _ he)) (i+1) with
      ⟨j,f,hf,hat,hfirst,hret⟩ | ⟨hnone,hret⟩
    · refine .inl ⟨j+1,f,by simpa using hf,by rwa [← Nat.add_assoc,Nat.add_right_comm],
        fun l hl g hg => ?_,?_⟩
      · cases l with
        | zero =>
          obtain rfl : e = g := by simpa using hg
          exact hc
        | succ l =>
          rw [← Nat.add_assoc,Nat.add_right_comm]
          exact hfirst l (by omega) g (by simpa using hg)
      · rw [hret,← Nat.add_assoc,Nat.add_right_comm]
    · refine .inr ⟨fun j f hf => ?_,?_⟩
      · cases j with
        | zero =>
          obtain rfl : e = f := by simpa using hf
          exact hc
        | succ j =>
          rw [← Nat.add_assoc,Nat.add_right_comm]
          exact hnone j f (by simpa using hf)
      · rw [hret,List.length_cons,← Nat.add_assoc,Nat.add_right_comm]

theorem copyLoop_spec (es : List Str) (k : ℕ) {n : ℕ} (hn : es.length < n) :
    copyLoop n (slotsOf es (k+1)) = .ok (es.map some) := by
  induction es generalizing n with
  | nil =>
    obtain ⟨n,rfl⟩ := Nat.exists_eq_succ_of_ne_zero (by omega : n ≠ 0)
    rfl
  | cons e es ih =>
    obtain ⟨n,rfl⟩ := Nat.exists_eq_succ_of_ne_zero (by simp at hn; omega : n ≠ 0)
    rw [slotsOf_cons,copyLoop,ih (by simp at hn; omega)]
    rfl

/-- Growing doubles the slots; the array never gets so large that its size wraps. -/
theorem grow_spec {env : Env} {es : List Str} (h : Rep env es) :
    Ends (grow env) fun env' => Rep env' es ∧ env'.envc = env.envc*2 := by
  have hroom := h.room
  have hsmall := h.small
  have huser := h.user
  simp only [USER_STACK_SIZE,VIRTUAL_BASE] at hsmall huser
  have hbytes : 4*(env.envc*2)%W32 = 8*env.envc := by
    simp only [W32]
    omega
  obtain ⟨k,hk⟩ : ∃ k, env.envc-es.length = k+1 := ⟨env.envc-es.length-1,by omega⟩
  simp only [grow,hbytes]
  split
  · rename_i hfits
    rw [h.slots,hk,copyLoop_spec es k (by omega)]
    refine Lists.Ends.ok_bind ?_
    rw [if_pos (by omega)]
    refine Lists.Ends.ok ⟨⟨?_,by simp only; omega,h.distinct,h.entries,?_,hfits⟩,rfl⟩
    · simp [slotsOf]
    · simp only [USER_STACK_SIZE]
      omega
  · exact .inl rfl

/-! ### The calls -/

/-- The search of `putenv` matches the name: an entry with `=` at the place behind the
name stands in the slot of that name or behind it. -/
def Exact (behind : ℕ → ℕ → Char) (env : Env) (name : Str) : Prop :=
  ∀ i e, env.slots[i]? = some (some e) → charAt behind i e name.length = '=' →
    ∃ j ≤ i, ∃ f, env.slots[j]? = some (some f) ∧ nameOf f = name

theorem slotsOf_getElem? {es : List Str} {k i : ℕ} {e : Str} :
    (slotsOf es k)[i]? = some (some e) ↔ es[i]? = some e := by
  rw [slotsOf]
  by_cases h : i < es.length
  · rw [List.getElem?_append_left (by simpa using h)]
    simp
  · rw [List.getElem?_append_right (by simpa using h),List.getElem?_eq_none (not_lt.mp h)]
    simp [List.getElem?_replicate]

theorem charAt_nameOf {behind : ℕ → ℕ → Char} {i : ℕ} {e : Str} (h : '=' ∈ e) :
    charAt behind i e (nameOf e).length = '=' := by
  rw [charAt,getElem?_nameOf h]

section
variable {env : Env} {es : List Str}

theorem Rep.set_slot (h : Rep env es) {i : ℕ} (hi : i < es.length) (string : Str) :
    env.set i (some string) =
    .ok { env with slots := slotsOf (es.set i string) (env.envc-es.length) } := by
  have hroom := h.room
  rw [Env.set,if_pos (by rw [h.length]; omega),h.slots,slotsOf_set hi]
  rfl

theorem Rep.replace (h : Rep env es) {i : ℕ} {e string : Str} (he : es[i]? = some e)
    (hs : '=' ∈ string) (hname : nameOf e = nameOf string) :
    Rep { env with slots := slotsOf (es.set i string) (env.envc-es.length) } (es.set i string) ∧
    ∀ n, lookup (es.set i string) n =
    Function.update (lookup es) (nameOf string) (some (valueOf string)) n := by
  obtain ⟨hi,rfl⟩ := List.getElem?_eq_some_iff.mp he
  have hold : es.Perm (es[i]::es.eraseIdx i) := (List.getElem_cons_eraseIdx_perm hi).symm
  have hnew : (es.set i string).Perm (string::es.eraseIdx i) :=
    List.set_perm_cons_eraseIdx hi string
  have hd : ((string::es.eraseIdx i).map nameOf).Nodup := by
    have := (hold.map nameOf).nodup_iff.mp h.distinct
    rwa [List.map_cons,hname] at this
  have hd' := (hnew.map nameOf).nodup_iff.mpr hd
  refine ⟨⟨by simp,by simpa using h.room,hd',fun f hf => ?_,h.small,h.user⟩,fun n => ?_⟩
  · rcases List.mem_or_eq_of_mem_set hf with hf | rfl
    · exact h.entries f hf
    · exact hs
  · rw [lookup_perm hnew hd',lookup_cons]
    by_cases hn : nameOf string = n
    · subst hn
      rw [if_pos rfl,Function.update_self]
    · rw [if_neg hn,Function.update_of_ne (fun hc => hn hc.symm),
        lookup_perm hold h.distinct,lookup_cons,if_neg (by rwa [hname])]

/-- A new entry goes into the first free slot, in a larger array if it is the last one. -/
theorem Rep.push (h : Rep env es) {string : Str} (hs : '=' ∈ string)
    (hnew : nameOf string ∉ es.map nameOf) :
    Ends (makeSlot env es.length >>= fun env => env.set es.length (some string)) fun env' =>
      Rep env' (es++[string]) ∧
      ∀ n, lookup (es++[string]) n =
      Function.update (lookup es) (nameOf string) (some (valueOf string)) n := by
  have hslot : Ends (makeSlot env es.length) fun env' => Rep env' es ∧ es.length+1 < env'.envc := by
    have hroom := h.room
    rw [makeSlot]
    split
    · exact (grow_spec h).imp fun env' ⟨hrep,henvc⟩ => ⟨hrep,by omega⟩
    · exact Lists.Ends.ok ⟨h,by omega⟩
  refine hslot.bind fun env₁ ⟨h₁,hfree⟩ => ?_
  obtain ⟨k,hk⟩ : ∃ k, env₁.envc-es.length = k+1 := ⟨env₁.envc-es.length-1,by omega⟩
  have hset :
      env₁.set es.length (some string) = .ok { env₁ with slots := slotsOf (es++[string]) k } := by
    rw [Env.set,if_pos (by rw [h₁.length]; omega),h₁.slots,hk,slotsOf_push]
    rfl
  rw [hset]
  have hperm : (es++[string]).Perm (string::es) := List.perm_append_singleton string es
  have hd : ((string::es).map nameOf).Nodup := List.nodup_cons.mpr ⟨hnew,h₁.distinct⟩
  have hd' := (hperm.map nameOf).nodup_iff.mpr hd
  refine Lists.Ends.ok ⟨⟨?_,by simpa using hfree,hd',fun f hf => ?_,h₁.small,h₁.user⟩,fun n => ?_⟩
  · rw [List.length_append,List.length_singleton]
    exact congrArg (slotsOf _) (by simp only; omega)
  · rcases List.mem_append.mp hf with hf | hf
    · exact h₁.entries f hf
    · rw [List.mem_singleton.mp hf]
      exact hs
  · rw [lookup_perm hperm hd',lookup_cons]
    by_cases hn : nameOf string = n
    · subst hn
      rw [if_pos rfl,Function.update_self]
    · rw [if_neg hn,Function.update_of_ne (fun hc => hn hc.symm)]

theorem Rep.take (h : Rep env es) :
    env.slots.take (env.envc-1) = slotsOf es (env.envc-es.length-1) := by
  have hroom := h.room
  rw [h.slots,slotsOf,List.take_append,List.take_of_length_le (by simp; omega),List.take_replicate]
  rw [List.length_map,slotsOf]
  congr 2
  omega

theorem Rep.slot_iff (h : Rep env es) {i : ℕ} {e : Str} : env.slots[i]? = some (some e) ↔
    es[i]? = some e := by
  rw [h.slots]
  exact slotsOf_getElem?

theorem putenv_spec {behind : ℕ → ℕ → Char} (h : Rep env es) {string : Str} (hs : '=' ∈ string)
    (hexact : Exact behind env (nameOf string)) :
    Ends (putenv behind env string) fun r => r.1 = 0 ∧ ∃ es', Rep r.2 es' ∧
      ∀ n, lookup es' n = Function.update (lookup es) (nameOf string)
      (some (valueOf string)) n := by
  rw [putenv,if_pos hs,h.take]
  rcases @putenvLoop_spec behind _ (not_mem_nameOf string) _ h.entries 0 (env.envc-es.length-1) with
    ⟨j,e,he,hat,hfirst,hret⟩ | ⟨hnone,hret⟩
  · -- the entry of that name is a match itself, so the first match is not in front of it
    have hname : nameOf e = nameOf string := by
      obtain ⟨l,hl,f,hf,hfn⟩ := hexact j e (h.slot_iff.mpr he) (by simpa using hat)
      have hf := h.slot_iff.mp hf
      rcases Nat.lt_or_eq_of_le hl with hlt | rfl
      · refine absurd ?_ (hfirst l hlt f hf)
        rw [Nat.zero_add,← hfn]
        exact charAt_nameOf (h.entries f (List.mem_of_getElem? hf))
      · obtain rfl : e = f := Option.some.inj (he.symm.trans hf)
        exact hfn
    obtain ⟨hrep,hlookup⟩ := h.replace he hs hname
    have hj : j < es.length := (List.getElem?_eq_some_iff.mp he).1
    rw [hret]
    simp only [Nat.zero_add,if_true,h.set_slot hj]
    exact Lists.Ends.ok ⟨rfl,_,hrep,hlookup⟩
  · have hnew : nameOf string ∉ es.map nameOf := by
      intro hc
      obtain ⟨e,he,hn⟩ := List.mem_map.mp hc
      obtain ⟨i,hi⟩ := List.mem_iff_getElem?.mp he
      refine hnone i e hi ?_
      rw [← hn]
      exact charAt_nameOf (h.entries e he)
    rw [hret]
    simp only [Nat.zero_add,Bool.false_eq_true,if_false]
    rw [← bind_assoc]
    exact (h.push hs hnew).bind fun env' henv' => Lists.Ends.ok ⟨rfl,_,henv'⟩

/-- When the search ends at an entry of another name, that entry is lost. -/
theorem putenv_inexact {behind : ℕ → ℕ → Char} (h : Rep env es) {string : Str} (hs : '=' ∈ string)
    (hnot : ¬ Exact behind env (nameOf string)) :
    ∃ env' name value, putenv behind env string = .ok (0,env') ∧ '=' ∉ name ∧ name ≠ nameOf string ∧
      lookup es name = some value ∧ getenv env' name = .ok none := by
  simp only [Exact,not_forall] at hnot
  obtain ⟨i,e,hi,hat,hno⟩ := hnot
  have he := h.slot_iff.mp hi
  rcases @putenvLoop_spec behind _ (not_mem_nameOf string) _ h.entries 0 (env.envc-es.length-1) with
    ⟨j,f,hf,-,hfirst,hret⟩ | ⟨hnone,-⟩
  · have hji : j ≤ i := by
      by_contra hlt
      exact hfirst i (by omega) e he (by simpa using hat)
    have hne : nameOf f ≠ nameOf string := fun hc => hno ⟨j,hji,f,h.slot_iff.mpr hf,hc⟩
    obtain ⟨hj,rfl⟩ := List.getElem?_eq_some_iff.mp hf
    have hroom := h.room
    obtain ⟨k,hk⟩ : ∃ k, env.envc-es.length = k+1 := ⟨env.envc-es.length-1,by omega⟩
    refine ⟨{ env with slots := slotsOf (es.set j string) (env.envc-es.length) },
      nameOf es[j],valueOf es[j],?_,not_mem_nameOf _,hne,?_,?_⟩
    · rw [putenv,if_pos hs,h.take,hret]
      simp only [Nat.zero_add,if_true,h.set_slot hj]
      rfl
    · exact (lookup_some h.distinct).mpr ⟨es[j],List.getElem_mem hj,rfl,rfl⟩
    · have hentries : ∀ g ∈ es.set j string, '=' ∈ g := by
        intro g hg
        rcases List.mem_or_eq_of_mem_set hg with hg | rfl
        · exact h.entries g hg
        · exact hs
      rw [getenv,hk]
      refine (getenvLoop_spec (not_mem_nameOf _) hentries k).trans
        (congrArg _ (lookup_none.mpr fun hc => ?_))
      have hperm := (List.set_perm_cons_eraseIdx hj string).map nameOf
      have hd := ((List.getElem_cons_eraseIdx_perm hj).map nameOf).nodup_iff.mpr h.distinct
      rcases List.mem_cons.mp (hperm.mem_iff.mp hc) with hc | hc
      · exact hne hc
      · exact (List.nodup_cons.mp hd).1 hc
  · exact absurd (by simpa using hat) (hnone i e he)

theorem unsetenvLoop_spec {str : Str} (hstr : '=' ∉ str) (hes : ∀ e ∈ es, '=' ∈ e) (i k : ℕ)
    (found last : Option ℕ) :
    unsetenvLoop str i (slotsOf es (k+1)) found last =
      .ok (found.or ((es.findIdx? fun e => nameOf e = str).map (i+·)),
        if es = [] then last else some (i+es.length-1)) := by
  induction es generalizing i found last with
  | nil => simp [slotsOf_nil_succ,unsetenvLoop,pure,Except.pure]
  | cons e es ih =>
    have he := hes e List.mem_cons_self
    rw [slotsOf_cons,unsetenvLoop,ih (fun e he => hes e (List.mem_cons_of_mem _ he)),
      List.findIdx?_cons]
    simp only [matchesName_iff he hstr]
    congr 2
    · cases found with
      | some f => simp
      | none =>
        by_cases hn : nameOf e = str
        · simp [hn]
        · simp only [hn,and_false,if_false,Option.none_or,decide_false,
            Bool.false_eq_true,Option.map_map]
          congr 1
          funext x
          simp only [Function.comp_apply]
          omega
    · rw [if_neg (List.cons_ne_nil e es),List.length_cons]
      split
      · rename_i hnil
        rw [hnil]
        rfl
      · exact congrArg some (by omega)

theorem Rep.remove (h : Rep env es) {e : Str} {es' : List Str} (hperm : es.Perm (e::es')) :
    Rep { env with slots := slotsOf es' (env.envc-es'.length) } es' ∧
    ∀ n, lookup es' n = Function.update (lookup es) (nameOf e) none n := by
  have hroom := h.room
  have hlen : es.length = es'.length+1 := by simpa using hperm.length_eq
  obtain ⟨hnew,hd⟩ := List.nodup_cons.mp ((hperm.map nameOf).nodup_iff.mp h.distinct)
  refine ⟨⟨rfl,by simp only; omega,hd,
    fun f hf => h.entries f (hperm.mem_iff.mpr (List.mem_cons_of_mem _ hf)),
    h.small,h.user⟩,fun n => ?_⟩
  by_cases hn : n = nameOf e
  · subst hn
    rw [Function.update_self]
    exact lookup_none.mpr hnew
  · rw [Function.update_of_ne hn,lookup_perm hperm h.distinct,lookup_cons,
      if_neg fun hc => hn hc.symm]

theorem compact_spec {ys : List Str} {last : Str} (h : Rep env (ys++[last])) {j : ℕ}
    (hj : j < (ys++[last]).length) :
    ∃ es', (ys++[last]).Perm ((ys++[last])[j]::es') ∧
      compact env j ys.length = .ok { env with slots := slotsOf es' (env.envc-es'.length) } := by
  have hroom := h.room
  have hlen : (ys++[last]).length = ys.length+1 := by simp
  have hslots := h.length
  rw [hlen] at hroom hj
  have hfree : env.envc-ys.length = env.envc-(ys++[last]).length+1 := by omega
  rw [compact]
  split
  · rename_i hl
    subst hl
    refine ⟨ys,?_,?_⟩
    · simp
    · rw [Env.set,if_pos (by omega),h.slots,slotsOf_pop,hfree]
      rfl
  · rename_i hl
    have hjy : j < ys.length := by omega
    refine ⟨ys.set j last,?_,?_⟩
    · -- both sides are the entry found, the last one and the rest
      rw [List.getElem_append_left hjy]
      have hset : (last::ys.eraseIdx j).Perm (ys.set j last) :=
        (List.set_perm_cons_eraseIdx hjy last).symm
      have hys : (last::ys).Perm (last::ys[j]::ys.eraseIdx j) :=
        (List.getElem_cons_eraseIdx_perm hjy).symm.cons last
      exact (((List.perm_append_singleton last ys).trans hys).trans (List.Perm.swap _ _ _)).trans
        (hset.cons _)
    · have hget : env.slots.getD ys.length none = some last := by
        rw [List.getD_eq_getElem?_getD,(h.slot_iff (e := last)).mpr (by simp)]
        rfl
      rw [hget,h.set_slot (by omega)]
      change Env.set _ ys.length none = _
      rw [Env.set,if_pos (by simp; omega),List.set_append_left _ _ hjy,List.length_set]
      have hpop := slotsOf_pop (ys.set j last) last (env.envc-(ys++[last]).length)
      rw [List.length_set] at hpop
      rw [hpop,hfree]
      rfl

theorem unsetenv_spec (h : Rep env es) {str : Str} (hstr : '=' ∉ str) :
    ∃ env' es', unsetenv env str = .ok (0,env') ∧ Rep env' es' ∧
      ∀ n, lookup es' n = Function.update (lookup es) str none n := by
  have hroom := h.room
  obtain ⟨k,hk⟩ : ∃ k, env.envc-es.length = k+1 := ⟨env.envc-es.length-1,by omega⟩
  have hloop := unsetenvLoop_spec hstr h.entries 0 k none none
  rw [← hk,← h.slots,Option.none_or] at hloop
  rw [unsetenv,hloop]
  cases hfind : es.findIdx? fun e => nameOf e = str with
  | none =>
    refine ⟨env,es,rfl,h,fun n => ?_⟩
    have hnone : lookup es str = none := by
      rw [lookup_none]
      intro hc
      obtain ⟨e,he,hn⟩ := List.mem_map.mp hc
      have := List.findIdx?_eq_none_iff.mp hfind e he
      simp [hn] at this
    by_cases hn : n = str
    · subst hn
      rw [hnone,Function.update_self]
    · rw [Function.update_of_ne hn]
  | some j =>
    obtain ⟨hj,hname,-⟩ := List.findIdx?_eq_some_iff_getElem.mp hfind
    have hname : nameOf es[j] = str := of_decide_eq_true hname
    obtain ⟨ys,last,rfl⟩ : ∃ ys last, es = ys++[last] := by
      rcases List.eq_nil_or_concat es with rfl | ⟨ys,y,rfl⟩
      · simp at hj
      · exact ⟨ys,y,List.concat_eq_append⟩
    obtain ⟨es',hperm,hret⟩ := compact_spec h hj
    obtain ⟨hrep,hlookup⟩ := h.remove hperm
    refine ⟨_,es',?_,hrep,fun n => hname ▸ hlookup n⟩
    rw [if_neg (by simp),show 0+(ys++[last]).length-1 = ys.length by simp,
      Option.map_some,Nat.zero_add]
    change (compact env j ys.length >>= fun env => pure (0,env)) = _
    rw [hret]
    rfl

theorem initArguments_rep {envp : List Str} (hentries : ∀ e ∈ envp, '=' ∈ e)
    (hd : (envp.map nameOf).Nodup)
    (hstack : 4*(envp.length+1) ≤ USER_STACK_SIZE) : Rep (initArguments envp) envp := by
  refine ⟨?_,by simp [initArguments],hd,hentries,?_,?_⟩
  · simp [initArguments,slotsOf]
  · simp only [initArguments]
    omega
  · simp only [initArguments,VIRTUAL_BASE]
    simp only [USER_STACK_SIZE] at hstack
    omega

end

/-! ### Histories -/

/-- A call. What `putenv` reads behind the end of an entry depends on the memory at the
time. -/
inductive Op
  | setenv (name value : Str) (overwrite : Bool)
  | putenv (string : Str)
  | unsetenv (name : Str)
  | getenv (name : Str)

/-- The names passed are free of `=`. -/
def Op.Valid : Op → Prop
  | setenv name _ _ => '=' ∉ name
  | putenv _ => True
  | unsetenv name => '=' ∉ name
  | getenv name => '=' ∉ name

/-- What a call returns: a status, or a value. -/
inductive Ret
  | status (code : ℕ)
  | value (v : Option Str)

def perform (behind : ℕ → ℕ → Char) (env : Env) : Op → Except Stop (Ret × Env)
  | .setenv name value overwrite => do
    let r ← setenv behind env name value overwrite
    pure (.status r.1,r.2)
  | .putenv string => do
    let r ← putenv behind env string
    pure (.status r.1,r.2)
  | .unsetenv name => do
    let r ← unsetenv env name
    pure (.status r.1,r.2)
  | .getenv name => do
    let v ← getenv env name
    pure (.value v,env)

/-- The same call on a map from names to values. -/
def apply (m : Str → Option Str) : Op → Str → Option Str
  | .setenv name value overwrite =>
    if overwrite = false ∧ (m name).isSome then m else Function.update m name (some value)
  | .putenv string =>
    if '=' ∈ string then Function.update m (nameOf string) (some (valueOf string)) else m
  | .unsetenv name => Function.update m name none
  | .getenv _ => m

/-- When the call writes an entry, the search for the old one is exact. -/
def Op.Exact (behind : ℕ → ℕ → Char) (env : Env) : Op → Prop
  | .setenv name _ overwrite =>
    (overwrite = false ∧ ∃ value, Environ.getenv env name = .ok (some value)) ∨
    Environ.Exact behind env name
  | .putenv string => '=' ∈ string → Environ.Exact behind env (nameOf string)
  | .unsetenv _ => True
  | .getenv _ => True

/-- Programs start with an environment of distinct names that fits their initial stack.
The map is what the calls make of it. -/
inductive Run : (Str → Option Str) → Env → Prop
  | init {envp : List Str} (hentries : ∀ e ∈ envp, '=' ∈ e) (hd : (envp.map nameOf).Nodup)
      (hstack : 4*(envp.length+1) ≤ USER_STACK_SIZE) : Run (lookup envp) (initArguments envp)
  | call {m : Str → Option Str} {env env' : Env} {behind : ℕ → ℕ →
      Char} {op : Op} {ret : Ret} (h : Run m env)
      (hvalid : op.Valid) (hexact : op.Exact behind env)
      (hret : perform behind env op = .ok (ret,env')) :
      Run (apply m op) env'

section
variable {env : Env} {es : List Str} {behind : ℕ → ℕ → Char}

theorem setenv_eq (h : Rep env es) {name : Str} (hname : '=' ∉ name) (value : Str)
    (overwrite : Bool) :
    setenv behind env name value overwrite =
      if overwrite = false ∧ (lookup es name).isSome then .ok (0,env)
      else putenv behind env (name++ '='::value) := by
  rw [setenv]
  cases overwrite with
  | true => rfl
  | false =>
    simp only [Bool.false_eq_true,if_false,getenv_spec h hname,true_and]
    rfl

theorem perform_spec (h : Rep env es) {op : Op} (hvalid : op.Valid) (hexact : op.Exact behind env) :
    Ends (perform behind env op) fun r => ∃ es', Rep r.2 es' ∧
    lookup es' = apply (lookup es) op := by
  cases op with
  | setenv name value overwrite =>
    rw [perform,setenv_eq h hvalid]
    split
    · rename_i hc
      exact Lists.Ends.ok ⟨es,h,by rw [apply,if_pos hc]⟩
    · rename_i hc
      have hmatch : Exact behind env name := by
        refine hexact.resolve_left fun ⟨hw,v,hv⟩ => hc ⟨hw,?_⟩
        rw [getenv_spec h hvalid] at hv
        rw [Except.ok.inj hv,Option.isSome_some]
      have hname : nameOf (name++ '='::value) = name := nameOf_eq hvalid
      refine (putenv_spec h (by simp) (hname.symm ▸ hmatch)).bind fun r ⟨_,es',hrep,hes⟩ =>
        Lists.Ends.ok ⟨es',hrep,?_⟩
      rw [apply,if_neg hc]
      funext n
      rw [hes,hname,valueOf_eq hvalid]
  | putenv string =>
    by_cases hs : '=' ∈ string
    · refine (putenv_spec h hs (hexact hs)).bind fun r ⟨_,es',hrep,hes⟩ =>
        Lists.Ends.ok ⟨es',hrep,?_⟩
      rw [apply,if_pos hs]
      exact funext hes
    · rw [perform,putenv,if_neg hs]
      exact Lists.Ends.ok ⟨es,h,by rw [apply,if_neg hs]⟩
  | unsetenv name =>
    obtain ⟨env',es',hret,hrep,hes⟩ := unsetenv_spec h hvalid
    rw [perform,hret]
    exact Lists.Ends.ok ⟨es',hrep,funext hes⟩
  | getenv name =>
    rw [perform,getenv_spec h hvalid]
    exact Lists.Ends.ok ⟨es,h,rfl⟩

/-- A call whose search is not exact takes another name's value away. -/
theorem perform_inexact (h : Rep env es) {op : Op} (hvalid : op.Valid)
    (hexact : ¬ op.Exact behind env) :
    ∃ ret env' name, perform behind env op = .ok (ret,env') ∧ '=' ∉ name ∧
      getenv env' name ≠ .ok (apply (lookup es) op name) := by
  cases op with
  | setenv name value overwrite =>
    obtain ⟨hw,hnot⟩ := not_or.mp hexact
    have hc : ¬ (overwrite = false ∧ (lookup es name).isSome) := by
      rintro ⟨hf,hsome⟩
      obtain ⟨v,hv⟩ := Option.isSome_iff_exists.mp hsome
      exact hw ⟨hf,v,by rw [getenv_spec h hvalid,hv]⟩
    have hname : nameOf (name++ '='::value) = name := nameOf_eq hvalid
    have hs : '=' ∈ name++ '='::value := by simp
    obtain ⟨env',n,v,hret,hn,hne,hv,hlost⟩ := putenv_inexact h hs (hname.symm ▸ hnot)
    refine ⟨.status 0,env',n,?_,hn,?_⟩
    · rw [perform,setenv_eq h hvalid,if_neg hc,hret]
      rfl
    · rw [apply,if_neg hc,Function.update_of_ne (hname ▸ hne),hv,hlost]
      simp
  | putenv string =>
    obtain ⟨hs,hnot⟩ := Classical.not_imp.mp hexact
    obtain ⟨env',n,v,hret,hn,hne,hv,hlost⟩ := putenv_inexact h hs hnot
    refine ⟨.status 0,env',n,?_,hn,?_⟩
    · rw [perform,hret]
      rfl
    · rw [apply,if_pos hs,Function.update_of_ne hne,hv,hlost]
      simp
  | unsetenv name => exact absurd trivial hexact
  | getenv name => exact absurd trivial hexact

end

theorem Run.rep {m : Str → Option Str} {env : Env} (h : Run m env) :
    ∃ es, Rep env es ∧ lookup es = m := by
  induction h with
  | init hentries hd hstack => exact ⟨_,initArguments_rep hentries hd hstack,rfl⟩
  | call h hvalid hexact hret ih =>
    obtain ⟨es,hrep,rfl⟩ := ih
    rcases perform_spec hrep hvalid hexact with hfail | ⟨r,hok,es',hrep',hes⟩
    · rw [hret] at hfail
      cases hfail
    · obtain rfl := Except.ok.inj (hret.symm.trans hok)
      exact ⟨es',hrep',hes⟩

/-- In every history whose calls search exactly, the environment is the map that the
calls describe, and the array ends with a null slot. A further call leaves the
environment a map exactly when it searches exactly, and no call leaves the array. -/
theorem environ_is_map {m : Str → Option Str} {env : Env} (h : Run m env) :
    (∀ name, '=' ∉ name → getenv env name = .ok (m name)) ∧
    env.slots.length = env.envc ∧
    (∃ es : List Str, es.length < env.envc ∧
      env.slots = es.map some++List.replicate (env.envc-es.length) none) ∧
    ∀ behind (op : Op), op.Valid → perform behind env op ≠ .error .outOfBounds ∧
      ∀ ret env', perform behind env op = .ok (ret,env') →
        ((∀ name, '=' ∉ name → getenv env' name = .ok (apply m op name)) ↔
          op.Exact behind env) := by
  obtain ⟨es,hrep,rfl⟩ := h.rep
  refine ⟨fun name hname => getenv_spec hrep hname,hrep.length,⟨es,hrep.room,hrep.slots⟩,
    fun behind op hvalid => ?_⟩
  by_cases hexact : op.Exact behind env
  · rcases perform_spec hrep hvalid hexact with hfail | ⟨r,hok,es',hrep',hes⟩
    · rw [hfail]
      exact ⟨fun hc => (by cases hc),fun ret env' hc => (by cases hc)⟩
    · rw [hok]
      refine ⟨fun hc => (by cases hc),fun ret env' hret => ?_⟩
      obtain rfl : r = (ret,env') := Except.ok.inj hret
      exact iff_of_true (fun name hname =>
        (getenv_spec hrep' hname).trans (congrArg _ (congrFun hes name))) hexact
  · obtain ⟨ret,env',name,hok,hname,hne⟩ := perform_inexact hrep hvalid hexact
    rw [hok]
    refine ⟨fun hc => (by cases hc),fun ret' env'' hret => ?_⟩
    obtain ⟨rfl,rfl⟩ := Prod.mk.inj (Except.ok.inj hret)
    exact iff_of_false (fun hall => hne (hall name hname)) hexact

/-- `A=1` set in an empty environment. -/
def oneVariable : Env := ⟨[some ['A','=','1'],none],2,12⟩

theorem oneVariable_run : Run (apply (lookup []) (.setenv ['A'] ['1'] true)) oneVariable := by
  refine @Run.call _ _ _ (fun _ _ => 'x') _ (.status 0) (.init (by simp) (by simp) (by decide)) (by
    simp [Op.Valid])
    (.inr fun i e hi => ?_) rfl
  cases i <;> simp [initArguments] at hi

theorem environ_is_map_one :
    getenv oneVariable ['A'] = .ok (some ['1']) ∧ oneVariable.slots.length = 2 ∧
    ¬ Op.Exact (fun _ _ => 'x') oneVariable (.setenv ['B'] ['2'] true) := by
  obtain ⟨hget,hlength,-,hstep⟩ := environ_is_map oneVariable_run
  refine ⟨hget ['A'] (by decide),hlength,fun hexact => ?_⟩
  have hmap :=
    ((hstep (fun _ _ => 'x') (.setenv ['B'] ['2'] true) (by simp [Op.Valid])).2 (.status 0)
    ⟨[some ['B','=','2'],none],2,12⟩ rfl).mpr hexact ['A'] (by decide)
  have hlost : (none : Option Str) = some ['1'] := Except.ok.inj hmap
  cases hlost

/-- Setting `B` takes the place of `A`, whose entry has `=` at the same place. -/
theorem setenv_replaces_other :
    ∃ m env env', Run m env ∧ perform (fun _ _ => 'x') env (.setenv ['B'] ['2'] true) =
    .ok (.status 0,env') ∧ getenv env ['A'] = .ok (some ['1']) ∧ getenv env' ['A'] = .ok none :=
  ⟨_,oneVariable,⟨[some ['B','=','2'],none],2,12⟩,oneVariable_run,rfl,rfl,rfl⟩

end Environ
end ScalesOS
