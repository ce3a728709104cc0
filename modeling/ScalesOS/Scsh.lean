import ScalesOS.StackImage
import ScalesOS.Strtok
import ScalesOS.Strtol

/-!
# The shell

`user/scsh/src/main.c`: `execute_script` cuts a text into lines, and `execute_line` cuts a line
into words, opens the files of redirections and runs the command. What the shell calls on the way
is an `Env` over some state of the world.
-/

namespace ScalesOS
namespace Scsh

open ByteMemory Loops StackImage.Stack Strtok Tokens

abbrev Bytes := List (BitVec 8)

/-- The calls of the shell. A file is `none` if `fopen` fails. -/
structure Env (σ : Type) where
  fopen : Bytes → Bytes → σ → Option ℕ × σ
  fclose : ℕ → σ → σ
  /-- `fork`, of which the child redirects its streams and calls `execve` -/
  spawn : Bytes → List Bytes → Option ℕ → Option ℕ → σ → ℕ × σ
  /-- `waitpid` for the child, which has the terminal meanwhile -/
  wait : ℕ → σ → ℤ × σ
  /-- the message about a child in the background -/
  inBackground : ℕ → σ → σ
  stdout : ℕ
  stderr : ℕ
  print : ℕ → Bytes → σ → σ
  calculate : Bytes → ℕ → σ → σ
  /-- 0 or the number of an error -/
  chdir : Bytes → σ → ℕ × σ
  /-- `pwd = get_current_dir_name()` -/
  updatePwd : σ → σ
  pwd : σ → Bytes
  /-- `interrupted`, which the handler of `SIGINT` sets -/
  interrupted : σ → Bool
  clear : σ → σ
  /-- the message about the status of a line, without the line, which has been freed by then -/
  complain : ℤ → σ → σ

def text (s : String) : Bytes := s.toList.map fun c => BitVec.ofNat 8 c.toNat

/-- What `execute_line` collects from the words. -/
structure Parse (σ : Type) where
  argv : List Bytes
  outPipe : Option ℕ
  inPipe : Option ℕ
  parsePipe : ℕ
  runInBg : Bool
  world : σ

section
variable {σ : Type} (env : Env σ)

def openOut (p : Parse σ) (word : Bytes) : Parse σ :=
  let r := env.fopen word (text "a+") p.world
  { p with outPipe := r.1, parsePipe := 0, world := r.2 }

def openIn (p : Parse σ) (word : Bytes) : Parse σ :=
  let r := env.fopen word (text "r") p.world
  { p with inPipe := r.1, parsePipe := 0, world := r.2 }

/-- The variables of the loop in `execute_line`. -/
structure Words (σ : Type) where
  word : ℕ
  strings : Strtok.State
  parse : Parse σ

/-- A turn of the loop. Calls of `strtok` leave the word alone that the last one has returned. -/
def wordTurn (fuel : ℕ) (r : Words σ) : Result (Words σ ⊕ (Parse σ × Strtok.State)) :=
  if r.word = 0 then pure (.inr (r.parse,r.strings))
  else
    let word := cstring r.strings.memory fuel r.word
    if word = text ">" then do
      let (next,strings) ← strtok fuel r.strings 0 (text " ")
      pure (.inl ⟨next,strings,{ r.parse with parsePipe := 1 }⟩)
    else if word = text "<" then do
      let (next,strings) ← strtok fuel r.strings 0 (text " ")
      pure (.inl ⟨next,strings,{ r.parse with parsePipe := 2 }⟩)
    else if r.parse.parsePipe = 1 then do
      let (next,strings) ← strtok fuel r.strings 0 (text " ")
      pure (.inl ⟨next,strings,openOut env r.parse word⟩)
    else if r.parse.parsePipe = 2 then do
      let (next,strings) ← strtok fuel r.strings 0 (text " ")
      pure (.inl ⟨next,strings,openIn env r.parse word⟩)
    else do
      let (next,strings) ← strtok fuel r.strings 0 (text " ")
      if next = 0 ∧ word = text "&" then pure (.inr ({ r.parse with runInBg := true },strings))
      else pure (.inl ⟨next,strings,{ r.parse with argv := r.parse.argv++[word] }⟩)

def tryBuiltinCommand (op : Bytes) (argv : List Bytes) (out : Option ℕ) (world : σ) : ℤ × σ :=
  let out := out.getD env.stdout
  if op.head? = some 38 then (0,env.calculate op out world)
  else if op = text "echo" then
    (0,env.print out (text "\n") (argv.foldl (fun world arg =>
      env.print out (arg++text " ") world) world))
  else if op = text "cd" then
    match argv with
    | [] => (1,env.print out (text "Usage: cd <directory>\n") world)
    | arg :: _ =>
      let r := env.chdir arg world
      -- EINVAL and ENOTDIR
      if r.1 = 22 then (1,env.print out (text "No such directory: "++arg++text "\n") r.2)
      else if r.1 = 20 then (1,env.print out (text "Not a directory: "++arg++text "\n") r.2)
      else if r.1 ≠ 0 then (1,
        env.print out (text "Unknown error occured: "++text (toString r.1)++text "\n") r.2)
      else (0,env.updatePwd r.2)
  else if op = text "pwd" then (0,env.print out (env.pwd world++text "\n") world)
  else (-1,world)

def close (file : Option ℕ) (world : σ) : σ :=
  match file with
  | none => world
  | some file => env.fclose file world

/-- `execute_line` from the loop over the words on. An absolute path of 255 characters or more
has no end in the source. -/
def runCommand (op : Bytes) (p : Parse σ) : ℤ × σ :=
  let path := if op.head? = some 47 then op.take 255 else (text "/bin/"++op).take 254
  let test := env.fopen path (text "r") p.world
  let r :=
    match test.1 with
    | some file =>
      let child := env.spawn path p.argv p.outPipe p.inPipe (env.fclose file test.2)
      if p.runInBg then (0,env.inBackground child.1 child.2) else env.wait child.1 child.2
    | none =>
      let r := tryBuiltinCommand env op p.argv p.outPipe test.2
      if r.1 < 0 then (r.1,env.print env.stderr (text "No such command: "++op++text "\n") r.2)
      else r
  (r.1,close env p.outPipe (close env p.inPipe r.2))

def executeLine (fuel line : ℕ) (s : Strtok.State) (world : σ) : Result (ℤ × Strtok.State × σ) := do
  let (word,s) ← strtok fuel s line (text " ")
  if word = 0 then throw (.panic "strdup(NULL)")
  else
    let op := cstring s.memory fuel word
    let (word,s) ← strtok fuel s 0 (text " ")
    let (p,s) ← iterate .loop (wordTurn env fuel) fuel ⟨word,s,⟨[],none,none,0,false,world⟩⟩
    let r := runCommand env op p
    pure (r.1,s,r.2)

def blank (line : Bytes) : Bool :=
  match line.dropWhile fun c => Strtol.isspace c.toInt with
  | [] => true
  | c :: _ => c = 35

/-- A turn of the first loop of `execute_script`; the lines are copies. -/
def lineTurn (fuel : ℕ) (r : ℕ × Strtok.State × List Bytes) :
    Result ((ℕ × Strtok.State × List Bytes) ⊕ (Strtok.State × List Bytes)) :=
  let (word,s,lines) := r
  if word = 0 then pure (.inr (s,lines))
  else do
    let line := cstring s.memory fuel word
    let (next,s) ← strtok fuel s 0 (text "\n;")
    pure (.inl (next,s,if blank line then lines else lines++[line]))

/-- The second loop; each copy stands at the address `line` when it is executed. -/
def runLines (fuel line : ℕ) : List Bytes → Strtok.State → σ → Result (ℤ × Strtok.State × σ)
  | [],s,world => pure (0,s,world)
  | l :: lines,s,world => do
    let (status,s,world) ← executeLine env fuel line
      { s with memory := store s.memory line (l++[0]) } world
    if status ≠ 0 ∨ env.interrupted world = true then
      pure (status,s,if status ≠ 0 then env.complain status world else world)
    else runLines fuel line lines s world

def executeScript (fuel buffer line : ℕ) (s : Strtok.State) (world : σ) :
    Result (ℤ × Strtok.State × σ) := do
  let (word,s) ← strtok fuel s buffer (text "\n;")
  let (s,lines) ← iterate .loop (lineTurn fuel) fuel (word,s,[])
  runLines env fuel line lines s (env.clear world)

def parseWords : List Bytes → Parse σ → Parse σ
  | [],p => p
  | word :: words,p =>
    if word = text ">" then parseWords words { p with parsePipe := 1 }
    else if word = text "<" then parseWords words { p with parsePipe := 2 }
    else if p.parsePipe = 1 then parseWords words (openOut env p word)
    else if p.parsePipe = 2 then parseWords words (openIn env p word)
    else if words = [] ∧ word = text "&" then { p with runInBg := true }
    else parseWords words { p with argv := p.argv++[word] }

/-- The words of a line are what its spaces separate. -/
def run (l : Bytes) (world : σ) : ℤ × σ :=
  match tokens (· == 32) l with
  | [] => (0,world)
  | op :: words => runCommand env op (parseWords env words ⟨[],none,none,0,false,world⟩)

/-- The lines of a script, without those that say nothing. -/
def commands (script : Bytes) : List Bytes :=
  (tokens (fun c => c == 10 || c == 59) script).filter fun l => !blank l

/-- One line after the other, up to the first one that fails or is interrupted. -/
def runAll : List Bytes → σ → ℤ × σ
  | [],world => (0,world)
  | l :: lines,world =>
    let r := run env l world
    if r.1 ≠ 0 ∨ env.interrupted r.2 = true then (r.1,if r.1 ≠ 0 then env.complain r.1 r.2 else r.2)
    else runAll lines r.2

inductive Item
  | arg (word : Bytes)
  | out (path : Bytes)
  | inp (path : Bytes)
  deriving DecidableEq

def Item.words : Item → List Bytes
  | .arg word => [word]
  | .out path => [text ">",path]
  | .inp path => [text "<",path]

def Item.apply (p : Parse σ) : Item → Parse σ
  | .arg word => { p with argv := p.argv++[word] }
  | .out path => openOut env p path
  | .inp path => openIn env p path

def Item.operand : Item → Bytes
  | .arg word => word
  | .out path => path
  | .inp path => path

/-- A word can be written in a script. -/
structure Plain (word : Bytes) : Prop where
  ne_nil : word ≠ []
  bytes : ∀ b ∈ word, b ≠ 32 ∧ b ≠ 10 ∧ b ≠ 59

structure Command where
  op : Bytes
  items : List Item
  background : Bool
  deriving DecidableEq

namespace Command

def words (c : Command) : List Bytes :=
  c.items.flatMap Item.words++if c.background then [text "&"] else []

/-- A line of a script. -/
def render (c : Command) : Bytes := c.op++c.words.flatMap (32 :: ·)

def exec (c : Command) (world : σ) : ℤ × σ :=
  runCommand env c.op { c.items.foldl (Item.apply env) ⟨[],none,none,0,false,
    world⟩ with runInBg := c.background }

def execAll : List Command → σ → ℤ × σ
  | [],world => (0,world)
  | c :: cs,world =>
    let r := exec env c world
    if r.1 ≠ 0 ∨ env.interrupted r.2 = true then (r.1,if r.1 ≠ 0 then env.complain r.1 r.2 else r.2)
    else execAll cs r.2

/-- The parts are written as words that are no signs of redirections, and the last one is not
taken for the sign of the background. -/
structure Writable (c : Command) : Prop where
  op : Plain c.op
  visible : blank c.op = false
  plain : ∀ item ∈ c.items, Plain item.operand
  signs : ∀ item ∈ c.items, item.operand ≠ text ">" ∧ item.operand ≠ text "<"
  last : c.background = false → c.items.getLast? ≠ some (.arg (text "&"))

end Command

variable {fuel p line : ℕ} {l script : Bytes} {lines ts : List Bytes} {s : Strtok.State}
    {world : σ} {m : Mem}

theorem cstring_stringAt (h : StringAt m p l) (hfuel : l.length < fuel) : cstring m fuel p = l := by
  induction l generalizing p fuel with
  | nil =>
    obtain ⟨fuel,rfl⟩ := Nat.exists_eq_add_one.mpr hfuel
    exact if_pos h
  | cons b l ih =>
    obtain ⟨fuel,rfl⟩ := Nat.exists_eq_add_one.mpr (Nat.zero_lt_of_lt hfuel)
    obtain ⟨rfl,hb,hl⟩ := h
    rw [cstring,if_neg hb,ih hl (by simpa using hfuel)]

/-- The state between two turns of a loop over tokens: the address of the next one, and those that
follow it. -/
def Next (delim : Bytes) (word : ℕ) (s : Strtok.State) : List Bytes → Prop
  | [] => word = 0
  | t :: ts => Shows (word,s.memory) (some t) ∧ Left delim s ts

theorem next_call {delim : Bytes} (hdelim : 0 ∉ delim) (h : Left delim s ts) :
    ∃ word s', Returns s 0 delim word s' ∧ Next delim word s' ts := by
  cases ts with
  | nil => exact ⟨0,s,h.done hdelim,rfl⟩
  | cons t ts =>
    obtain ⟨ret,s',hret,hshow,hleft⟩ := h.next
    exact ⟨ret,s',hret,hshow,hleft⟩

theorem wordTurns (words : List Bytes) {word : ℕ} (p : Parse σ) (h : Next (text " ") word s words) :
    ∃ s' fuel₀, ∀ fuel ≥ fuel₀, ∀ turns ≥ fuel₀,
      iterate .loop (wordTurn env fuel) turns ⟨word,s,p⟩ = .ok (parseWords env words p,s') := by
  induction words generalizing word s p with
  | nil =>
    obtain rfl : word = 0 := h
    refine ⟨s,1,fun fuel _ turns hturns => ?_⟩
    obtain ⟨turns,rfl⟩ : ∃ n, turns = n+1 := ⟨turns-1,by omega⟩
    exact iterate_ended rfl
  | cons w words ih =>
    obtain ⟨⟨hword,hstring⟩,hleft⟩ := h
    obtain ⟨next,s₁,⟨fuel₁,hcall⟩,hnext⟩ := next_call (by decide) hleft
    have hread : ∀ fuel ≥ max fuel₁ (w.length+1), cstring s.memory fuel word = w :=
      fun fuel hfuel =>
      cstring_stringAt hstring (by omega)
    have hstrtok : ∀ fuel ≥ max fuel₁ (w.length+1), strtok fuel s 0 (text " ") = .ok (next,s₁) :=
      fun fuel hfuel =>
      strtok_more hcall (by omega)
    have hgo :
      ∀ p', (∀ fuel ≥ max fuel₁ (w.length+1),
        wordTurn env fuel ⟨word,s,p⟩ = .ok (.inl ⟨next,s₁,p'⟩)) →
        parseWords env (w :: words) p = parseWords env words p' →
        ∃ s' fuel₀, ∀ fuel ≥ fuel₀, ∀ turns ≥ fuel₀,
          iterate .loop (wordTurn env fuel) turns ⟨word,s,p⟩ =
          .ok (parseWords env (w :: words) p,s') := by
      intro p' hturn hparse
      obtain ⟨s',fuel₂,hloop⟩ := ih p' hnext
      refine ⟨s',max (max fuel₁ (w.length+1)) fuel₂+1,fun fuel hfuel turns hturns => ?_⟩
      obtain ⟨turns,rfl⟩ : ∃ n, turns = n+1 := ⟨turns-1,by omega⟩
      rw [iterate_next (hturn fuel (by omega)),hparse]
      exact hloop fuel (by omega) turns (by omega)
    by_cases hout : w = text ">"
    · refine hgo { p with parsePipe := 1 } (fun fuel hfuel => ?_) (if_pos hout)
      simp only [wordTurn,if_neg hword,hread fuel hfuel,if_pos hout]
      exact Result.bind_eq_ok.mpr ⟨_,hstrtok fuel hfuel,rfl⟩
    by_cases hin : w = text "<"
    · refine hgo { p with parsePipe := 2 } (fun fuel hfuel => ?_) ((if_neg hout).trans (if_pos hin))
      simp only [wordTurn,if_neg hword,hread fuel hfuel,if_neg hout,if_pos hin]
      exact Result.bind_eq_ok.mpr ⟨_,hstrtok fuel hfuel,rfl⟩
    by_cases hfirst : p.parsePipe = 1
    · refine hgo (openOut env p w) (fun fuel hfuel => ?_) (by
        rw [parseWords,if_neg hout,if_neg hin,if_pos hfirst])
      simp only [wordTurn,if_neg hword,hread fuel hfuel,if_neg hout,if_neg hin,if_pos hfirst]
      exact Result.bind_eq_ok.mpr ⟨_,hstrtok fuel hfuel,rfl⟩
    by_cases hsecond : p.parsePipe = 2
    · refine hgo (openIn env p w) (fun fuel hfuel => ?_)
        (by rw [parseWords,if_neg hout,if_neg hin,if_neg hfirst,if_pos hsecond])
      simp only [wordTurn,if_neg hword,hread fuel hfuel,if_neg hout,if_neg hin,
        if_neg hfirst,if_pos hsecond]
      exact Result.bind_eq_ok.mpr ⟨_,hstrtok fuel hfuel,rfl⟩
    have hlast : next = 0 ↔ words = [] := by
      cases words with
      | nil => exact iff_of_true hnext rfl
      | cons t ts => exact iff_of_false hnext.1.1 (List.cons_ne_nil t ts)
    by_cases hbg : words = [] ∧ w = text "&"
    · refine ⟨s₁,max fuel₁ (w.length+1)+1,fun fuel hfuel turns hturns => ?_⟩
      obtain ⟨turns,rfl⟩ : ∃ n, turns = n+1 := ⟨turns-1,by omega⟩
      rw [parseWords,if_neg hout,if_neg hin,if_neg hfirst,if_neg hsecond,if_pos hbg]
      refine iterate_ended ?_
      simp only [wordTurn,if_neg hword,hread fuel (by omega),if_neg hout,if_neg hin,
        if_neg hfirst,if_neg hsecond]
      exact Result.bind_eq_ok.mpr ⟨_,hstrtok fuel (by omega),if_pos ⟨hlast.mpr hbg.1,hbg.2⟩⟩
    · refine hgo { p with argv := p.argv++[w] } (fun fuel hfuel => ?_)
        (by rw [parseWords,if_neg hout,if_neg hin,if_neg hfirst,if_neg hsecond,if_neg hbg])
      simp only [wordTurn,if_neg hword,hread fuel hfuel,if_neg hout,if_neg hin,
        if_neg hfirst,if_neg hsecond]
      exact Result.bind_eq_ok.mpr ⟨_,hstrtok fuel hfuel,if_neg fun h => hbg ⟨hlast.mp h.1,h.2⟩⟩

theorem space_tokens (l : Bytes) : tokens (isDelim · (text " ")) l = tokens (· == 32) l :=
  tokens_congr fun b _ => Bool.eq_iff_iff.mpr (by rw [isDelim_iff]; simp [text])

theorem line_tokens (l : Bytes) :
    tokens (isDelim · (text "\n;")) l = tokens (fun c => c == 10 || c == 59) l :=
  tokens_congr fun b _ => Bool.eq_iff_iff.mpr (by rw [isDelim_iff]; simp [text])

theorem executeLine_run (hp : p ≠ 0) (h : StringAt s.memory p l)
    (hl : tokens (· == 32) l ≠ []) (world : σ) :
    ∃ s' fuel₀, ∀ fuel ≥ fuel₀,
        executeLine env fuel p s world = .ok ((run env l world).1,s',(run env l world).2) := by
  cases htokens : tokens (· == 32) l with
  | nil => exact absurd htokens hl
  | cons op words =>
    obtain ⟨ret,s₁,⟨fuel₁,hcall⟩,⟨hret,hop⟩,hleft⟩ :=
      left_start hp h ((space_tokens l).trans htokens)
    obtain ⟨word,s₂,⟨fuel₂,hcall₂⟩,hnext⟩ := next_call (by decide) hleft
    obtain ⟨s',fuel₃,hloop⟩ := wordTurns env words ⟨[],none,none,0,false,world⟩ hnext
    refine ⟨s',max (max fuel₁ fuel₂) (max fuel₃ (op.length+1)),fun fuel hfuel => ?_⟩
    rw [run,htokens]
    refine Result.bind_eq_ok.mpr ⟨_,strtok_more hcall (by omega),?_⟩
    simp only [if_neg hret]
    refine Result.bind_eq_ok.mpr ⟨_,strtok_more hcall₂ (by omega),?_⟩
    simp only [cstring_stringAt hop (by omega : op.length < fuel)]
    exact Result.bind_eq_ok.mpr ⟨_,hloop fuel (by omega) fuel (by omega),rfl⟩

theorem tokens_of_not_blank (h : blank l = false) : tokens (· == 32) l ≠ [] := by
  intro hnone
  have hall := tokens_eq_nil_iff.mp hnone
  have hspace : ∀ c ∈ l, Strtol.isspace c.toInt = true := fun c hc => by
    rw [eq_of_beq (hall c hc)]
    rfl
  rw [blank,List.dropWhile_eq_nil_iff.mpr hspace] at h
  cases h

theorem lineTurns (ts : List Bytes) {word : ℕ} (lines : List Bytes)
    (h : Next (text "\n;") word s ts) :
    ∃ s' fuel₀, ∀ fuel ≥ fuel₀, ∀ turns ≥ fuel₀,
      iterate .loop (lineTurn fuel) turns (word,s,lines) =
      .ok (s',lines++ts.filter fun l => !blank l) := by
  induction ts generalizing word s lines with
  | nil =>
    obtain rfl : word = 0 := h
    refine ⟨s,1,fun fuel _ turns hturns => ?_⟩
    obtain ⟨turns,rfl⟩ : ∃ n, turns = n+1 := ⟨turns-1,by omega⟩
    rw [List.filter_nil,List.append_nil]
    exact iterate_ended rfl
  | cons t ts ih =>
    obtain ⟨⟨hword,hstring⟩,hleft⟩ := h
    obtain ⟨next,s₁,⟨fuel₁,hcall⟩,hnext⟩ := next_call (by decide) hleft
    obtain ⟨s',fuel₂,hloop⟩ := ih (if blank t then lines else lines++[t]) hnext
    refine ⟨s',max (max fuel₁ (t.length+1)) fuel₂+1,fun fuel hfuel turns hturns => ?_⟩
    obtain ⟨turns,rfl⟩ : ∃ n, turns = n+1 := ⟨turns-1,by omega⟩
    have hturn :
        lineTurn fuel (word,s,lines) =
            .ok (.inl (next,s₁,if blank t then lines else lines++[t])) := by
      simp only [lineTurn,if_neg hword,cstring_stringAt hstring (by omega : t.length < fuel)]
      exact Result.bind_eq_ok.mpr ⟨_,strtok_more hcall (by omega),rfl⟩
    rw [iterate_next hturn,hloop fuel (by omega) turns (by omega)]
    cases hblank : blank t <;> simp [hblank]

/-- The lines of a script are executed as they mean, each from its copy. -/
theorem runLines_runAll (hp : p ≠ 0) (lines : List Bytes)
    (hlines : ∀ l ∈ lines, blank l = false ∧ 0 ∉ l) (s : Strtok.State) (world : σ) :
    ∃ s' fuel₀, ∀ fuel ≥ fuel₀, runLines env fuel p lines s world = .ok ((runAll env lines world).1,
        s',(runAll env lines world).2) := by
  induction lines generalizing s world with
  | nil => exact ⟨s,0,fun fuel _ => rfl⟩
  | cons l lines ih =>
    obtain ⟨hblank,hzero⟩ := hlines l List.mem_cons_self
    obtain ⟨s₁,fuel₁,hline⟩ :=
      executeLine_run env (s:={ s with memory := store s.memory p (l++[0]) }) hp
      (stringAt_store hzero s.memory p) (tokens_of_not_blank hblank) world
    by_cases hstop : (run env l world).1 ≠ 0 ∨ env.interrupted (run env l world).2 = true
    · refine ⟨s₁,fuel₁,fun fuel hfuel => ?_⟩
      rw [runAll,if_pos hstop]
      exact Result.bind_eq_ok.mpr ⟨_,hline fuel hfuel,if_pos hstop⟩
    · obtain ⟨s',fuel₂,hrest⟩ :=
        ih (fun l' hl' => hlines l' (List.mem_cons_of_mem l hl')) s₁ (run env l world).2
      refine ⟨s',max fuel₁ fuel₂,fun fuel hfuel => ?_⟩
      rw [runAll,if_neg hstop]
      exact Result.bind_eq_ok.mpr ⟨_,hline fuel (by omega),
        (if_neg hstop).trans (hrest fuel (by omega))⟩

theorem executeScript_run (hp : p ≠ 0) (hline : line ≠ 0)
    (h : StringAt s.memory p script) (world : σ) :
    ∃ s' fuel₀, ∀ fuel ≥ fuel₀, executeScript env fuel p line s world =
      .ok ((runAll env (commands script) (env.clear world)).1,s',
          (runAll env (commands script) (env.clear world)).2) := by
  have hstart : start s p = p := if_neg hp
  obtain ⟨word,s₁,⟨fuel₁,hcall⟩,hnext⟩ : ∃ word s₁, Returns s p (text "\n;") word s₁ ∧
      Next (text "\n;") word s₁ (tokens (isDelim · (text "\n;")) script) := by
    cases htokens : tokens (isDelim · (text "\n;")) script with
    | nil =>
      exact ⟨0,s,returns_none (by decide) (by rwa [hstart]) (by
        rwa [hstart]) (tokens_eq_nil_iff.mp htokens),rfl⟩
    | cons t ts =>
      obtain ⟨ret,s₁,hret,hshow,hleft⟩ := left_start hp h htokens
      exact ⟨ret,s₁,hret,hshow,hleft⟩
  obtain ⟨s₂,fuel₂,hloop⟩ := lineTurns _ [] hnext
  rw [line_tokens,List.nil_append] at hloop
  have hlines : ∀ l ∈ commands script, blank l = false ∧ 0 ∉ l := fun l hl => by
    obtain ⟨hmem,hblank⟩ := List.mem_filter.mp hl
    exact ⟨by simpa using hblank,fun h0 => h.zero_notMem ((isInfix_of_mem_tokens hmem).mem h0)⟩
  obtain ⟨s',fuel₃,hrun⟩ := runLines_runAll env hline (commands script) hlines s₂ (env.clear world)
  refine ⟨s',max fuel₁ (max fuel₂ fuel₃),fun fuel hfuel => ?_⟩
  refine Result.bind_eq_ok.mpr ⟨_,strtok_more hcall (by omega),?_⟩
  exact Result.bind_eq_ok.mpr ⟨_,hloop fuel (by omega) fuel (by omega),hrun fuel (by omega)⟩

theorem runAll_append (lines others : List Bytes) (world : σ)
    (hworld : env.interrupted world = false) :
    runAll env (lines++others) world =
      if (runAll env lines world).1 ≠ 0 ∨ env.interrupted (runAll env lines world).2 = true then
        runAll env lines world
      else runAll env others (runAll env lines world).2 := by
  induction lines generalizing world with
  | nil => simp [runAll,hworld]
  | cons l lines ih =>
    by_cases hstop : (run env l world).1 ≠ 0 ∨ env.interrupted (run env l world).2 = true
    · have hsame : runAll env (l :: lines) world = runAll env (l :: (lines++others)) world := by
        rw [runAll,runAll,if_pos hstop,if_pos hstop]
      have hfailed : (runAll env (l :: lines) world).1 ≠ 0 ∨
          env.interrupted (runAll env (l :: lines) world).2 = true := by
        rw [runAll,if_pos hstop]
        by_cases hstatus : (run env l world).1 = 0
        · exact .inr (by simpa [hstatus] using hstop)
        · exact .inl hstatus
      rw [if_pos hfailed,List.cons_append,hsame]
    · rw [List.cons_append,runAll,runAll,if_neg hstop,if_neg hstop,
        ih _ (by simpa using (not_or.mp hstop).2)]

theorem parseWords_items (items : List Item) (background : Bool)
    (hsigns : ∀ item ∈ items, item.operand ≠ text ">" ∧ item.operand ≠ text "<")
    (hlast : background = false → items.getLast? ≠ some (.arg (text "&"))) (p : Parse σ)
    (hpipe : p.parsePipe = 0) (hbg : p.runInBg = false) :
    parseWords env (items.flatMap Item.words++if background then [text "&"] else []) p =
      { items.foldl (Item.apply env) p with runInBg := background } := by
  induction items generalizing p with
  | nil =>
    cases background with
    | false =>
      change p = { p with runInBg := false }
      rw [← hbg]
    | true => simp [parseWords,hpipe,text]
  | cons item items ih =>
    have hrest := fun p' hpipe' hbg' =>
        ih (fun i hi => hsigns i (List.mem_cons_of_mem item hi)) (fun hb hl => hlast hb (by
      rw [List.getLast?_cons,hl]
      rfl)) p' hpipe' hbg'
    have hsign := hsigns item List.mem_cons_self
    rw [List.flatMap_cons,List.append_assoc,List.foldl_cons]
    cases item with
    | arg word =>
      obtain ⟨hout,hin⟩ : word ≠ text ">" ∧ word ≠ text "<" := hsign
      have hother :
          ¬((items.flatMap Item.words++if background then [text "&"] else []) = [] ∧
              word = text "&") := by
        rintro ⟨hnone,rfl⟩
        obtain ⟨hitems,hback⟩ := List.append_eq_nil_iff.mp hnone
        cases background with
        | true => cases hback
        | false =>
          cases items with
          | nil => exact hlast rfl rfl
          | cons i items => cases i <;> cases hitems
      generalize (items.flatMap Item.words++if background then [text "&"] else []) =
        words at hrest hother ⊢
      change parseWords env (word :: words) p = _
      rw [parseWords,if_neg hout,if_neg hin,if_neg (by simp [hpipe]),
        if_neg (by simp [hpipe]),if_neg hother]
      exact hrest _ hpipe hbg
    | out path =>
      obtain ⟨hout,hin⟩ : path ≠ text ">" ∧ path ≠ text "<" := hsign
      generalize (items.flatMap Item.words++if background then [text "&"] else []) =
        words at hrest ⊢
      change parseWords env (text ">" :: path :: words) p = _
      rw [parseWords,if_pos rfl,parseWords,if_neg hout,if_neg hin,if_pos rfl]
      exact hrest (openOut env p path) rfl hbg
    | inp path =>
      obtain ⟨hout,hin⟩ : path ≠ text ">" ∧ path ≠ text "<" := hsign
      generalize (items.flatMap Item.words++if background then [text "&"] else []) =
        words at hrest ⊢
      change parseWords env (text "<" :: path :: words) p = _
      rw [parseWords,if_neg (by decide),if_pos rfl,parseWords,if_neg hout,if_neg hin,
        if_neg (show ¬2 = 1 by decide),if_pos rfl]
      exact hrest (openIn env p path) rfl hbg

theorem Command.Writable.words_plain {c : Command} (h : c.Writable) : ∀ w ∈ c.words, Plain w := by
  have hsign : ∀ w ∈ [text ">",text "<",text "&"], Plain w := by
    intro w hw
    simp only [List.mem_cons,List.not_mem_nil,or_false] at hw
    rcases hw with rfl | rfl | rfl <;> exact ⟨by simp [text],by simp [text]⟩
  intro w hw
  rcases List.mem_append.mp hw with hw | hw
  · obtain ⟨item,hitem,hw⟩ := List.mem_flatMap.mp hw
    have hplain := h.plain item hitem
    cases item with
    | arg word =>
      obtain rfl := List.mem_singleton.mp hw
      exact hplain
    | out path =>
      rcases List.mem_cons.mp hw with rfl | hw
      · exact hsign _ (by simp)
      · obtain rfl := List.mem_singleton.mp hw
        exact hplain
    | inp path =>
      rcases List.mem_cons.mp hw with rfl | hw
      · exact hsign _ (by simp)
      · obtain rfl := List.mem_singleton.mp hw
        exact hplain
  · cases hb : c.background with
    | true =>
      rw [hb] at hw
      exact hsign w (by simpa using Or.inr (Or.inr (List.mem_singleton.mp hw)))
    | false =>
      rw [hb] at hw
      cases hw

theorem Command.Writable.run_render {c : Command} (h : c.Writable) (world : σ) :
    run env c.render world = c.exec env world := by
  have hspace : ∀ w, Plain w → w ≠ [] ∧ ∀ b ∈ w, (b == 32) = false := fun w hw =>
    ⟨hw.ne_nil,fun b hb => by simpa using (hw.bytes b hb).1⟩
  obtain ⟨hne,hop⟩ := hspace c.op h.op
  rw [run,Command.render,tokens_joined rfl hne hop fun w hw => hspace w (h.words_plain w hw)]
  simp only [Command.exec]
  rw [Command.words,parseWords_items env c.items c.background h.signs h.last _ rfl rfl]

theorem blank_append {xs : Bytes} (h : blank xs = false) (l : Bytes) : blank (xs++l) = false := by
  have hne : (xs.dropWhile fun c => Strtol.isspace c.toInt) ≠ [] := fun hnil => by
    rw [blank,hnil] at h
    cases h
  rw [blank] at h ⊢
  rw [List.dropWhile_append,if_neg (by simpa using hne)]
  cases hdrop : xs.dropWhile fun c => Strtol.isspace c.toInt with
  | nil => exact absurd hdrop hne
  | cons c rest =>
    rw [hdrop] at h
    exact h

theorem commands_render {cs : List Command} (h : ∀ c ∈ cs, c.Writable) :
    commands ((cs.map Command.render).flatMap (·++[10])) = cs.map Command.render := by
  have hline : ∀ w, Plain w → ∀ b ∈ w, (b == 10 || b == 59) = false := fun w hw b hb => by
    simpa using (hw.bytes b hb).2
  have htokens : tokens (fun c => c == 10 || c == 59) ((cs.map Command.render).flatMap (·++[10])) =
      cs.map Command.render := by
    refine tokens_ended rfl fun w hw => ?_
    obtain ⟨c,hc,rfl⟩ := List.mem_map.mp hw
    refine ⟨fun hnil => (h c hc).op.ne_nil (List.append_eq_nil_iff.mp hnil).1,fun b hb => ?_⟩
    rcases List.mem_append.mp hb with hb | hb
    · exact hline _ (h c hc).op b hb
    · obtain ⟨w,hw,hb⟩ := List.mem_flatMap.mp hb
      rcases List.mem_cons.mp hb with rfl | hb
      · rfl
      · exact hline w ((h c hc).words_plain w hw) b hb
  rw [commands,htokens,List.filter_eq_self]
  intro l hl
  obtain ⟨c,hc,rfl⟩ := List.mem_map.mp hl
  simpa [Command.render] using blank_append (h c hc).visible _

theorem runAll_render {cs : List Command} (h : ∀ c ∈ cs, c.Writable) (world : σ) :
    runAll env (cs.map Command.render) world = Command.execAll env cs world := by
  induction cs generalizing world with
  | nil => rfl
  | cons c cs ih =>
    have hrest := fun world => ih (fun c' hc' => h c' (List.mem_cons_of_mem c hc')) world
    rw [List.map_cons,runAll,Command.execAll,(h c List.mem_cons_self).run_render,hrest]

/-- `execute_script` does what the lines of the script say, one after the other, whatever the
buffer holds behind it. A script that consists of two parts does the second part after the first
one if that has not failed, and the text of some commands executes these commands. -/
theorem script_runs (hp : p ≠ 0) (hline : line ≠ 0) (h : StringAt s.memory p script) (world : σ)
    (hclear : env.interrupted (env.clear world) = false) :
    (∃ s' fuel₀, ∀ fuel ≥ fuel₀, executeScript env fuel p line s world =
      .ok ((runAll env (commands script) (env.clear world)).1,s',
        (runAll env (commands script) (env.clear world)).2)) ∧
    (∀ a sep b, script = a++sep :: b → sep = 10 ∨ sep = 59 →
      let r := runAll env (commands a) (env.clear world)
      runAll env (commands script) (env.clear world) =
        if r.1 ≠ 0 ∨ env.interrupted r.2 = true then r else runAll env (commands b) r.2) ∧
    ∀ cs : List Command, (∀ c ∈ cs, c.Writable) →
    script = (cs.map Command.render).flatMap (·++[10]) →
      runAll env (commands script) (env.clear world) =
      Command.execAll env cs (env.clear world) := by
  refine ⟨executeScript_run env hp hline h world,fun a sep b hscript hsep => ?_,
    fun cs hcs hscript => ?_⟩
  · have hcommands : commands script = commands a++commands b := by
      rw [commands,hscript,tokens_append_sep (by rcases hsep with rfl | rfl <;> rfl),
        List.filter_append]
      rfl
    rw [hcommands]
    exact runAll_append env _ _ _ hclear
  · rw [hscript,commands_render hcs]
    exact runAll_render env hcs _

end

def printer : Env (List Bytes) where
  fopen _ _ world := (none,world)
  fclose _ world := world
  spawn _ _ _ _ world := (0,world)
  wait _ world := (0,world)
  inBackground _ world := world
  stdout := 1
  stderr := 2
  print _ bytes world := world++[bytes]
  calculate _ _ world := world
  chdir _ world := (2,world)
  updatePwd world := world
  pwd _ := text "/"
  interrupted _ := false
  clear world := world
  complain _ world := world++[text "Error"]

/-- The second command fails, and the third one is not executed. -/
theorem script_runs_failing : ∃ s' fuel₀, ∀ fuel ≥ fuel₀,
    executeScript printer fuel 0x1000 0x2000
    ⟨store (fun _ => 7) 0x1000 (text "echo a\ncd b\npwd\n"++[0]),0⟩ [] =
      .ok (1,s',[text "a ",text "\n",text "Unknown error occured: 2\n",text "Error"]) := by
  have hstring := stringAt_store (l:=text "echo a\ncd b\npwd\n") (by decide) (fun _ => 7) 0x1000
  obtain ⟨⟨s',fuel₀,hrun⟩,-,hwritten⟩ :=
    @script_runs _ printer 0x1000 0x2000 _ ⟨_,0⟩ (by decide) (by decide) hstring [] rfl
  have hcommands :=
    hwritten [⟨text "echo",[.arg (text "a")],false⟩,⟨text "cd",[.arg (text "b")],false⟩,
      ⟨text "pwd",[],false⟩]
    (by
      intro c hc
      simp only [List.mem_cons,List.not_mem_nil,or_false] at hc
      rcases hc with rfl | rfl | rfl <;>
        exact ⟨⟨by decide,by decide⟩,by decide,by simp [Item.operand,Plain.mk,text],by decide,
          by decide⟩) (by decide)
  rw [hcommands] at hrun
  exact ⟨s',fuel₀,hrun⟩

end Scsh
end ScalesOS
