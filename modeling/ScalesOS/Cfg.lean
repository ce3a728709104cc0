import ScalesOS.Fgets
import ScalesOS.Strtok

/-!
# Configuration files

`libs/libcfg/src/cfg.c`. A file is read line by line into one buffer, and `strtok` cuts each
line in place. `strncpy` and `strdup` give a node strings of its own.
-/

namespace ScalesOS
namespace Cfg

open ByteMemory Loops Stdio Strtok Tokens

structure CfgNode where
  name : Bytes
  value : Bytes
  deriving DecidableEq

/-- The bytes that `strncpy` copies; a zero is written behind them. -/
def strncpy (m : Mem) (source : ℕ) : ℕ → Bytes
  | 0 => []
  | num+1 => if m source = 0 then [] else m source :: strncpy m (source+1) num

/-- What the loop does with a line that `fgets` has read. No node comes from a comment, an empty
line or a malformed one. -/
def cfgLine (fuel line : ℕ) (s : Strtok.State) : Result (Option CfgNode × Strtok.State) :=
  if s.memory line = 35 ∨ s.memory line = 0 then pure (none,s)
  else do
    let (v,s) ← strtok fuel s line [61]
    if v = 0 then pure (none,s)
    else
      let name := strncpy s.memory v 128
      let (v,s) ← strtok fuel s 0 [61,10]
      if v = 0 then pure (none,s)
      else pure (some ⟨name,strncpy s.memory v 256⟩,s)

/-- The stream, the memory with the buffer, and `cfg->nodes`. -/
structure Reading where
  strings : Strtok.State
  stream : Stream
  nodes : List CfgNode

def cfgTurn (data : Bytes) (fuel line : ℕ) (r : Reading) : Result (Reading ⊕ Reading) :=
  match fgets data line 128 r.strings.memory r.stream with
  | (none,m,stream) => pure (.inr
      { r with strings := { r.strings with memory := m }, stream := stream })
  | (some _,m,stream) => do
    let (node,strings) ← cfgLine fuel line { r.strings with memory := m }
    pure (.inl ⟨strings,stream,r.nodes++node.toList⟩)

/-- There is no file if `fopen` fails. `buffer` is what `malloc` returns for the stream. -/
def cfgOpen (fuel line : ℕ) (s : Strtok.State) (buffer : Mem) : Option Bytes →
    Result (Option (List CfgNode) × Strtok.State)
  | none => pure (none,s)
  | some data => do
    let r ← iterate .loop (cfgTurn data fuel line) fuel ⟨s,fdopen buffer,[]⟩
    pure (some r.nodes,r.strings)

def cfgGetValue : List CfgNode → Bytes → Option Bytes
  | [],_ => none
  | node :: nodes,path => if node.name = path then some node.value else cfgGetValue nodes path

/-- A line of at most 127 bytes, with its newline. The name is what stands before the first `=`
and the value what follows up to the next one; empty parts are skipped. -/
def entry (l : Bytes) : Option CfgNode :=
  if l.head? = some 35 then none
  else
    match tokens (· == 61) l with
    | [] => none
    | name :: parts => (parts.flatMap (tokens (· == 10))).head?.map (⟨name,·⟩)

/-- The lines of a file, cut after `n` bytes. -/
def linesOf (n : ℕ) : ℕ → Bytes → List Bytes
  | 0,_ => []
  | _+1,[] => []
  | k+1,b :: rest => line n (b :: rest) ::
      linesOf n k ((b :: rest).drop (line n (b :: rest)).length)

def fileLines (data : Bytes) : List Bytes := linesOf 127 data.length data

/-- Every line ends with a newline, and no byte is taken for the end of the file or of a string. -/
structure TextFile (data : Bytes) : Prop where
  newline : data = [] ∨ data.getLast? = some newline
  eof : EOF ∉ data
  zero : 0 ∉ data

/-- The line of a node. -/
def render (node : CfgNode) : Bytes := node.name++61 :: (node.value++[10])

/-- A node whose line is neither a comment nor too long, and has no other `=` or newline. -/
structure Writable (node : CfgNode) : Prop where
  name_ne : node.name ≠ []
  value_ne : node.value ≠ []
  comment : node.name.head? ≠ some 35
  bytes : ∀ b ∈ node.name++node.value, b ≠ 61 ∧ b ≠ 10
  length : node.name.length+node.value.length ≤ 125

variable {data rest l : Bytes} {m : Mem} {p n k fuel fuel' source num ptr : ℕ} {stream : Stream}
    {s : Strtok.State}

theorem strncpy_stringAt (h : StringAt m source l) (hl : l.length ≤ num) :
    strncpy m source num = l := by
  induction num generalizing source l with
  | zero =>
    rw [List.eq_nil_of_length_eq_zero (Nat.le_zero.mp hl)]
    rfl
  | succ num ih =>
    cases l with
    | nil => exact if_pos h
    | cons b l =>
      obtain ⟨rfl,hb,hl'⟩ := h
      rw [strncpy,if_neg hb,ih hl' (by simpa using hl)]

/-- A call of `fgets` that meets neither the end of the file nor the byte of `EOF`. -/
theorem fgetsLoop_line (ptr : ℕ) (h : Remaining data k stream rest) (heof : EOF ∉ line (n+1) rest)
    (hfull : (line (n+1) rest).length = n+1 ∨ (line (n+1) rest).getLast? = some newline)
    (a : ℕ) (m : Mem) :
    ∃ t, fgetsLoop data ptr (n+1) a m stream = (some ptr,store m a (line (n+1) rest++[0]),t) ∧
      Remaining data k t (rest.drop (line (n+1) rest).length) := by
  induction rest generalizing n a m stream with
  | nil => simp [line] at hfull
  | cons b rest ih =>
    have hb : b ≠ EOF := fun hb => heof (by simp [line,hb,show EOF ≠ newline by decide])
    by_cases hlast : n = 0 ∨ b = newline
    · have hline : line (n+1) (b :: rest) = [b] := by
        rcases hlast with rfl | rfl <;> simp [line]
      refine ⟨(fread data stream 1 1).2,?_,by simpa [hline] using h.2⟩
      simp [fgetsLoop,fgetc_byte h.1,hb,hlast,hline,store_cons]
    · obtain ⟨hn,hnewline⟩ := not_or.mp hlast
      obtain ⟨n,rfl⟩ := Nat.exists_eq_succ_of_ne_zero hn
      have hline : line (n+1+1) (b :: rest) = b :: line (n+1) rest := by simp [line,hnewline]
      rw [hline] at heof hfull ⊢
      have hfull' : (line (n+1) rest).length = n+1 ∨ (line (n+1) rest).getLast? = some newline := by
        cases hl : line (n+1) rest with
        | nil => simp [hl,hnewline] at hfull
        | cons c l => simpa [hl] using hfull
      obtain ⟨t,ht,hrest⟩ :=
        ih h.2 (fun hmem => heof (List.mem_cons_of_mem b hmem)) hfull' (a+1) (Function.update m a b)
      refine ⟨t,?_,by simpa using hrest⟩
      rw [fgetsLoop,fgetc_byte h.1]
      simp only [if_neg hb,if_neg hlast,ht]
      rw [List.cons_append,store_cons]

theorem line_full (hrest : rest.getLast? = some newline) (n : ℕ) :
    (line n rest).length = n ∨ (line n rest).getLast? = some newline := by
  induction n generalizing rest with
  | zero => simp [line]
  | succ n ih =>
    cases rest with
    | nil => simp at hrest
    | cons b rest =>
      by_cases hb : b = newline
      · simp [line,hb]
      · cases rest with
        | nil => simp [hb] at hrest
        | cons c rest =>
          have htail := @ih (c :: rest) (by simpa using hrest)
          cases hl : line n (c :: rest) with
          | nil =>
            have hn : 0 = n := by simpa [hl] using htail
            exact .inl (by simp [line,hb,← hn])
          | cons d l => simpa [line,hb,hl] using htail

theorem name_tokens (l : Bytes) : tokens (isDelim · [61]) l = tokens (· == 61) l :=
  tokens_congr fun b _ => Bool.eq_iff_iff.mpr (by simp [isDelim_iff])

theorem value_tokens (rest : Bytes) :
    tokens (isDelim · [61,10]) rest = (tokens (· == 61) rest).flatMap (tokens (· == 10)) := by
  rw [← tokens_or]
  exact tokens_congr fun b _ => Bool.eq_iff_iff.mpr (by simp [isDelim_iff])

theorem cfgLine_entry (hp : p ≠ 0) (h : StringAt s.memory p l) (hne : l ≠ [])
    (hl : l.length ≤ 127) :
    ∃ s' fuel₀, ∀ fuel ≥ fuel₀, cfgLine fuel p s = .ok (entry l,s') := by
  have hfirst : s.memory p = 35 ∨ s.memory p = 0 ↔ l.head? = some 35 := by
    cases l with
    | nil => exact absurd rfl hne
    | cons b l =>
      rw [h.1,List.head?_cons,Option.some_inj]
      exact or_iff_left h.2.1
  by_cases hcomment : l.head? = some 35
  · refine ⟨s,0,fun fuel _ => ?_⟩
    rw [cfgLine,if_pos (hfirst.mpr hcomment),entry,if_pos hcomment]
    rfl
  rw [entry,if_neg hcomment]
  have hstart : start s p = p := if_neg hp
  have hlength : ∀ t ∈ tokens (· == 61) l, t.length ≤ 127 := fun t ht =>
    (isInfix_of_mem_tokens ht).length_le.trans hl
  cases htokens : tokens (· == 61) l with
  | nil =>
    obtain ⟨fuel₀,hcall⟩ : Returns s p [61] 0 s :=
      returns_none (by decide) (by rwa [hstart]) (by
        rwa [hstart]) (tokens_eq_nil_iff.mp ((name_tokens l).trans htokens))
    refine ⟨s,fuel₀,fun fuel hfuel => ?_⟩
    rw [cfgLine,if_neg (hfirst.not.mpr hcomment)]
    exact Result.bind_eq_ok.mpr ⟨_,strtok_more hcall hfuel,rfl⟩
  | cons name parts =>
    rw [htokens] at hlength
    obtain ⟨v,s₁,rest,⟨fuel₁,hcall⟩,⟨hv,hname⟩,hbackup,hrest,hparts⟩ :=
      returns_token (by rwa [hstart] : start s p ≠ 0) (by
        rwa [hstart]) ((name_tokens l).trans htokens)
    have hcopy : strncpy s₁.memory v 128 = name :=
      strncpy_stringAt hname ((hlength name List.mem_cons_self).trans (by decide))
    -- the second call goes on behind the name
    have hstart₁ : start s₁ 0 = s₁.backup_string := if_pos rfl
    have hvalue : tokens (isDelim · [61,10]) rest = parts.flatMap (tokens (· == 10)) := by
      rw [value_tokens,← hparts,name_tokens]
    cases hvalues : parts.flatMap (tokens (· == 10)) with
    | nil =>
      obtain ⟨fuel₂,hcall₂⟩ : Returns s₁ 0 [61,10] 0 s₁ :=
        returns_none (by decide) (by rwa [hstart₁]) (by
          rwa [hstart₁]) (tokens_eq_nil_iff.mp (hvalue.trans hvalues))
      refine ⟨s₁,max fuel₁ fuel₂,fun fuel hfuel => ?_⟩
      simp only [hvalues,List.head?_nil,Option.map_none]
      rw [cfgLine,if_neg (hfirst.not.mpr hcomment)]
      refine Result.bind_eq_ok.mpr ⟨_,strtok_more hcall (by omega),?_⟩
      simp only [if_neg hv]
      exact Result.bind_eq_ok.mpr ⟨_,strtok_more hcall₂ (by omega),rfl⟩
    | cons value more =>
      obtain ⟨w,s₂,rest₂,⟨fuel₂,hcall₂⟩,⟨hw,hshow⟩,-⟩ :=
        returns_token (by rwa [hstart₁] : start s₁ 0 ≠ 0)
        (by rwa [hstart₁]) (hvalue.trans hvalues)
      have hmem : value ∈ parts.flatMap (tokens (· == 10)) := hvalues ▸ List.mem_cons_self
      obtain ⟨part,hpart,hmem⟩ := List.mem_flatMap.mp hmem
      have hlong : value.length ≤ 256 :=
        ((isInfix_of_mem_tokens hmem).length_le.trans
          (hlength part (List.mem_cons_of_mem _ hpart))).trans (by decide)
      refine ⟨s₂,max fuel₁ fuel₂,fun fuel hfuel => ?_⟩
      simp only [hvalues,List.head?_cons,Option.map_some]
      rw [cfgLine,if_neg (hfirst.not.mpr hcomment)]
      refine Result.bind_eq_ok.mpr ⟨_,strtok_more hcall (by omega),?_⟩
      simp only [if_neg hv]
      refine Result.bind_eq_ok.mpr ⟨_,strtok_more hcall₂ (by omega),?_⟩
      simp only [if_neg hw,hcopy,strncpy_stringAt hshow hlong]
      rfl

theorem linesOf_cons (b : BitVec 8) (rest : Bytes) :
    linesOf n (k+1) (b :: rest) = line n (b :: rest) ::
    linesOf n k ((b :: rest).drop (line n (b :: rest)).length) := rfl

theorem TextFile.drop (h : TextFile rest) (n : ℕ) : TextFile (rest.drop n) := by
  refine ⟨?_,fun hmem => h.eof (List.mem_of_mem_drop hmem),fun hmem =>
    h.zero (List.mem_of_mem_drop hmem)⟩
  by_cases hn : rest.length ≤ n
  · exact .inl (List.drop_eq_nil_of_le hn)
  · refine .inr ?_
    have hne : rest ≠ [] := fun hnil => hn (by simp [hnil])
    rw [List.getLast?_drop,if_neg hn]
    exact h.newline.resolve_left hne

theorem cfgTurns_end {r : Reading} (h : Remaining data 1 r.stream []) :
    ∃ r' fuel₀, ∀ fuel ≥ fuel₀, ∀ turns ≥ fuel₀,
    iterate .loop (cfgTurn data fuel p) turns r = .ok r' ∧
    r'.nodes = r.nodes++(linesOf 127 k []).filterMap entry := by
  have hturn :
      ∀ fuel, cfgTurn data fuel p r =
          .ok (.inr { r with stream := (fread data r.stream 1 1).2 }) := fun fuel => by
    rw [cfgTurn,fgets,if_neg (by decide),show (128-1 : ℤ).toNat = 126+1 from rfl,fgetsLoop,
      fgetc_ended h.1]
    simp
    rfl
  refine ⟨{ r with stream := (fread data r.stream 1 1).2 },1,fun fuel _ turns hturns => ?_⟩
  obtain ⟨turns,rfl⟩ : ∃ n, turns = n+1 := ⟨turns-1,by omega⟩
  refine ⟨iterate_ended (hturn fuel),?_⟩
  cases k <;> simp [linesOf]

theorem cfgTurns (hp : p ≠ 0) (k : ℕ) (rest : Bytes) (hk : rest.length ≤ k)
    (htext : TextFile rest) (r : Reading)
    (h : Remaining data 1 r.stream rest) : ∃ r' fuel₀, ∀ fuel ≥ fuel₀, ∀ turns ≥ fuel₀,
      iterate .loop (cfgTurn data fuel p) turns r = .ok r' ∧
      r'.nodes = r.nodes++(linesOf 127 k rest).filterMap entry := by
  induction k generalizing rest r with
  | zero =>
    obtain rfl : rest = [] := List.eq_nil_of_length_eq_zero (Nat.le_zero.mp hk)
    exact cfgTurns_end h
  | succ k ih =>
    cases rest with
    | nil => exact cfgTurns_end h
    | cons b rest =>
      have hlast : (b :: rest).getLast? = some newline :=
        htext.newline.resolve_left (List.cons_ne_nil b rest)
      have hlines := line_lineOf 127 (b :: rest)
      have hne : line 127 (b :: rest) ≠ [] := line_ne_nil (List.cons_ne_nil b rest)
      have hsub : line 127 (b :: rest) <:+: b :: rest := hlines.front.isInfix
      obtain ⟨t,ht,hrest⟩ :=
        fgetsLoop_line (n:=126) p h (fun hmem => htext.eof (hsub.mem hmem)) (line_full hlast 127) p
        r.strings.memory
      -- the buffer holds the line, whatever was there before
      have hstring := stringAt_store (fun hmem => htext.zero (hsub.mem hmem)) r.strings.memory p
      obtain ⟨s',fuel₁,hline⟩ := cfgLine_entry (s:={ r.strings with
        memory := store r.strings.memory p (line 127 (b :: rest)++[0]) })
        hp hstring hne hlines.length
      have hshort : ((b :: rest).drop (line 127 (b :: rest)).length).length ≤ k := by
        have hpos := List.length_pos_of_ne_nil hne
        rw [List.length_drop]
        omega
      obtain ⟨r',fuel₂,hloop⟩ :=
        ih _ hshort (htext.drop _) ⟨s',t,r.nodes++(entry (line 127 (b :: rest))).toList⟩ hrest
      refine ⟨r',max fuel₁ fuel₂+1,fun fuel hfuel turns hturns => ?_⟩
      obtain ⟨turns,rfl⟩ : ∃ n, turns = n+1 := ⟨turns-1,by omega⟩
      have hturn :
          cfgTurn data fuel p r =
              .ok (.inl ⟨s',t,r.nodes++(entry (line 127 (b :: rest))).toList⟩) := by
        rw [cfgTurn,fgets,if_neg (by decide)]
        simp only [show (128-1 : ℤ).toNat = 126+1 from rfl,ht]
        exact Result.bind_eq_ok.mpr ⟨_,hline fuel (by omega),rfl⟩
      rw [iterate_next hturn]
      obtain ⟨hend,hnodes⟩ := hloop fuel (by omega) turns (by omega)
      refine ⟨hend,hnodes.trans ?_⟩
      rw [linesOf_cons,List.filterMap_cons,List.append_assoc]
      cases entry (line 127 (b :: rest)) <;> rfl

theorem cfgOpen_lines (hp : p ≠ 0) (hdata : data.length+BUFSIZE ≤ W32) (htext : TextFile data)
    (s : Strtok.State) (buffer : Mem) :
    ∃ s' fuel₀, ∀ fuel ≥ fuel₀,
        cfgOpen fuel p s buffer (some data) = .ok (some ((fileLines data).filterMap entry),s') := by
  obtain ⟨r',fuel₀,hloop⟩ :=
    cfgTurns hp data.length data le_rfl htext ⟨s,fdopen buffer,
      []⟩ (remaining_fdopen hdata buffer).mono
  refine ⟨r'.strings,fuel₀,fun fuel hfuel => ?_⟩
  obtain ⟨hend,hnodes⟩ := hloop fuel hfuel fuel hfuel
  rw [List.nil_append] at hnodes
  rw [cfgOpen,fileLines,← hnodes]
  exact Result.bind_eq_ok.mpr ⟨_,hend,rfl⟩

variable {node : CfgNode} {nodes : List CfgNode}

theorem line_append (hl : newline ∉ l) (hn : l.length < n) (rest : Bytes) :
    line n (l++newline :: rest) = l++[newline] := by
  induction l generalizing n with
  | nil =>
    obtain ⟨n,rfl⟩ : ∃ k, n = k+1 := ⟨n-1,by simp at hn; omega⟩
    simp [line]
  | cons b l ih =>
    obtain ⟨n,rfl⟩ : ∃ k, n = k+1 := ⟨n-1,by omega⟩
    obtain ⟨hb,hl⟩ : newline ≠ b ∧ newline ∉ l := by simpa using hl
    rw [List.cons_append,line,if_neg (Ne.symm hb),ih hl (by simpa using hn)]
    rfl

theorem Writable.entry_render (h : Writable node) : entry (render node) = some node := by
  have hhead : (render node).head? ≠ some 35 := by
    rw [render,List.head?_append_of_ne_nil _ h.name_ne]
    exact h.comment
  have hname : ∀ b ∈ node.name, (b == 61) = false := fun b hb => by
    simpa using (h.bytes b (List.mem_append_left _ hb)).1
  have hvalue : ∀ b ∈ node.value++[10], (b == 61) = false := fun b hb => by
    rcases List.mem_append.mp hb with hb | hb
    · simpa using (h.bytes b (List.mem_append_right _ hb)).1
    · rw [List.mem_singleton.mp hb]
      rfl
  have hlast : ∀ b ∈ node.value, (b == 10) = false := fun b hb => by
    simpa using (h.bytes b (List.mem_append_right _ hb)).2
  rw [entry,if_neg hhead,render,tokens_word_sep h.name_ne hname rfl,tokens_word (by simp) hvalue]
  simp only [List.flatMap_singleton,
    tokens_word_sep h.value_ne hlast (l:=[]) (show ((10 : BitVec 8) == 10) = true from rfl)]
  rfl

theorem linesOf_render (h : ∀ node ∈ nodes, Writable node)
    (hk : (nodes.flatMap render).length ≤ k) :
    linesOf 127 k (nodes.flatMap render) = nodes.map render := by
  induction nodes generalizing k with
  | nil => cases k <;> rfl
  | cons node nodes ih =>
    have hnode := h node List.mem_cons_self
    have hin : newline ∉ node.name++61 :: node.value := fun hmem => by
      rcases List.mem_append.mp hmem with hmem | hmem
      · exact (hnode.bytes _ (List.mem_append_left _ hmem)).2 rfl
      · rcases List.mem_cons.mp hmem with hmem | hmem
        · exact absurd hmem (by decide)
        · exact (hnode.bytes _ (List.mem_append_right _ hmem)).2 rfl
    have hlength : (node.name++61 :: node.value).length < 127 := by
      have := hnode.length
      simp only [List.length_append,List.length_cons]
      omega
    have hrender : (node :: nodes).flatMap render = (node.name++61 :: node.value)++newline ::
        nodes.flatMap render := by
      simp [render,newline]
    have hline : line 127 ((node :: nodes).flatMap render) = render node := by
      rw [hrender,line_append hin hlength]
      simp [render,newline]
    have hdrop :
      ((node :: nodes).flatMap render).drop (render node).length = nodes.flatMap render := by simp
    have hpos : 0 < (render node).length := by simp [render]
    have hsum : (render node).length+(nodes.flatMap render).length ≤ k := by simpa using hk
    obtain ⟨k,rfl⟩ : ∃ n, k = n+1 := ⟨k-1,by omega⟩
    obtain ⟨b,rest,hcons⟩ := List.exists_cons_of_length_pos (l:=(node :: nodes).flatMap render)
      (by rw [List.flatMap_cons,List.length_append]; omega)
    rw [hcons] at hline hdrop ⊢
    rw [linesOf_cons,hline,hdrop,ih (fun n hn => h n (List.mem_cons_of_mem _ hn)) (by omega)]
    rfl

theorem cfgGetValue_iff {name value : Bytes} : cfgGetValue nodes name = some value ↔
    ∃ before after, nodes = before++⟨name,value⟩ :: after ∧ ∀ node ∈ before, node.name ≠ name := by
  induction nodes with
  | nil => simp [cfgGetValue]
  | cons node nodes ih =>
    by_cases hname : node.name = name
    · rw [cfgGetValue,if_pos hname]
      constructor
      · rintro ⟨rfl⟩
        exact ⟨[],nodes,by simp [← hname],by simp⟩
      · rintro ⟨before,after,hnodes,hbefore⟩
        cases before with
        | nil => simp [(List.cons.inj hnodes).1]
        | cons first before =>
          exact absurd ((List.cons.inj hnodes).1 ▸ hname) (hbefore first List.mem_cons_self)
    · rw [cfgGetValue,if_neg hname,ih]
      constructor
      · rintro ⟨before,after,rfl,hbefore⟩
        exact ⟨node :: before,after,rfl,by simpa [hname] using hbefore⟩
      · rintro ⟨before,after,hnodes,hbefore⟩
        cases before with
        | nil => exact absurd (by rw [(List.cons.inj hnodes).1]) hname
        | cons first before =>
          exact ⟨before,after,(List.cons.inj hnodes).2,fun n hn =>
            hbefore n (List.mem_cons_of_mem _ hn)⟩

/-- Opening a text file gives the nodes of its lines, where the first one of a name is found, and
nodes that were written line by line are read back. -/
theorem read_config (hp : p ≠ 0) (hdata : data.length+BUFSIZE ≤ W32) (htext : TextFile data)
    (s : Strtok.State) (buffer : Mem) :
    ∃ nodes s' fuel₀, (∀ fuel ≥ fuel₀, cfgOpen fuel p s buffer (some data) = .ok (some nodes,s')) ∧
      nodes = (fileLines data).filterMap entry ∧
      (∀ name value, cfgGetValue nodes name = some value ↔
        ∃ before after, nodes = before++⟨name,value⟩ :: after ∧ ∀ node ∈ before, node.name ≠ name) ∧
      ∀ written, (∀ node ∈ written, Writable node) → data = written.flatMap render →
      nodes = written := by
  obtain ⟨s',fuel₀,hopen⟩ := cfgOpen_lines hp hdata htext s buffer
  refine ⟨_,s',fuel₀,hopen,rfl,fun name value => cfgGetValue_iff,fun written hwritten hdata => ?_⟩
  rw [fileLines,hdata,linesOf_render hwritten le_rfl,List.filterMap_map]
  exact (List.filterMap_congr fun node hnode =>
    (hwritten node hnode).entry_render).trans List.filterMap_some

/-- A file with a comment, a malformed line and two values of `a`. -/
theorem read_config_example : ∃ nodes s' fuel₀,
    (∀ fuel ≥ fuel₀, cfgOpen fuel 0x1000 ⟨fun _ => 7,
      0⟩ (fun _ => 0) (some [35,61,10,97,61,98,10,98,10,97,61,99,10]) = .ok (some nodes,s')) ∧
      nodes = [⟨[97],[98]⟩,⟨[97],[99]⟩] ∧ cfgGetValue nodes [97] = some [98] := by
  obtain ⟨nodes,s',fuel₀,hopen,hnodes,hget,-⟩ :=
    @read_config [35,61,10,97,61,98,10,98,10,97,61,99,10] 0x1000
    (by decide) (by decide) ⟨by decide,by decide,by decide⟩ ⟨fun _ => 7,0⟩ fun _ => 0
  have hlines : nodes = [⟨[97],[98]⟩,⟨[97],[99]⟩] := hnodes.trans (by decide)
  exact ⟨nodes,s',fuel₀,hopen,hlines,(hget [97] [98]).mpr ⟨[],[⟨[97],[99]⟩],hlines,by simp⟩⟩

end Cfg
end ScalesOS
