import ScalesOS.ByteMemory
import ScalesOS.Loops
import ScalesOS.Machine
import ScalesOS.Tokens

/-!
# `strtok`

`libc/src/string/strtok.c`. Where the next search starts is kept in a static variable, which a
call that finds no token leaves as it is. The delimiters are taken from outside the memory
that the calls write to.
-/

namespace ScalesOS
namespace Strtok

open ByteMemory Loops Tokens

abbrev Byte := BitVec 8

/-- Memory and the static variable; address 0 is `NULL`. -/
structure State where
  memory : Mem
  backup_string : ℕ

def isDelim (c : Byte) : List Byte → Bool
  | [] => false
  | d :: delim => if c = d then true else isDelim c delim

/-- A turn of the loop over delimiters at the beginning; it ends with `none` at the end of the
string. -/
def skipTurn (m : Mem) (delim : List Byte) (srcString : ℕ) : Result (ℕ ⊕ Option ℕ) :=
  if isDelim (m srcString) delim then pure (.inl (srcString+1))
  else if m srcString = 0 then pure (.inr none)
  else pure (.inr (some srcString))

def tokenTurn (m : Mem) (delim : List Byte) (srcString : ℕ) : Result (ℕ ⊕ State) :=
  if m srcString = 0 then pure (.inr ⟨m,srcString⟩)
  else if isDelim (m srcString) delim then pure (.inr ⟨Function.update m srcString 0,srcString+1⟩)
  else pure (.inl (srcString+1))

/-- Each loop may make `fuel` turns. -/
def strtok (fuel : ℕ) (s : State) (srcString : ℕ) (delim : List Byte) : Result (ℕ × State) :=
  let srcString := if srcString = 0 then s.backup_string else srcString
  if srcString = 0 then pure (0,s)
  else do
    let r ← iterate .loop (skipTurn s.memory delim) fuel srcString
    match r with
    | none => pure (0,s)
    | some ret =>
      let s ← iterate .loop (tokenTurn s.memory delim) fuel ret
      pure (ret,s)

def Returns (s : State) (srcString : ℕ) (delim : List Byte) (ret : ℕ) (s' : State) : Prop :=
  ∃ fuel, strtok fuel s srcString delim = .ok (ret,s')

/-- The bytes of a string in memory, up to its end. -/
def StringAt (m : Mem) : ℕ → List Byte → Prop
  | p,[] => m p = 0
  | p,b :: l => m p = b ∧ b ≠ 0 ∧ StringAt m (p+1) l

/-- A string with its delimiters, and how often `strtok(NULL,d)` follows `strtok(s,d)`. Between
two tokenisations memory may have been changed by anyone. -/
structure Tokenisation where
  memory : Mem
  address : ℕ
  string : List Byte
  delim : List Byte
  calls : ℕ
  address_ne : address ≠ 0
  string_at : StringAt memory address string
  delim_ne : 0 ∉ delim

/-- `k` calls with `NULL`, with the results and the memory after each of them. -/
inductive Calls (delim : List Byte) : ℕ → State → List (ℕ × Mem) → State → Prop
  | done {s : State} : Calls delim 0 s [] s
  | call {k ret : ℕ} {s s' s'' : State} {rets : List (ℕ × Mem)} : Returns s 0 delim ret s' →
      Calls delim k s' rets s'' → Calls delim (k+1) s ((ret,s'.memory) :: rets) s''

/-- A tokenisation that comes to its end, from a value of the static variable to another one. -/
def Tokenises (t : Tokenisation) (backup : ℕ) (rets : List (ℕ × Mem)) (backup' : ℕ) : Prop :=
  ∃ ret s rest s', Returns ⟨t.memory,backup⟩ t.address t.delim ret s ∧
    Calls t.delim t.calls s rest s' ∧ rets = (ret,s.memory) :: rest ∧ backup' = s'.backup_string

/-- What a call should return: a token, or `NULL`. -/
def Shows : ℕ × Mem → Option (List Byte) → Prop
  | (ret,_),none => ret = 0
  | (ret,m),some token => ret ≠ 0 ∧ StringAt m ret token

/-- The first `k` elements, and `none` behind the last one. -/
def padded {α : Type} : ℕ → List α → List (Option α)
  | 0,_ => []
  | k+1,[] => none :: padded k []
  | k+1,a :: l => some a :: padded k l

/-- The calls yield the tokens in their order and then `NULL`. -/
def Yields (t : Tokenisation) (backup : ℕ) : Prop :=
  ∃ rets backup', Tokenises t backup rets backup' ∧
    List.Forall₂ Shows rets (padded (t.calls+1) (tokens (isDelim · t.delim) t.string))

/-- The string has a token, or no call with `NULL` follows, or what the static variable points to
has no token either. -/
def Meets (t : Tokenisation) (backup : ℕ) : Prop :=
  tokens (isDelim · t.delim) t.string ≠ [] ∨ t.calls = 0 ∨ backup = 0 ∨
    ∃ l, StringAt t.memory backup l ∧ tokens (isDelim · t.delim) l = []

/-- All tokenisations of a history yield their tokens. -/
def AllYield : ℕ → List Tokenisation → Prop
  | _,[] => True
  | backup,t :: ts => Yields t backup ∧ ∀ rets backup', Tokenises t backup rets backup' →
      AllYield backup' ts

def AllMeet : ℕ → List Tokenisation → Prop
  | _,[] => True
  | backup,t :: ts => Meets t backup ∧ ∀ rets backup', Tokenises t backup rets backup' →
      AllMeet backup' ts

variable {m m' : Mem} {p q k ret ret' fuel backup : ℕ} {b : Byte} {l xs ys delim : List Byte}
    {s s' s'' : State}
  {t : Tokenisation}

theorem StringAt.congr (h : StringAt m p l) (heq : ∀ x, p ≤ x → x ≤ p+l.length → m' x = m x) :
    StringAt m' p l := by
  induction l generalizing p with
  | nil => exact (heq p le_rfl le_rfl).trans h
  | cons b l ih =>
    rw [List.length_cons] at heq
    exact ⟨(heq p le_rfl (by omega)).trans h.1,h.2.1,ih h.2.2 fun x hlow hhigh =>
      heq x (by omega) (by omega)⟩

theorem StringAt.drop (h : StringAt m p (xs++l)) : StringAt m (p+xs.length) l := by
  induction xs generalizing p with
  | nil => exact h
  | cons x xs ih => simpa [Nat.add_assoc,Nat.add_comm 1] using ih h.2.2

theorem StringAt.zero_notMem (h : StringAt m p l) : 0 ∉ l := by
  induction l generalizing p with
  | nil => exact List.not_mem_nil
  | cons b l ih => exact fun hmem =>
    (List.mem_cons.mp hmem).elim (fun hb => h.2.1 hb.symm) (ih h.2.2)

theorem stringAt_of_bytes (h : ∀ i (hi : i < l.length), m (p+i) = l[i])
    (hend : m (p+l.length) = 0) (hl : 0 ∉ l) :
    StringAt m p l := by
  induction l generalizing p with
  | nil => exact hend
  | cons b l ih =>
    obtain ⟨hb,hl⟩ : 0 ≠ b ∧ 0 ∉ l := by simpa using hl
    refine ⟨h 0 (Nat.zero_lt_succ _),Ne.symm hb,ih (fun i hi => ?_) ?_ hl⟩
    · rw [Nat.add_assoc,Nat.add_comm 1]
      exact h (i+1) (Nat.succ_lt_succ hi)
    · rwa [Nat.add_assoc,Nat.add_comm 1]

theorem stringAt_store (hl : 0 ∉ l) (m : Mem) (p : ℕ) : StringAt (store m p (l++[0])) p l := by
  refine stringAt_of_bytes (fun i hi => ?_) ?_ hl
  · rw [store_inside m p (by simp; omega)]
    rw [List.getD_eq_getElem?_getD,List.getElem?_append_left hi,List.getElem?_eq_getElem hi,
      Option.getD_some]
  · rw [store_inside m p (by simp)]
    simp

theorem StringAt.cut (h : StringAt m p (xs++b :: l)) :
    StringAt (Function.update m (p+xs.length) 0) p xs ∧
    StringAt (Function.update m (p+xs.length) 0) (p+xs.length+1) l := by
  refine ⟨?_,h.drop.2.2.congr fun x hx _ => Function.update_of_ne (by omega) _ _⟩
  induction xs generalizing p with
  | nil => simp [StringAt]
  | cons x xs ih =>
    have hrest := ih h.2.2
    rw [show p+1+xs.length = p+(x :: xs).length by simp; omega] at hrest
    exact ⟨(Function.update_of_ne (by simp) _ _).trans h.1,h.2.1,hrest⟩

theorem isDelim_iff : isDelim b delim = true ↔ b ∈ delim := by
  induction delim with
  | nil => simp [isDelim]
  | cons d delim ih => by_cases h : b = d <;> simp [isDelim,h,ih]

/-- Where a call starts. -/
def start (s : State) (srcString : ℕ) : ℕ := if srcString = 0 then s.backup_string else srcString

theorem skip_seps {ds : List Byte} (hds : ∀ x ∈ ds, isDelim x delim = true)
    (h : StringAt m p (ds++l)) (fuel : ℕ) :
    iterate Fault.loop (skipTurn m delim) (fuel+ds.length) p =
        iterate .loop (skipTurn m delim) fuel (p+ds.length) := by
  induction ds generalizing p with
  | nil => rfl
  | cons d ds ih =>
    have hturn : skipTurn m delim p = .ok (.inl (p+1)) := by
      rw [skipTurn,h.1,if_pos (hds d List.mem_cons_self)]
      rfl
    rw [List.length_cons,← Nat.add_assoc,iterate_next hturn,
      ih (fun x hx => hds x (List.mem_cons_of_mem _ hx)) h.2.2]
    congr 1
    omega

theorem token_word {token : List Byte} (htoken : ∀ x ∈ token, isDelim x delim = false)
    (h : StringAt m p (token++l)) (fuel : ℕ) :
    iterate Fault.loop (tokenTurn m delim) (fuel+token.length) p =
        iterate .loop (tokenTurn m delim) fuel (p+token.length) := by
  induction token generalizing p with
  | nil => rfl
  | cons b token ih =>
    have hturn : tokenTurn m delim p = .ok (.inl (p+1)) := by
      rw [tokenTurn,h.1,if_neg h.2.1,if_neg (by simp [htoken b List.mem_cons_self])]
      rfl
    rw [List.length_cons,← Nat.add_assoc,iterate_next hturn,
      ih (fun x hx => htoken x (List.mem_cons_of_mem _ hx)) h.2.2]
    congr 1
    omega

theorem skip_word {ds token : List Byte} (hds : ∀ x ∈ ds, isDelim x delim = true)
    (htoken : token ≠ [])
    (hword : ∀ x ∈ token, isDelim x delim = false) (h : StringAt m p (ds++(token++l))) (fuel : ℕ) :
    iterate Fault.loop (skipTurn m delim) (fuel+1+ds.length) p = .ok (some (p+ds.length)) := by
  rw [skip_seps hds h]
  refine iterate_ended ?_
  cases token with
  | nil => exact absurd rfl htoken
  | cons b token =>
    have hb := h.drop
    rw [skipTurn,hb.1,if_neg (by simp [hword b List.mem_cons_self]),if_neg hb.2.1]
    rfl

variable {srcString : ℕ}

theorem strtok_eq (hp : start s srcString ≠ 0) : strtok fuel s srcString delim =
    (iterate .loop (skipTurn s.memory delim) fuel (start s srcString) >>= fun r =>
      match r with
      | none => pure (0,s)
      | some ret => iterate .loop (tokenTurn s.memory delim) fuel ret >>= fun s =>
        pure (ret,s)) := by
  rw [start] at *
  rw [strtok]
  simp only [if_neg hp]

theorem strtok_more {fuel' : ℕ} {r : ℕ × State} (h : strtok fuel s srcString delim = .ok r)
    (hle : fuel ≤ fuel') :
    strtok fuel' s srcString delim = .ok r := by
  by_cases hp : start s srcString = 0
  · have hnull : ∀ n, strtok n s srcString delim = pure (0,s) := fun n => if_pos hp
    rwa [hnull] at h ⊢
  · rw [strtok_eq hp] at h ⊢
    obtain ⟨o,ho,h⟩ := Result.bind_eq_ok.mp h
    refine Result.bind_eq_ok.mpr ⟨o,iterate_more ho hle,?_⟩
    cases o with
    | none => exact h
    | some ret =>
      obtain ⟨s₁,hs₁,h⟩ := Result.bind_eq_ok.mp h
      exact Result.bind_eq_ok.mpr ⟨s₁,iterate_more hs₁ hle,h⟩

section
variable (hdelim : 0 ∉ delim)
include hdelim

theorem isDelim_zero : isDelim 0 delim = false := by
  rw [← Bool.not_eq_true,isDelim_iff]
  exact hdelim

theorem returns_none (hp : start s srcString ≠ 0) (h : StringAt s.memory (start s srcString) l)
    (hl : ∀ x ∈ l, isDelim x delim = true) : Returns s srcString delim 0 s := by
  refine ⟨1+l.length,?_⟩
  rw [← List.append_nil l] at h
  have hend : s.memory (start s srcString+l.length) = 0 := h.drop
  have hturn : skipTurn s.memory delim (start s srcString+l.length) = .ok (.inr none) := by
    rw [skipTurn,hend,isDelim_zero hdelim]
    rfl
  rw [strtok_eq hp,skip_seps hl h,iterate_ended hturn]
  rfl

theorem skip_result {r : Option ℕ} (h : iterate .loop (skipTurn m delim) fuel p = .ok r) :
    r.elim (∃ l, StringAt m p l ∧ ∀ x ∈ l, isDelim x delim = true) (p ≤ ·) := by
  induction fuel generalizing p with
  | zero => cases h
  | succ fuel ih =>
    by_cases hd : isDelim (m p) delim = true
    · have hturn : skipTurn m delim p = .ok (.inl (p+1)) := if_pos hd
      rw [iterate_next hturn] at h
      cases r with
      | none =>
        obtain ⟨l,hl,hall⟩ := ih h
        have hne : m p ≠ 0 := fun h0 => hdelim (isDelim_iff.mp (h0 ▸ hd))
        exact ⟨m p :: l,⟨rfl,hne,hl⟩,by simpa [hd] using hall⟩
      | some q => exact (Nat.le_succ p).trans (ih h)
    · by_cases h0 : m p = 0
      · have hturn : skipTurn m delim p = .ok (.inr none) := by
          rw [skipTurn,if_neg hd,if_pos h0]
          rfl
        rw [iterate_ended hturn] at h
        cases h
        exact ⟨[],h0,by simp⟩
      · have hturn : skipTurn m delim p = .ok (.inr (some p)) := by
          rw [skipTurn,if_neg hd,if_neg h0]
          rfl
        rw [iterate_ended hturn] at h
        cases h
        exact le_rfl

theorem none_of_returns (h : Returns s srcString delim 0 s') :
    s' = s ∧ (start s srcString = 0 ∨ ∃ l, StringAt s.memory (start s srcString) l ∧ ∀ x ∈ l,
      isDelim x delim = true) := by
  obtain ⟨fuel,h⟩ := h
  by_cases hp : start s srcString = 0
  · have hnull : strtok fuel s srcString delim = pure (0,s) := if_pos hp
    rw [hnull] at h
    cases h
    exact ⟨rfl,.inl hp⟩
  · rw [strtok_eq hp] at h
    obtain ⟨r,hr,h⟩ := Result.bind_eq_ok.mp h
    cases r with
    | none =>
      cases h
      exact ⟨rfl,.inr (skip_result hdelim hr)⟩
    | some ret =>
      obtain ⟨s₁,-,h⟩ := Result.bind_eq_ok.mp h
      cases h
      have hle : start s srcString ≤ 0 := skip_result hdelim hr
      omega

end

/-- A token is returned, and the static variable points to the rest of the string. -/
theorem returns_token {token : List Byte} {ts : List (List Byte)} (hp : start s srcString ≠ 0)
    (h : StringAt s.memory (start s srcString) l)
    (htokens : tokens (isDelim · delim) l = token :: ts) :
    ∃ ret s' rest, Returns s srcString delim ret s' ∧ Shows (ret,s'.memory) (some token) ∧
      s'.backup_string ≠ 0 ∧
      StringAt s'.memory s'.backup_string rest ∧ tokens (isDelim · delim) rest = ts := by
  cases shape (isDelim · delim) l with
  | seps hl =>
    rw [tokens_eq_nil_iff.mpr hl] at htokens
    cases htokens
  | @last ds t hds ht hword =>
    rw [tokens_seps hds,tokens_word ht hword] at htokens
    cases htokens
    -- the string ends with the token, and the static variable stays at its end
    have htok : StringAt s.memory (start s srcString+ds.length) (token++[]) := by simpa using h.drop
    have hskip := skip_word hds ht hword (l:=[]) (by simpa using h) token.length
    have hturn : tokenTurn s.memory delim (start s srcString+ds.length+token.length) =
        .ok (.inr ⟨s.memory,start s srcString+ds.length+token.length⟩) := if_pos htok.drop
    have hloop := (token_word hword htok (ds.length+1)).trans (iterate_ended hturn)
    rw [show token.length+1+ds.length = ds.length+1+token.length by omega] at hskip
    refine ⟨start s srcString+ds.length,⟨s.memory,start s srcString+ds.length+token.length⟩,[],
      ⟨ds.length+1+token.length,?_⟩,⟨by omega,by simpa using htok⟩,?_,htok.drop,tokens_nil⟩
    · rw [strtok_eq hp,hskip]
      exact Result.bind_eq_ok.mpr ⟨_,rfl,Result.bind_eq_ok.mpr ⟨_,hloop,rfl⟩⟩
    · exact (by omega : start s srcString+ds.length+token.length ≠ 0)
  | @word ds t rest sep hds ht hword hsep =>
    rw [tokens_seps hds,tokens_word_sep ht hword hsep] at htokens
    cases htokens
    have htok := h.drop
    have hskip := skip_word hds ht hword h token.length
    -- a zero over the delimiter cuts the token off
    have hcut := htok.cut
    have hsep' := htok.drop
    have hturn : tokenTurn s.memory delim (start s srcString+ds.length+token.length) =
        .ok (.inr ⟨Function.update s.memory (start s srcString+ds.length+token.length) 0,
          start s srcString+ds.length+token.length+1⟩) := by
      rw [tokenTurn,hsep'.1,if_neg hsep'.2.1,if_pos hsep]
      rfl
    have hloop := (token_word hword htok (ds.length+1)).trans (iterate_ended hturn)
    rw [show token.length+1+ds.length = ds.length+1+token.length by omega] at hskip
    refine ⟨start s srcString+ds.length,
      ⟨Function.update s.memory (start s srcString+ds.length+token.length) 0,
      start s srcString+ds.length+token.length+1⟩,rest,⟨ds.length+1+token.length,?_⟩,⟨by
      omega,hcut.1⟩,Nat.succ_ne_zero _,hcut.2,rfl⟩
    rw [strtok_eq hp,hskip]
    exact Result.bind_eq_ok.mpr ⟨_,rfl,Result.bind_eq_ok.mpr ⟨_,hloop,rfl⟩⟩

/-- What the next calls with `NULL` return. -/
def Left (delim : List Byte) (s : State) (ts : List (List Byte)) : Prop :=
  s.backup_string ≠ 0 ∧ ∃ l, StringAt s.memory s.backup_string l ∧ tokens (isDelim · delim) l = ts

theorem Left.done (hdelim : 0 ∉ delim) (h : Left delim s []) : Returns s 0 delim 0 s := by
  obtain ⟨hp,l,hl,htokens⟩ := h
  exact returns_none hdelim hp hl (tokens_eq_nil_iff.mp htokens)

theorem Left.next {token : List Byte} {ts : List (List Byte)} (h : Left delim s (token :: ts)) :
    ∃ ret s', Returns s 0 delim ret s' ∧ Shows (ret,s'.memory) (some token) ∧ Left delim s' ts := by
  obtain ⟨hp,l,hl,htokens⟩ := h
  have hp : start s 0 ≠ 0 := hp
  obtain ⟨ret,s',rest,hret,hshow,hp',hrest,hts⟩ := returns_token hp hl htokens
  exact ⟨ret,s',hret,hshow,hp',rest,hrest,hts⟩

theorem left_start {token : List Byte} {ts : List (List Byte)} (hp : p ≠ 0)
    (h : StringAt s.memory p l) (htokens : tokens (isDelim · delim) l = token :: ts) :
    ∃ ret s', Returns s p delim ret s' ∧ Shows (ret,s'.memory) (some token) ∧ Left delim s' ts := by
  have hstart : start s p = p := if_neg hp
  obtain ⟨ret,s',rest,hret,hshow,hp',hrest,hts⟩ :=
    returns_token (by rwa [hstart] : start s p ≠ 0) (by rwa [hstart]) htokens
  exact ⟨ret,s',hret,hshow,hp',rest,hrest,hts⟩

/-- A call that returns `NULL` and changes nothing does so every time. -/
theorem calls_idle (h : Returns s 0 delim 0 s) (k : ℕ) :
    ∃ rets, Calls delim k s rets s ∧ List.Forall₂ Shows rets (padded k []) := by
  induction k with
  | zero => exact ⟨[],.done,.nil⟩
  | succ k ih =>
    obtain ⟨rets,hcalls,hshows⟩ := ih
    exact ⟨_,.call h hcalls,.cons rfl hshows⟩

/-- The calls with `NULL` yield the tokens of what the static variable points to. -/
theorem calls_tokens (hdelim : 0 ∉ delim) (k : ℕ) (hp : s.backup_string ≠ 0)
    (h : StringAt s.memory s.backup_string l) :
    ∃ rets s', Calls delim k s rets s' ∧
        List.Forall₂ Shows rets (padded k (tokens (isDelim · delim) l)) := by
  induction k generalizing s l with
  | zero => exact ⟨[],s,.done,.nil⟩
  | succ k ih =>
    have hp : start s 0 ≠ 0 := hp
    cases htokens : tokens (isDelim · delim) l with
    | nil =>
      have hret : Returns s 0 delim 0 s := returns_none hdelim hp h (tokens_eq_nil_iff.mp htokens)
      obtain ⟨rets,hcalls,hshows⟩ := calls_idle hret (k+1)
      exact ⟨rets,s,hcalls,hshows⟩
    | cons token ts =>
      obtain ⟨ret,s₁,rest,hret,hshow,hp₁,hrest,hts⟩ := returns_token hp h htokens
      obtain ⟨rets,s',hcalls,hshows⟩ := ih hp₁ hrest
      exact ⟨_,s',.call hret hcalls,.cons hshow (hts ▸ hshows)⟩

theorem meets_of_yields (h : Yields t backup) : Meets t backup := by
  by_cases htokens : tokens (isDelim · t.delim) t.string = []
  · obtain ⟨-,-,⟨ret,s,rest,s',hret,hcalls,rfl,-⟩,hshows⟩ := h
    rw [htokens] at hshows
    cases hshows with
    | cons hshow hshows =>
      cases hshow
      obtain ⟨rfl,-⟩ := none_of_returns t.delim_ne hret
      rcases hk : t.calls with _ | k
      · exact .inr (.inl hk)
      · rw [hk] at hcalls hshows
        -- the second call starts where the static variable points to
        cases hcalls with
        | call hret hcalls =>
          cases hshows with
          | cons hshow _ =>
            cases hshow
            obtain ⟨-,hnull | ⟨l,hl,hall⟩⟩ := none_of_returns t.delim_ne hret
            · exact .inr (.inr (.inl hnull))
            · exact .inr (.inr (.inr ⟨l,hl,tokens_eq_nil_iff.mpr hall⟩))
  · exact .inl htokens

theorem yields_of_meets (h : Meets t backup) : Yields t backup := by
  have hp : start ⟨t.memory,backup⟩ t.address = t.address := if_neg t.address_ne
  have hstring : StringAt t.memory (start ⟨t.memory,backup⟩ t.address) t.string :=
    hp.symm ▸ t.string_at
  have hne : start ⟨t.memory,backup⟩ t.address ≠ 0 := hp.symm ▸ t.address_ne
  cases htokens : tokens (isDelim · t.delim) t.string with
  | cons token ts =>
    obtain ⟨ret,s,rest,hret,hshow,hp₁,hrest,hts⟩ := returns_token hne hstring htokens
    obtain ⟨rets,s',hcalls,hshows⟩ := calls_tokens t.delim_ne t.calls hp₁ hrest
    exact ⟨_,_,⟨ret,s,rets,s',hret,hcalls,rfl,rfl⟩,htokens ▸ .cons hshow (hts ▸ hshows)⟩
  | nil =>
    have hret := returns_none t.delim_ne hne hstring (tokens_eq_nil_iff.mp htokens)
    have hidle (hnull : backup = 0) : Returns ⟨t.memory,backup⟩ 0 t.delim 0 ⟨t.memory,backup⟩ :=
      ⟨0,if_pos hnull⟩
    have hrest : ∃ rets s', Calls t.delim t.calls ⟨t.memory,backup⟩ rets s' ∧
        List.Forall₂ Shows rets (padded t.calls []) := by
      rcases h with h | h | h | ⟨l,hl,hl'⟩
      · exact absurd htokens h
      · rw [h]
        exact ⟨[],_,.done,.nil⟩
      · obtain ⟨rets,hcalls,hshows⟩ := calls_idle (hidle h) t.calls
        exact ⟨rets,_,hcalls,hshows⟩
      · by_cases hnull : backup = 0
        · obtain ⟨rets,hcalls,hshows⟩ := calls_idle (hidle hnull) t.calls
          exact ⟨rets,_,hcalls,hshows⟩
        · exact hl' ▸ calls_tokens t.delim_ne t.calls hnull hl
    obtain ⟨rets,s',hcalls,hshows⟩ := hrest
    exact ⟨_,_,⟨0,_,rets,s',hret,hcalls,rfl,rfl⟩,htokens ▸ .cons rfl hshows⟩

/-- All tokenisations of a history yield their tokens exactly if each of them meets the condition
where it starts. -/
theorem all_yield_iff (ts : List Tokenisation) : AllYield 0 ts ↔ AllMeet 0 ts := by
  suffices h : ∀ backup, AllYield backup ts ↔ AllMeet backup ts from h 0
  induction ts with
  | nil => exact fun _ => Iff.rfl
  | cons t ts ih =>
    intro backup
    exact and_congr ⟨meets_of_yields,yields_of_meets⟩ (forall₃_congr fun rets backup' _ =>
      ih backup')

/-- `strtok("a,b",",")`. -/
def firstText : Tokenisation where
  memory x := if x = 1 then 97 else if x = 2 then 44 else if x = 3 then 98 else 0
  address := 1
  string := [97,44,98]
  delim := [44]
  calls := 0
  address_ne := by decide
  string_at := by simp [StringAt]
  delim_ne := by decide

/-- `strtok("",",")` and `strtok(NULL,",")`, in the memory that the first call leaves. -/
def emptyText : Tokenisation where
  memory := Function.update firstText.memory 2 0
  address := 10
  string := []
  delim := [44]
  calls := 1
  address_ne := by decide
  string_at := by simp [StringAt,firstText]
  delim_ne := by decide

/-- The second call on the empty text returns `b`, of the text before. -/
theorem earlier_text : ¬∀ ts, AllYield 0 ts := by
  intro h
  obtain ⟨-,hnext⟩ := h [firstText,emptyText]
  have hfirst : Tokenises firstText 0 [(1,emptyText.memory)] 3 :=
    ⟨1,⟨emptyText.memory,3⟩,[],_,⟨2,rfl⟩,.done,rfl,rfl⟩
  obtain ⟨hempty,-⟩ := hnext _ _ hfirst
  have h3 : emptyText.memory 3 = 98 := by decide
  rcases meets_of_yields hempty with h | h | h | ⟨l,hl,hnone⟩
  · simp [emptyText] at h
  · simp [emptyText] at h
  · cases h
  · cases l with
    | nil =>
      have h0 : emptyText.memory 3 = 0 := hl
      simp [h3] at h0
    | cons b l =>
      obtain rfl : (98 : Byte) = b := h3.symm.trans hl.1
      have hb := tokens_eq_nil_iff.mp hnone 98 List.mem_cons_self
      simp [emptyText,isDelim] at hb

end Strtok
end ScalesOS
