import Mathlib.Data.List.TakeWhile
import Mathlib.Tactic

/-!
# Tokens

The maximal parts of a list without separators, from left to right.
-/

namespace Tokens

variable {α : Type} {p : α → Bool} {a sep : α} {l ds t : List α}

def tokens (p : α → Bool) (l : List α) : List (List α) := (l.splitOnP p).filter fun t => !t.isEmpty

@[simp] theorem tokens_nil : tokens p [] = [] := by simp [tokens]

theorem tokens_cons_sep (h : p a = true) : tokens p (a :: l) = tokens p l := by
  simp [tokens,List.splitOnP_cons_eq_if_modifyHead,h]

theorem tokens_seps (h : ∀ x ∈ ds, p x = true) : tokens p (ds++l) = tokens p l := by
  induction ds with
  | nil => rfl
  | cons d ds ih =>
    rw [List.cons_append,tokens_cons_sep (h d List.mem_cons_self),ih fun x hx =>
      h x (List.mem_cons_of_mem _ hx)]

theorem tokens_word (ht : t ≠ []) (h : ∀ x ∈ t, p x = false) : tokens p t = [t] := by
  simp [tokens,List.splitOnP_eq_singleton h,ht]

theorem tokens_word_sep (ht : t ≠ []) (h : ∀ x ∈ t, p x = false) (hsep : p sep = true) :
    tokens p (t++sep :: l) = t :: tokens p l := by
  simp [tokens,List.splitOnP_append_cons_of_forall_mem h sep hsep,ht]

/-- A list of separators, or separators, a word, and then the end or a separator. -/
inductive Shape (p : α → Bool) : List α → Prop
  | seps {l : List α} : (∀ x ∈ l, p x = true) → Shape p l
  | last {ds t : List α} : (∀ x ∈ ds, p x = true) → t ≠ [] →
      (∀ x ∈ t, p x = false) → Shape p (ds++t)
  | word {ds t l : List α} {sep : α} : (∀ x ∈ ds, p x = true) → t ≠ [] →
      (∀ x ∈ t, p x = false) → p sep = true → Shape p (ds++(t++sep :: l))

theorem shape (p : α → Bool) (l : List α) : Shape p l := by
  have hds : ∀ x ∈ l.takeWhile p, p x = true := fun x hx => List.mem_takeWhile_imp hx
  have hl : l = l.takeWhile p++l.dropWhile p := List.takeWhile_append_dropWhile.symm
  cases hr : l.dropWhile p with
  | nil =>
    rw [hr,List.append_nil] at hl
    exact .seps (hl ▸ hds)
  | cons a r =>
    have ha : p a = false := by
      have hnot := List.head_dropWhile_not p (l:=l) (by simp [hr])
      simpa [hr] using hnot
    have ht : ∀ x ∈ (a :: r).takeWhile fun x => !p x, p x = false := fun x hx => by
      simpa using List.mem_takeWhile_imp hx
    have hne : ((a :: r).takeWhile fun x => !p x) ≠ [] := by simp [ha]
    have hsplit : a :: r = ((a :: r).takeWhile fun x => !p x)++(a :: r).dropWhile fun x => !p x :=
      List.takeWhile_append_dropWhile.symm
    rw [hl,hr,hsplit]
    generalize (a :: r).takeWhile (fun x => !p x) = t at *
    cases hrest : (a :: r).dropWhile fun x => !p x with
    | nil =>
      rw [List.append_nil]
      exact .last hds hne ht
    | cons sep rest =>
      have hsep := List.head_dropWhile_not (fun x => !p x) (l:=a :: r) (by simp [hrest])
      exact .word hds hne ht (by simpa [hrest] using hsep)

theorem tokens_eq_nil_iff : tokens p l = [] ↔ ∀ x ∈ l, p x = true := by
  constructor
  · intro h
    cases shape p l with
    | seps hl => exact hl
    | last hds ht h' =>
      rw [tokens_seps hds,tokens_word ht h'] at h
      cases h
    | word hds ht h' hsep =>
      rw [tokens_seps hds,tokens_word_sep ht h' hsep] at h
      cases h
  · intro h
    rw [← List.append_nil l,tokens_seps h,tokens_nil]

theorem tokens_append_sep (hsep : p sep = true) (l t : List α) :
    tokens p (t++sep :: l) = tokens p t++tokens p l := by
  simp [tokens,List.splitOnP_append_cons t l hsep]

theorem tokens_joined {words : List (List α)} (hsep : p sep = true) (ht : t ≠ [])
    (hword : ∀ x ∈ t, p x = false) (hwords : ∀ w ∈ words, w ≠ [] ∧ ∀ x ∈ w, p x = false) :
    tokens p (t++words.flatMap (sep :: ·)) = t :: words := by
  induction words generalizing t with
  | nil => rw [List.flatMap_nil,List.append_nil,tokens_word ht hword]
  | cons w words ih =>
    obtain ⟨hne,hw⟩ := hwords w List.mem_cons_self
    rw [List.flatMap_cons,List.cons_append,tokens_word_sep ht hword hsep,
      ih hne hw fun w' hw' => hwords w' (List.mem_cons_of_mem w hw')]

theorem tokens_ended {words : List (List α)} (hsep : p sep = true)
    (hwords : ∀ w ∈ words, w ≠ [] ∧ ∀ x ∈ w, p x = false) :
    tokens p (words.flatMap (·++[sep])) = words := by
  induction words with
  | nil => rfl
  | cons w words ih =>
    obtain ⟨hne,hw⟩ := hwords w List.mem_cons_self
    rw [List.flatMap_cons,List.append_assoc,List.singleton_append,tokens_word_sep hne hw hsep,
      ih fun w' hw' => hwords w' (List.mem_cons_of_mem w hw')]

theorem tokens_congr {q : α → Bool} (h : ∀ x ∈ l, p x = q x) : tokens p l = tokens q l := by
  have hsplit : l.splitOnP p = l.splitOnP q := by
    induction l with
    | nil => rfl
    | cons a l ih =>
      rw [List.splitOnP_cons_eq_if_modifyHead,List.splitOnP_cons_eq_if_modifyHead,
        h a List.mem_cons_self,ih fun x hx => h x (List.mem_cons_of_mem a hx)]
  rw [tokens,tokens,hsplit]

theorem tokens_or (p q : α → Bool) (l : List α) :
    tokens (fun x => p x || q x) l = (tokens p l).flatMap (tokens q) := by
  induction hn : l.length using Nat.strong_induction_on generalizing l with
  | _ n ih =>
  cases shape p l with
  | seps hl =>
    rw [tokens_eq_nil_iff.mpr hl,tokens_eq_nil_iff.mpr fun x hx => by simp [hl x hx]]
    rfl
  | @last ds t hds ht hword =>
    rw [tokens_seps hds,tokens_word ht hword,tokens_seps fun x hx => by simp [hds x hx],
      tokens_congr (q:=q) fun x hx => by simp [hword x hx]]
    simp
  | @word ds t rest sep hds ht hword hsep =>
    rw [tokens_seps hds,tokens_word_sep ht hword hsep,tokens_seps fun x hx => by simp [hds x hx],
      tokens_append_sep (by simp [hsep]),tokens_congr (q:=q) fun x hx => by
        simp [hword x hx],List.flatMap_cons,ih rest.length (by simp at hn; omega) rest rfl]

theorem isInfix_of_mem_tokens (h : t ∈ tokens p l) : t <:+: l := by
  induction hn : l.length using Nat.strong_induction_on generalizing l with
  | _ n ih =>
  cases shape p l with
  | seps hl =>
    rw [tokens_eq_nil_iff.mpr hl] at h
    cases h
  | @last ds word hds hword hnot =>
    rw [tokens_seps hds,tokens_word hword hnot,List.mem_singleton] at h
    exact h ▸ (List.suffix_append ds word).isInfix
  | @word ds word rest sep hds hword hnot hsep =>
    rw [tokens_seps hds,tokens_word_sep hword hnot hsep,List.mem_cons] at h
    rcases h with rfl | h
    · exact ⟨ds,sep :: rest,by simp⟩
    · exact (ih rest.length (by simp at hn; omega) h rfl).trans ⟨ds++(word++[sep]),[],by simp⟩

end Tokens
