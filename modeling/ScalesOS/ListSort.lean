import ScalesOS.WindowForest
import Mathlib.Order.Basic

/-!
# Sorting again

The insertion sort of the list module is stable: what is in order keeps its order. In a list
that was sorted until the key of one member changed, only that member moves.
-/

namespace ScalesOS
namespace Compose

variable {α β : Type} {predicate : α → α → Bool} {list : List α}

/-- Among the members no two are each above the other, and what is not above the second of two
is not above the third. -/
structure Weak (predicate : α → α → Bool) (list : List α) : Prop where
  asymm : ∀ a ∈ list, ∀ b ∈ list, predicate a b = true → ¬ predicate b a = true
  trans : ∀ a ∈ list, ∀ b ∈ list, ∀ c ∈ list, ¬ predicate a b = true → ¬ predicate b c = true →
    ¬ predicate a c = true

theorem Weak.mono {list' : List α} (h : Weak predicate list) (hsub : ∀ a ∈ list', a ∈ list) :
    Weak predicate list' :=
  ⟨fun a ha b hb => h.asymm a (hsub a ha) b (hsub b hb),
    fun a ha b hb c hc => h.trans a (hsub a ha) b (hsub b hb) c (hsub c hc)⟩

def round (predicate : α → α → Bool) (sorted : List α) (a : α) : List α :=
  sorted.rdropWhile (predicate · a)++a::sorted.rtakeWhile (predicate · a)

theorem round_perm (sorted : List α) (a : α) : (round predicate sorted a).Perm (a::sorted) := by
  refine List.perm_middle.trans ?_
  rw [List.rdropWhile_append_rtakeWhile]

theorem rise_mem {sorted : List α} {a b : α} (hb : b ∈ sorted.rtakeWhile (predicate · a)) :
    b ∈ sorted ∧ predicate b a = true :=
  ⟨(List.rtakeWhile_suffix (predicate · a) sorted).subset hb,
    List.mem_rtakeWhile_imp (p:=(predicate · a)) hb⟩

/-- The entries that stay are not above the new one, and those that move up are. -/
theorem round_sorted {sorted : List α} {a : α} (hw : Weak predicate (a::sorted))
    (hs : sorted.Pairwise (¬ predicate · · = true)) :
    (round predicate sorted a).Pairwise (¬ predicate · · = true) := by
  have hlow : ∀ b ∈ sorted.rdropWhile (predicate · a), ¬ predicate b a = true := fun b hb => by
    have hfront := List.rdropWhile_prefix (predicate · a) (l:=sorted)
    have hlast := List.rdropWhile_last_not (predicate · a) sorted (List.ne_nil_of_mem hb)
    have hmem : ∀ c ∈ sorted.rdropWhile (predicate · a), c ∈ a::sorted := fun c hc =>
      List.mem_cons_of_mem a (hfront.subset hc)
    by_cases he : b = (sorted.rdropWhile (predicate · a)).getLast (List.ne_nil_of_mem hb)
    · exact he ▸ hlast
    · refine hw.trans b (hmem b hb) _ (hmem _ (List.getLast_mem _)) a List.mem_cons_self ?_ hlast
      exact (hs.sublist hfront.sublist).rel_dropLast_getLast
        (List.mem_dropLast_of_mem_of_ne_getLast hb he)
  rw [← List.rdropWhile_append_rtakeWhile (p:=(predicate · a)) (l:=sorted),
    List.pairwise_append] at hs
  refine List.pairwise_append.mpr ⟨hs.1,List.pairwise_cons.mpr ⟨fun b hb => ?_,hs.2.1⟩,
    fun b hb c hc => ?_⟩
  · obtain ⟨hmem,habove⟩ := rise_mem hb
    exact hw.asymm b (List.mem_cons_of_mem a hmem) a List.mem_cons_self habove
  · rcases List.mem_cons.mp hc with rfl | hc
    · exact hlow b hb
    · exact hs.2.2 b hb c hc

/-- What is in order before a round, with the new entry last, is in order after it. -/
theorem round_sublist {sorted chosen : List α} {a : α} (hsub : chosen.Sublist sorted)
    (hle : ∀ b ∈ chosen, ¬ predicate b a = true) :
    (chosen++[a]).Sublist (round predicate sorted a) := by
  rw [← List.rdropWhile_append_rtakeWhile (p:=(predicate · a)) (l:=sorted)] at hsub
  obtain ⟨low,high,rfl,hlow,hhigh⟩ := List.sublist_append_iff.mp hsub
  have hnil : high = [] := List.eq_nil_iff_forall_not_mem.mpr fun b hb =>
    hle b (List.mem_append_right _ hb) (rise_mem (hhigh.subset hb)).2
  subst hnil
  rw [List.append_nil]
  exact hlow.append ((List.nil_sublist _).cons_cons a)

theorem rounds_stable (sorted rest : List α) (hw : Weak predicate (sorted++rest))
    (hs : sorted.Pairwise (¬ predicate · · = true)) :
    (rest.foldl (round predicate) sorted).Pairwise (¬ predicate · · = true) ∧
    ∀ low high : List α, (low++high).Pairwise (¬ predicate · · = true) → low.Sublist sorted →
    high.Sublist rest → (low++high).Sublist (rest.foldl (round predicate) sorted) := by
  induction rest generalizing sorted with
  | nil =>
    refine ⟨hs,fun low high _ hlow hhigh => ?_⟩
    rw [List.sublist_nil.mp hhigh,List.append_nil]
    exact hlow
  | cons a rest ih =>
    have hround : Weak predicate (a::sorted) := hw.mono fun b hb => by grind
    have hmem : ∀ b ∈ round predicate sorted a++rest, b ∈ sorted++a::rest := fun b hb => by
      rw [((round_perm sorted a).append_right rest).mem_iff] at hb
      grind
    obtain ⟨hresult,hstable⟩ := ih _ (hw.mono hmem) (round_sorted hround hs)
    refine ⟨hresult,fun low high hle hlow hhigh => ?_⟩
    rcases List.sublist_cons_iff.mp hhigh with hskip | ⟨later,rfl,htake⟩
    · refine hstable low high hle (hlow.trans ?_) hskip
      have hkept := (List.Sublist.refl (sorted.rdropWhile (predicate · a))).append
        (List.sublist_cons_self a (sorted.rtakeWhile (predicate · a)))
      rwa [List.rdropWhile_append_rtakeWhile] at hkept
    · rw [List.append_cons] at hle ⊢
      refine hstable _ _ hle (round_sublist hlow fun b hb => ?_) htake
      exact (List.pairwise_append.mp (List.pairwise_append.mp hle).1).2.2 b hb a (by simp)

theorem Weak.sorted (hw : Weak predicate list) :
    (listSort predicate list).Pairwise (¬ predicate · · = true) :=
  (rounds_stable [] list hw List.Pairwise.nil).1

theorem Weak.sublist (hw : Weak predicate list) {chosen : List α}
    (hle : chosen.Pairwise (¬ predicate · · = true))
    (hsub : chosen.Sublist list) : chosen.Sublist (listSort predicate list) :=
  (rounds_stable [] list hw List.Pairwise.nil).2 [] chosen hle (List.nil_sublist _) hsub

variable [LinearOrder β] {key : α → β}

def Compares (predicate : α → α → Bool) (key : α → β) (list : List α) : Prop :=
  ∀ a ∈ list, ∀ b ∈ list, predicate a b = true ↔ key b < key a

namespace Compares

theorem not_above (hp : Compares predicate key list) {a b : α} (ha : a ∈ list) (hb : b ∈ list) :
    ¬ predicate a b = true ↔ key a ≤ key b := by rw [hp a ha b hb,not_lt]

theorem weak (hp : Compares predicate key list) : Weak predicate list where
  asymm _ ha _ hb h := (hp.not_above hb ha).mpr ((hp _ ha _ hb).mp h).le
  trans _ ha _ hb _ hc hab hbc :=
    (hp.not_above ha hc).mpr (((hp.not_above ha hb).mp hab).trans ((hp.not_above hb hc).mp hbc))

theorem pairwise_iff (hp : Compares predicate key list) {chosen : List α}
    (hsub : ∀ a ∈ chosen, a ∈ list) :
    chosen.Pairwise (¬ predicate · · = true) ↔ chosen.Pairwise (key · ≤ key ·) :=
  List.Pairwise.iff_of_mem fun ha hb => hp.not_above (hsub _ ha) (hsub _ hb)

end Compares

theorem listSort_sorted (hp : Compares predicate key list) :
    (listSort predicate list).Pairwise (key · ≤ key ·) :=
  (hp.pairwise_iff fun _ ha => (listSort_perm _ _).mem_iff.mp ha).mp hp.weak.sorted

theorem sublist_listSort (hp : Compares predicate key list) {chosen : List α}
    (hle : chosen.Pairwise (key · ≤ key ·))
    (hsub : chosen.Sublist list) : chosen.Sublist (listSort predicate list) :=
  hp.weak.sublist ((hp.pairwise_iff fun _ ha => hsub.subset ha).mpr hle) hsub

structure Resorted (key : α → β) (list list' : List α) : Prop where
  perm : list'.Perm list
  sorted : list'.Pairwise (key · ≤ key ·)
  stable : ∀ {chosen : List α}, chosen.Pairwise (key · ≤ key ·) → chosen.Sublist list →
    chosen.Sublist list'

theorem listSort_resorted (hp : Compares predicate key list) :
    Resorted key list (listSort predicate list) :=
  ⟨listSort_perm _ _,listSort_sorted hp,sublist_listSort hp⟩

namespace Resorted

variable {list' : List α}

theorem refl (hs : list.Pairwise (key · ≤ key ·)) : Resorted key list list :=
  ⟨.refl _,hs,fun _ hsub => hsub⟩

theorem eq_of_sorted (h : Resorted key list list')
    (hs : list.Pairwise (key · ≤ key ·)) : list' = list :=
  ((h.stable hs (.refl _)).eq_of_length h.perm.length_eq.symm).symm

theorem before (h : Resorted key list list') {a b : α} (hle : key a ≤ key b)
    (hsub : [a,b].Sublist list) :
    [a,b].Sublist list' :=
  h.stable (List.pairwise_pair.mpr hle) hsub

theorem erase_eq [DecidableEq α] (h : Resorted key list list') {r : α} (hnodup : list.Nodup)
    (hs : (list.erase r).Pairwise (key · ≤ key ·)) : list'.erase r = list.erase r := by
  have hsub := (h.stable hs List.erase_sublist).erase r
  rw [List.erase_of_not_mem hnodup.not_mem_erase] at hsub
  exact (hsub.eq_of_length (h.perm.erase r).length_eq.symm).symm

end Resorted

section Ends

variable {a b r : α}

theorem before_or_behind (ha : a ∈ list) (hb : b ∈ list) (hne : a ≠ b) :
    [a,b].Sublist list ∨ [b,a].Sublist list := by
  obtain ⟨front,back,rfl⟩ := List.append_of_mem ha
  rcases List.mem_append.mp hb with hb | hb
  · exact .inr ((List.singleton_sublist.mpr hb).append (List.singleton_sublist.mpr (by simp)))
  · have hback : b ∈ back := (List.mem_cons.mp hb).resolve_left hne.symm
    exact .inl (((List.singleton_sublist.mpr hback).cons_cons a).trans
      (List.sublist_append_right _ _))

theorem not_behind (hnodup : list.Nodup) (hab : [a,b].Sublist list) : ¬ [b,a].Sublist list := by
  induction list with
  | nil => simp at hab
  | cons c list ih =>
    intro hba
    obtain ⟨hc,hnodup⟩ := List.nodup_cons.mp hnodup
    rcases List.sublist_cons_iff.mp hab with hab | ⟨rest,he,hrest⟩
    · rcases List.sublist_cons_iff.mp hba with hba | ⟨rest,he,hrest⟩
      · exact ih hnodup hab hba
      · exact hc ((List.cons.inj he).1 ▸ hab.subset (by simp))
    · rcases List.sublist_cons_iff.mp hba with hba | ⟨rest',he',hrest'⟩
      · exact hc ((List.cons.inj he).1 ▸ hba.subset (by simp))
      · obtain ⟨rfl,rfl⟩ := List.cons.inj he'
        exact hc (List.singleton_sublist.mp ((List.cons.inj he).2 ▸ hrest))

theorem getLast_eq_iff (hnodup : list.Nodup) (hr : r ∈ list) :
    list.getLast? = some r ↔ ∀ s ∈ list, s ≠ r → [s,r].Sublist list := by
  constructor
  · intro hlast s hs hne
    have happ := List.dropLast_append_getLast? r hlast
    rw [← happ,List.mem_append,List.mem_singleton] at hs
    rw [← happ]
    exact (List.singleton_sublist.mpr (hs.resolve_right hne)).append (.refl _)
  · intro h
    have hne := List.ne_nil_of_mem hr
    rw [List.getLast?_eq_some_getLast hne]
    by_contra hlast
    have hlast : list.getLast hne ≠ r := fun he => hlast (he ▸ rfl)
    have hbehind : [r,list.getLast hne].Sublist list := by
      have hr' : r ∈ list.dropLast := List.mem_dropLast_of_mem_of_ne_getLast hr hlast.symm
      have hsub := (List.singleton_sublist.mpr hr').append (List.Sublist.refl [list.getLast hne])
      rwa [List.dropLast_append_getLast] at hsub
    exact not_behind hnodup (h _ (List.getLast_mem hne) hlast) hbehind

theorem head_eq_iff (hnodup : list.Nodup) (hr : r ∈ list) :
    list.head? = some r ↔ ∀ s ∈ list, s ≠ r → [r,s].Sublist list := by
  cases list with
  | nil => simp at hr
  | cons c list =>
    constructor
    · intro hhead s hs hne
      obtain rfl : c = r := by simpa using hhead
      exact (List.singleton_sublist.mpr ((List.mem_cons.mp hs).resolve_left hne)).cons_cons c
    · intro h
      by_contra hhead
      have hne : c ≠ r := fun he => hhead (by simp [he])
      have hr' : r ∈ list := (List.mem_cons.mp hr).resolve_left hne.symm
      exact not_behind hnodup (h c (by simp) hne) ((List.singleton_sublist.mpr hr').cons_cons c)

variable [DecidableEq α]

theorem eq_erase_append_iff (hnodup : list.Nodup) : list = list.erase r++[r] ↔
    list.getLast? = some r := by
  constructor
  · intro h
    rw [h]
    simp
  · intro hlast
    have happ := List.dropLast_append_getLast? r hlast
    rw [← happ] at hnodup
    have hr : r ∉ list.dropLast := fun h => (List.nodup_append.mp hnodup).2.2 r h r (by simp) rfl
    conv => rhs; rw [← happ,List.erase_append_right _ hr]
    simp [happ]

theorem eq_cons_erase_iff : list = r::list.erase r ↔ list.head? = some r := by
  cases list with
  | nil => simp
  | cons c list =>
    by_cases hc : c = r
    · simp [hc]
    · simp [hc]

end Ends

end Compose
end ScalesOS
