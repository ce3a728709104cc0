import ScalesOS.StableSort

/-!
# The painter's order

A walk over the children lists comes to a window before those below it, and to siblings by
their `z`, each with all that lies below it. Siblings of one `z` come in the order of the list.
-/

namespace ScalesOS
namespace Compose
namespace Server

/-- The sibling `s` is painted before `t`. -/
inductive Lower (srv : Server) (s t : Ref) : Prop
  | z {par : Ref} (hs : srv.IsChild par s) (ht : srv.IsChild par t)
      (hlt : srv.level s < srv.level t) : srv.Lower s t
  | list {par : Ref} {win : Window} (hpar : srv.window par = some win)
      (heq : srv.level s = srv.level t) (hst : [s,t].Sublist win.children) : srv.Lower s t

/-- `a` is painted before `b`: `b` lies below it, or above the two are siblings, and that above
`a` is painted before that above `b`. -/
inductive Under (srv : Server) (a b : Ref) : Prop
  | above (hbelow : srv.Below a b) (hne : a ≠ b) : srv.Under a b
  | beside {s t : Ref} (hlower : srv.Lower s t) (ha : srv.Below s a) (hb : srv.Below t b) :
      srv.Under a b

variable {srv : Server} {a b s t : Ref}

theorem Forest.ne_of_sublist (hf : srv.Forest) {par : Ref} {win : Window}
    (hpar : srv.window par = some win) (hst : [s,t].Sublist win.children) : s ≠ t := by
  have hnodup := (hf.distinct hpar).sublist hst
  simpa using hnodup

theorem Lower.siblings (hf : srv.Forest) (h : srv.Lower s t) :
    s ≠ t ∧ ∃ par, srv.IsChild par s ∧ srv.IsChild par t := by
  cases h with
  | z hs ht hlt =>
    refine ⟨?_,_,hs,ht⟩
    rintro rfl
    exact lt_irrefl _ hlt
  | @list par win hpar heq hst =>
    exact ⟨hf.ne_of_sublist hpar hst,par,hf.children hpar (hst.subset (by simp)),
      hf.children hpar (hst.subset (by simp))⟩

theorem Lower.asymm (hf : srv.Forest) (h : srv.Lower s t) : ¬ srv.Lower t s := by
  intro h'
  cases h with
  | z hs ht hlt =>
    cases h' with
    | z _ _ hlt' => exact lt_asymm hlt hlt'
    | list _ heq _ => exact hlt.ne heq.symm
  | list hpar heq hst =>
    cases h' with
    | z _ _ hlt => exact hlt.ne heq.symm
    | list hpar' _ hts =>
      have hs := hf.children hpar (hst.subset (by simp : s ∈ [s,t]))
      have hs' := hf.children hpar' (hts.subset (by simp : s ∈ [t,s]))
      obtain rfl := IsChild.unique hs hs'
      obtain rfl := Option.some.inj (hpar.symm.trans hpar')
      exact not_behind (hf.distinct hpar) hst hts

theorem Forest.below_antisymm (hf : srv.Forest) (h : srv.Below a b) (h' : srv.Below b a) : a = b :=
  le_antisymm (hf.below_le h) (hf.below_le h')

/-- A child that both windows lie below, of a parent that has them below two children. -/
theorem Forest.not_below_both (hf : srv.Forest) {par x : Ref} (hs : srv.IsChild par s)
    (ht : srv.IsChild par t) (hne : s ≠ t) (ha : srv.Below s a) (hb : srv.Below t b)
    (hx : srv.Below par x) (hxpar : x ≠ par) (hxa : srv.Below x a) : ¬ srv.Below x b := by
  intro hxb
  obtain rfl | ⟨c,hc,hcx⟩ := Relation.ReflTransGen.cases_head hx
  · exact hxpar rfl
  · have hsc := hf.sibling_eq hs hc ha (hcx.trans hxa)
    have htc := hf.sibling_eq ht hc hb (hcx.trans hxb)
    exact hne (hsc.trans htc.symm)

theorem Under.asymm (hf : srv.Forest) (h : srv.Under a b) : ¬ srv.Under b a := by
  have hmixed : ∀ {a b s t}, srv.Below a b → srv.Lower t s → srv.Below t b → srv.Below s a →
      False := by
    intro a b s t hab hlower hb ha
    obtain ⟨hne,par,ht,hs⟩ := hlower.siblings hf
    exact hne (hf.sibling_eq ht hs hb (ha.trans hab))
  intro h'
  cases h with
  | above hab hne =>
    cases h' with
    | above hba _ => exact hne (hf.below_antisymm hab hba)
    | beside hlower hb ha => exact hmixed hab hlower hb ha
  | @beside s t hlower ha hb =>
    cases h' with
    | above hba _ => exact hmixed hba hlower ha hb
    | @beside t' s' hlower' hb' ha' =>
      obtain ⟨hne,par,hs,ht⟩ := hlower.siblings hf
      obtain ⟨hne',par',ht',hs'⟩ := hlower'.siblings hf
      by_cases hpar : par = par'
      · subst hpar
        obtain rfl := hf.sibling_eq hs hs' ha ha'
        obtain rfl := hf.sibling_eq ht ht' hb hb'
        exact hlower.asymm hf hlower'
      -- one of the two parents lies below the other, and then below one child of it
      · have hpa : srv.Below par a := .head hs ha
        have hpa' : srv.Below par' a := .head hs' ha'
        rcases hpa.total hpa' with hbelow | hbelow
        · exact hf.not_below_both hs ht hne ha hb hbelow (Ne.symm hpar) hpa' (.head ht' hb')
        · exact hf.not_below_both hs' ht' hne'.symm ha' hb' hbelow hpar hpa (.head ht hb)

theorem Ordered.children_lower (ho : srv.Ordered) {r : Ref} {win : Window}
    (hr : srv.window r = some win) : win.children.Pairwise srv.Lower := by
  refine List.pairwise_iff_forall_sublist.mpr fun {s t} hst => ?_
  have hle := (ho.sorted r win hr).sublist hst
  simp only [List.pairwise_pair] at hle
  have hs := ho.forest.children hr (hst.subset (by simp : s ∈ [s,t]))
  have ht := ho.forest.children hr (hst.subset (by simp : t ∈ [s,t]))
  rcases hle.lt_or_eq with hlt | heq
  · exact .z hs ht hlt
  · exact .list hr heq hst

end Server
end Compose
end ScalesOS
