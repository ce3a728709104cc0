import Mathlib.Logic.Relation
import Mathlib.Tactic

/-! Depth-first preorder of a graph given by lists of successors. -/
namespace DepthFirst
variable {α : Type} {next : α → List α} {seen todo order order' : List α} {a b : α}

/-- `order` is what a depth-first search has visited, in the order of the visits, after it
has worked off `todo` and had visited `seen` before. -/
inductive Visits (next : α → List α) : List α → List α → List α → Prop
  | done {seen : List α} : Visits next seen [] seen
  | skip {seen todo order : List α} {a : α} : a ∈ seen → Visits next seen todo order →
      Visits next seen (a::todo) order
  | visit {seen todo order order' : List α} {a : α} :
      a ∉ seen → Visits next (seen++[a]) (next a) order →
      Visits next order todo order' → Visits next seen (a::todo) order'

namespace Visits

theorem unique (h : Visits next seen todo order) (h' : Visits next seen todo order') :
    order = order' := by
  induction h generalizing order' with
  | done =>
    cases h'
    rfl
  | skip hin _ ih =>
    cases h' with
    | skip _ hrest => exact ih hrest
    | visit hnew _ _ => exact absurd hin hnew
  | visit hnew _ _ ihnext ihrest =>
    cases h' with
    | skip hin _ => exact absurd hin hnew
    | visit _ hnext hrest =>
      rw [← ihnext hnext] at hrest
      exact ihrest hrest

theorem append {todo' : List α} (h : Visits next seen todo order)
    (h' : Visits next order todo' order') :
    Visits next seen (todo++todo') order' := by
  induction h with
  | done => exact h'
  | skip hin _ ih => exact .skip hin (ih h')
  | visit hnew hnext _ _ ihrest => exact .visit hnew hnext (ihrest h')

theorem isPrefix (h : Visits next seen todo order) : seen <+: order := by
  induction h with
  | done => exact List.prefix_rfl
  | skip _ _ ih => exact ih
  | visit _ _ _ ihnext ihrest => exact ((List.prefix_append _ _).trans ihnext).trans ihrest

theorem subset (h : Visits next seen todo order) : seen ⊆ order := h.isPrefix.subset

theorem nodup (h : Visits next seen todo order) (hseen : seen.Nodup) : order.Nodup := by
  induction h with
  | done => exact hseen
  | skip _ _ ih => exact ih hseen
  | visit hnew _ _ ihnext ihrest =>
    apply ihrest
    apply ihnext
    exact List.nodup_append.mpr ⟨hseen,List.nodup_singleton _,fun x hx y hy => by
      rintro rfl
      exact hnew (List.mem_singleton.mp hy ▸ hx)⟩

theorem todo_subset (h : Visits next seen todo order) : todo ⊆ order := by
  induction h with
  | done => exact List.nil_subset _
  | skip hin hrest ih => exact List.cons_subset.mpr ⟨hrest.subset hin,ih⟩
  | visit _ hnext hrest _ ih =>
    exact List.cons_subset.mpr
      ⟨hrest.subset (hnext.subset (List.mem_append_right _ (List.mem_singleton_self _))),ih⟩

/-- The successors of a node that has been visited by the search have been visited. -/
theorem closed (h : Visits next seen todo order) : ∀ a ∈ order, a ∈ seen ∨ next a ⊆ order := by
  induction h with
  | done => exact fun a ha => Or.inl ha
  | skip _ _ ih => exact ih
  | @visit seen todo order order' b _ hnext hrest ihnext ihrest =>
    intro a ha
    rcases ihrest a ha with hin | hclosed
    · rcases ihnext a hin with hin | hclosed
      · rcases List.mem_append.mp hin with hin | hin
        · exact Or.inl hin
        · rw [List.mem_singleton.mp hin]
          exact Or.inr (List.Subset.trans hnext.todo_subset hrest.subset)
      · exact Or.inr (List.Subset.trans hclosed hrest.subset)
    · exact Or.inr hclosed

/-- A visited node is new only if it can be reached from what was to be worked off. -/
theorem reaches (h : Visits next seen todo order) :
    ∀ a ∈ order, a ∈ seen ∨ ∃ b ∈ todo, Relation.ReflTransGen (fun x y => y ∈ next x) b a := by
  induction h with
  | done => exact fun a ha => Or.inl ha
  | skip _ _ ih =>
    intro a ha
    rcases ih a ha with hin | ⟨b,hb,hreach⟩
    · exact Or.inl hin
    · exact Or.inr ⟨b,List.mem_cons_of_mem _ hb,hreach⟩
  | @visit seen todo order order' c _ _ _ ihnext ihrest =>
    intro a ha
    rcases ihrest a ha with hin | ⟨b,hb,hreach⟩
    · rcases ihnext a hin with hin | ⟨b,hb,hreach⟩
      · rcases List.mem_append.mp hin with hin | hin
        · exact Or.inl hin
        · rw [List.mem_singleton.mp hin]
          exact Or.inr ⟨c,List.mem_cons_self,.refl⟩
      · exact Or.inr ⟨c,List.mem_cons_self,.head hb hreach⟩
    · exact Or.inr ⟨b,List.mem_cons_of_mem _ hb,hreach⟩

/-- A search from one node visits exactly what can be reached from it. -/
theorem mem_iff (h : Visits next [] [a] order) : b ∈ order ↔
    Relation.ReflTransGen (fun x y => y ∈ next x) a b := by
  constructor
  · intro hb
    rcases h.reaches b hb with hin | ⟨c,hc,hreach⟩
    · cases hin
    · rwa [List.mem_singleton.mp hc] at hreach
  · intro hreach
    induction hreach with
    | refl => exact h.todo_subset (List.mem_singleton_self a)
    | tail _ hstep ih =>
      rcases h.closed _ ih with hin | hclosed
      · cases hin
      · exact hclosed hstep

theorem head (h : Visits next [] [a] order) : order.head? = some a := by
  cases h with
  | skip hin _ => cases hin
  | visit _ hnext hrest =>
    obtain ⟨tail,htail⟩ := hnext.isPrefix.trans hrest.isPrefix
    rw [← htail]
    rfl

end Visits
end DepthFirst
