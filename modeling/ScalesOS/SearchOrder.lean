import Mathlib.Data.List.TakeWhile
import ScalesOS.DepthFirst

/-! Which of two nodes a depth-first search visits first. In a graph without cycles the
answer depends only on the lists of successors: `b` comes before `a` unless some path to
`a` goes past no entry that leads to `b`. -/
namespace DepthFirst
variable {α : Type} {next : α → List α} {seen todo order : List α} {a b : α}

/-- `y` can be reached from `x`. -/
abbrev Reach (next : α → List α) : α → α → Prop := Relation.ReflTransGen fun x y => y ∈ next x

/-- `y` can be reached from `x` by at least one step. -/
abbrev Below (next : α → List α) : α → α → Prop := Relation.TransGen fun x y => y ∈ next x

/-- A path from the list `todo` to `a`, on which no list has an entry that leads to `b`
in front of the entry that the path follows. -/
inductive Open (next : α → List α) (b : α) : List α → α → Prop
  | here {todo : List α} {a : α} : Open next b (a::todo) a
  | down {todo : List α} {a y : α} (h : Open next b (next y) a) : Open next b (y::todo) a
  | pass {todo : List α} {a y : α} (hy : ¬ Reach next y b) (h : Open next b todo a) :
      Open next b (y::todo) a

theorem Open.reach (h : Open next b todo a) : ∃ t ∈ todo, Reach next t a := by
  induction h with
  | here => exact ⟨_,List.mem_cons_self,.refl⟩
  | down _ ih =>
    obtain ⟨t,ht,hreach⟩ := ih
    exact ⟨_,List.mem_cons_self,.head ht hreach⟩
  | pass _ _ ih =>
    obtain ⟨t,ht,hreach⟩ := ih
    exact ⟨t,List.mem_cons_of_mem _ ht,hreach⟩

section Before
variable [DecidableEq α]

/-- What stands before the first `a`. -/
def before (order : List α) (a : α) : List α := order.takeWhile fun x => x != a

theorem before_append_of_mem {l : List α} (h : a ∈ l) (r : List α) :
    before (l++r) a = before l a := by
  rw [before,List.takeWhile_append,if_neg]
  · rfl
  · intro hlen
    have hall := (List.takeWhile_prefix (l := l) fun x => x != a).eq_of_length hlen
    have hne := List.mem_takeWhile_imp (hall.symm ▸ h)
    simp at hne

theorem before_append_of_not_mem {l : List α} (h : a ∉ l) (r : List α) :
    before (l++r) a = l++before r a := by
  have hne : ∀ x ∈ l, (x != a) = true := by
    intro x hx
    rw [bne_iff_ne]
    rintro rfl
    exact h hx
  rw [before,List.takeWhile_append_of_pos hne]
  rfl

theorem mem_before {l : List α} (h : b ∈ before l a) : b ∈ l ∧ b ≠ a :=
  ⟨(List.takeWhile_prefix _).subset h,by simpa using List.mem_takeWhile_imp h⟩

theorem before_extend {l l' : List α} (hl : l <+: l') (h : a ∈ l) : before l' a = before l a := by
  obtain ⟨r,rfl⟩ := hl
  exact before_append_of_mem h r

end Before

/-- Nodes visited so far have nothing new below them, or the list to be worked off is
below them. -/
def Clear (next : α → List α) (seen todo : List α) : Prop :=
  ∀ n ∈ seen, (∀ m, Reach next n m → m ∈ seen) ∨ ∀ x ∈ todo, Below next n x

theorem Clear.tail (h : Clear next seen (a::todo)) : Clear next seen todo :=
  fun n hn => (h n hn).imp_right fun hall x hx => hall x (List.mem_cons_of_mem _ hx)

theorem Clear.visit (h : Clear next seen (a::todo)) : Clear next (seen++[a]) (next a) := by
  intro n hn
  rcases List.mem_append.mp hn with hn | hn
  · rcases h n hn with hall | hbelow
    · exact .inl fun m hm => List.mem_append_left _ (hall m hm)
    · exact .inr fun x hx => (hbelow a List.mem_cons_self).tail hx
  · obtain rfl := List.mem_singleton.mp hn
    exact .inr fun x hx => .single hx

section Acyclic
variable {S : Set α} (hclosed : ∀ x ∈ S, ∀ y ∈ next x, y ∈ S) (hacyclic : ∀ x ∈ S, ¬ Below next x x)

include hacyclic in
theorem Visits.reach_mem (h : Visits next seen todo order) (htodo : ∀ t ∈ todo, t ∈ S)
    (hclear : Clear next seen todo) {n m : α} (hn : n ∈ order) (hnew : n ∉ seen)
    (hreach : Reach next n m) : m ∈ order := by
  induction hreach using Relation.ReflTransGen.head_induction_on with
  | refl => exact hn
  | @head n w hstep hrest ih =>
    obtain ⟨t,ht,htn⟩ := (h.reaches n hn).resolve_left hnew
    have hw : w ∈ order := (h.closed n hn).resolve_left hnew hstep
    by_cases hseen : w ∈ seen
    · rcases hclear w hseen with hall | hbelow
      · exact h.subset (hall m hrest)
      · exact absurd ((Relation.TransGen.tail' htn hstep).trans (hbelow t ht))
          (hacyclic t (htodo t ht))
    · exact ih hw hseen

include hclosed hacyclic in
/-- So has whatever is below a node whose successors have just been worked off. -/
theorem Visits.visited_below (h : Visits next (seen++[a]) (next a) order) (ha : a ∈ S)
    (hclear : Clear next seen (a::todo)) {m : α} (hreach : Reach next a m) : m ∈ order := by
  rcases Relation.ReflTransGen.cases_head hreach with rfl | ⟨x,hx,hrest⟩
  · exact h.subset (List.mem_append_right _ (List.mem_singleton_self _))
  · by_cases hseen : x ∈ seen++[a]
    · rcases hclear.visit x hseen with hall | hbelow
      · exact h.subset (hall m hrest)
      · exact absurd (hbelow x hx) (hacyclic x (hclosed a ha x hx))
    · exact h.reach_mem hacyclic (hclosed a ha) hclear.visit (h.todo_subset hx) hseen hrest

include hclosed hacyclic in
theorem Clear.rest (hclear : Clear next seen (a::todo)) (ha : a ∈ S)
    (h : Visits next (seen++[a]) (next a) order) : Clear next order todo := by
  intro n hn
  by_cases hnew : n ∈ seen++[a]
  · rcases List.mem_append.mp hnew with hseen | hself
    · rcases hclear.tail n hseen with hall | hbelow
      · exact .inl fun m hm => h.subset (List.mem_append_left _ (hall m hm))
      · exact .inr hbelow
    · obtain rfl := List.mem_singleton.mp hself
      exact .inl fun m hm => h.visited_below hclosed hacyclic ha hclear hm
  · exact .inl fun m hm => h.reach_mem hacyclic (hclosed a ha) hclear.visit hn hnew hm

variable [DecidableEq α]

include hclosed hacyclic in
/-- A path that goes past no entry leading to `b` brings the search to its end first. -/
theorem Visits.not_before (h : Visits next seen todo order) (htodo : ∀ t ∈ todo, t ∈ S)
    (hclear : Clear next seen todo) (hb : b ∉ seen) (hba : ¬ Reach next b a)
    (hopen : Open next b todo a) :
    b ∉ before order a := by
  induction h with
  | done => cases hopen
  | @skip seen todo order n hin hrest ih =>
    have hn : n ∈ S := htodo n List.mem_cons_self
    -- the skipped node and all below it have been visited before `b`
    have hseen : ∀ m, Reach next n m → m ∈ seen :=
      (hclear n hin).resolve_right fun hbelow => hacyclic n hn (hbelow n List.mem_cons_self)
    have hfirst : ∀ m, Reach next n m → b ∉ before order m := by
      intro m hm hc
      rw [before_extend hrest.isPrefix (hseen m hm)] at hc
      exact hb (mem_before hc).1
    cases hopen with
    | here => exact hfirst a .refl
    | down hopen =>
      obtain ⟨t,ht,hreach⟩ := hopen.reach
      exact hfirst a (.head ht hreach)
    | pass _ hopen => exact ih (fun t ht =>
      htodo t (List.mem_cons_of_mem _ ht)) hclear.tail hb hopen
  | @visit seen todo mid order n hnew hnext hrest ihnext ihrest =>
    have hn : n ∈ S := htodo n List.mem_cons_self
    have hmid : ∀ m, Reach next n m → m ∈ mid := fun m hm =>
      hnext.visited_below hclosed hacyclic hn hclear hm
    cases hopen with
    | here =>
      have hself : a ∈ seen++[a] := List.mem_append_right _ (List.mem_singleton_self _)
      rw [before_extend hrest.isPrefix (hnext.subset hself),before_extend hnext.isPrefix hself]
      intro hc
      obtain ⟨hin,hne⟩ := mem_before hc
      rcases List.mem_append.mp hin with hin | hin
      · exact hb hin
      · exact hne (List.mem_singleton.mp hin)
    | down hopen =>
      obtain ⟨t,ht,hreach⟩ := hopen.reach
      rw [before_extend hrest.isPrefix (hmid a (.head ht hreach))]
      refine ihnext (hclosed n hn) hclear.visit (fun hc => ?_) hopen
      rcases List.mem_append.mp hc with hin | hin
      · exact hb hin
      · obtain rfl := List.mem_singleton.mp hin
        exact hba (.head ht hreach)
    | pass hpast hopen =>
      refine ihrest (fun t ht =>
        htodo t (List.mem_cons_of_mem _ ht)) (hclear.rest hclosed hacyclic hn hnext)
        (fun hc => ?_) hopen
      rcases hnext.reaches b hc with hin | ⟨t,ht,hreach⟩
      · rcases List.mem_append.mp hin with hin | hin
        · exact hb hin
        · exact hpast (List.mem_singleton.mp hin ▸ .refl)
      · exact hpast (.head ht hreach)

include hclosed hacyclic in
/-- A node that is visited and finds `b` not yet visited has such a path. -/
theorem Visits.open_of_not_before (h : Visits next seen todo order) (htodo : ∀ t ∈ todo, t ∈ S)
    (hclear : Clear next seen todo) (ha : a ∈ order) (hnew : a ∉ seen) (hb : b ∉ seen)
    (hnot : b ∉ before order a) : Open next b todo a := by
  induction h with
  | done => exact absurd ha hnew
  | @skip seen todo order n hin hrest ih =>
    have hn : n ∈ S := htodo n List.mem_cons_self
    have hseen : ∀ m, Reach next n m → m ∈ seen :=
      (hclear n hin).resolve_right fun hbelow => hacyclic n hn (hbelow n List.mem_cons_self)
    exact .pass (fun hc => hb (hseen b hc))
      (ih (fun t ht => htodo t (List.mem_cons_of_mem _ ht)) hclear.tail ha hnew hb hnot)
  | @visit seen todo mid order n hn' hnext hrest ihnext ihrest =>
    have hn : n ∈ S := htodo n List.mem_cons_self
    by_cases han : a = n
    · subst han
      exact .here
    have hnew' : a ∉ seen++[n] := by
      rw [List.mem_append,List.mem_singleton]
      exact not_or.mpr ⟨hnew,han⟩
    by_cases hmid : a ∈ mid
    · rw [before_extend hrest.isPrefix hmid] at hnot
      refine .down (ihnext (hclosed n hn) hclear.visit hmid hnew' (fun hc => hnot ?_) hnot)
      -- then `b` is the node that has just been visited
      obtain ⟨r,rfl⟩ := hnext.isPrefix
      rw [before_append_of_not_mem hnew']
      exact List.mem_append_left _ hc
    · have hbmid : b ∉ mid := by
        intro hc
        obtain ⟨r,rfl⟩ := hrest.isPrefix
        rw [before_append_of_not_mem hmid] at hnot
        exact hnot (List.mem_append_left _ hc)
      exact .pass (fun hc => hbmid (hnext.visited_below hclosed hacyclic hn hclear hc))
        (ihrest (fun t ht => htodo t (List.mem_cons_of_mem _ ht))
          (hclear.rest hclosed hacyclic hn hnext)
          ha hmid hbmid hnot)

include hclosed hacyclic in
/-- The search from `r` visits `b` before a node `a` above it unless a path to `a` goes
past no entry that leads to `b`. -/
theorem Visits.before_iff {r : α} (h : Visits next [] [r] order) (hr : r ∈ S) (ha : a ∈ order)
    (hab : Below next a b) : b ∈ before order a ↔ ¬ Open next b [r] a := by
  have htodo : ∀ t ∈ [r], t ∈ S := fun t ht => List.mem_singleton.mp ht ▸ hr
  have hclear : Clear next [] [r] := fun n hn => absurd hn List.not_mem_nil
  have hS : ∀ x, Reach next r x → x ∈ S := by
    intro x hx
    induction hx with
    | refl => exact hr
    | tail _ hstep ih => exact hclosed _ ih _ hstep
  have hba : ¬ Reach next b a := fun hc => hacyclic a (hS a (h.mem_iff.mp ha)) (hab.trans_left hc)
  constructor
  · exact fun hb hopen => h.not_before hclosed hacyclic htodo hclear List.not_mem_nil hba hopen hb
  · intro hopen
    by_contra hb
    exact hopen (h.open_of_not_before hclosed hacyclic htodo hclear ha List.not_mem_nil
      List.not_mem_nil hb)

end Acyclic
end DepthFirst
