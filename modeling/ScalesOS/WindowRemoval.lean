import ScalesOS.WindowForest

/-!
# Removing windows

A removal walks over the children of a window, whose parents keep listing them
meanwhile, and frees exactly the windows below the one removed.
-/

namespace ScalesOS
namespace Compose
namespace Server

variable {srv srv' : Server}

def IsChild (srv : Server) (par x : Ref) : Prop :=
  ∃ win, srv.window x = some win ∧ win.parent = some par

/-- `x` is `r` or lies below it. -/
def Below (srv : Server) (r x : Ref) : Prop := Relation.ReflTransGen srv.IsChild r x

theorem Forest.below_le (hf : srv.Forest) {r x : Ref} (h : srv.Below r x) : r ≤ x := by
  induction h with
  | refl => exact le_rfl
  | tail _ hc ih =>
    obtain ⟨win,hw,hp⟩ := hc
    exact ih.trans (hf.parent hw hp).1.le

theorem IsChild.unique {p q x : Ref} (h : srv.IsChild p x) (h' : srv.IsChild q x) : p = q := by
  obtain ⟨win,hw,hp⟩ := h
  obtain ⟨win',hw',hq⟩ := h'
  obtain rfl := Option.some.inj (hw.symm.trans hw')
  exact Option.some.inj (hp.symm.trans hq)

theorem Below.total {a b x : Ref} (ha : srv.Below a x) (hb : srv.Below b x) :
    srv.Below a b ∨ srv.Below b a := by
  have htotal := Relation.ReflTransGen.total_of_right_unique (r:=Function.swap srv.IsChild)
    (fun _ _ _ h h' => h.unique h') (Relation.reflTransGen_swap.mpr ha)
    (Relation.reflTransGen_swap.mpr hb)
  exact (htotal.imp Relation.reflTransGen_swap.mp Relation.reflTransGen_swap.mp).symm

theorem Forest.sibling_eq (hf : srv.Forest) {r c d x : Ref} (hc : srv.IsChild r c)
    (hd : srv.IsChild r d) (hcx : srv.Below c x) (hdx : srv.Below d x) : c = d := by
  have hkey : ∀ {c d}, srv.IsChild r c → srv.IsChild r d → srv.Below c d → c = d := by
    intro c d hc hd h
    rcases Relation.ReflTransGen.cases_tail h with rfl | ⟨q,hq,hqd⟩
    · rfl
    · obtain rfl := hqd.unique hd
      obtain ⟨win,hw,hp⟩ := hc
      exact absurd ((hf.parent hw hp).1.trans_le (hf.below_le hq)) (lt_irrefl _)
  rcases hcx.total hdx with h | h
  · exact hkey hc hd h
  · exact (hkey hd hc h).symm

theorem Forest.mem_children_iff (hf : srv.Forest) {r c : Ref} {win : Window}
    (hr : srv.window r = some win) :
    c ∈ win.children ↔ srv.IsChild r c := by
  constructor
  · intro hc
    exact hf.children hr hc
  · rintro ⟨child,hw,hp⟩
    obtain ⟨-,parWin,hw',hmem⟩ := hf.parent hw hp
    obtain rfl := Option.some.inj (hr.symm.trans hw')
    exact hmem

open Classical in
/-- The server after the windows in `gone` have been freed. Parents still list them. -/
noncomputable def without (srv : Server) (gone : Set Ref) (focus : Option Ref) : Server :=
  { srv with
    windows := srv.windows.filter (· ∉ gone)
    grabs := srv.grabs.filter fun grab => ∀ r, grab.window = some r → r ∉ gone
    inputFocus := focus
    window := fun x => if x ∈ gone then none else srv.window x }

open Classical in
/-- The focus after the windows in `gone` have been freed. -/
noncomputable def focusOutside (gone : Set Ref) (focus : Option Ref) : Option Ref :=
  focus.filter (· ∉ gone)

theorem without_empty (srv : Server) : srv.without ∅ srv.inputFocus = srv := by
  simp [without]

theorem focusOutside_union (a b : Set Ref) (focus : Option Ref) :
    focusOutside b (focusOutside a focus) = focusOutside (a ∪ b) focus := by
  classical
  cases focus with
  | none => rfl
  | some r => by_cases ha : r ∈ a <;> by_cases hb :
      r ∈ b <;> simp [focusOutside,Option.filter,ha,hb]

theorem without_free {r : Ref} (hnodup : srv.windows.Nodup) (gone : Set Ref) (focus : Option Ref) :
    { srv.without gone focus with
      windows := (srv.without gone focus).windows.erase r
      grabs := (srv.without gone focus).grabs.filter fun grab => grab.window ≠ some r
      window := Function.update (srv.without gone focus).window r none } = srv.without (gone ∪
          {r}) focus := by
  classical
  simp only [without]
  congr 1
  · rw [(hnodup.filter _).erase_eq_filter,List.filter_filter]
    refine List.filter_congr fun x _ => ?_
    by_cases hx : x = r <;> simp [hx]
  · rw [List.filter_filter]
    refine List.filter_congr fun g _ => ?_
    cases hg : g.window with
    | none => simp
    | some x => by_cases hx : x = r <;> simp [hx]
  · funext x
    by_cases hx : x = r <;> simp [Function.update,hx]

def subtree (srv : Server) (r : Ref) : Set Ref := {x | srv.Below r x}

theorem Keeps.subtree (h : srv.Keeps srv') (r : Ref) : srv'.subtree r = srv.subtree r := by
  have hchild : srv'.IsChild = srv.IsChild := by
    funext p x
    refine propext ⟨?_,?_⟩
    · rintro ⟨win,hw,hp⟩
      obtain ⟨old,hold,hlike⟩ := h.of_window_eq hw
      exact ⟨old,hold,hlike.parent ▸ hp⟩
    · rintro ⟨win,hw,hp⟩
      obtain ⟨new,hnew,hlike⟩ := h.window_eq hw
      exact ⟨new,hnew,hlike.parent.trans hp⟩
  simp only [Server.subtree,Below,hchild]

def subtrees (srv : Server) (children : List Ref) : Set Ref := {x | ∃ c ∈ children, srv.Below c x}

theorem subtree_eq (hf : srv.Forest) {r : Ref} {win : Window} (hr : srv.window r = some win) :
    srv.subtree r = {r} ∪ srv.subtrees win.children := by
  ext x
  constructor
  · intro h
    rcases Relation.ReflTransGen.cases_head h with rfl | ⟨c,hc,hcx⟩
    · exact .inl rfl
    · exact .inr ⟨c,(hf.mem_children_iff hr).mpr hc,hcx⟩
  · rintro (rfl | ⟨c,hc,hcx⟩)
    · exact .refl
    · exact Relation.ReflTransGen.head ((hf.mem_children_iff hr).mp hc) hcx

theorem subtrees_cons (srv : Server) (c : Ref) (children : List Ref) :
    srv.subtrees (c::children) = srv.subtree c ∪ srv.subtrees children := by
  ext x
  simp [subtrees,subtree]

def Removes (srv : Server) (fuel : ℕ) (r : Ref) : Prop :=
  ∀ gone focus, (∀ x, srv.Below r x → x ∉ gone) →
    removeWindow fuel (srv.without gone focus) r false =
      .ok (srv.without (gone ∪ srv.subtree r) (focusOutside (srv.subtree r) focus))

theorem removeChildren_eq (hf : srv.Forest) {fuel : ℕ} {r : Ref} {children : List Ref}
    (hchild : ∀ c ∈ children, srv.IsChild r c) (hnodup : children.Nodup)
    (hrec : ∀ c ∈ children, srv.Removes fuel c) (gone : Set Ref) (focus : Option Ref)
    (hgone : ∀ x ∈ srv.subtrees children, x ∉ gone) :
    children.foldlM (fun srv child => removeWindow fuel srv child false) (srv.without gone focus) =
      .ok (srv.without (gone ∪ srv.subtrees children)
          (focusOutside (srv.subtrees children) focus)) := by
  induction children generalizing gone focus with
  | nil =>
    have hnone : srv.subtrees [] = ∅ := by simp [subtrees]
    have hfocus : focusOutside ∅ focus = focus := by
      cases focus <;> simp [focusOutside,Option.filter]
    rw [hnone,Set.union_empty,hfocus]
    rfl
  | cons c children ih =>
    obtain ⟨hc,hnodup⟩ := List.nodup_cons.mp hnodup
    rw [List.foldlM_cons,hrec c (by simp) gone focus fun x hx => hgone x ⟨c,by simp,hx⟩]
    refine (ih (fun d hd => hchild d (by simp [hd])) hnodup (fun d hd =>
      hrec d (by simp [hd])) _ _ ?_).trans ?_
    · rintro x ⟨d,hd,hdx⟩ (hx | hx)
      · exact hgone x ⟨d,by simp [hd],hdx⟩ hx
      · obtain rfl := hf.sibling_eq (hchild c (by simp)) (hchild d (by simp [hd])) hx hdx
        exact hc hd
    · rw [subtrees_cons,Set.union_assoc,focusOutside_union]

/-- The window is read, loses the focus, and its children are removed. -/
theorem removeChildren_of (hf : srv.Forest) (fuel : ℕ) {r : Ref} {win : Window}
    (hr : srv.window r = some win)
    (hrec : ∀ c ∈ win.children, srv.Removes fuel c) (gone : Set Ref) (focus : Option Ref)
    (hgone : ∀ x, srv.Below r x → x ∉ gone) :
    (srv.without gone focus).deref (some r) = .ok win ∧
    win.children.foldlM (fun srv child => removeWindow fuel srv child false)
      (if focus = some r then { srv.without gone focus with inputFocus := none }
        else srv.without gone focus) =
      .ok (srv.without (gone ∪ srv.subtrees win.children)
          (focusOutside (srv.subtree r) focus)) := by
  have hlive : (srv.without gone focus).window r = some win := by
    simp [without,hgone r .refl,hr]
  have hfocus :
    (if focus = some r then { srv.without gone focus with inputFocus := none }
      else srv.without gone focus) =
      srv.without gone (focusOutside {r} focus) := by
    classical
    by_cases he : focus = some r
    · simp [he,without,focusOutside,Option.filter]
    · rw [if_neg he]
      cases focus with
      | none => rfl
      | some f => simp [focusOutside,Option.filter,show f ≠ r from fun h => he (h ▸ rfl)]
  have hsub : ∀ x ∈ srv.subtrees win.children, x ∉ gone := fun x hx =>
    hgone x (show x ∈ srv.subtree r by rw [subtree_eq hf hr]; exact .inr hx)
  refine ⟨deref_some hlive,?_⟩
  rw [hfocus,removeChildren_eq hf (fun c hc =>
    (hf.mem_children_iff hr).mp hc) (hf.distinct hr) hrec _ _ hsub,
    focusOutside_union,subtree_eq hf hr]

theorem Forest.removes (hf : srv.Forest) {fuel : ℕ} {r : Ref} {win : Window}
    (hr : srv.window r = some win) (hfuel : srv.fresh ≤ fuel+r) : srv.Removes fuel r := by
  induction fuel generalizing r win with
  | zero =>
    have := hf.fresh hr
    exact absurd this (by simpa using hfuel)
  | succ fuel ih =>
    intro gone focus hgone
    obtain ⟨hderef,hfold⟩ := removeChildren_of hf fuel hr (fun c hc => by
      obtain ⟨child,hw,hp⟩ := hf.children hr hc
      exact ih hw (fuel_child hfuel (hf.parent hw hp).1)) gone focus hgone
    simp only [removeWindow,hderef,bind,Except.bind]
    rw [show (srv.without gone focus).inputFocus = focus from rfl]
    rw [hfold]
    simp only [when,Bool.false_eq_true,if_false,pure,Except.pure]
    rw [without_free hf.nodup,subtree_eq hf hr,Set.union_assoc,Set.union_comm {r}]

open Classical in
/-- The server after `r` has been removed, with all that lies below it. -/
noncomputable def removed (srv : Server) (r : Ref) : Server :=
  { srv.without (srv.subtree r) (focusOutside (srv.subtree r) srv.inputFocus) with
    window := fun x => if x ∈ srv.subtree r then none
      else (srv.window x).map fun win => { win with children := win.children.erase r } }

theorem not_below_parent (hf : srv.Forest) {r par : Ref} (h : srv.IsChild par r) :
    par ∉ srv.subtree r := by
  obtain ⟨win,hw,hp⟩ := h
  exact fun hb => absurd ((hf.parent hw hp).1.trans_le (hf.below_le hb)) (lt_irrefl _)

theorem Forest.erase_children (hf : srv.Forest) {r x : Ref} {win old : Window}
    (hr : srv.window r = some win) (hx : srv.window x = some old) (hne : win.parent ≠ some x) :
    old.children.erase r = old.children := by
  refine List.erase_of_not_mem fun hmem => hne ?_
  obtain ⟨child,hw,hp⟩ := hf.children hx hmem
  rwa [← Option.some.inj (hr.symm.trans hw)] at hp

theorem unlink_free (hf : srv.Forest) {r : Ref} {win : Window} (hr : srv.window r = some win)
    (focus : Option Ref) :
    ∃ srv₁, (srv.without (srv.subtrees win.children) focus).unlinkChild r win = .ok srv₁ ∧
      { srv₁ with
        windows := srv₁.windows.erase r
        grabs := srv₁.grabs.filter fun grab => grab.window ≠ some r
        window := Function.update srv₁.window r none } =
      { srv.without (srv.subtree r) focus with window := (srv.removed r).window } := by
  classical
  have hfree := without_free (r:=r) hf.nodup (srv.subtrees win.children) focus
  rw [Set.union_comm,← subtree_eq hf hr] at hfree
  have hwindows := congrArg Server.windows hfree
  have hgrabs := congrArg Server.grabs hfree
  have hwindow := congrArg Server.window hfree
  have hmem : ∀ {x}, x ≠ r → (x ∈ srv.subtrees win.children ↔ x ∈ srv.subtree r) := fun {x} hx => by
    simp [subtree_eq hf hr,hx]
  cases hpar : win.parent with
  | none =>
    refine ⟨_,by rw [unlinkChild,hpar]; rfl,?_⟩
    rw [hfree]
    simp only [without,removed]
    congr 1
    funext x
    by_cases hx : x ∈ srv.subtree r
    · simp [hx]
    · cases hold : srv.window x with
      | none => simp [hx]
      | some old => simp [hx,hf.erase_children hr hold (by simp [hpar])]
  | some p =>
    obtain ⟨hlt,parWin,hp,-⟩ := hf.parent hr hpar
    have hpsub : p ∉ srv.subtree r := not_below_parent hf ⟨win,hr,hpar⟩
    have hlive : (srv.without (srv.subtrees win.children) focus).window p = some parWin := by
      simp [without,(hmem hlt.ne).not.mpr hpsub,hp]
    refine ⟨_,by rw [unlinkChild,hpar]; simp only [deref_some hlive,bind,Except.bind]; rfl,?_⟩
    simp only [store,without,removed] at hwindows hgrabs hwindow ⊢
    congr 1
    funext x
    by_cases hxr : x = r
    · subst hxr
      simp [show x ∈ srv.subtree x from .refl]
    · rw [Function.update_of_ne hxr]
      by_cases hxp : x = p
      · subst hxp
        simp [hpsub,hp]
      · rw [Function.update_of_ne hxp]
        by_cases hx : x ∈ srv.subtree r
        · simp [(hmem hxr).mpr hx,hx]
        · cases hold : srv.window x with
          | none => simp [hx]
          | some old => simp [(hmem hxr).not.mpr hx,hx,
              hf.erase_children hr hold (by simpa [hpar] using Ne.symm hxp)]

theorem svRemoveWindow_eq (hf : srv.Forest) {r : Ref} {win : Window}
    (hr : srv.window r = some win) :
    srv.svRemoveWindow r true = .ok (srv.removed r) := by
  classical
  obtain ⟨fuel,hfresh⟩ := Nat.exists_eq_add_one_of_ne_zero (Nat.ne_zero_of_lt (hf.fresh hr))
  obtain ⟨hderef,hfold⟩ := removeChildren_of hf fuel hr (fun c hc => by
    obtain ⟨child,hw,hp⟩ := hf.children hr hc
    exact hf.removes hw (fuel_child (hfresh.le.trans (Nat.le_add_right _ r)) (hf.parent hw hp).1))
      ∅ srv.inputFocus
      (fun _ _ => Set.notMem_empty _)
  rw [without_empty,Set.empty_union] at hfold
  rw [without_empty] at hderef
  obtain ⟨srv₁,hunlink,hfree⟩ := unlink_free hf hr (focusOutside (srv.subtree r) srv.inputFocus)
  rw [svRemoveWindow,hfresh]
  simp only [removeWindow,hderef,bind,Except.bind,hfold,when,if_true,hunlink,pure,Except.pure]
  rw [hfree]
  rfl

theorem removed_window {r x : Ref} {win' : Window} : (srv.removed r).window x = some win' ↔
    x ∉ srv.subtree r ∧ ∃ old, srv.window x = some old ∧
    { old with children := old.children.erase r } = win' := by
  by_cases hx : x ∈ srv.subtree r <;> simp [removed,hx]

theorem subtree_of_parent {r p x : Ref} (hc : srv.IsChild p x) (hp : p ∈ srv.subtree r) :
    x ∈ srv.subtree r :=
  Relation.ReflTransGen.tail hp hc

theorem parent_of_subtree {r p x : Ref} (hc : srv.IsChild p x)
    (hx : x ∈ srv.subtree r) (hne : x ≠ r) :
    p ∈ srv.subtree r := by
  rcases Relation.ReflTransGen.cases_tail hx with rfl | ⟨q,hq,hqx⟩
  · exact absurd rfl hne
  · exact hqx.unique hc ▸ hq

theorem Forest.removed (hf : srv.Forest) (r : Ref) : (srv.removed r).Forest := by
  classical
  refine ⟨hf.nodup.filter _,fun x => ?_,fun {x win} h => ?_,fun {x win p} h hp => ?_,
    fun {x win c} h hc => ?_,fun {x win} h => ?_⟩
  · rw [show (srv.removed r).windows = srv.windows.filter (· ∉ srv.subtree r) from rfl,
      List.mem_filter,hf.listed]
    constructor
    · rintro ⟨⟨win,hw⟩,hx⟩
      exact ⟨_,removed_window.mpr ⟨of_decide_eq_true hx,win,hw,rfl⟩⟩
    · rintro ⟨win,h⟩
      obtain ⟨hx,old,hold,-⟩ := removed_window.mp h
      exact ⟨⟨old,hold⟩,decide_eq_true hx⟩
  · obtain ⟨-,old,hold,-⟩ := removed_window.mp h
    exact hf.fresh hold
  · obtain ⟨hx,old,hold,rfl⟩ := removed_window.mp h
    obtain ⟨hlt,parWin,hw,hmem⟩ := hf.parent hold hp
    have hpsub : p ∉ srv.subtree r := fun hp' => hx (subtree_of_parent ⟨old,hold,hp⟩ hp')
    refine ⟨hlt,_,removed_window.mpr ⟨hpsub,parWin,hw,rfl⟩,?_⟩
    exact (List.mem_erase_of_ne fun he : x = r => hx (he ▸ Relation.ReflTransGen.refl)).mpr hmem
  · obtain ⟨hx,old,hold,rfl⟩ := removed_window.mp h
    obtain ⟨hne,hc'⟩ := (hf.distinct hold).mem_erase_iff.mp hc
    obtain ⟨child,hw,hp⟩ := hf.children hold hc'
    have hcsub : c ∉ srv.subtree r := fun hcs => hx (parent_of_subtree ⟨child,hw,hp⟩ hcs hne)
    exact ⟨_,removed_window.mpr ⟨hcsub,child,hw,rfl⟩,hp⟩
  · obtain ⟨-,old,hold,rfl⟩ := removed_window.mp h
    exact (hf.distinct hold).erase _

def Base (srv : Server) (r : Ref) : Prop :=
  ∃ win, srv.window r = some win ∧ win.parent = none ∧ win.client = none

structure Rooted (srv : Server) (root overlay : Ref) : Prop where
  root_eq : srv.root = some root
  overlay_eq : srv.overlay = some overlay
  ne : root ≠ overlay
  root_base : srv.Base root
  overlay_base : srv.Base overlay

theorem Base.keeps {r : Ref} (h : srv.Base r) (hk : srv.Keeps srv') : srv'.Base r := by
  obtain ⟨win,hw,hp,hc⟩ := h
  obtain ⟨win',hw',hlike⟩ := hk.window_eq hw
  exact ⟨win',hw',hlike.parent.trans hp,hlike.client.trans hc⟩

theorem Base.created {r : Ref} (h : srv.Base r) (hf : srv.Forest) (client par : Option Ref)
    (layer : BitVec 32) (props : Props) (windows : List Ref) :
    Base { srv.created client par layer props with windows } r := by
  obtain ⟨win,hw,hno⟩ := h
  exact ⟨_,(created_window (hf.fresh hw).ne).trans (addChild_of_eq_some par hw),hno⟩

theorem Base.below_eq {r x : Ref} (h : srv.Base x) (hb : srv.Below r x) : r = x := by
  obtain ⟨win,hw,hp,-⟩ := h
  rcases Relation.ReflTransGen.cases_tail hb with rfl | ⟨q,-,win',hw',hp'⟩
  · rfl
  · obtain rfl := Option.some.inj (hw.symm.trans hw')
    rw [hp] at hp'
    cases hp'

theorem Base.removed {r x : Ref} (h : srv.Base x) (hne : r ≠ x) : (srv.removed r).Base x := by
  obtain ⟨win,hw,hno⟩ := h
  exact ⟨_,removed_window.mpr ⟨fun hsub => hne (Base.below_eq ⟨win,hw,hno⟩ hsub),win,hw,rfl⟩,hno⟩

variable {root overlay : Ref}

theorem Rooted.overlay_not_below (h : srv.Rooted root overlay) : overlay ∉ srv.subtree root :=
  fun hb => h.ne (h.overlay_base.below_eq hb)

theorem Rooted.keeps (h : srv.Rooted root overlay) (hk : srv.Keeps srv') :
    srv'.Rooted root overlay :=
  ⟨hk.root.trans h.root_eq,hk.overlay.trans h.overlay_eq,h.ne,h.root_base.keeps hk,
    h.overlay_base.keeps hk⟩

theorem Rooted.created (h : srv.Rooted root overlay) (hf : srv.Forest) (client par : Option Ref)
    (layer : BitVec 32) (props : Props) (windows : List Ref) :
    Rooted { srv.created client par layer props with windows } root overlay :=
  ⟨h.root_eq,h.overlay_eq,h.ne,h.root_base.created hf client par layer props windows,
    h.overlay_base.created hf client par layer props windows⟩

theorem Rooted.removed (h : srv.Rooted root overlay) {r : Ref} (hr : r ≠ root) (ho : r ≠ overlay) :
    (srv.removed r).Rooted root overlay :=
  ⟨h.root_eq,h.overlay_eq,h.ne,h.root_base.removed hr,h.overlay_base.removed ho⟩

theorem empty_forest : Forest Server.empty :=
  ⟨List.nodup_nil,fun r => by simp [Server.empty],fun h => (by cases h),fun h => (by cases h),
    fun h => (by cases h),fun h => (by cases h)⟩

theorem created_base (srv : Server) (layer : BitVec 32) (props : Props) (windows : List Ref) :
    Base { srv.created none none layer props with windows } srv.fresh :=
  ⟨_,by simp only [Server.created,if_true]; rfl,rfl,rfl⟩

theorem svCreate_eq {w h : BitVec 32} (hret : svCreate w h = .ok srv) :
    srv.Forest ∧ srv.Rooted 0 1 ∧ srv.clients = [] ∧ srv.grabs = [] ∧ srv.removeQueue = [] ∧
      srv.inputFocus = some 1 ∧ ∀ r win, srv.window r = some win →
        win.client = none ∧ ∀ q, win.root = some q → q = 0 := by
  obtain ⟨srv₁,h₁,hret⟩ := Result.bind_eq_ok.mp hret
  obtain ⟨srv₂,h₂,hret⟩ := Result.bind_eq_ok.mp hret
  obtain rfl := Except.ok.inj hret
  obtain ⟨hpar,layer,windows,hperm,hk⟩ := svCreateWindow_keeps empty_forest h₁
  have hf₁ : srv₁.Forest := (empty_forest.created _ layer _ hpar hperm).keeps hk
  have hbase₁ : srv₁.Base 0 := Base.keeps (created_base Server.empty layer _ windows) hk
  have hf₁' : Forest { srv₁ with root := some 0 } :=
    ⟨hf₁.nodup,hf₁.listed,hf₁.fresh,hf₁.parent,hf₁.children,hf₁.distinct⟩
  obtain ⟨hpar',layer',windows',hperm',hk'⟩ := svCreateWindow_keeps hf₁' h₂
  have hf₂ : srv₂.Forest := (hf₁'.created _ layer' _ hpar' hperm').keeps hk'
  have hfresh : srv₁.fresh = 1 := hk.fresh
  have hbase₂ : srv₂.Base 1 :=
    hfresh ▸ Base.keeps (created_base { srv₁ with root := some 0 } layer' _ windows') hk'
  have hbase₁' : Base { srv₁ with root := some 0 } 0 := hbase₁
  have hbase₀ : srv₂.Base 0 := Base.keeps (hbase₁'.created hf₁' none none layer' _ windows') hk'
  refine ⟨⟨hf₂.nodup,hf₂.listed,hf₂.fresh,hf₂.parent,hf₂.children,hf₂.distinct⟩,
    ⟨hk'.root,rfl,by decide,hbase₀,hbase₂⟩,
    hk'.clients.trans hk.clients,hk'.grabs.trans hk.grabs,hk'.removeQueue.trans hk.removeQueue,?_,
    fun r win hr => ?_⟩
  · exact hk'.inputFocus.trans (congrArg some hfresh)
  · obtain ⟨win₂,hw₂,hlike⟩ := hk'.of_window_eq hr
    rw [hlike.client,hlike.root]
    by_cases hr' : r = srv₁.fresh
    · subst hr'
      simp only [Server.created,if_true] at hw₂
      obtain rfl := Option.some.inj hw₂
      exact ⟨rfl,fun q hq => (Option.some.inj hq).symm⟩
    · rw [@created_window { srv₁ with root := some 0 } none none layer' _ r hr'] at hw₂
      obtain ⟨old,hold,rfl⟩ := addChild_eq_some hw₂
      obtain ⟨win₁,hw₁,hlike₁⟩ := hk.of_window_eq hold
      simp only [hlike₁.client,hlike₁.root]
      by_cases hz : r = 0
      · subst hz
        obtain rfl := Option.some.inj hw₁
        exact ⟨rfl,fun q hq => by cases hq⟩
      · simp [Server.created,hz,Server.empty,addChild] at hw₁

end Server
end Compose
end ScalesOS
