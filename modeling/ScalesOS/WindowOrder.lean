import ScalesOS.ClientReaping
import ScalesOS.ListSort

/-!
# Siblings in order

Every list of children is sorted by `z`, whatever clients ask for: a call that changes a `z`
or adds a child sorts the list again, and all others leave the lists and the places alone.
-/

namespace ScalesOS
namespace Compose
namespace Server

def zOf (srv : Server) (r : Ref) : BitVec 32 :=
  match srv.window r with
  | some win => win.pos.z
  | none => 0

def level (srv : Server) (r : Ref) : ℤ := (srv.zOf r).toInt

/-- The children of a window are sorted. -/
def SortedAt (srv : Server) (x : Ref) : Prop :=
  ∀ win, srv.window x = some win → win.children.Pairwise (srv.level · ≤ srv.level ·)

structure Ordered (srv : Server) : Prop where
  forest : srv.Forest
  sorted : ∀ x, srv.SortedAt x

variable {srv srv' : Server}

theorem zOf_eq {r : Ref} {win : Window} (h : srv.window r = some win) : srv.zOf r = win.pos.z := by
  rw [zOf,h]

theorem foldlM_invariant {P : Server → Prop} {f : Server → Ref → Result Server} (windows : List Ref)
    (hstep : ∀ r ∈ windows, ∀ s t, P s → f s r = .ok t → P t) (hsrv : P srv)
    (hret : windows.foldlM f srv = .ok srv') : P srv' := by
  induction windows generalizing srv with
  | nil =>
    obtain rfl := Except.ok.inj hret
    exact hsrv
  | cons r windows ih =>
    obtain ⟨srv₁,h₁,hret⟩ := Result.bind_eq_ok.mp hret
    exact ih (fun a ha => hstep a (by simp [ha])) (hstep r (by simp) _ _ hsrv h₁) hret

theorem SortedAt.shrink (hf : srv'.Forest) {x : Ref} (h : srv.SortedAt x)
    (hshrink : ∀ {a win'}, srv'.window a = some win' →
      ∃ win, srv.window a = some win ∧ win'.pos.z = win.pos.z ∧
      win'.children.Sublist win.children) :
    srv'.SortedAt x := by
  intro win' hx
  obtain ⟨win,hw,-,hsub⟩ := hshrink hx
  refine ((h _ hw).sublist hsub).imp_of_mem fun {a b} ha hb hle => ?_
  have hkept : ∀ c ∈ win'.children, srv'.level c = srv.level c := fun c hc => by
    obtain ⟨child,hchild,-⟩ := hf.children hx hc
    obtain ⟨old,hold,hz,-⟩ := hshrink hchild
    rw [level,level,zOf_eq hchild,zOf_eq hold,hz]
  rwa [hkept a ha,hkept b hb]

theorem Ordered.of_window (h : srv.Ordered) (hf : srv'.Forest)
    (hwindow : srv'.window = srv.window) :
    srv'.Ordered :=
  ⟨hf,fun x => (h.sorted x).shrink hf fun hx => ⟨_,hwindow ▸ hx,rfl,.refl _⟩⟩

theorem Ordered.store (h : srv.Ordered) {r : Ref} {win win' : Window} (hr : srv.window r = some win)
    (hlike : win.Like win') (hz : win'.pos.z = win.pos.z)
    (hchildren : win'.children = win.children) :
    (srv.store r win').Ordered := by
  have hf := h.forest.keeps (.store hr hlike)
  refine ⟨hf,fun x => (h.sorted x).shrink hf fun {a w} ha => ?_⟩
  by_cases he : a = r
  · subst he
    simp only [Server.store,Function.update_self,Option.some.injEq] at ha
    subst ha
    exact ⟨win,hr,hz,hchildren ▸ .refl _⟩
  · simp only [Server.store,Function.update_of_ne he] at ha
    exact ⟨w,ha,rfl,.refl _⟩

theorem svEventSend_window {cli : Ref} {event : Event}
    (hret : srv.svEventSend cli event = .ok srv') :
    srv'.window = srv.window := by
  obtain ⟨-,-,hret⟩ := Result.bind_eq_ok.mp hret
  obtain rfl := Except.ok.inj hret
  rfl

theorem sendTo_window {cli : Option Ref} {event : Event} (hret : srv.sendTo cli event = .ok srv') :
    srv'.window = srv.window := by
  cases cli with
  | none =>
    obtain rfl := Except.ok.inj hret
    rfl
  | some cli => exact svEventSend_window hret

theorem eventPropagate_window {fuel : ℕ} {root : Ref} {event : Event}
    (hret : eventPropagate fuel srv root event = .ok srv') : srv'.window = srv.window := by
  induction fuel generalizing srv root event with
  | zero => cases hret
  | succ fuel ih =>
    obtain ⟨win,-,hret⟩ := Result.bind_eq_ok.mp hret
    obtain ⟨gr,-,hret⟩ := Result.bind_eq_ok.mp hret
    obtain ⟨srv₁,h₁,hret⟩ := Result.bind_eq_ok.mp hret
    obtain ⟨srv₂,h₂,hret⟩ := Result.bind_eq_ok.mp hret
    rw [← sendTo_window h₁,← sendTo_window h₂]
    split at hret
    · exact ih hret
    · obtain rfl := Except.ok.inj hret
      rfl

theorem sendFocus_window {type : BitVec 64} {win : Option Ref}
    (hret : srv.sendFocus type win = .ok srv') :
    srv'.window = srv.window := by
  cases win with
  | none =>
    obtain rfl := Except.ok.inj hret
    rfl
  | some r =>
    obtain ⟨win,-,hret⟩ := Result.bind_eq_ok.mp hret
    obtain ⟨root,-,hret⟩ := Result.bind_eq_ok.mp hret
    exact eventPropagate_window hret

theorem svFocus_window {win : Option Ref} (hret : srv.svFocus win = .ok srv') :
    srv'.window = srv.window := by
  obtain ⟨srv₁,h₁,hret⟩ := Result.bind_eq_ok.mp hret
  have hfirst := sendFocus_window h₁
  have hlast : srv'.window = { srv₁ with inputFocus := win <|> srv₁.root }.window :=
    sendFocus_window hret
  exact hlast.trans hfirst

theorem announce_window {r : Ref} {client : Option Ref} (hret : srv.announce r client = .ok srv') :
    srv'.window = srv.window := by
  cases client with
  | none =>
    obtain rfl := Except.ok.inj hret
    rfl
  | some cli =>
    obtain ⟨win,-,hret⟩ := Result.bind_eq_ok.mp hret
    obtain ⟨root,-,hret⟩ := Result.bind_eq_ok.mp hret
    obtain ⟨srv₁,h₁,hret⟩ := Result.bind_eq_ok.mp hret
    exact (eventPropagate_window hret).trans (svEventSend_window h₁)

theorem sortWindows_resorted {windows sorted : List Ref}
    (hret : srv.sortWindows sortByZ windows = .ok sorted) :
    Resorted srv.level windows sorted := by
  rw [sortWindows] at hret
  split at hret
  · rename_i hall
    obtain rfl := Except.ok.inj hret
    refine listSort_resorted fun a ha b hb => ?_
    obtain ⟨wa,hwa⟩ := Option.isSome_iff_exists.mp (List.all_eq_true.mp hall a ha)
    obtain ⟨wb,hwb⟩ := Option.isSome_iff_exists.mp (List.all_eq_true.mp hall b hb)
    simp only [hwa,hwb,level,zOf_eq hwa,zOf_eq hwb,sortByZ,BitVec.slt_iff_toInt_lt]
  · cases hret

theorem Restacked.zOf (h : srv.Restacked srv') : srv'.zOf = srv.zOf := by
  funext r
  cases hr : srv.window r with
  | none =>
    have hrel := h.keeps.window r
    rw [hr] at hrel
    generalize hr' : srv'.window r = o at hrel
    cases hrel
    rw [Server.zOf,Server.zOf,hr,hr']
  | some win =>
    obtain ⟨children,hr'⟩ := h.window hr
    rw [zOf_eq hr,zOf_eq hr']

theorem Restacked.level (h : srv.Restacked srv') : srv'.level = srv.level := by
  funext r
  rw [Server.level,Server.level,h.zOf]

theorem store_restacked {par : Ref} {win : Window} {children : List Ref}
    (hpar : srv.window par = some win)
    (hperm : children.Perm win.children) : srv.Restacked (srv.store par { win with children }) := by
  refine ⟨.store hpar ⟨rfl,rfl,rfl,rfl,rfl,hperm⟩,fun {r old} hr => ?_⟩
  by_cases he : r = par
  · subst he
    obtain rfl := Option.some.inj (hr.symm.trans hpar)
    exact ⟨children,by simp [Server.store]⟩
  · exact ⟨old.children,by simp [Server.store,Function.update_of_ne he,hr]⟩

theorem restack_sorts {fuel : ℕ} {par x : Ref} (hret : restack fuel srv par = .ok srv')
    (hx : x = par ∨ srv.SortedAt x) :
    srv'.SortedAt x := by
  induction fuel generalizing srv srv' par with
  | zero => cases hret
  | succ fuel ih =>
    obtain ⟨win,hwin,hret⟩ := Result.bind_eq_ok.mp hret
    obtain ⟨children,hsort,hret⟩ := Result.bind_eq_ok.mp hret
    have hre := sortWindows_resorted hsort
    have hlevel := (store_restacked (window_of_deref hwin) hre.perm).level
    refine foldlM_invariant (P:=(·.SortedAt x)) children (fun c _ s t hs ht =>
      ih ht (.inr hs)) ?_ hret
    intro old hold
    rw [hlevel]
    by_cases he : x = par
    · subst he
      simp only [Server.store,Function.update_self,Option.some.injEq] at hold
      subst hold
      exact hre.sorted
    · simp only [Server.store,Function.update_of_ne he] at hold
      exact hx.resolve_left he _ hold

theorem restack_low (hf : srv.Forest) {fuel : ℕ} {par x : Ref} (hx : x < par)
    (hret : restack fuel srv par = .ok srv') :
    srv'.window x = srv.window x := by
  induction fuel generalizing srv srv' par with
  | zero => cases hret
  | succ fuel ih =>
    obtain ⟨win,hwin,hret⟩ := Result.bind_eq_ok.mp hret
    obtain ⟨children,hsort,hret⟩ := Result.bind_eq_ok.mp hret
    have hpar := window_of_deref hwin
    have hperm := (sortWindows_resorted hsort).perm
    have hstore := (store_restacked hpar hperm).keeps
    have hloop := foldlM_invariant (P:=fun s => srv.Keeps s ∧ s.window x = srv.window x) children
      (fun c hc s t hs ht => ⟨hs.1.trans (restack_keeps ht),?_⟩) ⟨hstore,?_⟩ hret
    · exact hloop.2
    · obtain ⟨child,hchild,hp⟩ := hf.children hpar (hperm.mem_iff.mp hc)
      exact (ih (hf.keeps hs.1) (hx.trans (hf.parent hchild hp).1) ht).trans hs.2
    · simp only [Server.store,Function.update_of_ne hx.ne]

theorem restack_par (hf : srv.Forest) {fuel : ℕ} {par : Ref} {win : Window}
    (hpar : srv.window par = some win) (hret : restack fuel srv par = .ok srv') :
    ∃ children, srv'.window par = some { win with children } ∧
        Resorted srv.level win.children children := by
  cases fuel with
  | zero => cases hret
  | succ fuel =>
    obtain ⟨_,hwin,hret⟩ := Result.bind_eq_ok.mp hret
    obtain rfl := Except.ok.inj ((deref_some hpar).symm.trans hwin)
    obtain ⟨children,hsort,hret⟩ := Result.bind_eq_ok.mp hret
    have hre := sortWindows_resorted hsort
    have hstore := (store_restacked hpar hre.perm).keeps
    refine ⟨children,?_,hre⟩
    have hloop :=
      foldlM_invariant (P:=fun s =>
        srv.Keeps s ∧ s.window par = some { win with children }) children
      (fun c hc s t hs ht => ⟨hs.1.trans (restack_keeps ht),?_⟩) ⟨hstore,?_⟩ hret
    · exact hloop.2
    · obtain ⟨child,hchild,hp⟩ := hf.children hpar (hre.perm.mem_iff.mp hc)
      exact (restack_low (hf.keeps hs.1) (hf.parent hchild hp).1 ht).trans hs.2
    · simp only [Server.store,Function.update_self]

/-- A window at another place: only the siblings it is one of may be out of order. -/
theorem store_sortedAt (h : srv.Ordered) {r : Ref} {win : Window} (hr : srv.window r = some win)
    (pos : Position) {x : Ref} (hx : pos.z = win.pos.z ∨ win.parent ≠ some x) :
    (srv.store r { win with pos }).SortedAt x := by
  intro old hold
  obtain ⟨old',hold',hchildren⟩ :
      ∃ old', srv.window x = some old' ∧ old.children = old'.children := by
    by_cases he : x = r
    · subst he
      simp only [Server.store,Function.update_self,Option.some.injEq] at hold
      exact ⟨win,hr,by rw [← hold]⟩
    · simp only [Server.store,Function.update_of_ne he] at hold
      exact ⟨old,hold,rfl⟩
  rw [hchildren]
  refine (h.sorted x _ hold').imp_of_mem fun {a b} ha hb hle => ?_
  have hkept :
      ∀ c ∈ old'.children, (srv.store r { win with pos }).level c = srv.level c := fun c hc => by
    rw [level,level,zOf,zOf]
    by_cases he : c = r
    · subst he
      obtain ⟨child,hchild,hp⟩ := h.forest.children hold' hc
      obtain rfl := Option.some.inj (hr.symm.trans hchild)
      simp [Server.store,hr,hx.resolve_right (absurd hp)]
    · simp only [Server.store,Function.update_of_ne he]
  rwa [hkept a ha,hkept b hb]

theorem restackParent_sorts {win : Window} (hret : srv.restackParent win = .ok srv') {x : Ref}
    (hx : win.parent = some x ∨ srv.SortedAt x) : srv'.SortedAt x := by
  rw [restackParent] at hret
  cases hp : win.parent with
  | none =>
    rw [hp] at hret hx
    obtain rfl := Except.ok.inj hret
    exact hx.resolve_left (by simp)
  | some par =>
    rw [hp] at hret hx
    exact restack_sorts hret (hx.imp_left fun h => (Option.some.inj h).symm)

theorem when_invariant {P : Server → Prop} {condition : Bool} {f : Server → Result Server}
    (hf : ∀ t, f srv = .ok t → P t) (hsrv : P srv)
    (hret : when condition f srv = .ok srv') : P srv' := by
  rw [when] at hret
  split at hret
  · exact hf _ hret
  · obtain rfl := Except.ok.inj hret
    exact hsrv

theorem moved_ordered (h : srv.Ordered) {r : Ref} {win : Window} (hr : srv.window r = some win)
    {pos : Position} {condition : Bool} (hpos : condition = false → pos.z = win.pos.z)
    (hret : when condition (fun srv => srv.restackParent win) (srv.store r { win with pos }) =
      .ok srv') :
    srv'.Ordered := by
  have hf : (srv.store r { win with pos }).Forest :=
    h.forest.keeps (.store hr ⟨rfl,rfl,rfl,rfl,rfl,.refl _⟩)
  cases condition with
  | false =>
    obtain rfl := Except.ok.inj hret
    exact ⟨hf,fun a => store_sortedAt h hr _ (.inl (hpos rfl))⟩
  | true =>
    refine ⟨hf.keeps (restackParent_keeps hret),fun a => restackParent_sorts hret ?_⟩
    by_cases ha : win.parent = some a
    · exact .inl ha
    · exact .inr (store_sortedAt h hr _ (.inr ha))

theorem moveWith_ordered {raise : Server → Ref → Result Server}
    (hraise : ∀ {s r t}, s.Ordered → raise s r = .ok t → t.Ordered) (h : srv.Ordered) {r : Ref}
    {x y z : BitVec 32}
    {mask : BitVec 8} (hret : moveWith raise srv r x y z mask = .ok srv') : srv'.Ordered := by
  obtain ⟨win,hwin,hret⟩ := Result.bind_eq_ok.mp hret
  have hr := window_of_deref hwin
  split at hret
  · obtain rfl := Except.ok.inj hret
    exact h
  · obtain ⟨srv₁,h₁,hret⟩ := Result.bind_eq_ok.mp hret
    obtain ⟨srv₂,h₂,hret⟩ := Result.bind_eq_ok.mp hret
    obtain ⟨srv₃,h₃,hret⟩ := Result.bind_eq_ok.mp hret
    obtain ⟨moved,-,hret⟩ := Result.bind_eq_ok.mp hret
    have ho₁ := moved_ordered h hr (fun hz => if_neg (of_decide_eq_false hz)) h₁
    have ho₂ := when_invariant (P:=Ordered) (fun _ ht => hraise ho₁ ht) ho₁ h₂
    have ho₃ := when_invariant (P:=Ordered) (fun _ ht => hraise ho₂ ht) ho₂ h₃
    exact ho₃.of_window (ho₃.forest.keeps (sendTo_keeps hret)) (sendTo_window hret)

theorem svRaise_ordered (h : srv.Ordered) {r : Ref} (hret : srv.svRaise r = .ok srv') :
    srv'.Ordered := by
  obtain ⟨win,-,hret⟩ := Result.bind_eq_ok.mp hret
  split at hret
  · obtain rfl := Except.ok.inj hret
    exact h
  · obtain ⟨par,-,hret⟩ := Result.bind_eq_ok.mp hret
    split at hret
    · obtain rfl := Except.ok.inj hret
      exact h
    · obtain ⟨top,-,hret⟩ := Result.bind_eq_ok.mp hret
      refine moveWith_ordered (fun {s _ t} hs ht => ?_) h hret
      obtain rfl := Except.ok.inj ht
      exact hs

theorem svMove_ordered (h : srv.Ordered) {r : Ref} {x y z : BitVec 32} {mask : BitVec 8}
    (hret : srv.svMove r x y z mask = .ok srv') : srv'.Ordered :=
  moveWith_ordered (fun hs ht => svRaise_ordered hs ht) h hret

theorem svCreateWindow_forest (hf : srv.Forest) {client par : Option Ref} {props : Props}
    (hret : srv.svCreateWindow client par props = .ok srv') : srv'.Forest := by
  obtain ⟨hpar,layer,windows,hperm,hk⟩ := svCreateWindow_keeps hf hret
  exact (hf.created _ layer _ hpar hperm).keeps hk

theorem placed_sortedAt (h : srv.Ordered) (client par : Option Ref) (layer : BitVec 32)
    (props : Props) (x : Ref) :
    (srv.placed client par layer props).SortedAt x := by
  intro win hx
  by_cases he : x = srv.fresh
  · subst he
    simp only [placed,Server.store,Function.update_self,Option.some.injEq] at hx
    subst hx
    exact List.Pairwise.nil
  · simp only [placed,Server.store,Function.update_of_ne he] at hx
    refine (h.sorted x _ hx).imp_of_mem fun {a b} ha hb hle => ?_
    have hkept :
        ∀ c ∈ win.children, (srv.placed client par layer props).level c =
            srv.level c := fun c hc => by
      obtain ⟨child,hchild,-⟩ := h.forest.children hx hc
      simp only [level,zOf,placed,Server.store,Function.update_of_ne (h.forest.fresh hchild).ne]
    rwa [hkept a ha,hkept b hb]

theorem linkChild_sorts {r : Ref} {par : Option Ref} (hsorted : ∀ x, srv.SortedAt x)
    (hret : srv.linkChild r par = .ok srv') (x : Ref) : srv'.SortedAt x := by
  cases par with
  | none =>
    obtain rfl := Except.ok.inj hret
    exact hsorted x
  | some par =>
    obtain ⟨win,hwin,hret⟩ := Result.bind_eq_ok.mp hret
    have hpar := window_of_deref hwin
    by_cases he : x = par
    · exact restack_sorts hret (.inl he)
    · refine restack_sorts hret (.inr fun old hold => ?_)
      have hlevel :
          (srv.store par { win with children := win.children++[r] }).level = srv.level := by
        funext a
        rw [level,level,zOf,zOf]
        by_cases ha : a = par
        · subst ha
          simp only [Server.store,Function.update_self,hpar]
        · simp only [Server.store,Function.update_of_ne ha]
      rw [hlevel]
      simp only [Server.store,Function.update_of_ne he] at hold
      exact hsorted x _ hold

theorem svCreateWindow_ordered (h : srv.Ordered) {client par : Option Ref} {props : Props}
    (hret : srv.svCreateWindow client par props = .ok srv') : srv'.Ordered := by
  have hf := svCreateWindow_forest h.forest hret
  obtain ⟨layer,-,hret⟩ := Result.bind_eq_ok.mp hret
  obtain ⟨srv₁,h₁,hret⟩ := Result.bind_eq_ok.mp hret
  obtain ⟨windows,-,hret⟩ := Result.bind_eq_ok.mp hret
  obtain ⟨srv₂,h₂,hret⟩ := Result.bind_eq_ok.mp hret
  have hsorted := linkChild_sorts (placed_sortedAt h client par layer props) h₁
  have hannounce := announce_window h₂
  have hwindow : srv'.window = srv₁.window := (svFocus_window hret).trans hannounce
  exact ⟨hf,fun x => (hsorted x).shrink hf fun hx => ⟨_,hwindow ▸ hx,rfl,.refl _⟩⟩

theorem svRemoveWindow_ordered (h : srv.Ordered) {r : Ref}
    (hret : srv.svRemoveWindow r true = .ok srv') :
    srv'.Ordered := by
  obtain ⟨win,hw⟩ : ∃ win, srv.window r = some win := by
    rw [svRemoveWindow] at hret
    cases hfresh : srv.fresh with
    | zero => simp only [hfresh,removeWindow] at hret; cases hret
    | succ fuel =>
      rw [hfresh] at hret
      obtain ⟨win,hwin,-⟩ := Result.bind_eq_ok.mp hret
      exact ⟨win,window_of_deref hwin⟩
  rw [svRemoveWindow_eq h.forest hw] at hret
  obtain rfl := Except.ok.inj hret
  refine ⟨h.forest.removed r,fun x => (h.sorted x).shrink (h.forest.removed r) fun hx => ?_⟩
  obtain ⟨-,old,hold,rfl⟩ := removed_window.mp hx
  exact ⟨old,hold,rfl,List.erase_sublist⟩

theorem resized_ordered (h : srv.Ordered) {r : Ref} {win : Window} (hr : srv.window r = some win)
    {stage : BitVec 8} {w height : BitVec 32}
    (hret : srv.resized r (handleResize win stage w height) = .ok srv') :
    srv'.Ordered := by
  have hsame : (handleResize win stage w height).1.pos = win.pos ∧
      (handleResize win stage w height).1.children = win.children := by
    simp only [handleResize,svStartResize,svApplySize]
    grind
  have hstore := h.store hr (handleResize_like win stage w height) (by rw [hsame.1]) hsame.2
  rw [resized] at hret
  split at hret
  · exact hstore.of_window (hstore.forest.keeps (sendTo_keeps hret)) (sendTo_window hret)
  · obtain rfl := Except.ok.inj hret
    exact hstore

theorem Ordered.congr (h : srv.Ordered) (hwindow : srv'.window = srv.window)
    (hwindows : srv'.windows = srv.windows) (hfresh : srv.fresh ≤ srv'.fresh) : srv'.Ordered := by
  refine h.of_window ⟨hwindows ▸ h.forest.nodup,fun r => ?_,fun hr => ?_,fun hr hp => ?_,
    fun hr hc => ?_,fun hr => ?_⟩
    hwindow
  · rw [hwindows,hwindow]
    exact h.forest.listed r
  · exact (h.forest.fresh (hwindow ▸ hr)).trans_le hfresh
  · rw [hwindow] at hr ⊢
    exact h.forest.parent hr hp
  · rw [hwindow] at hr ⊢
    exact h.forest.children hr hc
  · rw [hwindow] at hr
    exact h.forest.distinct hr

theorem svEventSend_ordered (h : srv.Ordered) {cli : Ref} {event : Event}
    (hret : srv.svEventSend cli event = .ok srv') : srv'.Ordered :=
  h.of_window (h.forest.keeps (svEventSend_keeps hret)) (svEventSend_window hret)

theorem svFocus_ordered (h : srv.Ordered) {win : Option Ref} (hret : srv.svFocus win = .ok srv') :
    srv'.Ordered := by
  have hk := svFocus_keeps hret
  exact h.congr (svFocus_window hret) hk.windows hk.fresh.ge

theorem withWindow_ordered (h : srv.Ordered) {id : Id} {f : Ref → Result Server}
    (hf : ∀ r, f r = .ok srv' → srv'.Ordered) (hret : srv.withWindow id f = .ok srv') :
    srv'.Ordered := by
  obtain ⟨win,-,hret⟩ := Result.bind_eq_ok.mp hret
  cases win with
  | none =>
    obtain rfl := Except.ok.inj hret
    exact h
  | some r => exact hf r hret

theorem svHandleRequest_ordered (h : srv.Ordered) {cli : Ref} {req : Request}
    (hret : srv.svHandleRequest cli req = .ok srv') : srv'.Ordered := by
  cases req with
  | move win flags x y z => exact withWindow_ordered h (fun r hr => svMove_ordered h hr) hret
  | resize win stage w height =>
    refine withWindow_ordered h (fun r hr => ?_) hret
    obtain ⟨win,hwin,hr⟩ := Result.bind_eq_ok.mp hr
    exact resized_ordered h (window_of_deref hwin) hr
  | event target event =>
    rw [svHandleRequest] at hret
    split at hret
    · exact foldlM_invariant (P:=Ordered) srv.clients (fun _ _ s t hs ht =>
        svEventSend_ordered hs ht) h hret
    · obtain ⟨trg,-,hret⟩ := Result.bind_eq_ok.mp hret
      exact h.of_window (h.forest.keeps (sendTo_keeps hret)) (sendTo_window hret)
  | newwin parent props =>
    obtain ⟨par,-,hret⟩ := Result.bind_eq_ok.mp hret
    exact svCreateWindow_ordered h hret
  | evmask win mask =>
    refine withWindow_ordered h (fun r hr => ?_) hret
    obtain ⟨win,hwin,hr⟩ := Result.bind_eq_ok.mp hr
    obtain rfl := Except.ok.inj hr
    exact h.store (window_of_deref hwin) ⟨rfl,rfl,rfl,rfl,rfl,.refl _⟩ rfl rfl
  | grab win type =>
    obtain ⟨window,-,hret⟩ := Result.bind_eq_ok.mp hret
    obtain rfl := Except.ok.inj hret
    exact h.congr rfl rfl le_rfl
  | focus win =>
    obtain ⟨win,-,hret⟩ := Result.bind_eq_ok.mp hret
    exact svFocus_ordered h hret
  | disconnect =>
    obtain rfl := Except.ok.inj hret
    exact h.congr rfl rfl le_rfl
  | props win =>
    obtain ⟨win,-,hret⟩ := Result.bind_eq_ok.mp hret
    obtain ⟨w,-,hret⟩ := Result.bind_eq_ok.mp hret
    obtain ⟨root,-,hret⟩ := Result.bind_eq_ok.mp hret
    exact svEventSend_ordered h hret
  | keepalive =>
    obtain rfl := Except.ok.inj hret
    exact h

theorem svDisconnect_ordered (h : srv.Ordered) {cli : Ref}
    (hret : srv.svDisconnect cli = .ok srv') : srv'.Ordered := by
  obtain ⟨owned,-,hret⟩ := Result.bind_eq_ok.mp hret
  obtain ⟨s,hloop,hret⟩ := Result.bind_eq_ok.mp hret
  obtain ⟨-,-,hret⟩ := Result.bind_eq_ok.mp hret
  obtain rfl := Except.ok.inj hret
  have hstart : Ordered { srv with clients := srv.clients.erase cli } := h.congr rfl rfl le_rfl
  have hs :=
    foldlM_invariant (P:=Ordered) owned (fun _ _ _ _ hs ht =>
      svRemoveWindow_ordered hs ht) hstart hloop
  exact hs.congr rfl rfl le_rfl

theorem perform_ordered (h : srv.Ordered) {action : Action}
    (hret : srv.perform action = .ok srv') : srv'.Ordered := by
  cases action with
  | accept =>
    obtain ⟨root,-,hret⟩ := Result.bind_eq_ok.mp hret
    obtain ⟨overlay,-,hret⟩ := Result.bind_eq_ok.mp hret
    refine svEventSend_ordered ?_ hret
    exact h.congr rfl rfl (Nat.le_succ _)
  | request cli req => exact svHandleRequest_ordered h hret
  | reap =>
    rw [perform,reap] at hret
    split at hret
    · refine svDisconnect_ordered ?_ hret
      exact h.congr rfl rfl le_rfl
    · obtain rfl := Except.ok.inj hret
      exact h
  | keepalive unreachable =>
    obtain ⟨s,hloop,hret⟩ := Result.bind_eq_ok.mp hret
    refine foldlM_invariant (P:=Ordered) _ (fun _ _ _ _ hs ht => svDisconnect_ordered hs ht) ?_ hret
    refine foldlM_invariant (P:=Ordered) _ (fun _ _ _ t hs ht => ?_) h hloop
    rw [sendKeepalive] at ht
    split at ht
    · obtain ⟨-,-,ht⟩ := Result.bind_eq_ok.mp ht
      obtain rfl := Except.ok.inj ht
      exact hs
    · exact svEventSend_ordered hs ht

theorem svCreate_ordered {w height : BitVec 32} (hret : svCreate w height = .ok srv) :
    srv.Ordered := by
  obtain ⟨srv₁,h₁,hret⟩ := Result.bind_eq_ok.mp hret
  obtain ⟨srv₂,h₂,hret⟩ := Result.bind_eq_ok.mp hret
  obtain rfl := Except.ok.inj hret
  have hempty : Server.empty.Ordered := ⟨empty_forest,fun x win hx => by cases hx⟩
  have ho₁ := svCreateWindow_ordered hempty h₁
  have hroot : Ordered { srv₁ with root := some 0 } := ho₁.congr rfl rfl le_rfl
  exact (svCreateWindow_ordered hroot h₂).congr rfl rfl le_rfl

theorem siblings_sorted {condition : Server → Action → Prop} {w height : BitVec 32} {start : Server}
    (hstart : svCreate w height = .ok start)
    (hrun : Relation.ReflTransGen (Performs condition) start srv) :
    srv.Ordered :=
  reach_invariant (I:=Ordered) (fun _ _ hs ⟨_,_,_,hret⟩ =>
    perform_ordered hs hret) (svCreate_ordered hstart) hrun

end Server
end Compose
end ScalesOS
