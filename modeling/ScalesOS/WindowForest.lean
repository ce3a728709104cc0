import ScalesOS.Compositor

/-!
# The window forest

Which of the compositor's structures each call changes. Events, moves, restacking and
resizing keep the objects, the lists and the links between windows; only the order of
siblings changes. A new window hangs below its parent.
-/

namespace ScalesOS
namespace Compose

theorem listSort_perm {α : Type} (predicate : α → α → Bool) (list : List α) :
    (listSort predicate list).Perm list := by
  have hfold : ∀ rest sorted : List α,
      (rest.foldl (fun sorted key =>
        sorted.rdropWhile (predicate · key)++key::sorted.rtakeWhile (predicate · key))
        sorted).Perm (sorted++rest) := by
    intro rest
    induction rest with
    | nil => simp
    | cons key rest ih =>
      intro sorted
      refine (ih _).trans ?_
      have hround :
        (sorted.rdropWhile (predicate · key)++key::sorted.rtakeWhile (predicate · key)).Perm
          (sorted++[key]) := by
        refine List.perm_middle.trans ((List.perm_append_singleton key _).symm.trans ?_)
        rw [List.rdropWhile_append_rtakeWhile]
      simpa using hround.append_right rest
  simpa only [listSort,List.nil_append] using hfold list []

/-- The same window, up to its place, its size and the order of its children. -/
structure Window.Like (win win' : Window) : Prop where
  id : win'.id = win.id
  client : win'.client = win.client
  parent : win'.parent = win.parent
  root : win'.root = win.root
  layer : win'.layer = win.layer
  children : win'.children.Perm win.children

theorem Window.Like.refl (win : Window) : win.Like win := ⟨rfl,rfl,rfl,rfl,rfl,.refl _⟩

theorem Window.Like.trans {a b c : Window} (h : a.Like b) (h' : b.Like c) : a.Like c :=
  ⟨h'.id.trans h.id,h'.client.trans h.client,h'.parent.trans h.parent,h'.root.trans h.root,
    h'.layer.trans h.layer,h'.children.trans h.children⟩

namespace Server

/-- The same objects, and all lists but the children lists as they were. -/
structure Keeps (srv srv' : Server) : Prop where
  clientId : srv'.clientId = srv.clientId
  windowId : srv'.windowId = srv.windowId
  root : srv'.root = srv.root
  overlay : srv'.overlay = srv.overlay
  clients : srv'.clients = srv.clients
  removeQueue : srv'.removeQueue = srv.removeQueue
  windows : srv'.windows = srv.windows
  grabs : srv'.grabs = srv.grabs
  inputFocus : srv'.inputFocus = srv.inputFocus
  client : srv'.client = srv.client
  fresh : srv'.fresh = srv.fresh
  window : ∀ r, Option.Rel Window.Like (srv.window r) (srv'.window r)

variable {srv srv' srv'' : Server}

theorem rel_refl (w : Option Window) : Option.Rel Window.Like w w := by
  cases w with
  | none => exact .none
  | some w => exact .some (.refl w)

theorem Keeps.refl (srv : Server) : srv.Keeps srv :=
  ⟨rfl,rfl,rfl,rfl,rfl,rfl,rfl,rfl,rfl,rfl,rfl,fun _ => rel_refl _⟩

theorem Keeps.trans (h : srv.Keeps srv') (h' : srv'.Keeps srv'') : srv.Keeps srv'' where
  clientId := h'.clientId.trans h.clientId
  windowId := h'.windowId.trans h.windowId
  root := h'.root.trans h.root
  overlay := h'.overlay.trans h.overlay
  clients := h'.clients.trans h.clients
  removeQueue := h'.removeQueue.trans h.removeQueue
  windows := h'.windows.trans h.windows
  grabs := h'.grabs.trans h.grabs
  inputFocus := h'.inputFocus.trans h.inputFocus
  client := h'.client.trans h.client
  fresh := h'.fresh.trans h.fresh
  window r := by
    have h1 := h.window r
    have h2 := h'.window r
    generalize srv.window r = a at *
    generalize srv'.window r = b at *
    generalize srv''.window r = c at *
    cases h1 with
    | none => exact h2
    | some hab => cases h2 with
      | some hbc => exact .some (hab.trans hbc)

theorem Keeps.window_eq (h : srv.Keeps srv') {r : Ref} {win : Window}
    (hr : srv.window r = some win) :
    ∃ win', srv'.window r = some win' ∧ win.Like win' := by
  have hrel := h.window r
  rw [hr] at hrel
  generalize srv'.window r = o at hrel
  cases hrel with
  | some hlike => exact ⟨_,rfl,hlike⟩

theorem Keeps.of_window_eq (h : srv.Keeps srv') {r : Ref} {win' : Window}
    (hr : srv'.window r = some win') :
    ∃ win, srv.window r = some win ∧ win.Like win' := by
  have hrel := h.window r
  rw [hr] at hrel
  generalize srv.window r = o at hrel
  cases hrel with
  | some hlike => exact ⟨_,rfl,hlike⟩

theorem deref_eq_ok {r : Option Ref} {win : Window} :
    srv.deref r = .ok win ↔ ∃ a, r = some a ∧ srv.window a = some win := by
  cases r with
  | none => simp [deref,throw,throwThe,MonadExceptOf.throw]
  | some a =>
    simp only [deref,Option.some.injEq,exists_eq_left']
    cases srv.window a with
    | none => simp [throw,throwThe,MonadExceptOf.throw]
    | some w => simp [pure,Except.pure]

theorem deref_some {r : Ref} {win : Window} (h : srv.window r = some win) :
    srv.deref (some r) = .ok win :=
  deref_eq_ok.mpr ⟨r,rfl,h⟩

theorem window_of_deref {r : Ref} {win : Window} (h : srv.deref (some r) = .ok win) :
    srv.window r = some win := by
  obtain ⟨a,ha,hw⟩ := deref_eq_ok.mp h
  cases ha
  exact hw

theorem Keeps.store {r : Ref} {win win' : Window} (hr : srv.window r = some win)
    (hlike : win.Like win') :
    srv.Keeps (srv.store r win') := by
  refine ⟨rfl,rfl,rfl,rfl,rfl,rfl,rfl,rfl,rfl,rfl,rfl,fun a => ?_⟩
  by_cases ha : a = r
  · subst ha
    simp only [Server.store,Function.update_self,hr]
    exact .some hlike
  · simp only [Server.store,Function.update_of_ne ha]
    exact rel_refl _

theorem svEventSend_keeps {cli : Ref} {event : Event}
    (hret : srv.svEventSend cli event = .ok srv') :
    srv.Keeps srv' := by
  obtain ⟨-,-,hret⟩ := Result.bind_eq_ok.mp hret
  obtain rfl := Except.ok.inj hret
  exact ⟨rfl,rfl,rfl,rfl,rfl,rfl,rfl,rfl,rfl,rfl,rfl,fun _ => rel_refl _⟩

theorem sendTo_keeps {cli : Option Ref} {event : Event} (hret : srv.sendTo cli event = .ok srv') :
    srv.Keeps srv' := by
  cases cli with
  | none =>
    obtain rfl := Except.ok.inj hret
    exact .refl _
  | some cli => exact svEventSend_keeps hret

theorem eventPropagate_keeps {fuel : ℕ} {root : Ref} {event : Event}
    (hret : eventPropagate fuel srv root event = .ok srv') : srv.Keeps srv' := by
  induction fuel generalizing srv root event with
  | zero => cases hret
  | succ fuel ih =>
    obtain ⟨win,-,hret⟩ := Result.bind_eq_ok.mp hret
    obtain ⟨gr,-,hret⟩ := Result.bind_eq_ok.mp hret
    obtain ⟨srv₁,h₁,hret⟩ := Result.bind_eq_ok.mp hret
    obtain ⟨srv₂,h₂,hret⟩ := Result.bind_eq_ok.mp hret
    refine (sendTo_keeps h₁).trans ((sendTo_keeps h₂).trans ?_)
    split at hret
    · exact ih hret
    · obtain rfl := Except.ok.inj hret
      exact .refl _

theorem sendFocus_keeps {type : BitVec 64} {win : Option Ref}
    (hret : srv.sendFocus type win = .ok srv') :
    srv.Keeps srv' := by
  cases win with
  | none =>
    obtain rfl := Except.ok.inj hret
    exact .refl _
  | some r =>
    obtain ⟨win,-,hret⟩ := Result.bind_eq_ok.mp hret
    obtain ⟨root,-,hret⟩ := Result.bind_eq_ok.mp hret
    exact eventPropagate_keeps hret

theorem svFocus_keeps {win : Option Ref} (hret : srv.svFocus win = .ok srv') :
    { srv with inputFocus := win <|> srv.root }.Keeps srv' := by
  obtain ⟨srv₁,h₁,hret⟩ := Result.bind_eq_ok.mp hret
  have hk := sendFocus_keeps h₁
  have hk' := sendFocus_keeps hret
  rw [hk.root] at hk'
  have hfocus :
      { srv with inputFocus := win <|> srv.root }.Keeps
      { srv₁ with inputFocus := win <|> srv.root } :=
    ⟨hk.clientId,hk.windowId,hk.root,hk.overlay,hk.clients,hk.removeQueue,hk.windows,
      hk.grabs,rfl,hk.client,hk.fresh,hk.window⟩
  refine hfocus.trans ?_
  convert hk' using 2
  exact hk.root

theorem sortWindows_eq {predicate : Window → Window → Bool} {windows sorted : List Ref}
    (hret : srv.sortWindows predicate windows = .ok sorted) :
    sorted.Perm windows ∧ ∀ r ∈ windows, ∃ win, srv.window r = some win := by
  rw [sortWindows] at hret
  split at hret
  · rename_i hall
    obtain rfl := Except.ok.inj hret
    exact ⟨listSort_perm _ _,fun r hr =>
      Option.isSome_iff_exists.mp (List.all_eq_true.mp hall r hr)⟩
  · cases hret

structure Restacked (srv srv' : Server) : Prop where
  keeps : srv.Keeps srv'
  window : ∀ {r win}, srv.window r = some win →
    ∃ children, srv'.window r = some { win with children := children }

theorem Restacked.refl (srv : Server) : srv.Restacked srv := ⟨.refl _,fun h => ⟨_,h⟩⟩

theorem Restacked.trans (h : srv.Restacked srv') (h' : srv'.Restacked srv'') :
    srv.Restacked srv'' := by
  refine ⟨h.keeps.trans h'.keeps,fun hr => ?_⟩
  obtain ⟨_,hr'⟩ := h.window hr
  obtain ⟨children,hr''⟩ := h'.window hr'
  exact ⟨children,hr''⟩

theorem foldlM_restacked {f : Server → Ref → Result Server}
    (hf : ∀ srv r srv', f srv r = .ok srv' → srv.Restacked srv') (windows : List Ref)
    (hret : windows.foldlM f srv = .ok srv') : srv.Restacked srv' := by
  induction windows generalizing srv with
  | nil =>
    obtain rfl := Except.ok.inj hret
    exact .refl _
  | cons r windows ih =>
    obtain ⟨srv₁,h₁,hret⟩ := Result.bind_eq_ok.mp hret
    exact (hf _ _ _ h₁).trans (ih hret)

theorem restack_restacked {fuel : ℕ} {par : Ref} (hret : restack fuel srv par = .ok srv') :
    srv.Restacked srv' := by
  induction fuel generalizing srv srv' par with
  | zero => cases hret
  | succ fuel ih =>
    obtain ⟨win,hwin,hret⟩ := Result.bind_eq_ok.mp hret
    obtain ⟨children,hsort,hret⟩ := Result.bind_eq_ok.mp hret
    have hpar := window_of_deref hwin
    have hstore : srv.Restacked (srv.store par { win with children }) := by
      refine ⟨.store hpar ⟨rfl,rfl,rfl,rfl,rfl,(sortWindows_eq hsort).1⟩,fun {r old} hr => ?_⟩
      by_cases he : r = par
      · subst he
        obtain rfl := Option.some.inj (hr.symm.trans hpar)
        exact ⟨children,by simp [store]⟩
      · exact ⟨old.children,by simp [store,Function.update_of_ne he,hr]⟩
    exact hstore.trans (foldlM_restacked (fun _ _ _ h => ih h) _ hret)

theorem restack_keeps {fuel : ℕ} {par : Ref} (hret : restack fuel srv par = .ok srv') :
    srv.Keeps srv' :=
  (restack_restacked hret).keeps

theorem restackParent_keeps {win : Window} (hret : srv.restackParent win = .ok srv') :
    srv.Keeps srv' := by
  rw [restackParent] at hret
  split at hret
  · exact restack_keeps hret
  · obtain rfl := Except.ok.inj hret
    exact .refl _

theorem when_keeps {condition : Bool} {f : Server → Result Server}
    (hf : ∀ srv', f srv = .ok srv' → srv.Keeps srv') (hret : when condition f srv = .ok srv') :
    srv.Keeps srv' := by
  rw [when] at hret
  split at hret
  · exact hf _ hret
  · obtain rfl := Except.ok.inj hret
    exact .refl _

theorem moveWith_keeps {raise : Server → Ref → Result Server}
    (hraise : ∀ srv r srv', raise srv r = .ok srv' → srv.Keeps srv') {r : Ref} {x y z : BitVec 32}
    {mask : BitVec 8} (hret : moveWith raise srv r x y z mask = .ok srv') : srv.Keeps srv' := by
  obtain ⟨win,hwin,hret⟩ := Result.bind_eq_ok.mp hret
  split at hret
  · obtain rfl := Except.ok.inj hret
    exact .refl _
  · obtain ⟨srv₁,h₁,hret⟩ := Result.bind_eq_ok.mp hret
    obtain ⟨srv₂,h₂,hret⟩ := Result.bind_eq_ok.mp hret
    obtain ⟨srv₃,h₃,hret⟩ := Result.bind_eq_ok.mp hret
    obtain ⟨moved,-,hret⟩ := Result.bind_eq_ok.mp hret
    have h₀ : ∀ pos, srv.Keeps (srv.store r { win with pos }) :=
      fun _ => .store (window_of_deref hwin) ⟨rfl,rfl,rfl,rfl,rfl,.refl _⟩
    refine (h₀ _).trans ((when_keeps (fun _ h => restackParent_keeps h) h₁).trans ?_)
    exact (when_keeps (fun _ h => hraise _ _ _ h) h₂).trans
      ((when_keeps (fun _ h => hraise _ _ _ h) h₃).trans (sendTo_keeps hret))

theorem svRaise_keeps {r : Ref} (hret : srv.svRaise r = .ok srv') : srv.Keeps srv' := by
  obtain ⟨win,-,hret⟩ := Result.bind_eq_ok.mp hret
  split at hret
  · obtain rfl := Except.ok.inj hret
    exact .refl _
  · obtain ⟨par,-,hret⟩ := Result.bind_eq_ok.mp hret
    split at hret
    · obtain rfl := Except.ok.inj hret
      exact .refl _
    · obtain ⟨top,-,hret⟩ := Result.bind_eq_ok.mp hret
      refine moveWith_keeps (fun srv _ srv' h => ?_) hret
      obtain rfl := Except.ok.inj h
      exact .refl _

theorem svMove_keeps {r : Ref} {x y z : BitVec 32} {mask : BitVec 8}
    (hret : srv.svMove r x y z mask = .ok srv') :
    srv.Keeps srv' := moveWith_keeps (fun _ _ _ h => svRaise_keeps h) hret

theorem handleResize_like (win : Window) (stage : BitVec 8) (w h : BitVec 32) :
    win.Like (handleResize win stage w h).1 := by
  have hstart : ∀ (win : Window) (w h : BitVec 32), win.Like (svStartResize win w h).1 :=
    fun win w h => by
    rw [svStartResize]
    split
    · exact ⟨rfl,rfl,rfl,rfl,rfl,.refl _⟩
    · split <;> exact ⟨rfl,rfl,rfl,rfl,rfl,.refl _⟩
  rw [handleResize]
  split
  · exact hstart _ _ _
  · rw [svApplySize]
    split
    · exact .refl _
    · dsimp only
      split
      · refine Window.Like.trans ?_ (hstart _ _ _)
        exact ⟨rfl,rfl,rfl,rfl,rfl,.refl _⟩
      · exact ⟨rfl,rfl,rfl,rfl,rfl,.refl _⟩

theorem resized_keeps {r : Ref} {win : Window} {result : Window × Option Event}
    (hr : srv.window r = some win)
    (hlike : win.Like result.1) (hret : srv.resized r result = .ok srv') : srv.Keeps srv' := by
  rw [resized] at hret
  split at hret
  · exact (Keeps.store hr hlike).trans (sendTo_keeps hret)
  · obtain rfl := Except.ok.inj hret
    exact .store hr hlike

/-- The list holds the live windows, and parents and children point to each other. -/
structure Forest (srv : Server) : Prop where
  nodup : srv.windows.Nodup
  listed : ∀ r, r ∈ srv.windows ↔ ∃ win, srv.window r = some win
  fresh : ∀ {r win}, srv.window r = some win → r < srv.fresh
  parent : ∀ {r win par}, srv.window r = some win → win.parent = some par →
    par < r ∧ ∃ parWin, srv.window par = some parWin ∧ r ∈ parWin.children
  children : ∀ {r win c}, srv.window r = some win → c ∈ win.children →
    ∃ child, srv.window c = some child ∧ child.parent = some r
  distinct : ∀ {r win}, srv.window r = some win → win.children.Nodup

theorem Forest.keeps (hf : srv.Forest) (h : srv.Keeps srv') : srv'.Forest where
  nodup := h.windows ▸ hf.nodup
  listed r := by
    rw [h.windows,hf.listed r]
    constructor
    · rintro ⟨win,hr⟩
      obtain ⟨win',hr',-⟩ := h.window_eq hr
      exact ⟨win',hr'⟩
    · rintro ⟨win',hr'⟩
      obtain ⟨win,hr,-⟩ := h.of_window_eq hr'
      exact ⟨win,hr⟩
  fresh hr' := by
    obtain ⟨win,hr,-⟩ := h.of_window_eq hr'
    exact h.fresh ▸ hf.fresh hr
  parent hr' hpar := by
    obtain ⟨win,hr,hlike⟩ := h.of_window_eq hr'
    obtain ⟨hlt,parWin,hp,hmem⟩ := hf.parent hr (hlike.parent ▸ hpar)
    obtain ⟨parWin',hp',hlike'⟩ := h.window_eq hp
    exact ⟨hlt,parWin',hp',hlike'.children.mem_iff.mpr hmem⟩
  children hr' hc := by
    obtain ⟨win,hr,hlike⟩ := h.of_window_eq hr'
    obtain ⟨child,hw,hpar⟩ := hf.children hr (hlike.children.mem_iff.mp hc)
    obtain ⟨child',hw',hlike'⟩ := h.window_eq hw
    exact ⟨child',hw',hlike'.parent.trans hpar⟩
  distinct hr' := by
    obtain ⟨win,hr,hlike⟩ := h.of_window_eq hr'
    exact hlike.children.nodup_iff.mpr (hf.distinct hr)

theorem Forest.fresh_free (hf : srv.Forest) : srv.window srv.fresh = none := by
  cases hw : srv.window srv.fresh with
  | none => rfl
  | some win => exact absurd (hf.fresh hw) (lt_irrefl _)

theorem sortWindows_returns (predicate : Window → Window → Bool) (windows : List Ref)
    (hlive : ∀ r ∈ windows, ∃ win, srv.window r = some win) :
    ∃ sorted, srv.sortWindows predicate windows = .ok sorted := by
  refine ⟨_,if_pos (List.all_eq_true.mpr fun r hr => ?_)⟩
  obtain ⟨win,hw⟩ := hlive r hr
  simp [hw]

theorem foldlM_returns {α : Type} {f : Server → α → Result Server}
    {P : Server → Prop} (list : List α)
    (hstep : ∀ a ∈ list, ∀ srv, P srv → ∃ srv', f srv a = .ok srv' ∧ P srv') (hsrv : P srv) :
    ∃ srv', list.foldlM f srv = .ok srv' ∧ P srv' := by
  induction list generalizing srv with
  | nil => exact ⟨srv,rfl,hsrv⟩
  | cons a list ih =>
    obtain ⟨srv₁,h₁,hsrv₁⟩ := hstep a (by simp) srv hsrv
    obtain ⟨srv₂,h₂,hsrv₂⟩ := ih (fun b hb => hstep b (by simp [hb])) hsrv₁
    exact ⟨srv₂,by rw [List.foldlM_cons,h₁]; exact h₂,hsrv₂⟩

/-- Children have higher addresses, so that a walk down needs less fuel. -/
theorem fuel_child {fresh fuel r c : ℕ} (hfuel : fresh ≤ fuel+1+r) (hlt : r < c) :
    fresh ≤ fuel+c := by omega

theorem restack_returns (hf : srv.Forest) {fuel : ℕ} {r : Ref} {win : Window}
    (hr : srv.window r = some win)
    (hfuel : srv.fresh ≤ fuel+r) : ∃ srv', restack fuel srv r = .ok srv' := by
  induction fuel generalizing srv r win with
  | zero => exact absurd (hf.fresh hr) (by simpa using hfuel)
  | succ fuel ih =>
    obtain ⟨children,hsort⟩ := sortWindows_returns sortByZ win.children fun c hc => by
      obtain ⟨child,hw,-⟩ := hf.children hr hc
      exact ⟨child,hw⟩
    have hperm := (sortWindows_eq hsort).1
    have hstore : srv.Keeps (srv.store r { win with children }) :=
      .store hr ⟨rfl,rfl,rfl,rfl,rfl,hperm⟩
    have hround : ∀ c ∈ children, ∀ s, srv.Keeps s → ∃ s', restack fuel s c = .ok s' ∧
        srv.Keeps s' := by
      intro c hc s hs
      obtain ⟨child,hw,hp⟩ := hf.children hr (hperm.mem_iff.mp hc)
      obtain ⟨child',hw',-⟩ := hs.window_eq hw
      obtain ⟨s',hret⟩ := ih (hf.keeps hs) hw' (hs.fresh ▸ fuel_child hfuel (hf.parent hw hp).1)
      exact ⟨s',hret,hs.trans (restack_keeps hret)⟩
    obtain ⟨srv',hret,-⟩ := foldlM_returns children hround hstore
    exact ⟨srv',by simp only [restack,deref_some hr,bind,Except.bind,hsort]; exact hret⟩

theorem svRestack_returns (hf : srv.Forest) {r : Ref} {win : Window}
    (hr : srv.window r = some win) :
    ∃ srv', srv.svRestack r = .ok srv' := restack_returns hf hr (Nat.le_add_right _ _)

/-- The windows with `r` as the last child of `par`. -/
def addChild (srv : Server) (r : Ref) (par : Option Ref) (x : Ref) : Option Window :=
  if par = some x then (srv.window x).map fun win => { win with children := win.children++[r] }
  else srv.window x

def created (srv : Server) (client par : Option Ref) (layer : BitVec 32) (props : Props) : Server :=
  { srv with
    windowId := srv.windowId+1
    fresh := srv.fresh+1
    windows := srv.windows++[srv.fresh]
    inputFocus := some srv.fresh
    window := fun x =>
      if x = srv.fresh then some (srv.newWindow client par layer props)
      else srv.addChild srv.fresh par x }

theorem linkChild_keeps {r : Ref} {par : Option Ref} (hret : srv.linkChild r par = .ok srv') :
    Keeps { srv with window := srv.addChild r par } srv' := by
  cases par with
  | none =>
    obtain rfl := Except.ok.inj hret
    exact Keeps.refl srv
  | some p =>
    obtain ⟨win,hwin,hret⟩ := Result.bind_eq_ok.mp hret
    have hp := window_of_deref hwin
    convert restack_keeps hret using 1
    rw [store]
    congr 1
    funext x
    by_cases hx : x = p
    · subst hx
      simp [addChild,hp]
    · simp [addChild,hx,Ne.symm hx]

theorem announce_keeps {r : Ref} {client : Option Ref} (hret : srv.announce r client = .ok srv') :
    srv.Keeps srv' := by
  cases client with
  | none =>
    obtain rfl := Except.ok.inj hret
    exact .refl _
  | some cli =>
    obtain ⟨win,-,hret⟩ := Result.bind_eq_ok.mp hret
    obtain ⟨root,-,hret⟩ := Result.bind_eq_ok.mp hret
    obtain ⟨srv₁,h₁,hret⟩ := Result.bind_eq_ok.mp hret
    exact (svEventSend_keeps h₁).trans (eventPropagate_keeps hret)

def placed (srv : Server) (client par : Option Ref) (layer : BitVec 32) (props : Props) : Server :=
  { srv.store srv.fresh (srv.newWindow client par layer props) with
    windowId := srv.windowId+1
    fresh := srv.fresh+1
    windows := srv.windows++[srv.fresh] }

theorem placed_addChild (hf : srv.Forest) (client : Option Ref) {par : Option Ref}
    (layer : BitVec 32) (props : Props)
    (hpar : ∀ p, par = some p → ∃ win, srv.window p = some win) :
    { srv.placed client par layer props with
      window := (srv.placed client par layer props).addChild srv.fresh par } =
      { srv.created client par layer props with inputFocus := srv.inputFocus } := by
  have hwindow : (srv.placed client par layer props).addChild srv.fresh par =
      (srv.created client par layer props).window := by
    funext x
    by_cases hx : x = srv.fresh
    · subst hx
      have hno : par ≠ some srv.fresh := fun he => by
        obtain ⟨win,hw⟩ := hpar _ he
        rw [hf.fresh_free] at hw
        cases hw
      simp [created,addChild,placed,store,hno]
    · simp [created,addChild,placed,store,hx]
  rw [hwindow]
  rfl

/-- A created window is linked as `created` says, up to the order of windows. -/
theorem svCreateWindow_keeps (hf : srv.Forest) {client par : Option Ref} {props : Props}
    (hret : srv.svCreateWindow client par props = .ok srv') :
    (∀ p, par = some p → ∃ win, srv.window p = some win) ∧
    ∃ layer windows, windows.Perm (srv.windows++[srv.fresh]) ∧
      Keeps { srv.created client par layer props with windows } srv' := by
  obtain ⟨layer,hlayer,hret⟩ := Result.bind_eq_ok.mp hret
  obtain ⟨srv₁,h₁,hret⟩ := Result.bind_eq_ok.mp hret
  obtain ⟨windows,hsort,hret⟩ := Result.bind_eq_ok.mp hret
  obtain ⟨srv₂,h₂,hret⟩ := Result.bind_eq_ok.mp hret
  have hpar : ∀ p, par = some p → ∃ win, srv.window p = some win := by
    rintro p rfl
    obtain ⟨win,hwin,-⟩ := Result.bind_eq_ok.mp hlayer
    exact ⟨win,window_of_deref hwin⟩
  have hk₁ : Keeps { srv.created client par layer props with inputFocus := srv.inputFocus } srv₁ :=
    placed_addChild hf client layer props hpar ▸ linkChild_keeps h₁
  have hk₃ := svFocus_keeps hret
  refine ⟨hpar,layer,windows,(sortWindows_eq hsort).1.trans (.of_eq hk₁.windows),?_⟩
  have hsorted :
    Keeps { srv.created client par layer props with inputFocus := srv.inputFocus, windows }
      { srv₁ with windows } :=
    ⟨hk₁.clientId,hk₁.windowId,hk₁.root,hk₁.overlay,hk₁.clients,hk₁.removeQueue,rfl,
      hk₁.grabs,hk₁.inputFocus,hk₁.client,hk₁.fresh,hk₁.window⟩
  have hk := hsorted.trans (announce_keeps h₂)
  have hfocus :
      Keeps { srv.created client par layer props with windows }
          { srv₂ with inputFocus := some srv.fresh } :=
    ⟨hk.clientId,hk.windowId,hk.root,hk.overlay,hk.clients,hk.removeQueue,hk.windows,
      hk.grabs,rfl,hk.client,hk.fresh,hk.window⟩
  exact hfocus.trans hk₃

theorem created_window {client par : Option Ref} {layer : BitVec 32} {props : Props} {x : Ref}
    (hx : x ≠ srv.fresh) :
    (srv.created client par layer props).window x = srv.addChild srv.fresh par x := by
  simp [created,hx]

theorem addChild_eq_some {r x : Ref} {par : Option Ref} {win : Window}
    (h : srv.addChild r par x = some win) :
    ∃ old, srv.window x = some old ∧
        win = { old with children := if par = some x then old.children++[r]
          else old.children } := by
  rw [addChild] at h
  split at h
  · rename_i hp
    obtain ⟨old,hold,rfl⟩ := Option.map_eq_some_iff.mp h
    exact ⟨old,hold,by simp [hp]⟩
  · rename_i hp
    exact ⟨win,h,by simp [hp]⟩

theorem addChild_of_eq_some {r x : Ref} {old : Window} (par : Option Ref)
    (h : srv.window x = some old) :
    srv.addChild r par x = some { old with children := if par = some x then old.children++[r]
        else old.children } := by
  by_cases hp : par = some x <;> simp [addChild,hp,h]

theorem Forest.created (hf : srv.Forest) (client : Option Ref) {par : Option Ref}
    (layer : BitVec 32) (props : Props)
    (hpar : ∀ p, par = some p → ∃ win, srv.window p = some win) {windows : List Ref}
    (hperm : windows.Perm (srv.windows++[srv.fresh])) :
    Forest { srv.created client par layer props with windows } := by
  have hnew : srv.fresh ∉ srv.windows := fun h => by
    obtain ⟨win,hw⟩ := (hf.listed _).mp h
    exact absurd (hf.fresh hw) (lt_irrefl _)
  have hwin :
      (srv.created client par layer props).window srv.fresh =
      some (srv.newWindow client par layer props) := by
    simp [Server.created]
  have hold : ∀ {r win}, (srv.created client par layer props).window r = some win → r ≠ srv.fresh →
      ∃ old, srv.window r = some old ∧
        win = { old with children := if par = some r then old.children++[srv.fresh]
          else old.children } :=
    fun h hr => addChild_eq_some (created_window hr ▸ h)
  have hkept : ∀ {r old}, srv.window r = some old → (srv.created client par layer props).window r =
      some { old with children := if par = some r then old.children++[srv.fresh]
          else old.children } := fun h => by
    rw [created_window (hf.fresh h).ne]
    exact addChild_of_eq_some par h
  refine ⟨hperm.nodup_iff.mpr ?_,fun r => ?_,fun {r win} h => ?_,fun {r win p} h hp => ?_,
    fun {r win c} h hc => ?_,fun {r win} h => ?_⟩
  · exact List.nodup_append.mpr ⟨hf.nodup,List.nodup_singleton _,fun a ha b hb he =>
      hnew (List.mem_singleton.mp hb ▸ he ▸ ha)⟩
  · rw [hperm.mem_iff,List.mem_append,List.mem_singleton,hf.listed]
    constructor
    · rintro (⟨win,hw⟩ | rfl)
      · exact ⟨_,hkept hw⟩
      · exact ⟨_,hwin⟩
    · rintro ⟨win,hw⟩
      by_cases hr : r = srv.fresh
      · exact .inr hr
      · obtain ⟨old,ho,-⟩ := hold hw hr
        exact .inl ⟨old,ho⟩
  · show r < srv.fresh+1
    by_cases hr : r = srv.fresh
    · exact hr ▸ Nat.lt_succ_self _
    · obtain ⟨old,ho,-⟩ := hold h hr
      exact (hf.fresh ho).trans (Nat.lt_succ_self _)
  · by_cases hr : r = srv.fresh
    · subst hr
      obtain rfl := Option.some.inj (hwin.symm.trans h)
      obtain ⟨parWin,hw⟩ := hpar p hp
      refine ⟨hf.fresh hw,_,hkept hw,?_⟩
      have hpar' : par = some p := hp
      simp [hpar']
    · obtain ⟨old,ho,rfl⟩ := hold h hr
      obtain ⟨hlt,parWin,hw,hmem⟩ := hf.parent ho hp
      refine ⟨hlt,_,hkept hw,?_⟩
      simp only
      split
      · exact List.mem_append_left _ hmem
      · exact hmem
  · by_cases hr : r = srv.fresh
    · subst hr
      obtain rfl := Option.some.inj (hwin.symm.trans h)
      cases hc
    · obtain ⟨old,ho,rfl⟩ := hold h hr
      by_cases hcf : par = some r ∧ c = srv.fresh
      · obtain ⟨hp,rfl⟩ := hcf
        exact ⟨_,hwin,hp⟩
      · have hc' : c ∈ old.children := by
          simp only at hc
          split at hc
          · rename_i hp
            rcases List.mem_append.mp hc with hc | hc
            · exact hc
            · exact absurd ⟨hp,List.mem_singleton.mp hc⟩ hcf
          · exact hc
        obtain ⟨child,hw,hparent⟩ := hf.children ho hc'
        exact ⟨_,hkept hw,hparent⟩
  · by_cases hr : r = srv.fresh
    · subst hr
      obtain rfl := Option.some.inj (hwin.symm.trans h)
      exact List.nodup_nil
    · obtain ⟨old,ho,rfl⟩ := hold h hr
      simp only
      split
      · refine List.nodup_append.mpr ⟨hf.distinct ho,List.nodup_singleton _,fun a ha b hb he => ?_⟩
        obtain ⟨child,hw,-⟩ := hf.children ho ha
        rw [he,List.mem_singleton.mp hb,hf.fresh_free] at hw
        cases hw
      · exact hf.distinct ho

end Server
end Compose
end ScalesOS
