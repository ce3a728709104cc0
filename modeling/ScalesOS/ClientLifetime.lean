import ScalesOS.WindowRemoval

/-!
# Live windows and clients

As long as all pointers of the server lead to live objects, no handler of a request goes
through a null pointer or a pointer to a freed object, and each leaves such a state.
-/

namespace ScalesOS
namespace Compose
namespace Server

/-- Every pointer that the server keeps leads to an object in its lists, and the objects in
its lists are live. -/
structure Usable (srv : Server) : Prop where
  windows : ∀ r ∈ srv.windows, ∃ win, srv.window r = some win ∧ ∀ c,
    win.client = some c → c ∈ srv.clients
  clients : ∀ c ∈ srv.clients, ∃ client, srv.client c = some client
  grabs : ∀ grab ∈ srv.grabs, grab.client ∈ srv.clients ∧ ∃ r ∈ srv.windows, grab.window = some r
  focus : ∀ r, srv.inputFocus = some r → r ∈ srv.windows
  queue : ∀ c ∈ srv.removeQueue, c ∈ srv.clients

/-- The invariant: besides, the windows form a forest with the server's own two windows in
it, nothing is listed twice, and a window's root is the root window. -/
structure Alive (srv : Server) (root overlay : Ref) : Prop where
  usable : srv.Usable
  forest : srv.Forest
  rooted : srv.Rooted root overlay
  windowRoot : ∀ {r win q}, srv.window r = some win → win.root = some q → q = root
  nodup : srv.clients.Nodup
  fresh : ∀ c ∈ srv.clients, c < srv.fresh
  queued : srv.removeQueue.Nodup

variable {srv srv' : Server} {root overlay : Ref}

theorem Usable.keeps (h : srv.Usable) (hk : srv.Keeps srv') : srv'.Usable where
  windows r hr := by
    obtain ⟨win,hw,hc⟩ := h.windows r (hk.windows ▸ hr)
    obtain ⟨win',hw',hlike⟩ := hk.window_eq hw
    exact ⟨win',hw',fun c hc' => hk.clients ▸ hc c (hlike.client ▸ hc')⟩
  clients c hc := hk.client ▸ h.clients c (hk.clients ▸ hc)
  grabs grab hg := by
    obtain ⟨hc,r,hr,hw⟩ := h.grabs grab (hk.grabs ▸ hg)
    exact ⟨hk.clients ▸ hc,r,hk.windows ▸ hr,hw⟩
  focus r hr := hk.windows ▸ h.focus r (hk.inputFocus ▸ hr)
  queue c hc := hk.clients ▸ h.queue c (hk.removeQueue ▸ hc)

theorem Alive.keeps (h : srv.Alive root overlay) (hk : srv.Keeps srv') :
    srv'.Alive root overlay where
  usable := h.usable.keeps hk
  forest := h.forest.keeps hk
  rooted := h.rooted.keeps hk
  windowRoot hr hq := by
    obtain ⟨win,hw,hlike⟩ := hk.of_window_eq hr
    exact h.windowRoot hw (hlike.root ▸ hq)
  nodup := hk.clients ▸ h.nodup
  fresh c hc := hk.fresh ▸ h.fresh c (hk.clients ▸ hc)
  queued := hk.removeQueue ▸ h.queued

theorem Alive.client_mem (h : srv.Alive root overlay) {r c : Ref} {win : Window}
    (hr : srv.window r = some win) (hc : win.client = some c) : c ∈ srv.clients := by
  obtain ⟨win',hw',hclient⟩ := h.usable.windows r ((h.forest.listed r).mpr ⟨win,hr⟩)
  obtain rfl := Option.some.inj (hr.symm.trans hw')
  exact hclient c hc

theorem Alive.setFocus (h : srv.Alive root overlay) {focus : Option Ref}
    (hfocus : ∀ r, focus = some r → r ∈ srv.windows) : Alive
    { srv with inputFocus := focus } root overlay :=
  ⟨⟨h.usable.windows,h.usable.clients,h.usable.grabs,hfocus,h.usable.queue⟩,
    ⟨h.forest.nodup,h.forest.listed,h.forest.fresh,h.forest.parent,h.forest.children,
      h.forest.distinct⟩,
    ⟨h.rooted.root_eq,h.rooted.overlay_eq,h.rooted.ne,h.rooted.root_base,h.rooted.overlay_base⟩,
    h.windowRoot,h.nodup,h.fresh,h.queued⟩

theorem Alive.svEventSend (h : srv.Alive root overlay) {cli : Ref} (hc : cli ∈ srv.clients)
    (event : Event) :
    ∃ srv', srv.svEventSend cli event = .ok srv' := by
  obtain ⟨client,hclient⟩ := h.usable.clients cli hc
  exact ⟨_,by simp only [Server.svEventSend,derefClient,hclient,bind,Except.bind]; rfl⟩

theorem Alive.sendTo (h : srv.Alive root overlay) (cli : Option Ref)
    (hc : ∀ c, cli = some c → c ∈ srv.clients)
    (event : Event) : ∃ srv', srv.sendTo cli event = .ok srv' := by
  cases cli with
  | none => exact ⟨srv,rfl⟩
  | some c => exact h.svEventSend (hc c rfl) event

theorem Alive.getGrab (h : srv.Alive root overlay) (win : Window) (event : Event)
    {grabs : List Grab} (hgrabs : ∀ grab ∈ grabs, grab ∈ srv.grabs) :
    ∃ gr, srv.getGrab win event grabs = .ok gr ∧ ∀ grab, gr = some grab → grab ∈ srv.grabs := by
  induction grabs with
  | nil => exact ⟨none,rfl,by simp⟩
  | cons grab grabs ih =>
    have hrest := ih fun g hg => hgrabs g (by simp [hg])
    rw [Server.getGrab]
    split
    · obtain ⟨-,r,hr,hw⟩ := h.usable.grabs grab (hgrabs grab (by simp))
      obtain ⟨target,htarget,-⟩ := h.usable.windows r hr
      rw [hw,deref_some htarget]
      by_cases hid : target.id = win.id
      · exact ⟨some grab,by simp [hid,bind,Except.bind,pure,Except.pure],
          fun g hg => Option.some.inj hg ▸ hgrabs grab (by simp)⟩
      · simpa [hid,bind,Except.bind] using hrest
    · exact hrest

theorem Alive.eventPropagate (h : srv.Alive root overlay) {fuel : ℕ} {r : Ref} {win : Window}
    (hr : srv.window r = some win) (hfuel : r < fuel) (event : Event) :
    ∃ srv', Server.eventPropagate fuel srv r event = .ok srv' := by
  induction fuel generalizing srv r win event with
  | zero => exact absurd hfuel (Nat.not_lt_zero _)
  | succ fuel ih =>
    obtain ⟨gr,hgrab,hgr⟩ := h.getGrab win event fun grab hg => hg
    let event' : Event :=
      if win.eventMask &&& event.type ≠ 0#64 ∨ gr.isSome then
        { event with win := win.id } else event
    obtain ⟨srv₁,h₁⟩ := h.sendTo (if win.eventMask &&& event.type ≠ 0#64 then win.client else none)
      (fun c hc => by
        split at hc
        · exact h.client_mem hr hc
        · cases hc) event'
    have hk₁ := sendTo_keeps h₁
    have ha₁ := h.keeps hk₁
    obtain ⟨srv₂,h₂⟩ := ha₁.sendTo (gr.map Grab.client) (fun c hc => by
      obtain ⟨grab,hg,rfl⟩ := Option.map_eq_some_iff.mp hc
      exact hk₁.clients ▸ (h.usable.grabs grab (hgr grab hg)).1) event'
    have hk₂ := sendTo_keeps h₂
    simp only [Server.eventPropagate,deref_some hr,bind,Except.bind,hgrab]
    rw [h₁]
    simp only
    rw [h₂]
    cases hp : win.parent with
    | none => exact ⟨srv₂,rfl⟩
    | some par =>
      obtain ⟨hlt,parWin,hw,-⟩ := h.forest.parent hr hp
      obtain ⟨parWin',hw',-⟩ := (hk₁.trans hk₂).window_eq hw
      exact ih (ha₁.keeps hk₂) hw' (lt_of_lt_of_le hlt (Nat.lt_succ_iff.mp hfuel)) _

theorem Alive.rootId (h : srv.Alive root overlay) {r : Ref} {win : Window}
    (hr : srv.window r = some win) (default : Id) :
    ∃ id, srv.rootId win default = .ok id := by
  cases hroot : win.root with
  | none => exact ⟨default,by rw [Server.rootId,hroot]; rfl⟩
  | some q =>
    obtain rfl := h.windowRoot hr hroot
    obtain ⟨rootWin,hw,-⟩ := h.rooted.root_base
    exact ⟨rootWin.id,by rw [Server.rootId,hroot]; simp only [deref_some hw,bind,Except.bind]; rfl⟩

theorem Alive.sendFocus (h : srv.Alive root overlay) {win : Option Ref}
    (hwin : ∀ r, win = some r → r ∈ srv.windows)
    (type : BitVec 64) : ∃ srv', srv.sendFocus type win = .ok srv' := by
  cases win with
  | none => exact ⟨srv,rfl⟩
  | some r =>
    obtain ⟨w,hw,-⟩ := h.usable.windows r (hwin r rfl)
    obtain ⟨id,hid⟩ := h.rootId hw 1
    obtain ⟨srv',hret⟩ := h.eventPropagate hw (h.forest.fresh hw) ⟨type,w.id,0,id,.plain⟩
    exact ⟨srv',by simp only [Server.sendFocus,deref_some hw,bind,Except.bind,hid]; exact hret⟩

theorem Alive.svFocus (h : srv.Alive root overlay) (win : Option Ref)
    (hwin : ∀ r, win = some r → r ∈ srv.windows) :
    ∃ srv', srv.svFocus win = .ok srv' ∧ srv'.Alive root overlay := by
  obtain ⟨srv₁,h₁⟩ := h.sendFocus h.usable.focus EVENT_UNFOCUS
  have hk₁ := sendFocus_keeps h₁
  have hfocus : ∀ r, (win <|> srv₁.root) = some r → r ∈ srv₁.windows := by
    intro r hr
    rw [hk₁.windows]
    cases win with
    | some w => exact hwin r hr
    | none =>
      obtain ⟨rootWin,hw,-⟩ := h.rooted.root_base
      rw [hk₁.root,h.rooted.root_eq] at hr
      exact (h.forest.listed r).mpr ⟨rootWin,Option.some.inj hr ▸ hw⟩
  have ha := (h.keeps hk₁).setFocus hfocus
  obtain ⟨srv₂,h₂⟩ := ha.sendFocus hfocus EVENT_FOCUS
  exact ⟨srv₂,by simp only [Server.svFocus,h₁,bind,Except.bind]; exact h₂,
    ha.keeps (sendFocus_keeps h₂)⟩

theorem Alive.svSendProps (h : srv.Alive root overlay) {cli r : Ref} (hc : cli ∈ srv.clients)
    (hr : r ∈ srv.windows) :
    ∃ srv', srv.svSendProps cli (some r) = .ok srv' ∧ srv'.Alive root overlay := by
  obtain ⟨win,hw,-⟩ := h.usable.windows r hr
  obtain ⟨id,hid⟩ := h.rootId hw win.id
  obtain ⟨srv',hret⟩ := h.svEventSend hc ⟨EVENT_PROPS,win.id,0,id,
    .props ⟨win.pos.x,win.pos.y,win.sizes.w,win.sizes.h,win.flags,win.eventMask⟩⟩
  refine ⟨srv',?_,h.keeps (svEventSend_keeps hret)⟩
  simp only [Server.svSendProps,deref_some hw,bind,Except.bind,hid]
  exact hret

theorem restackParent_returns (hf : srv.Forest) {r : Ref} {win : Window}
    (hr : srv.window r = some win) :
    ∃ srv', srv.restackParent win = .ok srv' := by
  cases hp : win.parent with
  | none => exact ⟨srv,by rw [Server.restackParent,hp]; rfl⟩
  | some par =>
    obtain ⟨-,parWin,hw,-⟩ := hf.parent hr hp
    obtain ⟨srv',hret⟩ := svRestack_returns hf hw
    exact ⟨srv',by rw [Server.restackParent,hp]; exact hret⟩

theorem when_returns (condition : Bool) (f : Server → Result Server)
    (hf : ∃ srv', f srv = .ok srv') :
    ∃ srv', when condition f srv = .ok srv' := by
  cases condition with
  | false => exact ⟨srv,rfl⟩
  | true => exact hf

section Moves

variable {P : Server → Prop} {r : Ref} (hkeeps : ∀ {s t : Server}, P s → s.Keeps t → P t)
  (hforest : ∀ {s : Server}, P s → s.Forest)
  (hsend : ∀ {s : Server} {win : Window}, P s → s.window r = some win →
    ∀ event, ∃ t, s.sendTo win.client event = .ok t)

include hkeeps hforest hsend

/-- A move returns where the windows form a forest and the event reaches its client. -/
theorem moveWith_returns {raise : Server → Ref → Result Server} (x y z : BitVec 32)
    (mask : BitVec 8) (hraise : ∀ {s : Server} {win : Window}, P s → s.window r = some win →
      ∃ t, raise s r = .ok t ∧ s.Keeps t)
    (h : P srv) {win : Window} (hr : srv.window r = some win) :
    ∃ srv', moveWith raise srv r x y z mask = .ok srv' ∧ srv.Keeps srv' := by
  rw [moveWith,deref_some hr]
  by_cases hpos : win.pos = ⟨x,y,z⟩
  · exact ⟨srv,by simp only [bind,Except.bind,if_pos hpos]; rfl,.refl _⟩
  · simp only [bind,Except.bind,if_neg hpos]
    generalize hstore : srv.store r _ = srv₀
    have hk₀ : srv.Keeps srv₀ := hstore ▸ .store hr ⟨rfl,rfl,rfl,rfl,rfl,.refl _⟩
    obtain ⟨win₀,hw₀,hlike⟩ := hk₀.window_eq hr
    have hrestack : ∃ srv', srv₀.restackParent win = .ok srv' := by
      obtain ⟨srv',hret⟩ := restackParent_returns (hforest (hkeeps h hk₀)) hw₀
      rw [Server.restackParent,hlike.parent] at hret
      exact ⟨srv',hret⟩
    obtain ⟨srv₁,h₁⟩ :=
      when_returns (decide (mask &&& MOVE_Z ≠ 0#8)) (fun srv => srv.restackParent win) hrestack
    have hk₁ := hk₀.trans (when_keeps (fun _ h => restackParent_keeps h) h₁)
    obtain ⟨win₁,hw₁,-⟩ := hk₁.window_eq hr
    obtain ⟨srv₁',hret₁,hkr₁⟩ := hraise (hkeeps h hk₁) hw₁
    obtain ⟨srv₂,h₂⟩ :=
      when_returns (decide (mask &&& MOVE_RAISE ≠ 0#8)) (fun srv => raise srv r) ⟨srv₁',hret₁⟩
    have hk₂ := hk₁.trans (when_keeps (fun s hs => by
      obtain rfl := Except.ok.inj (hret₁.symm.trans hs)
      exact hkr₁) h₂)
    obtain ⟨win₂,hw₂,-⟩ := hk₂.window_eq hr
    obtain ⟨srv₂',hret₂,hkr₂⟩ := hraise (hkeeps h hk₂) hw₂
    obtain ⟨srv₃,h₃⟩ :=
      when_returns (decide (mask &&& MOVE_SUNK ≠ 0#8)) (fun srv => raise srv r) ⟨srv₂',hret₂⟩
    have hk₃ := hk₂.trans (when_keeps (fun s hs => by
      obtain rfl := Except.ok.inj (hret₂.symm.trans hs)
      exact hkr₂) h₃)
    obtain ⟨win₃,hw₃,-⟩ := hk₃.window_eq hr
    obtain ⟨srv₄,h₄⟩ := hsend (hkeeps h hk₃) hw₃ ⟨EVENT_MOVE,win₃.id,0,0,.move win.pos win₃.pos⟩
    refine ⟨srv₄,?_,hk₃.trans (sendTo_keeps h₄)⟩
    rw [h₁]
    simp only
    rw [h₂]
    simp only
    rw [h₃]
    simp only
    rw [deref_some hw₃]
    exact h₄

theorem svRaise_returns (h : P srv) {win : Window} (hr : srv.window r = some win) :
    ∃ srv', srv.svRaise r = .ok srv' ∧ srv.Keeps srv' := by
  rw [svRaise,deref_some hr]
  simp only [bind,Except.bind]
  cases hp : win.parent with
  | none => exact ⟨srv,rfl,.refl _⟩
  | some par =>
    obtain ⟨-,parWin,hw,hmem⟩ := (hforest h).parent hr hp
    simp only [deref_some hw]
    by_cases htop : parWin.children.getLast? = some r
    · exact ⟨srv,by rw [if_pos htop]; rfl,.refl _⟩
    · obtain ⟨top,hlast⟩ : ∃ top, parWin.children.getLast? = some top :=
        Option.isSome_iff_exists.mp (List.getLast?_isSome.mpr (List.ne_nil_of_mem hmem))
      obtain ⟨topWin,htopWin,-⟩ := (hforest h).children hw (List.mem_of_getLast? hlast)
      have hmove :
        ∃ srv', moveWith (fun srv _ =>
          pure srv) srv r win.pos.x win.pos.y (topWin.pos.z+1) MOVE_Z = .ok srv' ∧
          srv.Keeps srv' :=
        moveWith_returns hkeeps hforest hsend win.pos.x win.pos.y (topWin.pos.z+1) MOVE_Z
          (fun {s _} _ _ => ⟨s,rfl,.refl _⟩) h hr
      rw [if_neg htop,hlast,deref_some htopWin]
      exact hmove

theorem svMove_returns (x y z : BitVec 32) (mask : BitVec 8) (h : P srv) {win : Window}
    (hr : srv.window r = some win) :
    ∃ srv', srv.svMove r x y z mask = .ok srv' ∧ srv.Keeps srv' :=
  moveWith_returns hkeeps hforest hsend x y z mask (fun hs hw =>
    svRaise_returns hkeeps hforest hsend hs hw) h hr

end Moves

def Safe (call : Server → Ref → Result Server) : Prop :=
  ∀ {srv root overlay r win}, Alive srv root overlay → srv.window r = some win →
    ∃ srv', call srv r = .ok srv' ∧ srv.Keeps srv'

theorem svMove_safe (x y z : BitVec 32) (mask : BitVec 8) : Safe fun srv r =>
    srv.svMove r x y z mask :=
  fun {_ root overlay _ _} h hr =>
    svMove_returns (P:=fun s => s.Alive root overlay) (fun hs hk =>
      hs.keeps hk) (fun hs => hs.forest)
      (fun hs hw event => hs.sendTo _ (fun _ hc => hs.client_mem hw hc) event) x y z mask h hr

theorem Alive.resized (h : srv.Alive root overlay) {r : Ref} {win : Window}
    (hr : srv.window r = some win) (stage : BitVec 8) (w height : BitVec 32) :
    ∃ srv', srv.resized r (handleResize win stage w height) = .ok srv' ∧ srv.Keeps srv' := by
  have hlike := handleResize_like win stage w height
  have hk := Keeps.store hr hlike
  suffices hret : ∃ srv', srv.resized r (handleResize win stage w height) = .ok srv' by
    obtain ⟨srv',hret⟩ := hret
    exact ⟨srv',hret,resized_keeps hr hlike hret⟩
  rw [Server.resized]
  cases (handleResize win stage w height).2 with
  | none => exact ⟨_,rfl⟩
  | some event =>
    exact (h.keeps hk).sendTo _ (fun c hc => hk.clients ▸ h.client_mem hr (hlike.client ▸ hc)) event

/-- The new window belongs to a listed client and hangs below a live window. -/
theorem Alive.created (h : srv.Alive root overlay) {client par : Option Ref}
    (layer : BitVec 32) (props : Props) (hclient : ∀ c, client = some c → c ∈ srv.clients)
    (hpar : ∀ p, par = some p → ∃ win, srv.window p = some win)
    {windows : List Ref} (hperm : windows.Perm (srv.windows++[srv.fresh])) :
    Alive { srv.created client par layer props with windows, inputFocus := srv.inputFocus }
        root overlay := by
  have hf := h.forest.created client layer props hpar hperm
  have hr := h.rooted.created h.forest client par layer props windows
  have hnew :
      (srv.created client par layer props).window srv.fresh =
      some (srv.newWindow client par layer props) := by
    simp [Server.created]
  have hmem : ∀ {x}, x ∈ srv.windows → x ∈ windows := fun hx =>
    hperm.mem_iff.mpr (List.mem_append_left _ hx)
  have hcases : ∀ {x win}, (srv.created client par layer props).window x = some win →
      win = srv.newWindow client par layer props ∨
      ∃ old, srv.window x = some old ∧ win.client = old.client ∧ win.root = old.root := by
    intro x win hx
    by_cases he : x = srv.fresh
    · subst he
      exact .inl (Option.some.inj (hx.symm.trans hnew))
    · obtain ⟨old,hold,rfl⟩ := addChild_eq_some ((created_window he).symm.trans hx)
      exact .inr ⟨old,hold,rfl,rfl⟩
  refine ⟨⟨fun x hx => ?_,h.usable.clients,fun grab hg => ?_,fun x hx => hmem (h.usable.focus x hx),
    h.usable.queue⟩,⟨hf.nodup,hf.listed,hf.fresh,hf.parent,hf.children,hf.distinct⟩,
    ⟨hr.root_eq,hr.overlay_eq,hr.ne,hr.root_base,hr.overlay_base⟩,fun {x win q} hx hq => ?_,h.nodup,
    fun c hc => (h.fresh c hc).trans (Nat.lt_succ_self _),h.queued⟩
  · obtain ⟨win,hw⟩ := (hf.listed x).mp hx
    refine ⟨win,hw,fun c hc => ?_⟩
    rcases hcases hw with rfl | ⟨old,hold,hcl,-⟩
    · exact hclient c hc
    · exact h.client_mem hold (hcl ▸ hc)
  · obtain ⟨hc,r,hr,hw⟩ := h.usable.grabs grab hg
    exact ⟨hc,r,hmem hr,hw⟩
  · rcases hcases hx with rfl | ⟨old,hold,-,hroot⟩
    · exact Option.some.inj (hq.symm.trans h.rooted.root_eq)
    · exact h.windowRoot hold (hroot ▸ hq)

theorem linkChild_returns {r : Ref} {par : Option Ref}
    (hf : Forest { srv with window := srv.addChild r par })
    (hpar : ∀ p, par = some p → ∃ win, srv.window p = some win) :
    ∃ srv', srv.linkChild r par = .ok srv' := by
  cases par with
  | none => exact ⟨srv,rfl⟩
  | some p =>
    obtain ⟨win,hw⟩ := hpar p rfl
    have hlink :
        srv.store p { win with children := win.children++[r] } =
            { srv with window := srv.addChild r (some p) } := by
      rw [store]
      congr 1
      funext x
      by_cases hx : x = p
      · subst hx
        simp [addChild,hw]
      · simp [addChild,hx,Ne.symm hx]
    have hp : srv.addChild r (some p) p = some { win with children := win.children++[r] } := by
      simp [addChild,hw]
    obtain ⟨srv',hret⟩ := svRestack_returns hf hp
    refine ⟨srv',?_⟩
    simp only [linkChild,deref_some hw,bind,Except.bind,hlink]
    exact hret

theorem Alive.announce (h : srv.Alive root overlay) {r : Ref} {client : Option Ref}
    (hr : ∃ win, srv.window r = some win ∧ win.root = some root)
    (hclient : ∀ c, client = some c → c ∈ srv.clients) :
    ∃ srv', srv.announce r client = .ok srv' := by
  cases client with
  | none => exact ⟨srv,rfl⟩
  | some cli =>
    obtain ⟨win,hw,hroot⟩ := hr
    obtain ⟨rootWin,hrw,-⟩ := h.rooted.root_base
    obtain ⟨srv₁,h₁⟩ := h.svEventSend (hclient cli rfl) ⟨EVENT_WIN,win.id,0,rootWin.id,.plain⟩
    have hk₁ := svEventSend_keeps h₁
    obtain ⟨win₁,hw₁,-⟩ := hk₁.window_eq hw
    obtain ⟨srv₂,h₂⟩ := (h.keeps hk₁).eventPropagate hw₁ ((h.keeps hk₁).forest.fresh hw₁)
      ⟨EVENT_WIN,win.id,0,rootWin.id,.plain⟩
    refine ⟨srv₂,?_⟩
    simp only [Server.announce,deref_some hw,hroot,deref_some hrw,bind,Except.bind,h₁]
    exact h₂

theorem Alive.svCreateWindow (h : srv.Alive root overlay) {client par : Option Ref} (props : Props)
    (hclient : ∀ c, client = some c → c ∈ srv.clients)
    (hpar : ∀ p, par = some p → p ∈ srv.windows) :
    ∃ srv', srv.svCreateWindow client par props = .ok srv' ∧ srv'.Alive root overlay := by
  have hlive : ∀ p, par = some p → ∃ win, srv.window p = some win := fun p hp =>
    (h.forest.listed p).mp (hpar p hp)
  obtain ⟨layer,hlayer⟩ : ∃ layer, srv.parentLayer par = .ok layer := by
    cases par with
    | none => exact ⟨0,rfl⟩
    | some p =>
      obtain ⟨win,hw⟩ := hlive p rfl
      exact ⟨win.layer+1,by simp only [parentLayer,deref_some hw,bind,Except.bind]; rfl⟩
  have hlinked := h.created layer props hclient hlive (.refl _)
  have hplaced := placed_addChild h.forest client layer props hlive
  obtain ⟨srv₁,h₁⟩ :
      ∃ srv₁, (srv.placed client par layer props).linkChild srv.fresh par = .ok srv₁ :=
    linkChild_returns (hplaced ▸ hlinked.forest) fun p hp => by
      obtain ⟨win,hw⟩ := hlive p hp
      exact ⟨win,by simp [placed,store,Function.update_of_ne (h.forest.fresh hw).ne,hw]⟩
  have hk₁ : Keeps { srv.created client par layer props with inputFocus := srv.inputFocus } srv₁ :=
    hplaced ▸ linkChild_keeps h₁
  obtain ⟨windows,hsort⟩ := sortWindows_returns sortByLayer srv₁.windows fun r hr =>
    ((hlinked.keeps hk₁).forest.listed r).mp hr
  have hperm : windows.Perm (srv.windows++[srv.fresh]) :=
    (sortWindows_eq hsort).1.trans (.of_eq hk₁.windows)
  have hsorted :
    Keeps { srv.created client par layer props with windows, inputFocus := srv.inputFocus }
      { srv₁ with windows } :=
    ⟨hk₁.clientId,hk₁.windowId,hk₁.root,hk₁.overlay,hk₁.clients,hk₁.removeQueue,rfl,
      hk₁.grabs,hk₁.inputFocus,hk₁.client,hk₁.fresh,hk₁.window⟩
  have ha := (h.created layer props hclient hlive hperm).keeps hsorted
  have hnew : ∃ win, srv₁.window srv.fresh = some win ∧ win.root = some root := by
    have hwin :
        (srv.created client par layer props).window srv.fresh =
        some (srv.newWindow client par layer props) := by
      simp [Server.created]
    obtain ⟨win,hw,hlike⟩ := hk₁.window_eq hwin
    exact ⟨win,hw,hlike.root.trans h.rooted.root_eq⟩
  obtain ⟨srv₂,h₂⟩ := ha.announce hnew fun c hc => hk₁.clients ▸ hclient c hc
  have hk₂ := announce_keeps h₂
  obtain ⟨srv₃,h₃,ha₃⟩ := (ha.keeps hk₂).svFocus (some srv.fresh) fun r hr => by
    obtain rfl := Option.some.inj hr
    rw [hk₂.windows]
    exact hperm.mem_iff.mpr (by simp)
  refine ⟨srv₃,?_,ha₃⟩
  simp only [Server.svCreateWindow,hlayer,bind,Except.bind]
  rw [placed] at h₁
  rw [h₁]
  simp only
  rw [hsort]
  simp only
  rw [h₂]
  exact h₃

end Server
end Compose
end ScalesOS
