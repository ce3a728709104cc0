import ScalesOS.ClientLifetime

/-!
# Requests and the end of clients

The server between its loops: it accepts connections, handles requests, empties its queue
of clients to remove and, when that is empty, drops the clients that do not answer.
-/

namespace ScalesOS
namespace Compose
namespace Server

/-- One of the parts of a tick. -/
inductive Action
  | accept
  | request (cli : Ref) (req : Request)
  | reap
  | keepalive (unreachable : Ref → Bool)

/-- Requests come from connected clients, and the queue is emptied before clients are asked
whether they are alive. -/
def May (srv : Server) : Action → Prop
  | .accept => True
  | .request cli _ => cli ∈ srv.clients
  | .reap => srv.removeQueue ≠ []
  | .keepalive _ => srv.removeQueue = []

def perform (srv : Server) : Action → Result Server
  | .accept => srv.acceptClient
  | .request cli req => srv.svHandleRequest cli req
  | .reap => srv.reap
  | .keepalive unreachable => srv.svSendKeepalive unreachable

/-- The id is one of a window in the list. -/
def Names (srv : Server) (id : Id) : Prop :=
  ∃ r ∈ srv.windows, ∃ win, srv.window r = some win ∧ win.id = id

/-- Each window of the client lies below one of its windows that a disconnection removes. -/
def TakesAll (srv : Server) (cli : Ref) : Prop :=
  ∀ r win, srv.window r = some win → win.client = some cli →
    ∃ a top, srv.window a = some top ∧ top.client = some cli ∧
    (top.parent = none ∨ top.parent = srv.root) ∧ r ∈ srv.subtree a

/-- Grabs and questions for properties name a window that exists, a client asks to be removed
once, and none of its windows is nested in a window that stays. -/
def Careful (srv : Server) : Action → Prop
  | .accept => True
  | .request _ (.grab win _) => srv.Names win
  | .request _ (.props win) => srv.Names win
  | .request cli .disconnect => cli ∉ srv.removeQueue
  | .request _ _ => True
  | .reap => ∀ cli, srv.removeQueue.getLast? = some cli → srv.TakesAll cli
  | .keepalive unreachable => ∀ cli ∈ srv.clients, unreachable cli = true → srv.TakesAll cli

variable {srv srv' s t : Server} {root overlay : Ref}

theorem Alive.getWindow (h : srv.Alive root overlay) (id : Id) {windows : List Ref}
    (hwindows : ∀ r ∈ windows, r ∈ srv.windows) :
    ∃ found, srv.getWindow id windows = .ok found ∧ (∀ r, found = some r → r ∈ srv.windows) ∧
      (found = none → ∀ r ∈ windows, ∀ win, srv.window r = some win → win.id ≠ id) := by
  induction windows with
  | nil => exact ⟨none,rfl,by simp,by simp⟩
  | cons r windows ih =>
    obtain ⟨win,hw,-⟩ := h.usable.windows r (hwindows r (by simp))
    rw [Server.getWindow,deref_some hw]
    by_cases hid : win.id = id
    · exact ⟨some r,by simp [hid,bind,Except.bind,pure,Except.pure],
        fun q hq => Option.some.inj hq ▸ hwindows r (by simp),by simp⟩
    · obtain ⟨found,hret,hfound,hnone⟩ := ih fun q hq => hwindows q (by simp [hq])
      refine ⟨found,by simpa [hid,bind,Except.bind] using hret,hfound,fun hn q hq win' hw' => ?_⟩
      rcases List.mem_cons.mp hq with rfl | hq
      · exact Option.some.inj (hw.symm.trans hw') ▸ hid
      · exact hnone hn q hq win' hw'

theorem Alive.svGetWindow (h : srv.Alive root overlay) (id : Id) :
    ∃ found, srv.svGetWindow id = .ok found ∧ (∀ r, found = some r → r ∈ srv.windows) ∧
      (srv.Names id → ∃ r, found = some r) := by
  obtain ⟨found,hret,hfound,hnone⟩ := h.getWindow id fun r hr => hr
  refine ⟨found,hret,hfound,fun ⟨r,hr,win,hw,hid⟩ => ?_⟩
  cases found with
  | none => exact absurd hid (hnone rfl r hr win hw)
  | some q => exact ⟨q,rfl⟩

theorem Alive.withWindow (h : srv.Alive root overlay) (id : Id) {f : Ref → Result Server}
    (hf : ∀ {r win}, srv.window r = some win → ∃ srv', f r = .ok srv' ∧ srv'.Alive root overlay) :
    ∃ srv', srv.withWindow id f = .ok srv' ∧ srv'.Alive root overlay := by
  obtain ⟨found,hret,hfound,-⟩ := h.svGetWindow id
  rw [Server.withWindow,hret]
  cases found with
  | none => exact ⟨srv,rfl,h⟩
  | some r =>
    obtain ⟨win,hw,-⟩ := h.usable.windows r (hfound r rfl)
    exact hf hw

theorem Alive.getClient (h : srv.Alive root overlay) (id : Id) {clients : List Ref}
    (hclients : ∀ c ∈ clients, c ∈ srv.clients) :
    ∃ found, srv.getClient id clients = .ok found ∧ ∀ c, found = some c → c ∈ srv.clients := by
  induction clients with
  | nil => exact ⟨none,rfl,by simp⟩
  | cons c clients ih =>
    obtain ⟨client,hc⟩ := h.usable.clients c (hclients c (by simp))
    rw [Server.getClient,derefClient,hc]
    by_cases hid : client.id = id
    · exact ⟨some c,by simp [hid,bind,Except.bind,pure,Except.pure],
        fun q hq => Option.some.inj hq ▸ hclients c (by simp)⟩
    · obtain ⟨found,hret,hfound⟩ := ih fun q hq => hclients q (by simp [hq])
      exact ⟨found,by simpa [hid,bind,Except.bind,pure,Except.pure] using hret,hfound⟩

theorem Alive.sendAll (h : srv.Alive root overlay) (send : Server → Ref → Result Server)
    {clients : List Ref} (hclients : ∀ c ∈ clients, c ∈ srv.clients)
    (hsend : ∀ s : Server, s.Alive root overlay → ∀ c ∈ s.clients, ∃ s',
      send s c = .ok s' ∧ s.Keeps s') :
    ∃ srv', clients.foldlM send srv = .ok srv' ∧ srv.Keeps srv' := by
  refine foldlM_returns clients (fun c hc s hs => ?_) (Keeps.refl srv)
  obtain ⟨s',hret,hk⟩ := hsend s (h.keeps hs) c (hs.clients ▸ hclients c hc)
  exact ⟨s',hret,hs.trans hk⟩

/-- A careful request is handled, and all pointers lead to live objects afterwards. -/
theorem Alive.svHandleRequest (h : srv.Alive root overlay) {cli : Ref} {req : Request}
    (hmay : cli ∈ srv.clients) (hcareful : srv.Careful (.request cli req)) :
    ∃ srv', srv.svHandleRequest cli req = .ok srv' ∧ srv'.Alive root overlay := by
  cases req with
  | move win flags x y z =>
    refine h.withWindow win fun {r _} hr => ?_
    obtain ⟨srv',hret,hk⟩ := svMove_safe x y z flags h hr
    exact ⟨srv',hret,h.keeps hk⟩
  | resize win stage w height =>
    refine h.withWindow win fun hr => ?_
    obtain ⟨srv',hret,hk⟩ := h.resized hr stage w height
    exact ⟨srv',by rw [deref_some hr]; exact hret,h.keeps hk⟩
  | event target event =>
    rw [Server.svHandleRequest]
    split
    · obtain ⟨srv',hret,hk⟩ := h.sendAll (fun srv cli => srv.svEventSend cli event) (fun c hc => hc)
        fun s hs c hc => by
          obtain ⟨s',hret⟩ := hs.svEventSend hc event
          exact ⟨s',hret,svEventSend_keeps hret⟩
      exact ⟨srv',hret,h.keeps hk⟩
    · obtain ⟨found,hret,hfound⟩ := h.getClient target fun c hc => hc
      obtain ⟨srv',hsend⟩ := h.sendTo found hfound event
      refine ⟨srv',?_,h.keeps (sendTo_keeps hsend)⟩
      rw [svGetClient,hret]
      exact hsend
  | newwin parent props =>
    obtain ⟨found,hret,hfound,-⟩ := h.svGetWindow parent
    rw [Server.svHandleRequest,hret]
    exact h.svCreateWindow props (fun c hc => Option.some.inj hc ▸ hmay) hfound
  | evmask win mask =>
    refine h.withWindow win fun {r win} hr => ?_
    refine ⟨srv.store r { win with eventMask := mask },by rw [deref_some hr]; rfl,?_⟩
    exact h.keeps (.store hr ⟨rfl,rfl,rfl,rfl,rfl,.refl _⟩)
  | grab win type =>
    obtain ⟨found,hret,hfound,hnames⟩ := h.svGetWindow win
    obtain ⟨r,rfl⟩ := hnames hcareful
    refine ⟨_,by rw [Server.svHandleRequest,hret]; rfl,?_⟩
    refine ⟨⟨h.usable.windows,h.usable.clients,fun grab hg => ?_,h.usable.focus,h.usable.queue⟩,
      ⟨h.forest.nodup,h.forest.listed,h.forest.fresh,h.forest.parent,h.forest.children,
        h.forest.distinct⟩,
      ⟨h.rooted.root_eq,h.rooted.overlay_eq,h.rooted.ne,h.rooted.root_base,h.rooted.overlay_base⟩,
      h.windowRoot,h.nodup,h.fresh,h.queued⟩
    rcases List.mem_append.mp hg with hg | hg
    · exact h.usable.grabs grab hg
    · obtain rfl := List.mem_singleton.mp hg
      exact ⟨hmay,r,hfound r rfl,rfl⟩
  | focus win =>
    obtain ⟨found,hret,hfound,-⟩ := h.svGetWindow win
    rw [Server.svHandleRequest,hret]
    exact h.svFocus _ hfound
  | disconnect =>
    refine ⟨_,rfl,⟨h.usable.windows,h.usable.clients,h.usable.grabs,h.usable.focus,fun c hc => ?_⟩,
      ⟨h.forest.nodup,h.forest.listed,h.forest.fresh,h.forest.parent,h.forest.children,
        h.forest.distinct⟩,
      ⟨h.rooted.root_eq,h.rooted.overlay_eq,h.rooted.ne,h.rooted.root_base,h.rooted.overlay_base⟩,
      h.windowRoot,h.nodup,h.fresh,?_⟩
    · rcases List.mem_append.mp hc with hc | hc
      · exact h.usable.queue c hc
      · exact List.mem_singleton.mp hc ▸ hmay
    · exact List.nodup_append.mpr ⟨h.queued,List.nodup_singleton _,fun a ha b hb he =>
        hcareful (List.mem_singleton.mp hb ▸ he ▸ ha)⟩
  | props win =>
    obtain ⟨found,hret,hfound,hnames⟩ := h.svGetWindow win
    obtain ⟨r,rfl⟩ := hnames hcareful
    rw [Server.svHandleRequest,hret]
    exact h.svSendProps hmay (hfound r rfl)
  | keepalive => exact ⟨srv,rfl,h⟩

/-- What the removal of windows does: fewer windows, grabs and maybe no focus. -/
structure Shrinks (srv srv' : Server) : Prop where
  root : srv'.root = srv.root
  clients : srv'.clients = srv.clients
  client : srv'.client = srv.client
  removeQueue : srv'.removeQueue = srv.removeQueue
  fresh : srv'.fresh = srv.fresh
  window : ∀ {r win'}, srv'.window r = some win' → ∃ win, srv.window r = some win ∧
    win'.client = win.client ∧ win'.parent = win.parent ∧ win'.root = win.root
  grabs : ∀ grab ∈ srv'.grabs, grab ∈ srv.grabs ∧ ∀ r ∈ srv.windows, grab.window = some r →
    r ∈ srv'.windows
  focus : ∀ r, srv'.inputFocus = some r → srv.inputFocus = some r ∧
    (r ∈ srv.windows → r ∈ srv'.windows)

theorem Shrinks.refl (srv : Server) : srv.Shrinks srv :=
  ⟨rfl,rfl,rfl,rfl,rfl,fun h => ⟨_,h,rfl,rfl,rfl⟩,fun _ h => ⟨h,fun _ hr _ => hr⟩,fun _ h =>
    ⟨h,fun hr => hr⟩⟩

theorem Shrinks.trans (h : srv.Shrinks s) (h' : s.Shrinks t) : srv.Shrinks t where
  root := h'.root.trans h.root
  clients := h'.clients.trans h.clients
  client := h'.client.trans h.client
  removeQueue := h'.removeQueue.trans h.removeQueue
  fresh := h'.fresh.trans h.fresh
  window hr := by
    obtain ⟨mid,hm,hc,hp,hq⟩ := h'.window hr
    obtain ⟨win,hw,hc',hp',hq'⟩ := h.window hm
    exact ⟨win,hw,hc.trans hc',hp.trans hp',hq.trans hq'⟩
  grabs grab hg := by
    obtain ⟨hm,hkeep⟩ := h'.grabs grab hg
    obtain ⟨hg',hkeep'⟩ := h.grabs grab hm
    exact ⟨hg',fun r hr hw => hkeep r (hkeep' r hr hw) hw⟩
  focus r hr := by
    obtain ⟨hm,hkeep⟩ := h'.focus r hr
    obtain ⟨hr',hkeep'⟩ := h.focus r hm
    exact ⟨hr',fun hmem => hkeep (hkeep' hmem)⟩

theorem removed_shrinks (srv : Server) (r : Ref) : srv.Shrinks (srv.removed r) := by
  classical
  refine ⟨rfl,rfl,rfl,rfl,rfl,fun {x win'} hx => ?_,fun grab hg => ?_,fun x hx => ?_⟩
  · obtain ⟨-,old,hold,rfl⟩ := removed_window.mp hx
    exact ⟨old,hold,rfl,rfl,rfl⟩
  · obtain ⟨hg',hout⟩ := List.mem_filter.mp hg
    exact ⟨hg',fun x hx hw => List.mem_filter.mpr ⟨hx,decide_eq_true (of_decide_eq_true hout x hw)⟩⟩
  · obtain ⟨hfocus,hout⟩ := Option.filter_eq_some_iff.mp hx
    exact ⟨hfocus,fun hmem => List.mem_filter.mpr ⟨hmem,hout⟩⟩

theorem Shrinks.above (h : srv.Shrinks srv') (hf : srv'.Forest) {a x : Ref} (hb : x ∈ srv.subtree a)
    (hx : ∃ win, srv'.window x = some win) : (∃ win, srv'.window a = some win) ∧
    x ∈ srv'.subtree a := by
  induction hb with
  | refl => exact ⟨hx,.refl⟩
  | @tail p x _ hc ih =>
    obtain ⟨win',hw'⟩ := hx
    obtain ⟨win,hw,-,hp,-⟩ := h.window hw'
    obtain ⟨old,hold,hparent⟩ := hc
    obtain rfl := Option.some.inj (hw.symm.trans hold)
    have hchild : srv'.IsChild p x := ⟨win',hw',hp.trans hparent⟩
    obtain ⟨-,parWin,hpw,-⟩ := hf.parent hw' (hp.trans hparent)
    obtain ⟨ha,hsub⟩ := ih ⟨parWin,hpw⟩
    exact ⟨ha,.tail hsub hchild⟩

/-- The windows at the top of the client's own are removed one after the other. -/
theorem removeTops (hf : srv.Forest) (hr : srv.Rooted root overlay) {tops : List Ref}
    (hnodup : tops.Nodup) (htops : ∀ a ∈ tops, ∃ win, srv.window a = some win ∧ win.client ≠ none ∧
      (win.parent = none ∨ win.parent = some root)) :
    ∃ srv', tops.foldlM (fun srv r => srv.svRemoveWindow r true) srv = .ok srv' ∧ srv'.Forest ∧
      srv'.Rooted root overlay ∧ srv.Shrinks srv' ∧ ∀ a ∈ tops, srv'.window a = none := by
  induction tops generalizing srv with
  | nil => exact ⟨srv,rfl,hf,hr,.refl _,by simp⟩
  | cons a tops ih =>
    obtain ⟨ha,hnodup⟩ := List.nodup_cons.mp hnodup
    obtain ⟨win,hw,hclient,-⟩ := htops a (by simp)
    have hnotBase : ¬ srv.Base a := by
      rintro ⟨win',hw',-,hc⟩
      obtain rfl := Option.some.inj (hw.symm.trans hw')
      exact hclient hc
    have hroot : a ≠ root := fun he => hnotBase (he ▸ hr.root_base)
    have hoverlay : a ≠ overlay := fun he => hnotBase (he ▸ hr.overlay_base)
    have hrest : ∀ b ∈ tops, ∃ win, (srv.removed a).window b = some win ∧ win.client ≠ none ∧
        (win.parent = none ∨ win.parent = some root) := by
      intro b hb
      obtain ⟨win',hw',hc',hp'⟩ := htops b (by simp [hb])
      refine ⟨_,removed_window.mpr ⟨fun hsub => ?_,win',hw',rfl⟩,hc',hp'⟩
      -- the parent of another top window is the root window, which is not below this one
      rcases Relation.ReflTransGen.cases_tail hsub with rfl | ⟨q,hq,old,hold,hqp⟩
      · exact ha hb
      · obtain rfl := Option.some.inj (hw'.symm.trans hold)
        rcases hp' with hp' | hp'
        · rw [hp'] at hqp
          cases hqp
        · rw [hp'] at hqp
          obtain rfl := Option.some.inj hqp
          exact hroot (hr.root_base.below_eq hq)
    obtain ⟨srv',hret,hf',hr',hshrinks,hgone⟩ :=
      ih (hf.removed a) (hr.removed hroot hoverlay) hnodup hrest
    refine ⟨srv',?_,hf',hr',(removed_shrinks srv a).trans hshrinks,fun b hb => ?_⟩
    · rw [List.foldlM_cons,svRemoveWindow_eq hf hw]
      exact hret
    · rcases List.mem_cons.mp hb with rfl | hb
      · cases hb' : srv'.window b with
        | none => rfl
        | some win' =>
          obtain ⟨mid,hm,-⟩ := hshrinks.window hb'
          exact absurd .refl (removed_window.mp hm).1
      · exact hgone b hb

theorem ownedBy_eq (cli : Ref) {windows : List Ref}
    (hlive : ∀ r ∈ windows, ∃ win, srv.window r = some win) :
    ∃ owned, srv.ownedBy cli windows = .ok owned ∧ owned.Sublist windows ∧
      ∀ r, r ∈ owned ↔ r ∈ windows ∧ ∃ win, srv.window r = some win ∧ win.client = some cli ∧
        (win.parent = none ∨ win.parent = srv.root) := by
  induction windows with
  | nil => exact ⟨[],rfl,.refl _,by simp⟩
  | cons a windows ih =>
    obtain ⟨win,hw⟩ := hlive a (by simp)
    obtain ⟨owned,hret,hsub,hmem⟩ := ih fun r hr => hlive r (by simp [hr])
    rw [ownedBy,deref_some hw]
    simp only [bind,Except.bind,hret]
    by_cases hown : win.client = some cli ∧ (win.parent = none ∨ win.parent = srv.root)
    · refine ⟨a::owned,by rw [if_pos hown]; rfl,hsub.cons_cons a,fun r => ?_⟩
      rw [List.mem_cons,List.mem_cons,hmem]
      constructor
      · rintro (rfl | ⟨hr,hwin⟩)
        · exact ⟨.inl rfl,win,hw,hown⟩
        · exact ⟨.inr hr,hwin⟩
      · rintro ⟨rfl | hr,hwin⟩
        · exact .inl rfl
        · exact .inr ⟨hr,hwin⟩
    · refine ⟨owned,by rw [if_neg hown]; rfl,hsub.cons a,fun r => ?_⟩
      rw [List.mem_cons,hmem]
      constructor
      · rintro ⟨hr,hwin⟩
        exact ⟨.inr hr,hwin⟩
      · rintro ⟨rfl | hr,win',hw',hown'⟩
        · obtain rfl := Option.some.inj (hw.symm.trans hw')
          exact absurd hown' hown
        · exact ⟨hr,win',hw',hown'⟩

/-- What stays of a client that still has all its windows below its own top windows. -/
theorem Shrinks.takesAll (h : srv.Shrinks srv') (hf : srv'.Forest) {c : Ref}
    (htakes : srv.TakesAll c) :
    srv'.TakesAll c := by
  intro r win' hr hc
  obtain ⟨win,hw,hclient,-,-⟩ := h.window hr
  obtain ⟨a,top,ha,htc,htp,hbelow⟩ := htakes r win hw (hclient ▸ hc)
  obtain ⟨⟨top',ha'⟩,hbelow'⟩ := h.above hf hbelow ⟨win',hr⟩
  obtain ⟨old,hold,hcl,hp,-⟩ := h.window ha'
  obtain rfl := Option.some.inj (ha.symm.trans hold)
  exact ⟨a,top',ha',hcl.trans htc,by rwa [hp,h.root],hbelow'⟩

theorem Alive.svDisconnect (h : srv.Alive root overlay) {cli : Ref} (hc : cli ∈ srv.clients)
    (hq : cli ∉ srv.removeQueue) (htakes : srv.TakesAll cli) :
    ∃ srv', srv.svDisconnect cli = .ok srv' ∧ srv'.Alive root overlay ∧
      srv'.clients = srv.clients.erase cli ∧
      srv'.removeQueue = srv.removeQueue ∧ ∀ c, srv.TakesAll c → srv'.TakesAll c := by
  set srv₀ : Server := { srv with clients := srv.clients.erase cli } with hsrv₀
  have hf₀ : srv₀.Forest :=
    ⟨h.forest.nodup,h.forest.listed,h.forest.fresh,h.forest.parent,h.forest.children,
      h.forest.distinct⟩
  have hr₀ : srv₀.Rooted root overlay :=
    ⟨h.rooted.root_eq,h.rooted.overlay_eq,h.rooted.ne,h.rooted.root_base,h.rooted.overlay_base⟩
  have hlive : ∀ r ∈ srv₀.windows, ∃ win, srv₀.window r = some win := fun r hr =>
    (hf₀.listed r).mp hr
  obtain ⟨owned,howned,hsub,hmem⟩ := ownedBy_eq cli hlive
  obtain ⟨s,hloop,hf,hr,hshrinks,hgone⟩ := removeTops hf₀ hr₀ (hsub.nodup hf₀.nodup) fun a ha => by
    obtain ⟨-,win,hw,hcl,hp⟩ := (hmem a).mp ha
    exact ⟨win,hw,by simp [hcl],hr₀.root_eq ▸ hp⟩
  obtain ⟨client,hclient⟩ := h.usable.clients cli hc
  have hlive : s.client cli = some client := hshrinks.client ▸ hclient
  have hother : ∀ {r win}, s.window r = some win → win.client ≠ some cli := by
    intro r win hw hcl
    obtain ⟨old,hold,hcl',-⟩ := hshrinks.window hw
    obtain ⟨a,top,ha,htc,htp,hbelow⟩ := htakes r old hold (hcl' ▸ hcl)
    have htop : a ∈ owned := (hmem a).mpr ⟨(hf₀.listed a).mpr ⟨top,ha⟩,top,ha,htc,htp⟩
    obtain ⟨⟨top',ha'⟩,-⟩ := hshrinks.above hf hbelow ⟨win,hw⟩
    rw [hgone a htop] at ha'
    cases ha'
  have hkept : ∀ {c}, c ∈ srv.clients → c ≠ cli → c ∈ s.clients := fun hcm hne => by
    rw [hshrinks.clients]
    exact (List.mem_erase_of_ne hne).mpr hcm
  refine ⟨{ s with
    grabs := s.grabs.filter fun grab => grab.client ≠ cli
    client := Function.update s.client cli none },?_,
      ⟨⟨fun r hr => ?_,fun c hcm => ?_,fun grab hg => ?_,fun r hr => ?_,
      fun c hcm => ?_⟩,⟨hf.nodup,hf.listed,hf.fresh,hf.parent,hf.children,hf.distinct⟩,
      ⟨hr.root_eq,hr.overlay_eq,hr.ne,hr.root_base,hr.overlay_base⟩,fun {r win q} hw hwq => ?_,?_,
      fun c hcm => ?_,?_⟩,hshrinks.clients,hshrinks.removeQueue,fun c htc => ?_⟩
  · simp only [Server.svDisconnect,bind,Except.bind]
    rw [show ({ srv with clients := srv.clients.erase cli } : Server) = srv₀ from rfl,howned]
    simp only
    rw [hloop]
    simp only [derefClient,hlive]
    rfl
  · obtain ⟨win,hw⟩ := (hf.listed r).mp hr
    refine ⟨win,hw,fun c hcl => ?_⟩
    obtain ⟨old,hold,hcl',-⟩ := hshrinks.window hw
    exact hkept (h.client_mem hold (hcl' ▸ hcl)) fun he => hother hw (he ▸ hcl)
  · change c ∈ s.clients at hcm
    rw [hshrinks.clients] at hcm
    obtain ⟨hne,hcm⟩ := h.nodup.mem_erase_iff.mp hcm
    obtain ⟨cl,hcl⟩ := h.usable.clients c hcm
    exact ⟨cl,by simp only [Function.update_of_ne hne,hshrinks.client]; exact hcl⟩
  · obtain ⟨hg,hne⟩ := List.mem_filter.mp hg
    obtain ⟨hg',hkeep⟩ := hshrinks.grabs grab hg
    obtain ⟨hgc,r,hr,hgw⟩ := h.usable.grabs grab hg'
    exact ⟨hkept hgc (of_decide_eq_true hne),r,hkeep r hr hgw,hgw⟩
  · obtain ⟨hfocus,hkeep⟩ := hshrinks.focus r hr
    exact hkeep (h.usable.focus r hfocus)
  · change c ∈ s.removeQueue at hcm
    rw [hshrinks.removeQueue] at hcm
    exact hkept (h.usable.queue c hcm) fun he => hq (he ▸ hcm)
  · obtain ⟨old,hold,-,-,hroot⟩ := hshrinks.window hw
    exact h.windowRoot hold (hroot ▸ hwq)
  · change s.clients.Nodup
    rw [hshrinks.clients]
    exact h.nodup.erase cli
  · change c ∈ s.clients at hcm
    rw [hshrinks.clients] at hcm
    change c < s.fresh
    rw [hshrinks.fresh]
    exact h.fresh c (List.mem_of_mem_erase hcm)
  · change s.removeQueue.Nodup
    rw [hshrinks.removeQueue]
    exact h.queued
  · exact hshrinks.takesAll hf htc

theorem Alive.disconnectAll (h : srv.Alive root overlay) {reapList : List Ref}
    (hnodup : reapList.Nodup)
    (hclients : ∀ c ∈ reapList, c ∈ srv.clients) (hq : srv.removeQueue = [])
    (htakes : ∀ c ∈ reapList, srv.TakesAll c) :
    ∃ srv', reapList.foldlM Server.svDisconnect srv = .ok srv' ∧ srv'.Alive root overlay := by
  induction reapList generalizing srv with
  | nil => exact ⟨srv,rfl,h⟩
  | cons c reapList ih =>
    obtain ⟨hc,hnodup⟩ := List.nodup_cons.mp hnodup
    obtain ⟨srv₁,h₁,ha₁,hcl₁,hq₁,ht₁⟩ :=
      h.svDisconnect (hclients c (by simp)) (by simp [hq]) (htakes c (by simp))
    have hrest : ∀ d ∈ reapList, d ∈ srv₁.clients := fun d hd => by
      rw [hcl₁]
      exact (List.mem_erase_of_ne fun he : d = c => hc (he ▸ hd)).mpr (hclients d (by simp [hd]))
    obtain ⟨srv',hret,ha⟩ := ih ha₁ hnodup hrest (hq₁.trans hq) fun d hd =>
      ht₁ d (htakes d (by simp [hd]))
    exact ⟨srv',by rw [List.foldlM_cons,h₁]; exact hret,ha⟩

theorem Keeps.takesAll (hk : srv.Keeps srv') {c : Ref} (htakes : srv.TakesAll c) :
    srv'.TakesAll c := by
  intro r win' hr hc
  obtain ⟨win,hw,hlike⟩ := hk.of_window_eq hr
  obtain ⟨a,top,ha,htc,htp,hbelow⟩ := htakes r win hw (hlike.client ▸ hc)
  obtain ⟨top',ha',hlike'⟩ := hk.window_eq ha
  exact ⟨a,top',ha',hlike'.client.trans htc,by rwa [hlike'.parent,hk.root],hk.subtree a ▸ hbelow⟩

theorem Alive.acceptClient (h : srv.Alive root overlay) :
    ∃ srv', srv.acceptClient = .ok srv' ∧ srv'.Alive root overlay := by
  set srv₀ : Server := { srv with
    clientId := srv.clientId+1
    fresh := srv.fresh+1
    client := Function.update srv.client srv.fresh (some ⟨srv.clientId+1⟩)
    clients := srv.clients++[srv.fresh] } with hsrv₀
  have hnew : srv.fresh ∉ srv.clients := fun hc => absurd (h.fresh _ hc) (lt_irrefl _)
  have hmem : ∀ {c}, c ∈ srv.clients → c ∈ srv₀.clients := fun hc => List.mem_append_left _ hc
  have ha₀ : srv₀.Alive root overlay := by
    refine ⟨⟨fun r hr => ?_,fun c hc => ?_,fun grab hg => ?_,h.usable.focus,fun c hc =>
      hmem (h.usable.queue c hc)⟩,
      ⟨h.forest.nodup,h.forest.listed,fun hw => (h.forest.fresh hw).trans (Nat.lt_succ_self _),
        h.forest.parent,h.forest.children,h.forest.distinct⟩,
      ⟨h.rooted.root_eq,h.rooted.overlay_eq,h.rooted.ne,h.rooted.root_base,h.rooted.overlay_base⟩,
      h.windowRoot,?_,fun c hc => ?_,h.queued⟩
    · obtain ⟨win,hw,hcl⟩ := h.usable.windows r hr
      exact ⟨win,hw,fun c hc => hmem (hcl c hc)⟩
    · rcases List.mem_append.mp hc with hc | hc
      · obtain ⟨cl,hcl⟩ := h.usable.clients c hc
        exact ⟨cl,by rw [hsrv₀]; simp only [Function.update_of_ne (fun he =>
          hnew (he ▸ hc) : c ≠ srv.fresh)]; exact hcl⟩
      · obtain rfl := List.mem_singleton.mp hc
        exact ⟨⟨srv.clientId+1⟩,by rw [hsrv₀]; simp only [Function.update_self]⟩
    · obtain ⟨hc,r,hr,hw⟩ := h.usable.grabs grab hg
      exact ⟨hmem hc,r,hr,hw⟩
    · exact List.nodup_append.mpr ⟨h.nodup,List.nodup_singleton _,fun a ha b hb he =>
        hnew (List.mem_singleton.mp hb ▸ he ▸ ha)⟩
    · rcases List.mem_append.mp hc with hc | hc
      · exact (h.fresh c hc).trans (Nat.lt_succ_self _)
      · exact List.mem_singleton.mp hc ▸ Nat.lt_succ_self _
  obtain ⟨rootWin,hw,-⟩ := ha₀.rooted.root_base
  obtain ⟨overlayWin,how,-⟩ := ha₀.rooted.overlay_base
  obtain ⟨srv',hret⟩ := ha₀.svEventSend (show srv.fresh ∈ srv₀.clients by simp [hsrv₀])
    ⟨EVENT_CNN,0,0,rootWin.id,.connect overlayWin.id⟩
  refine ⟨srv',?_,ha₀.keeps (svEventSend_keeps hret)⟩
  simp only [Server.acceptClient,bind,Except.bind]
  rw [← hsrv₀,ha₀.rooted.root_eq,deref_some hw]
  simp only
  rw [ha₀.rooted.overlay_eq,deref_some how]
  exact hret

theorem Alive.reap (h : srv.Alive root overlay) (hcareful : srv.Careful .reap) :
    ∃ srv', srv.reap = .ok srv' ∧ srv'.Alive root overlay := by
  rw [Server.reap]
  cases hlast : srv.removeQueue.getLast? with
  | none => exact ⟨srv,rfl,h⟩
  | some cli =>
    have hqueue : srv.removeQueue.dropLast++[cli] = srv.removeQueue :=
      List.dropLast_append_getLast? cli hlast
    have hnodup := h.queued
    rw [← hqueue] at hnodup
    have hsub : ∀ c ∈ srv.removeQueue.dropLast, c ∈ srv.clients := fun c hc =>
      h.usable.queue c (List.dropLast_subset _ hc)
    have ha : Alive { srv with removeQueue := srv.removeQueue.dropLast } root overlay :=
      ⟨⟨h.usable.windows,h.usable.clients,h.usable.grabs,h.usable.focus,hsub⟩,
        ⟨h.forest.nodup,h.forest.listed,h.forest.fresh,h.forest.parent,h.forest.children,
          h.forest.distinct⟩,
        ⟨h.rooted.root_eq,h.rooted.overlay_eq,h.rooted.ne,h.rooted.root_base,h.rooted.overlay_base⟩,
        h.windowRoot,h.nodup,h.fresh,(List.nodup_append.mp hnodup).1⟩
    obtain ⟨srv',hret,ha',-⟩ := ha.svDisconnect (h.usable.queue cli (List.mem_of_getLast? hlast))
      (fun hc => (List.nodup_append.mp hnodup).2.2 cli hc cli (by simp) rfl) (hcareful cli hlast)
    exact ⟨srv',hret,ha'⟩

theorem Alive.svSendKeepalive (h : srv.Alive root overlay) {unreachable : Ref → Bool}
    (hq : srv.removeQueue = []) (hcareful : srv.Careful (.keepalive unreachable)) :
    ∃ srv', srv.svSendKeepalive unreachable = .ok srv' ∧ srv'.Alive root overlay := by
  obtain ⟨srv₁,h₁,hk₁⟩ := h.sendAll (sendKeepalive unreachable) (fun c hc => hc) fun s hs c hc => by
    rw [sendKeepalive]
    split
    · obtain ⟨cl,hcl⟩ := hs.usable.clients c hc
      exact ⟨s,by simp only [derefClient,hcl,bind,Except.bind]; rfl,.refl _⟩
    · obtain ⟨s',hret⟩ := hs.svEventSend hc ⟨EVENT_KEEPALIVE,0,0,0,.plain⟩
      exact ⟨s',hret,svEventSend_keeps hret⟩
  obtain ⟨srv',hret,ha⟩ := (h.keeps hk₁).disconnectAll (h.nodup.filter unreachable)
    (fun c hc => hk₁.clients ▸ (List.mem_filter.mp hc).1) (hk₁.removeQueue.trans hq) fun c hc => by
      obtain ⟨hc,hun⟩ := List.mem_filter.mp hc
      exact hk₁.takesAll (hcareful c hc hun)
  exact ⟨srv',by simp only [Server.svSendKeepalive,h₁,bind,Except.bind]; exact hret,ha⟩

theorem Alive.perform (h : srv.Alive root overlay) {action : Action} (hmay : srv.May action)
    (hcareful : srv.Careful action) : ∃ srv', srv.perform action = .ok srv' ∧
    srv'.Alive root overlay := by
  cases action with
  | accept => exact h.acceptClient
  | request cli req => exact h.svHandleRequest hmay hcareful
  | reap => exact h.reap hcareful
  | keepalive unreachable => exact h.svSendKeepalive hmay hcareful

theorem svCreate_alive {w height : BitVec 32} (hret : svCreate w height = .ok srv) :
    srv.Alive 0 1 := by
  obtain ⟨hf,hr,hcl,hg,hq,hfocus,hwin⟩ := svCreate_eq hret
  refine ⟨⟨fun r hr => ?_,by simp [hcl],by simp [hg],fun r hr' => ?_,by simp [hq]⟩,hf,hr,
    fun hw hq' => (hwin _ _ hw).2 _ hq',by simp [hcl],by simp [hcl],by simp [hq]⟩
  · obtain ⟨win,hw⟩ := (hf.listed r).mp hr
    exact ⟨win,hw,fun c hc => by rw [(hwin r win hw).1] at hc; cases hc⟩
  · rw [hfocus] at hr'
    obtain rfl := Option.some.inj hr'
    obtain ⟨win,hw,-⟩ := hr.overlay_base
    exact (hf.listed _).mpr ⟨win,hw⟩

/-- A step of the server; with `condition` all its steps are to meet. -/
def Performs (condition : Server → Action → Prop) (srv srv' : Server) : Prop :=
  ∃ action, srv.May action ∧ condition srv action ∧ srv.perform action = .ok srv'

/-- In every run whose steps are careful, all pointers of the server lead to live objects in
every state, and no careful step goes through a null pointer, a pointer to a freed window or
one to a freed client. -/
theorem clients_outlive_pointers {w height : BitVec 32} {start : Server}
    (hstart : svCreate w height = .ok start)
    (hrun : Relation.ReflTransGen (Performs Careful) start srv) :
    srv.Usable ∧ ∀ action, srv.May action → srv.Careful action →
      ∃ srv', srv.perform action = .ok srv' ∧ srv'.Usable := by
  have ha : srv.Alive 0 1 := by
    refine reach_invariant (I:=fun s => s.Alive 0 1) (fun s t hs hstep =>
      ?_) (svCreate_alive hstart) hrun
    obtain ⟨action,hmay,hcareful,hret⟩ := hstep
    obtain ⟨t',hret',ht⟩ := hs.perform hmay hcareful
    obtain rfl := Except.ok.inj (hret.symm.trans hret')
    exact ht
  refine ⟨ha.usable,fun action hmay hcareful => ?_⟩
  obtain ⟨srv',hret,ha'⟩ := ha.perform hmay hcareful
  exact ⟨srv',hret,ha'.usable⟩

/-- A client creates a window below the root, grabs it and asks to be removed. -/
theorem clients_outlive_pointers_grab : ∃ start srv, svCreate 100 100 = .ok start ∧
    Relation.ReflTransGen (Performs Careful) start srv ∧ srv.grabs = [⟨EVENT_FOCUS,2,some 3⟩] ∧
    srv.removeQueue = [2] ∧ srv.Usable := by
  have heval : (do
      let start ← svCreate 100 100
      let a ← start.acceptClient
      let b ← a.svHandleRequest 2 (.newwin 1 ⟨10,10,20,20,0,0⟩)
      let c ← b.svHandleRequest 2 (.grab 3 EVENT_FOCUS)
      let srv ← c.svHandleRequest 2 .disconnect
      pure (decide (2 ∈ a.clients ∧ 2 ∈ b.clients ∧ 2 ∈ c.clients ∧
        2 ∉ c.removeQueue ∧ 3 ∈ b.windows ∧
        srv.grabs = [⟨EVENT_FOCUS,2,some 3⟩] ∧ srv.removeQueue = [2]),(b.window 3).map Window.id) :
        Result (Bool × Option Id)) = .ok (true,some 3) := by decide +kernel
  obtain ⟨start,hstart,heval⟩ := Result.bind_eq_ok.mp heval
  obtain ⟨a,ha,heval⟩ := Result.bind_eq_ok.mp heval
  obtain ⟨b,hb,heval⟩ := Result.bind_eq_ok.mp heval
  obtain ⟨c,hc,heval⟩ := Result.bind_eq_ok.mp heval
  obtain ⟨srv,hsrv,heval⟩ := Result.bind_eq_ok.mp heval
  obtain ⟨hfacts,hid⟩ := Prod.mk.inj (Except.ok.inj heval)
  obtain ⟨hma,hmb,hmc,hqc,hwin,hgrabs,hqueue⟩ := of_decide_eq_true hfacts
  obtain ⟨win,hw,hid⟩ := Option.map_eq_some_iff.mp hid
  have hrun : Relation.ReflTransGen (Performs Careful) start srv :=
    (((Relation.ReflTransGen.single ⟨.accept,trivial,trivial,ha⟩).tail
      ⟨.request 2 (.newwin 1 ⟨10,10,20,20,0,0⟩),hma,trivial,hb⟩).tail
      ⟨.request 2 (.grab 3 EVENT_FOCUS),hmb,⟨3,hwin,win,hw,hid⟩,hc⟩).tail
      ⟨.request 2 .disconnect,hmc,hqc,hsrv⟩
  exact ⟨start,srv,hstart,hrun,hgrabs,hqueue,(clients_outlive_pointers hstart hrun).1⟩

/-- A client grabs a window that does not exist. The next request that raises such an event, here
for the root window, goes through the grab's null pointer. -/
theorem grab_of_missing_window : ∃ start srv, svCreate 100 100 = .ok start ∧
    Relation.ReflTransGen (Performs fun _ _ => True) start srv ∧ ¬ srv.Usable ∧
    srv.May (.request 2 (.focus 1)) ∧ srv.perform (.request 2 (.focus 1)) =
    .error (.panic "null window") := by
  have heval : (do
      let start ← svCreate 100 100
      let a ← start.acceptClient
      let srv ← a.svHandleRequest 2 (.grab 99 EVENT_FOCUS)
      pure (decide (2 ∈ a.clients ∧ 2 ∈ srv.clients ∧ srv.grabs = [⟨EVENT_FOCUS,2,none⟩]),
        match srv.svHandleRequest 2 (.focus 1) with
        | .error e => some e
        | .ok _ => none) : Result (Bool × Option Fault)) = .ok (true,
            some (.panic "null window")) := by decide +kernel
  obtain ⟨start,hstart,heval⟩ := Result.bind_eq_ok.mp heval
  obtain ⟨a,ha,heval⟩ := Result.bind_eq_ok.mp heval
  obtain ⟨srv,hsrv,heval⟩ := Result.bind_eq_ok.mp heval
  obtain ⟨hfacts,hfault⟩ := Prod.mk.inj (Except.ok.inj heval)
  obtain ⟨hma,hmsrv,hgrabs⟩ := of_decide_eq_true hfacts
  refine ⟨start,srv,hstart,(Relation.ReflTransGen.single ⟨.accept,trivial,trivial,ha⟩).tail
    ⟨.request 2 (.grab 99 EVENT_FOCUS),hma,trivial,hsrv⟩,fun hu => ?_,hmsrv,?_⟩
  · obtain ⟨-,r,-,hw⟩ := hu.grabs ⟨EVENT_FOCUS,2,none⟩ (by simp [hgrabs])
    cases hw
  · rw [perform]
    split at hfault
    · rename_i e he
      rw [he,Option.some.inj hfault]
    · cases hfault

end Server
end Compose
end ScalesOS
