import ScalesOS.Compositor

/-!
# The resize handshake

One window, the client that owns it and the sockets that carry messages about its size.
Requests of all clients may arrive while the owner answers an event; the server keeps
the last one of them in the window and starts over when the owner has confirmed.
-/

namespace ScalesOS
namespace Compose

/-- `compose_resize_req_t`. A confirmation leaves the size unset. -/
structure ResizeReq where
  stage : BitVec 8
  w : BitVec 32
  h : BitVec 32
  deriving DecidableEq, Repr

/-- How far the owner is with its answer: `compose_cl_resize_gc` stores the width, the height
and the length of the buffer in the shared context, and the confirmation comes last. -/
inductive Answer
  | idle
  | received (size : Sizes)
  | storedW (size : Sizes)
  | storedH (size : Sizes)
  | stored (size : Sizes)
  deriving DecidableEq, Repr

/-- `events` are the RESIZE events on the way to the owner, `requests` those on the way from
each client. `sent` and `handled` record the sizes that were asked for, in the order in which
the clients sent and the server took them. -/
structure Handshake where
  win : Window
  events : List Event
  requests : Ref → List ResizeReq
  answer : Answer
  sent : List (Ref × Sizes)
  handled : List (Ref × Sizes)

namespace Handshake

def push (s : Handshake) (cli : Ref) (req : ResizeReq) : Ref → List ResizeReq :=
  Function.update s.requests cli (s.requests cli++[req])

def handle (s : Handshake) (cli : Ref) (req : ResizeReq) (rest : List ResizeReq) : Handshake :=
  { s with
    win := (handleResize s.win req.stage req.w req.h).1
    events := s.events++(handleResize s.win req.stage req.w req.h).2.toList
    requests := Function.update s.requests cli rest
    handled := if req.stage = RESIZE_STAGE_INITIAL then s.handled++[(cli,⟨req.w,req.h⟩)]
      else s.handled }

/-- One step of the owner, of another client or of the server. -/
inductive Step (owner : Ref) : Handshake → Handshake → Prop
  | resize {s : Handshake} (cli : Ref) (w h : BitVec 32) :
      Step owner s { s with
        requests := s.push cli ⟨RESIZE_STAGE_INITIAL,w,h⟩
        sent := s.sent++[(cli,⟨w,h⟩)] }
  | handle {s : Handshake} {cli : Ref} {req : ResizeReq} {rest : List ResizeReq}
      (hreq : s.requests cli = req::rest) : Step owner s (s.handle cli req rest)
  | receive {s : Handshake} {event : Event} {events : List Event} {old size : Sizes}
      (hidle : s.answer = .idle) (hevents : s.events = event::events)
      (hsize : event.payload = .resize old size) :
      Step owner s { s with events, answer := .received size }
  | storeW {s : Handshake} {size : Sizes} (hat : s.answer = .received size) :
      Step owner s { s with
        win := { s.win with gc := { s.win.gc with w := size.w } }
        answer := .storedW size }
  | storeH {s : Handshake} {size : Sizes} (hat : s.answer = .storedW size) :
      Step owner s { s with
        win := { s.win with gc := { s.win.gc with h := size.h } }
        answer := .storedH size }
  | storeLength {s : Handshake} {size : Sizes} (hat : s.answer = .storedH size) :
      Step owner s { s with
        win := { s.win with gc := { s.win.gc with dataSize := size.w*size.h*4 } }
        answer := .stored size }
  | confirm {s : Handshake} {size : Sizes} (w h : BitVec 32) (hat : s.answer = .stored size) :
      Step owner s { s with requests := s.push owner ⟨RESIZE_STAGE_FINAL,w,h⟩, answer := .idle }

/-- A window after its creation, before any message about its size. -/
structure Start (owner : Ref) (s : Handshake) : Prop where
  client : s.win.client = some owner
  not_in_resize : s.win.flags &&& WIN_FLAGS_IN_RESIZE = 0#32
  not_delayed : s.win.flags &&& WIN_FLAGS_HAS_DELAYED_RESIZE = 0#32
  events : s.events = []
  requests : ∀ cli, s.requests cli = []
  answer : s.answer = .idle
  sent : s.sent = []
  handled : s.handled = []

def confirmations (reqs : List ResizeReq) : ℕ :=
  reqs.countP fun req => req.stage ≠ RESIZE_STAGE_INITIAL

/-- The RESIZE events whose confirmation the server has not taken yet. -/
def unconfirmed (owner : Ref) (s : Handshake) : ℕ :=
  s.events.length+(if s.answer = .idle then 0 else 1)+confirmations (s.requests owner)

/-- The size that the server was asked for last, or else the initial one. -/
def lastRequested (initial : Sizes) (s : Handshake) : Sizes :=
  ((s.handled.getLast?).map Prod.snd).getD initial

/-- No message is in flight, and the owner has answered all it received. -/
structure Quiet (s : Handshake) : Prop where
  events : s.events = []
  requests : ∀ cli, s.requests cli = []
  answer : s.answer = .idle

/-- Where an event for the new size `size` is on its way to the server and back. -/
inductive OnTheWay (owner : Ref) (s : Handshake) (size : Sizes) : Prop
  | event {event : Event} {old : Sizes} (hevents : s.events = [event]) (hsize : event.payload =
      .resize old size)
      (hidle : s.answer = .idle) (hconf : confirmations (s.requests owner) = 0)
  | received (hevents : s.events = []) (hat : s.answer = .received size)
      (hconf : confirmations (s.requests owner) = 0)
  | storedW (hevents : s.events = []) (hat : s.answer = .storedW size) (hw : s.win.gc.w = size.w)
      (hconf : confirmations (s.requests owner) = 0)
  | storedH (hevents : s.events = []) (hat : s.answer = .storedH size) (hw : s.win.gc.w = size.w)
      (hh : s.win.gc.h = size.h) (hconf : confirmations (s.requests owner) = 0)
  | stored (hevents : s.events = []) (hat : s.answer = .stored size) (hw : s.win.gc.w = size.w)
      (hh : s.win.gc.h = size.h) (hconf : confirmations (s.requests owner) = 0)
  | confirmed (hevents : s.events = []) (hidle : s.answer = .idle) (hw : s.win.gc.w = size.w)
      (hh : s.win.gc.h = size.h) (hconf : confirmations (s.requests owner) = 1)

structure Settled (owner : Ref) (initial : Sizes) (s : Handshake) : Prop where
  not_in_resize : s.win.flags &&& WIN_FLAGS_IN_RESIZE = 0#32
  not_delayed : s.win.flags &&& WIN_FLAGS_HAS_DELAYED_RESIZE = 0#32
  events : s.events = []
  answer : s.answer = .idle
  confirmed : confirmations (s.requests owner) = 0
  sizes : s.win.sizes = s.lastRequested initial

/-- One event is under way, and the size asked for last is the event's or the delayed one. -/
structure Resizing (owner : Ref) (initial : Sizes) (s : Handshake) (size : Sizes) : Prop where
  in_resize : s.win.flags &&& WIN_FLAGS_IN_RESIZE ≠ 0#32
  onTheWay : s.OnTheWay owner size
  last : s.lastRequested initial =
    if s.win.flags &&& WIN_FLAGS_HAS_DELAYED_RESIZE = 0#32 then size else s.win.delayedResizeSize

structure Inv (owner : Ref) (initial : Sizes) (s : Handshake) : Prop where
  client : s.win.client = some owner
  others : ∀ cli, cli ≠ owner → confirmations (s.requests cli) = 0
  log : ∀ cli, s.sent.filter (·.1 = cli) = s.handled.filter (·.1 = cli)++
    ((s.requests cli).filter (·.stage = RESIZE_STAGE_INITIAL)).map fun req => (cli,⟨req.w,req.h⟩)
  phase : s.Settled owner initial ∨ ∃ size, s.Resizing owner initial size

theorem or_and_self (f a : BitVec 32) : (f ||| a) &&& a = a := by
  ext i
  simpa using fun h => .inr h

theorem or_and_of_disjoint {f a b : BitVec 32} (hab : a &&& b = 0#32) :
    (f ||| a) &&& b = f &&& b := by
  rw [BitVec.and_or_distrib_right,hab,BitVec.or_zero]

theorem and_not_and_self (f a : BitVec 32) : f &&& ~~~a &&& a = 0#32 := by
  rw [BitVec.and_assoc,BitVec.not_and_self]
  exact BitVec.and_zero

theorem and_not_and_of_disjoint {f a b : BitVec 32} (hab : ~~~a &&& b = b) :
    f &&& ~~~a &&& b = f &&& b := by
  rw [BitVec.and_assoc,hab]

theorem confirmations_cons (req : ResizeReq) (rest : List ResizeReq) :
    confirmations (req::rest) = confirmations rest+if req.stage = RESIZE_STAGE_INITIAL
    then 0 else 1 := by
  rw [confirmations,List.countP_cons,confirmations]
  by_cases h : req.stage = RESIZE_STAGE_INITIAL <;> simp [h]

theorem confirmations_append (reqs : List ResizeReq) (req : ResizeReq) :
    confirmations (reqs++[req]) = confirmations reqs+if req.stage = RESIZE_STAGE_INITIAL
    then 0 else 1 := by
  rw [confirmations,List.countP_append,confirmations]
  by_cases h : req.stage = RESIZE_STAGE_INITIAL <;> simp [h]

/-- A resize that starts while nothing is under way is done at once or sends the one event. -/
theorem start_phase {owner : Ref} {initial : Sizes} {t : Handshake} (win : Window) (w h : BitVec 32)
    (hres : win.flags &&& WIN_FLAGS_IN_RESIZE = 0#32)
    (hdel : win.flags &&& WIN_FLAGS_HAS_DELAYED_RESIZE = 0#32) (hclient : win.client = some owner)
    (hwin : t.win = (svStartResize win w h).1)
    (hevents : t.events = (svStartResize win w h).2.toList)
    (hidle : t.answer = .idle) (hconf : confirmations (t.requests owner) = 0)
    (hlast : t.lastRequested initial = ⟨w,h⟩) :
    t.win.client = some owner ∧
        (t.Settled owner initial ∨ ∃ size, t.Resizing owner initial size) := by
  rw [svStartResize,if_neg (not_not.mpr hres)] at hwin hevents
  split at hwin
  · rename_i hsame
    rw [if_pos hsame] at hevents
    have hsizes : win.sizes = ⟨w,h⟩ := by rw [← hsame.1,← hsame.2]
    exact ⟨hwin ▸ hclient,.inl ⟨hwin ▸ hres,hwin ▸ hdel,hevents,hidle,hconf,hwin ▸
      hsizes.trans hlast.symm⟩⟩
  · rename_i hnew
    rw [if_neg hnew,hclient] at hevents
    have hdel' : t.win.flags &&& WIN_FLAGS_HAS_DELAYED_RESIZE = 0#32 := by
      rw [hwin]
      exact (or_and_of_disjoint (by decide)).trans hdel
    refine ⟨hwin ▸ hclient,.inr ⟨⟨w,h⟩,?_,.event hevents rfl hidle hconf,
      by rw [hlast,if_pos hdel']⟩⟩
    rw [hwin]
    exact (or_and_self _ _).trans_ne (by decide)

/-- Messages of the other kinds and a new delayed size leave the event where it is. -/
theorem OnTheWay.congr {owner : Ref} {s t : Handshake} {size : Sizes} (h : s.OnTheWay owner size)
    (hevents : t.events = s.events) (hanswer : t.answer = s.answer) (hgc : t.win.gc = s.win.gc)
    (hconf : confirmations (t.requests owner) = confirmations (s.requests owner)) :
    t.OnTheWay owner size := by
  cases h with
  | event he hs hi hc => exact .event (hevents.trans he) hs (hanswer.trans hi) (hconf.trans hc)
  | received he ha hc => exact .received (hevents.trans he) (hanswer.trans ha) (hconf.trans hc)
  | storedW he ha hw hc =>
    exact .storedW (hevents.trans he) (hanswer.trans ha) (hgc ▸ hw) (hconf.trans hc)
  | storedH he ha hw hh hc =>
    exact .storedH (hevents.trans he) (hanswer.trans ha) (hgc ▸ hw) (hgc ▸ hh) (hconf.trans hc)
  | stored he ha hw hh hc =>
    exact .stored (hevents.trans he) (hanswer.trans ha) (hgc ▸ hw) (hgc ▸ hh) (hconf.trans hc)
  | confirmed he hi hw hh hc =>
    exact .confirmed (hevents.trans he) (hanswer.trans hi) (hgc ▸ hw) (hgc ▸ hh) (hconf.trans hc)

theorem lastRequested_append {s : Handshake} {initial : Sizes} {cli : Ref} {size : Sizes}
    {before : List (Ref × Sizes)} (h : s.handled = before++[(cli,size)]) :
    s.lastRequested initial = size := by
  rw [lastRequested,h]
  simp

variable {owner : Ref} {initial : Sizes} {s t : Handshake}

theorem Inv.handle_initial (hs : s.Inv owner initial) {cli : Ref} {req : ResizeReq}
    {rest : List ResizeReq}
    (hreq : s.requests cli = req::rest) (hstage : req.stage = RESIZE_STAGE_INITIAL) :
    (s.handle cli req rest).win.client = some owner ∧
      ((s.handle cli req rest).Settled owner initial ∨ ∃ size,
        (s.handle cli req rest).Resizing owner initial size) := by
  have hlast : (s.handle cli req rest).lastRequested initial = ⟨req.w,req.h⟩ :=
    lastRequested_append (show (s.handle cli req rest).handled = s.handled++[(cli,⟨req.w,req.h⟩)] by
      simp only [handle,if_pos hstage])
  have hconf :
      confirmations ((s.handle cli req rest).requests owner) =
          confirmations (s.requests owner) := by
    by_cases hcli : owner = cli
    · subst hcli
      simp [handle,hreq,confirmations_cons,hstage]
    · simp [handle,Function.update_of_ne hcli]
  rcases hs.phase with h | ⟨size,h⟩
  · refine start_phase s.win _ _ h.not_in_resize h.not_delayed hs.client ?_ ?_ h.answer
      (hconf.trans h.confirmed) hlast
    · simp only [handle,handleResize,if_pos hstage]
    · simp only [handle,handleResize,if_pos hstage,h.events,List.nil_append]
  · have hstart : handleResize s.win req.stage req.w req.h =
        ({ s.win with
          delayedResizeSize := ⟨req.w,req.h⟩
          flags := s.win.flags ||| WIN_FLAGS_HAS_DELAYED_RESIZE },none) := by
      rw [handleResize,if_pos hstage,svStartResize,if_pos h.in_resize]
    refine ⟨?_,.inr ⟨size,?_,?_,?_⟩⟩
    · simp only [handle,hstart]
      exact hs.client
    · simp only [handle,hstart]
      rw [or_and_of_disjoint (by decide)]
      exact h.in_resize
    · refine h.onTheWay.congr ?_ rfl ?_ hconf <;> simp [handle,hstart]
    · rw [hlast]
      simp only [handle,hstart]
      rw [if_neg ((or_and_self _ _).trans_ne (by decide))]

/-- The server takes the confirmation, and resizes again if a size was delayed. -/
theorem Inv.handle_final (hs : s.Inv owner initial) {cli : Ref} {req : ResizeReq}
    {rest : List ResizeReq}
    (hreq : s.requests cli = req::rest) (hstage : req.stage ≠ RESIZE_STAGE_INITIAL) :
    (s.handle cli req rest).win.client = some owner ∧
      ((s.handle cli req rest).Settled owner initial ∨ ∃ size,
        (s.handle cli req rest).Resizing owner initial size) := by
  have hcount : confirmations (s.requests cli) = confirmations rest+1 := by
    rw [hreq,confirmations_cons,if_neg hstage]
  obtain rfl : cli = owner := by
    by_contra hne
    rw [hs.others cli hne] at hcount
    omega
  have hlast : (s.handle cli req rest).lastRequested initial = s.lastRequested initial := by
    simp only [lastRequested,handle,if_neg hstage]
  rcases hs.phase with h | ⟨size,h⟩
  · rw [h.confirmed] at hcount
    omega
  · obtain ⟨he,hi,hw,hh,hone⟩ : s.events = [] ∧ s.answer = .idle ∧ s.win.gc.w = size.w ∧
        s.win.gc.h = size.h ∧ confirmations (s.requests cli) = 1 := by
      cases h.onTheWay with
      | confirmed he hi hw hh hc => exact ⟨he,hi,hw,hh,hc⟩
      | _ => omega
    have hrest : confirmations ((s.handle cli req rest).requests cli) = 0 := by
      simp only [handle,Function.update_self]
      omega
    have happly : handleResize s.win req.stage req.w req.h = svApplySize s.win := by
      rw [handleResize,if_neg hstage]
    set win : Window := { s.win with
      oldDataSize := s.win.gc.dataSize
      sizes := ⟨s.win.gc.w,s.win.gc.h⟩
      flags := s.win.flags &&& ~~~WIN_FLAGS_IN_RESIZE } with hwin
    have hsizes : win.sizes = size := by rw [hwin,hw,hh]
    have hflags : win.flags &&& WIN_FLAGS_HAS_DELAYED_RESIZE = s.win.flags &&&
        WIN_FLAGS_HAS_DELAYED_RESIZE :=
      and_not_and_of_disjoint (by decide)
    by_cases hdel : s.win.flags &&& WIN_FLAGS_HAS_DELAYED_RESIZE = 0#32
    · have hret : svApplySize s.win = (win,none) := by
        rw [svApplySize,if_neg h.in_resize]
        simp only
        rw [← hwin,if_neg (by rw [hflags]; exact not_not.mpr hdel)]
      have hlast' : s.lastRequested initial = size := by rw [h.last,if_pos hdel]
      refine ⟨?_,.inl ⟨?_,?_,?_,hi,hrest,?_⟩⟩ <;> simp only [handle,happly,hret]
      · exact hs.client
      · exact and_not_and_self _ _
      · exact hflags.trans hdel
      · simp [he]
      · rw [hsizes,← hlast',← hlast]
        simp only [handle,happly,hret]
    · have hret : svApplySize s.win = svStartResize
          { win with flags := win.flags &&& ~~~WIN_FLAGS_HAS_DELAYED_RESIZE }
          s.win.delayedResizeSize.w s.win.delayedResizeSize.h := by
        rw [svApplySize,if_neg h.in_resize]
        simp only
        rw [← hwin,if_pos (by rw [hflags]; exact hdel)]
      refine start_phase { win with flags := win.flags &&& ~~~WIN_FLAGS_HAS_DELAYED_RESIZE }
        s.win.delayedResizeSize.w s.win.delayedResizeSize.h ?_ (and_not_and_self _ _) hs.client
        (by simp only [handle,happly,hret]) (by
          simp only [handle,happly,hret,he,List.nil_append]) hi hrest ?_
      · exact (and_not_and_of_disjoint (by decide)).trans (and_not_and_self _ _)
      · rw [hlast,h.last,if_neg hdel]

/-- The sizes asked for and not taken yet are those still in the socket. -/
theorem Inv.log_handle (hs : s.Inv owner initial) {cli : Ref} {req : ResizeReq}
    {rest : List ResizeReq} (hreq : s.requests cli = req::rest) (c : Ref) :
    s.sent.filter (·.1 = c) = (s.handle cli req rest).handled.filter (·.1 = c)++
      (((s.handle cli req rest).requests c).filter (·.stage = RESIZE_STAGE_INITIAL)).map fun req =>
      (c,⟨req.w,req.h⟩) := by
  rw [hs.log c]
  by_cases hc : c = cli
  · subst hc
    by_cases hstage : req.stage = RESIZE_STAGE_INITIAL <;> simp [handle,hreq,hstage]
  · by_cases hstage : req.stage = RESIZE_STAGE_INITIAL <;> simp [handle,hstage,hc,Ne.symm hc]

theorem Inv.handle (hs : s.Inv owner initial) {cli : Ref} {req : ResizeReq} {rest : List ResizeReq}
    (hreq : s.requests cli = req::rest) : (s.handle cli req rest).Inv owner initial := by
  obtain ⟨hclient,hphase⟩ : (s.handle cli req rest).win.client = some owner ∧
      ((s.handle cli req rest).Settled owner initial ∨ ∃ size,
        (s.handle cli req rest).Resizing owner initial size) := by
    by_cases hstage : req.stage = RESIZE_STAGE_INITIAL
    · exact hs.handle_initial hreq hstage
    · exact hs.handle_final hreq hstage
  refine ⟨hclient,fun c hc => ?_,hs.log_handle hreq,hphase⟩
  have hbefore := hs.others c hc
  by_cases hcli : c = cli
  · subst hcli
    rw [hreq,confirmations_cons] at hbefore
    simp only [Handshake.handle,Function.update_self]
    omega
  · simpa only [Handshake.handle,Function.update_of_ne hcli] using hbefore

theorem confirmations_push (cli c : Ref) (req : ResizeReq) :
    confirmations (s.push cli req c) = confirmations (s.requests c)+
      if c = cli ∧ req.stage ≠ RESIZE_STAGE_INITIAL then 1 else 0 := by
  by_cases hc : c = cli
  · subst hc
    rw [push,Function.update_self,confirmations_append]
    by_cases hstage : req.stage = RESIZE_STAGE_INITIAL <;> simp [hstage]
  · rw [push,Function.update_of_ne hc]
    simp [hc]

theorem Inv.resize (hs : s.Inv owner initial) (cli : Ref) (w h : BitVec 32) :
    Inv owner initial { s with
      requests := s.push cli ⟨RESIZE_STAGE_INITIAL,w,h⟩
      sent := s.sent++[(cli,⟨w,h⟩)] } := by
  have hconf :
      ∀ c, confirmations (s.push cli ⟨RESIZE_STAGE_INITIAL,w,h⟩ c) = confirmations (s.requests c) :=
    fun c => (confirmations_push cli c _).trans (by simp)
  refine ⟨hs.client,fun c hc => (hconf c).trans (hs.others c hc),fun c => ?_,?_⟩
  · rw [List.filter_append,hs.log c,List.append_assoc]
    by_cases hc : c = cli
    · subst hc
      simp [push]
    · simp [push,hc,Ne.symm hc]
  · rcases hs.phase with h | ⟨size,h⟩
    · exact .inl ⟨h.not_in_resize,h.not_delayed,h.events,h.answer,
        (hconf owner).trans h.confirmed,h.sizes⟩
    · exact .inr ⟨size,h.in_resize,h.onTheWay.congr rfl rfl rfl (hconf owner),h.last⟩

theorem Inv.advance (hs : s.Inv owner initial) (hbusy : ¬ s.Settled owner initial)
    (hclient : t.win.client = s.win.client) (hflags : t.win.flags = s.win.flags)
    (hdelayed : t.win.delayedResizeSize = s.win.delayedResizeSize)
    (hothers : ∀ c, c ≠ owner → t.requests c = s.requests c)
    (hinitial : (t.requests owner).filter (·.stage = RESIZE_STAGE_INITIAL) =
      (s.requests owner).filter (·.stage = RESIZE_STAGE_INITIAL))
    (hsent : t.sent = s.sent) (hhandled : t.handled = s.handled)
    (hway : ∀ size, s.OnTheWay owner size → t.OnTheWay owner size) : t.Inv owner initial := by
  refine ⟨hclient.trans hs.client,fun c hc => by rw [hothers c hc]; exact hs.others c hc,
    fun c => ?_,?_⟩
  · rw [hsent,hhandled,hs.log c]
    by_cases hc : c = owner
    · rw [hc,hinitial]
    · rw [hothers c hc]
  · obtain ⟨size,h⟩ := hs.phase.resolve_left hbusy
    refine .inr ⟨size,hflags ▸ h.in_resize,hway size h.onTheWay,?_⟩
    rw [hflags,hdelayed,← h.last,lastRequested,hhandled,lastRequested]

theorem Inv.step (hs : s.Inv owner initial) (hstep : Step owner s t) : t.Inv owner initial := by
  cases hstep with
  | resize cli w h => exact hs.resize cli w h
  | handle hreq => exact hs.handle hreq
  | receive hidle hevents hsize =>
    refine hs.advance (fun h => by simp [h.events] at hevents) rfl rfl rfl (fun _ _ =>
      rfl) rfl rfl rfl fun size h => ?_
    cases h with
    | event he hs hi hc =>
      obtain ⟨rfl,rfl⟩ := List.cons.inj (hevents.symm.trans he)
      obtain ⟨-,rfl⟩ := Payload.resize.inj (hsize.symm.trans hs)
      exact .received rfl rfl hc
    | _ => simp_all
  | storeW hat =>
    refine hs.advance (fun h => by simp [h.answer] at hat) rfl rfl rfl (fun _ _ =>
      rfl) rfl rfl rfl fun size h => ?_
    cases h with
    | received he ha hc =>
      obtain rfl := Answer.received.inj (hat.symm.trans ha)
      exact .storedW he rfl rfl hc
    | _ => simp_all
  | storeH hat =>
    refine hs.advance (fun h => by simp [h.answer] at hat) rfl rfl rfl (fun _ _ =>
      rfl) rfl rfl rfl fun size h => ?_
    cases h with
    | storedW he ha hw hc =>
      obtain rfl := Answer.storedW.inj (hat.symm.trans ha)
      exact .storedH he rfl hw rfl hc
    | _ => simp_all
  | storeLength hat =>
    refine hs.advance (fun h => by simp [h.answer] at hat) rfl rfl rfl (fun _ _ =>
      rfl) rfl rfl rfl fun size h => ?_
    cases h with
    | storedH he ha hw hh hc =>
      obtain rfl := Answer.storedH.inj (hat.symm.trans ha)
      exact .stored he rfl hw hh hc
    | _ => simp_all
  | confirm w h hat =>
    refine hs.advance (fun h => by simp [h.answer] at hat) rfl rfl rfl
      (fun c hc => Function.update_of_ne hc _ _) ?_ rfl rfl fun size h => ?_
    · simp [push,show RESIZE_STAGE_FINAL ≠ RESIZE_STAGE_INITIAL by decide]
    · cases h with
      | stored he ha hw hh hc =>
        refine .confirmed he rfl hw hh ((confirmations_push owner owner _).trans ?_)
        rw [hc,if_pos ⟨rfl,(by decide : RESIZE_STAGE_FINAL ≠ RESIZE_STAGE_INITIAL)⟩]
      | _ => simp_all

theorem Start.inv (h : Start owner s) : s.Inv owner s.win.sizes := by
  refine ⟨h.client,fun c _ => by rw [h.requests c]; rfl,fun c => ?_,.inl ?_⟩
  · rw [h.sent,h.handled,h.requests c]
    rfl
  · refine ⟨h.not_in_resize,h.not_delayed,h.events,h.answer,by rw [h.requests owner]; rfl,?_⟩
    rw [lastRequested,h.handled]
    rfl

theorem OnTheWay.unconfirmed {size : Sizes} (h : s.OnTheWay owner size) :
    s.unconfirmed owner = 1 := by
  cases h <;> simp_all [Handshake.unconfirmed]

theorem Settled.unconfirmed (h : s.Settled owner initial) : s.unconfirmed owner = 0 := by
  simp [Handshake.unconfirmed,h.events,h.answer,h.confirmed]

/-- In every state of a run: at most one RESIZE event is unconfirmed, and a size is delayed
only while one is. Where nothing is in flight, the window is not in resize and has the last
of the sizes asked for; the server has then taken each client's requests in the order in
which they were sent. -/
theorem resize_handshake {start : Handshake} (hstart : Start owner start)
    (hrun : Relation.ReflTransGen (Step owner) start s) :
    s.unconfirmed owner ≤ 1 ∧
    (s.win.flags &&& WIN_FLAGS_HAS_DELAYED_RESIZE ≠ 0#32 → s.unconfirmed owner = 1) ∧
    (s.Quiet → s.win.flags &&& WIN_FLAGS_IN_RESIZE = 0#32 ∧
      s.win.sizes = s.lastRequested start.win.sizes ∧
      ∀ cli, s.handled.filter (·.1 = cli) = s.sent.filter (·.1 = cli)) := by
  have hs : s.Inv owner start.win.sizes :=
    reach_invariant (fun _ _ hs hstep => hs.step hstep) hstart.inv hrun
  rcases hs.phase with h | ⟨size,h⟩
  · refine ⟨by rw [h.unconfirmed]; omega,fun hdel => absurd h.not_delayed hdel,fun hq =>
      ⟨h.not_in_resize,h.sizes,fun cli => ?_⟩⟩
    rw [hs.log cli,hq.requests cli]
    simp
  · have hone := h.onTheWay.unconfirmed
    refine ⟨hone.le,fun _ => hone,fun hq => ?_⟩
    simp [Handshake.unconfirmed,hq.events,hq.requests owner,hq.answer,confirmations] at hone

/-- The window of client `0`, 100 by 100, right after its creation. -/
def square : Handshake where
  win :=
    { id := 3
      client := some 0
      parent := none
      root := none
      gc := ⟨100,100,40000⟩
      oldDataSize := 40000
      flags := 3
      pos := ⟨0,0,0⟩
      layer := 0
      sizes := ⟨100,100⟩
      delayedResizeSize := ⟨0,0⟩
      children := []
      eventMask := 0 }
  events := []
  requests := fun _ => []
  answer := .idle
  sent := []
  handled := []

/-- The owner asks for 10 by 10, and another client for 20 by 20 before the owner has
answered. -/
theorem resize_handshake_delayed : ∃ s, Relation.ReflTransGen (Step 0) square s ∧
    s.handled = [(0,⟨10,10⟩),(1,⟨20,20⟩)] ∧ s.Quiet ∧ s.win.sizes = ⟨20,20⟩ := by
  have hstart : Start 0 square := ⟨rfl,by decide,by decide,rfl,fun _ => rfl,rfl,rfl,rfl⟩
  have hasked : Relation.ReflTransGen (Step 0) square _ :=
    (((Relation.ReflTransGen.refl.tail (.resize 0 10 10)).tail (@Step.handle 0 _ 0 _ [] rfl)).tail
      (.resize 1 20 20)).tail (@Step.handle 0 _ 1 _ [] rfl)
  have hfirst : Relation.ReflTransGen (Step 0) square _ :=
    ((((((hasked.tail (.receive rfl rfl rfl)).tail (.storeW rfl)).tail (.storeH rfl)).tail
      (.storeLength rfl)).tail (.confirm 0 0 rfl)).tail (@Step.handle 0 _ 0 _ [] rfl))
  have hsecond : Relation.ReflTransGen (Step 0) square _ :=
    ((((((hfirst.tail (.receive rfl rfl rfl)).tail (.storeW rfl)).tail (.storeH rfl)).tail
      (.storeLength rfl)).tail (.confirm 0 0 rfl)).tail (@Step.handle 0 _ 0 _ [] rfl))
  refine ⟨_,hsecond,rfl,?_⟩
  suffices hquiet : _ from ⟨hquiet,((resize_handshake hstart hsecond).2.2 hquiet).2.1.trans rfl⟩
  refine ⟨rfl,fun cli => ?_,rfl⟩
  match cli with
  | 0 => rfl
  | 1 => rfl
  | _+2 => rfl

end Handshake
end Compose
end ScalesOS
