import ScalesOS.Compositor

/-!
# Requests as bytes

What the server does with the bytes of a client before they are a request: the block that is
allocated for the announced size, the two reads that fill it and the fields that the handler
takes out of it. An access behind the announced size stops the run.
-/

namespace ScalesOS
namespace Compose

abbrev Byte := BitVec 8

/-- Why a run over the bytes stops: an access outside the request, no memory for it, or a fault
of the server. -/
inductive Stop
  | outside
  | memory
  | fault (f : Fault)
  deriving DecidableEq, Repr

abbrev Run (α : Type) := Except Stop α

def lift {α : Type} : Result α → Run α
  | .ok a => .ok a
  | .error f => .error (.fault f)

/-- An access to `n` bytes of the request from `off` on. -/
def inside {α : Type} (req : List Byte) (off n : ℕ) (a : α) : Run α :=
  if off+n ≤ req.length then pure a else throw .outside

def byteAt (req : List Byte) (off : ℕ) : Byte := req.getD off 0

def wordAt (req : List Byte) (off : ℕ) : BitVec 32 :=
  byteAt req (off+3)++byteAt req (off+2)++byteAt req (off+1)++byteAt req off

def longAt (req : List Byte) (off : ℕ) : BitVec 64 := wordAt req (off+4)++wordAt req off

def word (req : List Byte) (off : ℕ) : Run (BitVec 32) := inside req off 4 (wordAt req off)

/-- The values of `type`. -/
inductive Kind
  | move | resize | event | newwin | evmask | grab | focus | disconnect | props | keepalive | other
  deriving DecidableEq, Repr

/-- The labels of the `switch`; two kinds of requests have none. -/
def kindOf (type : BitVec 32) : Kind :=
  match type.toNat with
  | 1 => .move
  | 3 => .resize
  | 4 => .event
  | 5 => .newwin
  | 7 => .evmask
  | 8 => .grab
  | 9 => .focus
  | 10 => .disconnect
  | 11 => .props
  | 12 => .keepalive
  | _ => .other

/-- `window_properties_t` -/
def propsAt (req : List Byte) (off : ℕ) : Props :=
  ⟨wordAt req off,wordAt req (off+4),wordAt req (off+8),wordAt req (off+12),wordAt req (off+16),
    longAt req (off+20)⟩

/-- The bytes that are written to a client's socket, as many as the event in the request says. -/
def eventBytes (req : List Byte) : List Byte := (req.drop 12).take (wordAt req 20).toNat

namespace Server

/-- `compose_sv_event_send` of the event in the request; `event` is what its bytes are to the
client. -/
def sendBytes (event : List Byte → Event) (req : List Byte) (srv : Server) (cli : Ref) :
    Run Server := do
  let size ← word req 20
  let bytes ← inside req 12 size.toNat (eventBytes req)
  lift (srv.svEventSend cli (event bytes))

def onWindow (srv : Server) (id : Id) (f : Ref → Run Server) : Run Server := do
  match ← lift (srv.svGetWindow id) with
  | none => pure srv
  | some r => f r

/-- `compose_sv_handle_request` -/
def handleBytes (event : List Byte → Event) (srv : Server) (cli : Ref) (req : List Byte) :
    Run Server := do
  let type ← word req 0
  match kindOf type with
  | .move => do
    let win ← word req 8
    srv.onWindow win fun r => do
      let x ← word req 16
      let y ← word req 20
      let z ← word req 24
      let flags ← inside req 12 1 (byteAt req 12)
      lift (srv.svMove r x y z flags)
  | .resize => do
    let win ← word req 8
    srv.onWindow win fun r => do
      let stage ← inside req 12 1 (byteAt req 12)
      if stage = RESIZE_STAGE_INITIAL then do
        let w ← word req 16
        let h ← word req 20
        let win ← lift (srv.deref (some r))
        lift (srv.resized r (svStartResize win w h))
      else do
        let win ← lift (srv.deref (some r))
        lift (srv.resized r (svApplySize win))
  | .event => do
    let target ← word req 8
    if target = 0 then srv.clients.foldlM (sendBytes event req) srv
    else do
      match ← lift (srv.svGetClient target) with
      | none => pure srv
      | some trg => sendBytes event req srv trg
  | .newwin => do
    let parent ← word req 8
    let par ← lift (srv.svGetWindow parent)
    let props ← inside req 12 28 (propsAt req 12)
    lift (srv.svCreateWindow (some cli) par props)
  | .evmask => do
    let win ← word req 8
    srv.onWindow win fun r => do
      let mask ← inside req 12 8 (longAt req 12)
      let win ← lift (srv.deref (some r))
      pure (srv.store r { win with eventMask := mask })
  | .grab => do
    let type ← inside req 12 8 (longAt req 12)
    let win ← word req 8
    let window ← lift (srv.svGetWindow win)
    pure { srv with grabs := srv.grabs++[⟨type,cli,window⟩] }
  | .focus => do
    let win ← word req 8
    let win ← lift (srv.svGetWindow win)
    lift (srv.svFocus win)
  | .disconnect => pure { srv with removeQueue := srv.removeQueue++[cli] }
  | .props => do
    let win ← word req 8
    let win ← lift (srv.svGetWindow win)
    lift (srv.svSendProps cli win)
  | .keepalive => pure srv
  | .other => pure srv

end Server

/-- What the surroundings contribute to a poll: how many bytes the two reads return, what the
header on the stack and the new block held before, and whether there is memory. -/
structure Delivery where
  first : ℕ
  second : ℕ
  stack : ℕ → Byte
  fill : ℕ → Byte
  memory : Bool

namespace Delivery

variable (d : Delivery) (input : List Byte)

/-- The first read returns at most a header and no more than there is. -/
def received : ℕ := min (min d.first 8) input.length

/-- `tmpreq` after the first read. -/
def header : List Byte := (List.range 8).map fun i => if i < d.received input then
    byteAt input i else d.stack i

/-- `tmpreq.size` -/
def announced : ℕ := (wordAt (d.header input) 4).toNat

def body : ℕ := min (min d.second (d.announced input-8)) (input.length-d.received input)

/-- The block of the announced size with the header, the body and what it held before. -/
def contents : List Byte :=
  (List.range (d.announced input)).map fun i =>
    if i < 8 then byteAt (d.header input) i
    else if i-8 < d.body input then byteAt input (d.received input+(i-8))
    else d.fill i

end Delivery

/-- `compose_sv_request_poll`: the request, if there is one, and what is left of the stream. -/
def svRequestPoll (d : Delivery) (input : List Byte) : Run (Option (List Byte) × List Byte) :=
  if d.received input = 0 then pure (none,input)
  else if !d.memory then throw .memory
  -- the header is copied into the block in any case
  else if d.announced input < 8 then throw .outside
  else pure (some (d.contents input),input.drop (d.received input+d.body input))

/-- The loop of `compose_sv_tick` over the requests of a client, with what each poll is given. -/
def serve (event : List Byte → Event) (cli : Ref) : List Delivery → List Byte → Server → Run Server
  | [],_,srv => pure srv
  | d::ds,input,srv => do
    let (req,input) ← svRequestPoll d input
    match req with
    | none => pure srv
    | some req => do
      let srv ← srv.handleBytes event cli req
      serve event cli ds input srv

def eventEnd (req : List Byte) : ℕ := max 24 (12+(wordAt req 20).toNat)

def Server.finds (srv : Server) (id : Id) : Bool :=
  match srv.svGetWindow id with
  | .ok (some _) => true
  | _ => false

def Server.reach (srv : Server) (req : List Byte) : ℕ :=
  match kindOf (wordAt req 0) with
  | .move => if srv.finds (wordAt req 8) then 28 else 12
  | .resize =>
    if srv.finds (wordAt req 8) then if byteAt req 12 = RESIZE_STAGE_INITIAL then 24 else 13 else 12
  | .event =>
    if wordAt req 8 = 0 then if srv.clients = [] then 12 else eventEnd req
    else match srv.svGetClient (wordAt req 8) with
      | .ok (some _) => eventEnd req
      | _ => 12
  | .newwin => match srv.svGetWindow (wordAt req 8) with
    | .ok _ => 40
    | .error _ => 12
  | .evmask => if srv.finds (wordAt req 8) then 20 else 12
  | .grab => 20
  | .focus | .props => 12
  | .disconnect | .keepalive | .other => 4

def requestOf (event : List Byte → Event) (req : List Byte) : Option Request :=
  match kindOf (wordAt req 0) with
  | .move => some (.move (wordAt req 8) (byteAt req 12) (wordAt req 16) (wordAt req 20)
      (wordAt req 24))
  | .resize => some (.resize (wordAt req 8) (byteAt req 12) (wordAt req 16) (wordAt req 20))
  | .event => some (.event (wordAt req 8) (event (eventBytes req)))
  | .newwin => some (.newwin (wordAt req 8) (propsAt req 12))
  | .evmask => some (.evmask (wordAt req 8) (longAt req 12))
  | .grab => some (.grab (wordAt req 8) (longAt req 12))
  | .focus => some (.focus (wordAt req 8))
  | .disconnect => some .disconnect
  | .props => some (.props (wordAt req 8))
  | .keepalive => some .keepalive
  | .other => none

def Server.handleSome (srv : Server) (cli : Ref) : Option Request → Result Server
  | some req => srv.svHandleRequest cli req
  | none => pure srv

section Accesses

variable {α β : Type} {req : List Byte} {off n : ℕ} {a : α}

theorem inside_ok (h : off+n ≤ req.length) : inside req off n a = .ok a := if_pos h

theorem inside_outside (h : req.length < off+n) : inside req off n a = .error .outside :=
  if_neg (by omega)

theorem word_ok (h : off+4 ≤ req.length) : word req off = .ok (wordAt req off) := inside_ok h

theorem word_outside (h : req.length < off+4) : word req off = .error .outside := inside_outside h

theorem lift_bind (x : Result α) (f : α → Result β) : lift (x >>= f) = lift x >>= fun a =>
    lift (f a) := by
  cases x <;> rfl

@[simp] theorem run_ok (a : α) (f : α → Run β) : ((.ok a : Run α) >>= f) = f a := rfl

@[simp] theorem run_error (e : Stop) (f : α → Run β) : ((.error e : Run α) >>= f) = .error e := rfl

end Accesses

namespace Server

variable {event : List Byte → Event} {srv : Server} {cli : Ref} {req : List Byte}

theorem sendBytes_ok (h : eventEnd req ≤ req.length) (srv : Server) (cli : Ref) :
    sendBytes event req srv cli = lift (srv.svEventSend cli (event (eventBytes req))) := by
  rw [eventEnd] at h
  rw [sendBytes,word_ok (by omega),run_ok,inside_ok (by omega),run_ok]

theorem sendBytes_outside (h : req.length < eventEnd req) (srv : Server) (cli : Ref) :
    sendBytes event req srv cli = .error .outside := by
  rw [eventEnd] at h
  rw [sendBytes]
  rcases lt_or_ge req.length (20+4) with h24 | h24
  · rw [word_outside h24,run_error]
  · rw [word_ok h24,run_ok,inside_outside (by omega),run_error]

theorem sendToAll_ok (h : eventEnd req ≤ req.length) (srv : Server) (clients : List Ref) :
    clients.foldlM (sendBytes event req) srv =
      lift (clients.foldlM (fun srv cli => srv.svEventSend cli (event (eventBytes req))) srv) := by
  induction clients generalizing srv with
  | nil => rfl
  | cons cli clients ih =>
    rw [List.foldlM_cons,List.foldlM_cons,lift_bind,sendBytes_ok h]
    congr 1
    funext srv
    exact ih srv

theorem onWindow_lift {id : Id} {f : Ref → Run Server} {g : Ref → Result Server}
    (h : srv.finds id = true → ∀ r, f r = lift (g r)) :
    srv.onWindow id f = lift (srv.withWindow id g) := by
  rw [onWindow,withWindow,lift_bind]
  cases hwin : srv.svGetWindow id with
  | error e => rfl
  | ok found =>
    cases found with
    | none => rfl
    | some r => exact h (by simp [finds,hwin]) r

theorem onWindow_outside {id : Id} {f : Ref → Run Server} (hfinds : srv.finds id = true)
    (h : ∀ r, f r = .error .outside) : srv.onWindow id f = .error .outside := by
  rw [finds] at hfinds
  rw [onWindow]
  split at hfinds
  · rename_i r hwin
    rw [hwin]
    exact h r
  · cases hfinds

theorem four_le_reach (srv : Server) (req : List Byte) : 4 ≤ srv.reach req := by
  have hevent : 4 ≤ eventEnd req := (show 4 ≤ 24 by decide).trans (le_max_left _ _)
  rw [reach]
  repeat' split
  all_goals omega

/-- A request that holds what the handler takes out of it is handled as the request it is. -/
theorem handleBytes_inside (h : srv.reach req ≤ req.length) :
    srv.handleBytes event cli req = lift (srv.handleSome cli (requestOf event req)) := by
  have h4 := (four_le_reach srv req).trans h
  rw [handleBytes,word_ok (by omega),run_ok,requestOf]
  rw [reach] at h
  cases hkind : kindOf (wordAt req 0) with
  | move =>
    simp only [hkind] at h ⊢
    have h12 : 12 ≤ req.length := by split at h <;> omega
    rw [word_ok (by omega),run_ok]
    refine onWindow_lift fun hfinds r => ?_
    rw [if_pos hfinds] at h
    rw [word_ok (by omega),run_ok,word_ok (by omega),run_ok,word_ok (by omega),run_ok,
      inside_ok (by omega),run_ok]
  | resize =>
    simp only [hkind] at h ⊢
    have h12 : 12 ≤ req.length := by (repeat' split at h) <;> omega
    rw [word_ok (by omega),run_ok]
    refine onWindow_lift fun hfinds r => ?_
    rw [if_pos hfinds] at h
    rw [inside_ok (by split at h <;> omega),run_ok,lift_bind]
    split at h
    · rename_i hstage
      rw [if_pos hstage,word_ok (by omega),run_ok,word_ok (by omega),run_ok]
      simp only [handleResize,if_pos hstage]
    · rename_i hstage
      rw [if_neg hstage]
      simp only [handleResize,if_neg hstage]
  | event =>
    simp only [hkind] at h ⊢
    have hend : 24 ≤ eventEnd req := le_max_left _ _
    have h12 : 12 ≤ req.length := by (repeat' split at h) <;> omega
    rw [word_ok (by omega),run_ok,handleSome,svHandleRequest]
    split at h
    · rename_i hall
      rw [if_pos hall,if_pos hall]
      split at h
      · rename_i hnone
        rw [svEventSendToAll,hnone]
        rfl
      · exact sendToAll_ok h srv srv.clients
    · rename_i hone
      rw [if_neg hone,if_neg hone,lift_bind]
      cases htrg : srv.svGetClient (wordAt req 8) with
      | error e => rfl
      | ok found =>
        cases found with
        | none => rfl
        | some trg =>
          rw [htrg] at h
          exact sendBytes_ok h srv trg
  | newwin =>
    simp only [hkind] at h ⊢
    have h12 : 12 ≤ req.length := by split at h <;> omega
    rw [word_ok (by omega),run_ok,handleSome,svHandleRequest,lift_bind]
    split at h
    · rename_i par hwin
      rw [hwin]
      simp only [lift,run_ok]
      rw [inside_ok (by omega),run_ok]
    · rename_i hwin
      rw [hwin]
      rfl
  | evmask =>
    simp only [hkind] at h ⊢
    have h12 : 12 ≤ req.length := by split at h <;> omega
    rw [word_ok (by omega),run_ok]
    refine onWindow_lift fun hfinds r => ?_
    rw [if_pos hfinds] at h
    rw [inside_ok (by omega),run_ok,lift_bind]
    rfl
  | grab =>
    simp only [hkind] at h ⊢
    rw [inside_ok (by omega),run_ok,word_ok (by omega),run_ok,handleSome,svHandleRequest,lift_bind]
    rfl
  | focus =>
    simp only [hkind] at h ⊢
    rw [word_ok (by omega),run_ok,handleSome,svHandleRequest,lift_bind]
  | props =>
    simp only [hkind] at h ⊢
    rw [word_ok (by omega),run_ok,handleSome,svHandleRequest,lift_bind]
  | disconnect => rfl
  | keepalive => rfl
  | other => rfl

theorem finds_of_lt {id : Id} {n : ℕ} (h12 : 12 ≤ req.length)
    (h : req.length < if srv.finds id then n else 12) :
    srv.finds id = true ∧ req.length < n := by
  split at h
  · rename_i hfinds
    exact ⟨hfinds,h⟩
  · omega

/-- A request that ends before a field that the handler takes out of it is read behind its end. -/
theorem handleBytes_outside (h : req.length < srv.reach req) :
    srv.handleBytes event cli req = .error .outside := by
  rw [handleBytes]
  rcases lt_or_ge req.length (0+4) with h4 | h4
  · rw [word_outside h4,run_error]
  rw [word_ok h4,run_ok]
  rw [reach] at h
  -- all but three kinds start with the word behind the header
  have hfirst {f : BitVec 32 → Run Server} (hf : 12 ≤ req.length →
    f (wordAt req 8) = .error .outside) :
      (word req 8 >>= f) = .error .outside := by
    rcases lt_or_ge req.length (8+4) with h12 | h12
    · rw [word_outside h12,run_error]
    · rw [word_ok h12,run_ok,hf h12]
  cases hkind : kindOf (wordAt req 0) with
  | move =>
    simp only [hkind] at h ⊢
    refine hfirst fun h12 => ?_
    obtain ⟨hfinds,h⟩ := finds_of_lt h12 h
    refine onWindow_outside hfinds fun r => ?_
    rcases lt_or_ge req.length (16+4) with h20 | h20
    · rw [word_outside h20,run_error]
    rw [word_ok h20,run_ok]
    rcases lt_or_ge req.length (20+4) with h24 | h24
    · rw [word_outside h24,run_error]
    rw [word_ok h24,run_ok,word_outside (by omega),run_error]
  | resize =>
    simp only [hkind] at h ⊢
    refine hfirst fun h12 => ?_
    obtain ⟨hfinds,h⟩ := finds_of_lt h12 h
    refine onWindow_outside hfinds fun r => ?_
    rcases lt_or_ge req.length (12+1) with h13 | h13
    · rw [inside_outside h13,run_error]
    rw [inside_ok h13,run_ok]
    split at h
    · rename_i hstage
      rw [if_pos hstage]
      rcases lt_or_ge req.length (16+4) with h20 | h20
      · rw [word_outside h20,run_error]
      rw [word_ok h20,run_ok,word_outside (by omega),run_error]
    · omega
  | event =>
    simp only [hkind] at h ⊢
    refine hfirst fun h12 => ?_
    split at h
    · rename_i hall
      rw [if_pos hall]
      split at h
      · omega
      · rename_i hsome
        obtain ⟨cli,clients,hclients⟩ := List.exists_cons_of_ne_nil hsome
        rw [hclients,List.foldlM_cons,sendBytes_outside h,run_error]
    · rename_i hone
      rw [if_neg hone]
      split at h
      · rename_i trg htrg
        rw [htrg]
        exact sendBytes_outside h srv trg
      · omega
  | newwin =>
    simp only [hkind] at h ⊢
    refine hfirst fun h12 => ?_
    split at h
    · rename_i par hwin
      rw [hwin]
      simp only [lift,run_ok]
      rw [inside_outside (by omega),run_error]
    · omega
  | evmask =>
    simp only [hkind] at h ⊢
    refine hfirst fun h12 => ?_
    obtain ⟨hfinds,h⟩ := finds_of_lt h12 h
    exact onWindow_outside hfinds fun r => by rw [inside_outside (by omega),run_error]
  | grab =>
    simp only [hkind] at h ⊢
    rw [inside_outside (by omega),run_error]
  | focus =>
    simp only [hkind] at h ⊢
    exact hfirst fun h12 => by omega
  | props =>
    simp only [hkind] at h ⊢
    exact hfirst fun h12 => by omega
  | disconnect => simp only [hkind] at h; omega
  | keepalive => simp only [hkind] at h; omega
  | other => simp only [hkind] at h; omega

/-- The next request has room for its header and for what the handler takes out of it. -/
def Fits (srv : Server) (d : Delivery) (input : List Byte) : Prop :=
  8 ≤ d.announced input ∧ srv.reach (d.contents input) ≤ d.announced input

end Server

/-- Each request of the stream has room, in the state that the requests before it lead to. -/
def AllFit (event : List Byte → Event) (cli : Ref) : List Delivery → List Byte → Server → Prop
  | [],_,_ => True
  | d::ds,input,srv => d.received input = 0 ∨ d.memory = false ∨ srv.Fits d input ∧
      ∀ srv', srv.handleSome cli (requestOf event (d.contents input)) = .ok srv' →
        AllFit event cli ds (input.drop (d.received input+d.body input)) srv'

@[simp] theorem contents_length (d : Delivery) (input : List Byte) :
    (d.contents input).length = d.announced input := by
  simp [Delivery.contents]

/-- A poll that returns a request, and the handling of that request. -/
theorem serve_cons (event : List Byte → Event) (cli : Ref) (ds : List Delivery) {d : Delivery}
    {input : List Byte} (srv : Server) (hsome : d.received input ≠ 0) (hmemory : d.memory = true)
    (hlong : 8 ≤ d.announced input) :
    serve event cli (d::ds) input srv = srv.handleBytes event cli (d.contents input) >>=
      serve event cli ds (input.drop (d.received input+d.body input)) := by
  rw [serve,svRequestPoll,if_neg hsome,hmemory,Bool.not_true,if_neg Bool.false_ne_true,
    if_neg (by omega)]
  rfl

/-- Whatever bytes a client sends, the requests are read and written inside the announced size if
and only if each of them has room for its header and the fields that are taken out of it. -/
theorem serve_inside_iff (event : List Byte → Event) (cli : Ref) (ds : List Delivery)
    (input : List Byte) (srv : Server) :
    serve event cli ds input srv ≠ .error .outside ↔ AllFit event cli ds input srv := by
  induction ds generalizing input srv with
  | nil => simp [serve,AllFit,pure,Except.pure]
  | cons d ds ih =>
    rw [AllFit]
    by_cases hnone : d.received input = 0
    · simp [serve,svRequestPoll,hnone,pure,Except.pure]
    cases hmemory : d.memory with
    | false => simp [serve,svRequestPoll,hnone,hmemory,throw,throwThe,MonadExceptOf.throw]
    | true =>
      rcases lt_or_ge (d.announced input) 8 with hshort | hlong
      · simp [serve,svRequestPoll,hnone,hmemory,hshort,Server.Fits,throw,throwThe,
          MonadExceptOf.throw]
      rw [serve_cons event cli ds srv hnone hmemory hlong]
      rcases lt_or_ge (d.announced input) (srv.reach (d.contents input)) with hbehind | hfits
      · have houtside : srv.handleBytes event cli (d.contents input) = .error .outside :=
          Server.handleBytes_outside (by rwa [contents_length])
        simp [houtside,hnone,Server.Fits,Nat.not_le.mpr hbehind]
      · have hhandle : srv.handleBytes event cli (d.contents input) =
            lift (srv.handleSome cli (requestOf event (d.contents input))) :=
          Server.handleBytes_inside (by rwa [contents_length])
        rw [hhandle]
        cases hafter : srv.handleSome cli (requestOf event (d.contents input)) with
        | error f => simp [lift,Server.Fits,hlong,hfits]
        | ok srv' => simp [lift,Server.Fits,hlong,hfits,hnone,ih]

/-- The first client of a new server announces a request of four bytes, or a grab that is no
longer than its header. -/
theorem short_requests_overflow :
    ∃ srv, (Server.svCreate 640 480 >>= Server.acceptClient) = .ok srv ∧ srv.clients = [2] ∧
      serve (fun _ => ⟨0,0,0,0,.plain⟩) 2 [⟨8,0,fun _ => 0,fun _ => 0,true⟩] [12,0,0,0,4,0,0,
        0] srv = .error .outside ∧
      serve (fun _ => ⟨0,0,0,0,.plain⟩) 2 [⟨8,0,fun _ => 0,fun _ => 0,true⟩] [8,0,0,0,8,0,0,
        0] srv = .error .outside :=
  ⟨_,rfl,rfl,rfl,rfl⟩

end Compose
end ScalesOS
