import ScalesOS.Machine
import Mathlib.Data.List.DropRight

/-!
# The compositor

The server side of `libcompose`. Windows, clients and grabs are heap objects that the
server's lists, the windows and the input focus point to; the address of a freed object
is not given out again, and going through a null pointer or a pointer to a freed object
stops the program. What the server writes to a client's socket waits in `events` until the
client reads it.
-/

namespace ScalesOS
namespace Compose

/-- The address of a window or a client. -/
abbrev Ref := ℕ

abbrev Id := BitVec 32

structure Position where
  x : BitVec 32
  y : BitVec 32
  z : BitVec 32
  deriving DecidableEq, Repr

structure Sizes where
  w : BitVec 32
  h : BitVec 32
  deriving DecidableEq, Repr

/-- `compose_gc_t`, which server and client map, without the name of the buffer. -/
structure Gc where
  w : BitVec 32
  h : BitVec 32
  dataSize : BitVec 32
  deriving DecidableEq, Repr

structure Window where
  id : Id
  client : Option Ref
  parent : Option Ref
  root : Option Ref
  gc : Gc
  oldDataSize : BitVec 32
  flags : BitVec 32
  pos : Position
  layer : BitVec 32
  sizes : Sizes
  delayedResizeSize : Sizes
  children : List Ref
  eventMask : BitVec 64
  deriving DecidableEq, Repr

structure Client where
  id : Id
  deriving DecidableEq, Repr

structure Grab where
  type : BitVec 64
  client : Ref
  window : Option Ref
  deriving DecidableEq, Repr

structure Props where
  x : BitVec 32
  y : BitVec 32
  w : BitVec 32
  h : BitVec 32
  flags : BitVec 32
  eventMask : BitVec 64
  deriving DecidableEq, Repr

def WIN_FLAGS_IN_RESIZE : BitVec 32 := 4#32
def WIN_FLAGS_HAS_DELAYED_RESIZE : BitVec 32 := 8#32

def EVENT_RESIZE : BitVec 64 := 8#64
def EVENT_MOVE : BitVec 64 := 16#64
def EVENT_WIN : BitVec 64 := 32#64
def EVENT_CNN : BitVec 64 := 64#64
def EVENT_FOCUS : BitVec 64 := 128#64
def EVENT_UNFOCUS : BitVec 64 := 256#64
def EVENT_PROPS : BitVec 64 := 512#64
def EVENT_KEEPALIVE : BitVec 64 := 1024#64

def MOVE_X : BitVec 8 := 1#8
def MOVE_Y : BitVec 8 := 2#8
def MOVE_Z : BitVec 8 := 4#8
def MOVE_RAISE : BitVec 8 := 8#8
def MOVE_SUNK : BitVec 8 := 16#8

def RESIZE_STAGE_INITIAL : BitVec 8 := 1#8
def RESIZE_STAGE_FINAL : BitVec 8 := 2#8

inductive Payload
  | plain
  | connect (overlay : Id)
  | move (oldPos newPos : Position)
  | resize (oldSize newSize : Sizes)
  | props (props : Props)
  deriving DecidableEq, Repr

/-- Fields that a sender leaves unset are 0. -/
structure Event where
  type : BitVec 64
  win : Id
  child : Id
  root : Id
  payload : Payload
  deriving DecidableEq, Repr

def svStartResize (win : Window) (w h : BitVec 32) : Window × Option Event :=
  if win.flags &&& WIN_FLAGS_IN_RESIZE ≠ 0#32 then
    ({ win with delayedResizeSize := ⟨w,h⟩, flags := win.flags ||| WIN_FLAGS_HAS_DELAYED_RESIZE },
      none)
  else if win.sizes.w = w ∧ win.sizes.h = h then (win,none)
  else
    ({ win with flags := win.flags ||| WIN_FLAGS_IN_RESIZE },
      if win.client.isSome then some ⟨EVENT_RESIZE,win.id,0,0,.resize win.sizes ⟨w,h⟩⟩ else none)

def svApplySize (win : Window) : Window × Option Event :=
  if win.flags &&& WIN_FLAGS_IN_RESIZE = 0#32 then (win,none)
  else
    let win := { win with
      oldDataSize := win.gc.dataSize
      sizes := ⟨win.gc.w,win.gc.h⟩
      flags := win.flags &&& ~~~WIN_FLAGS_IN_RESIZE }
    if win.flags &&& WIN_FLAGS_HAS_DELAYED_RESIZE ≠ 0#32 then
      let win := { win with flags := win.flags &&& ~~~WIN_FLAGS_HAS_DELAYED_RESIZE }
      svStartResize win win.delayedResizeSize.w win.delayedResizeSize.h
    else (win,none)

/-- The branch of the request handler for `COMPOSE_REQ_RESIZE`. -/
def handleResize (win : Window) (stage : BitVec 8) (w h : BitVec 32) : Window × Option Event :=
  if stage = RESIZE_STAGE_INITIAL then svStartResize win w h else svApplySize win

/-- `compose_server_t` with the input focus and the heap. -/
structure Server where
  clientId : Id
  windowId : Id
  root : Option Ref
  overlay : Option Ref
  clients : List Ref
  removeQueue : List Ref
  windows : List Ref
  grabs : List Grab
  inputFocus : Option Ref
  window : Ref → Option Window
  client : Ref → Option Client
  fresh : Ref
  events : Ref → List Event

/-- The insertion sort of the list module: in each round the entries at the end of the
sorted part for which the predicate holds move up by one. -/
def listSort {α : Type} (predicate : α → α → Bool) (list : List α) : List α :=
  list.foldl (fun sorted key =>
    sorted.rdropWhile (predicate · key)++key::sorted.rtakeWhile (predicate · key)) []

namespace Server

def deref (srv : Server) : Option Ref → Result Window
  | none => throw (.panic "null window")
  | some r => match srv.window r with
    | some win => pure win
    | none => throw (.panic "freed window")

def derefClient (srv : Server) (cli : Ref) : Result Client :=
  match srv.client cli with
  | some c => pure c
  | none => throw (.panic "freed client")

def store (srv : Server) (r : Ref) (win : Window) : Server :=
  { srv with window := Function.update srv.window r (some win) }

def when (condition : Bool) (f : Server → Result Server) (srv : Server) : Result Server :=
  if condition then f srv else pure srv

def svEventSend (srv : Server) (cli : Ref) (event : Event) : Result Server := do
  let _ ← srv.derefClient cli
  pure { srv with events := Function.update srv.events cli (srv.events cli++[event]) }

/-- The sends under `if(win->client)`. -/
def sendTo (srv : Server) (cli : Option Ref) (event : Event) : Result Server :=
  match cli with
  | some cli => srv.svEventSend cli event
  | none => pure srv

def svEventSendToAll (srv : Server) (event : Event) : Result Server :=
  srv.clients.foldlM (fun srv cli => srv.svEventSend cli event) srv

/-- The loop of `__get_grab`. -/
def getGrab (srv : Server) (root : Window) (event : Event) : List Grab → Result (Option Grab)
  | [] => pure none
  | gr::grabs =>
    if gr.type &&& event.type ≠ 0#64 then do
      let win ← srv.deref gr.window
      if win.id = root.id then pure (some gr) else srv.getGrab root event grabs
    else srv.getGrab root event grabs

def eventPropagate : ℕ → Server → Ref → Event → Result Server
  | 0, _, _, _ => throw .loop
  | fuel+1, srv, root, event => do
    let win ← srv.deref (some root)
    let gr ← srv.getGrab win event srv.grabs
    let masked := win.eventMask &&& event.type ≠ 0#64
    let event := if masked ∨ gr.isSome then { event with win := win.id } else event
    let srv ← srv.sendTo (if masked then win.client else none) event
    let srv ← srv.sendTo (gr.map Grab.client) event
    match win.parent with
    | some parent => eventPropagate fuel srv parent { event with child := win.id }
    | none => pure srv

def svEventPropagate (srv : Server) (root : Ref) (event : Event) : Result Server :=
  eventPropagate srv.fresh srv root event

def rootId (srv : Server) (win : Window) (default : Id) : Result Id :=
  match win.root with
  | some root => do
    let root ← srv.deref (some root)
    pure root.id
  | none => pure default

/-- The two halves of `compose_sv_focus`. -/
def sendFocus (srv : Server) (type : BitVec 64) : Option Ref → Result Server
  | some r => do
    let win ← srv.deref (some r)
    let root ← srv.rootId win 1
    srv.svEventPropagate r ⟨type,win.id,0,root,.plain⟩
  | none => pure srv

def svFocus (srv : Server) (win : Option Ref) : Result Server := do
  let srv ← srv.sendFocus EVENT_UNFOCUS srv.inputFocus
  let win := win <|> srv.root
  { srv with inputFocus := win }.sendFocus EVENT_FOCUS win

def svSendProps (srv : Server) (cli : Ref) (win : Option Ref) : Result Server := do
  let win ← srv.deref win
  let root ← srv.rootId win win.id
  srv.svEventSend cli ⟨EVENT_PROPS,win.id,0,root,
    .props ⟨win.pos.x,win.pos.y,win.sizes.w,win.sizes.h,win.flags,win.eventMask⟩⟩

def sortWindows (srv : Server) (predicate : Window → Window → Bool) (windows : List Ref) :
    Result (List Ref) :=
  if windows.all fun r => (srv.window r).isSome then
    pure (listSort (fun a b => match srv.window a, srv.window b with
      | some a, some b => predicate a b
      | _, _ => false) windows)
  else throw (.panic "freed window")

def sortByZ (a b : Window) : Bool := b.pos.z.slt a.pos.z

/-- `__compose_sort_windows_list`. -/
def sortByLayer (a b : Window) : Bool :=
  if a.layer = b.layer then b.pos.z.slt a.pos.z else b.layer.slt a.layer

/-- `compose_sv_restack` of the children of a window. -/
def restack : ℕ → Server → Ref → Result Server
  | 0, _, _ => throw .loop
  | fuel+1, srv, par => do
    let win ← srv.deref (some par)
    let children ← srv.sortWindows sortByZ win.children
    children.foldlM (restack fuel) (srv.store par { win with children })

def svRestack (srv : Server) (par : Ref) : Result Server := restack srv.fresh srv par

def restackParent (srv : Server) (win : Window) : Result Server :=
  match win.parent with
  | some par => srv.svRestack par
  | none => pure srv

/-- `compose_sv_move`, where `raise` stands for the call that raises the window. -/
def moveWith (raise : Server → Ref → Result Server) (srv : Server) (r : Ref) (x y z : BitVec 32)
    (mask : BitVec 8) : Result Server := do
  let win ← srv.deref (some r)
  if win.pos = ⟨x,y,z⟩ then pure srv
  else do
    let pos : Position :=
      ⟨if mask &&& MOVE_X ≠ 0#8 then x else win.pos.x,
       if mask &&& MOVE_Y ≠ 0#8 then y else win.pos.y,
       if mask &&& MOVE_Z ≠ 0#8 then z else win.pos.z⟩
    let srv ← when (mask &&& MOVE_Z ≠ 0#8) (fun srv =>
      srv.restackParent win) (srv.store r { win with pos })
    let srv ← when (mask &&& MOVE_RAISE ≠ 0#8) (fun srv => raise srv r) srv
    -- the source raises here, too
    let srv ← when (mask &&& MOVE_SUNK ≠ 0#8) (fun srv => raise srv r) srv
    let moved ← srv.deref (some r)
    srv.sendTo moved.client ⟨EVENT_MOVE,moved.id,0,0,.move win.pos moved.pos⟩

/-- The move that this ends in changes `z` only and does not raise again. -/
def svRaise (srv : Server) (r : Ref) : Result Server := do
  let win ← srv.deref (some r)
  match win.parent with
  | none => pure srv
  | some par => do
    let par ← srv.deref (some par)
    if par.children.getLast? = some r then pure srv
    else do
      let top ← srv.deref par.children.getLast?
      moveWith (fun srv _ => pure srv) srv r win.pos.x win.pos.y (top.pos.z+1) MOVE_Z

def svMove (srv : Server) (r : Ref) (x y z : BitVec 32) (mask : BitVec 8) : Result Server :=
  moveWith svRaise srv r x y z mask

/-- The window of `compose_sv_create_window` before it is linked. -/
def newWindow (srv : Server) (client par : Option Ref) (layer : BitVec 32)
    (props : Props) : Window where
  id := srv.windowId+1
  client := client
  parent := par
  root := srv.root
  gc := ⟨props.w,props.h,props.w*props.h*4⟩
  oldDataSize := props.w*props.h*4
  flags := props.flags
  pos := ⟨props.x,props.y,0⟩
  layer := layer
  sizes := ⟨props.w,props.h⟩
  delayedResizeSize := ⟨0,0⟩
  children := []
  eventMask := props.eventMask

/-- Links the new window `r` to its parent. -/
def linkChild (srv : Server) (r : Ref) (par : Option Ref) : Result Server :=
  match par with
  | some par => do
    let win ← srv.deref (some par)
    (srv.store par { win with children := win.children++[r] }).svRestack par
  | none => pure srv

def parentLayer (srv : Server) (par : Option Ref) : Result (BitVec 32) :=
  match par with
  | some par => do
    let win ← srv.deref (some par)
    pure (win.layer+1)
  | none => pure 0

def announce (srv : Server) (r : Ref) (client : Option Ref) : Result Server :=
  match client with
  | some cli => do
    let win ← srv.deref (some r)
    let root ← srv.deref win.root
    let event : Event := ⟨EVENT_WIN,win.id,0,root.id,.plain⟩
    let srv ← srv.svEventSend cli event
    srv.svEventPropagate r event
  | none => pure srv

def svCreateWindow (srv : Server) (client par : Option Ref) (props : Props) : Result Server := do
  let layer ← srv.parentLayer par
  let r := srv.fresh
  let srv := { srv.store r (srv.newWindow client par layer props) with
    windowId := srv.windowId+1
    fresh := srv.fresh+1
    windows := srv.windows++[r] }
  let srv ← srv.linkChild r par
  let windows ← srv.sortWindows sortByLayer srv.windows
  let srv ← { srv with windows }.announce r client
  srv.svFocus (some r)

/-- `list_delete_element(win->parent->children, win)`. -/
def unlinkChild (srv : Server) (r : Ref) (win : Window) : Result Server :=
  match win.parent with
  | some par => do
    let parWin ← srv.deref (some par)
    pure (srv.store par { parWin with children := parWin.children.erase r })
  | none => pure srv

def removeWindow : ℕ → Server → Ref → Bool → Result Server
  | 0, _, _, _ => throw .loop
  | fuel+1, srv, r, notifyParent => do
    let win ← srv.deref (some r)
    let srv := if srv.inputFocus = some r then { srv with inputFocus := none } else srv
    let srv ← win.children.foldlM (fun srv child => removeWindow fuel srv child false) srv
    let srv ← when notifyParent (fun srv => srv.unlinkChild r win) srv
    pure { srv with
      windows := srv.windows.erase r
      grabs := srv.grabs.filter fun grab => grab.window ≠ some r
      window := Function.update srv.window r none }

def svRemoveWindow (srv : Server) (r : Ref) (notifyParent : Bool) : Result Server :=
  removeWindow srv.fresh srv r notifyParent

/-- The windows that `compose_sv_disconnect` removes. -/
def ownedBy (srv : Server) (cli : Ref) : List Ref → Result (List Ref)
  | [] => pure []
  | r::windows => do
    let win ← srv.deref (some r)
    let rest ← srv.ownedBy cli windows
    pure (if win.client = some cli ∧ (win.parent = none ∨ win.parent = srv.root) then
      r::rest else rest)

def svDisconnect (srv : Server) (cli : Ref) : Result Server := do
  let srv := { srv with clients := srv.clients.erase cli }
  let childWindows ← srv.ownedBy cli srv.windows
  let srv ← childWindows.foldlM (fun srv r => srv.svRemoveWindow r true) srv
  let srv := { srv with grabs := srv.grabs.filter fun grab => grab.client ≠ cli }
  let _ ← srv.derefClient cli
  pure { srv with client := Function.update srv.client cli none }

def getWindow (srv : Server) (id : Id) : List Ref → Result (Option Ref)
  | [] => pure none
  | r::windows => do
    let win ← srv.deref (some r)
    if win.id = id then pure (some r) else srv.getWindow id windows

def svGetWindow (srv : Server) (id : Id) : Result (Option Ref) := srv.getWindow id srv.windows

def getClient (srv : Server) (id : Id) : List Ref → Result (Option Ref)
  | [] => pure none
  | cli::clients => do
    let c ← srv.derefClient cli
    if c.id = id then pure (some cli) else srv.getClient id clients

def svGetClient (srv : Server) (id : Id) : Result (Option Ref) := srv.getClient id srv.clients

end Server

/-- The kinds of request that do something. -/
inductive Request
  | move (win : Id) (flags : BitVec 8) (x y z : BitVec 32)
  | resize (win : Id) (stage : BitVec 8) (w h : BitVec 32)
  | event (target : Id) (event : Event)
  | newwin (parent : Id) (props : Props)
  | evmask (win : Id) (mask : BitVec 64)
  | grab (win : Id) (type : BitVec 64)
  | focus (win : Id)
  | disconnect
  | props (win : Id)
  | keepalive
  deriving DecidableEq, Repr

namespace Server

/-- The branches of the request handler under `if(win)`. -/
def withWindow (srv : Server) (id : Id) (f : Ref → Result Server) : Result Server := do
  let win ← srv.svGetWindow id
  match win with
  | some r => f r
  | none => pure srv

def resized (srv : Server) (r : Ref) (result : Window × Option Event) : Result Server :=
  match result.2 with
  | some event => (srv.store r result.1).sendTo result.1.client event
  | none => pure (srv.store r result.1)

def svHandleRequest (srv : Server) (cli : Ref) : Request → Result Server
  | .move win flags x y z => srv.withWindow win fun r => srv.svMove r x y z flags
  | .resize win stage w h => srv.withWindow win fun r => do
    let win ← srv.deref (some r)
    srv.resized r (handleResize win stage w h)
  | .event target event =>
    if target = 0 then srv.svEventSendToAll event
    else do
      let trg ← srv.svGetClient target
      srv.sendTo trg event
  | .newwin parent props => do
    let par ← srv.svGetWindow parent
    srv.svCreateWindow (some cli) par props
  | .evmask win mask => srv.withWindow win fun r => do
    let win ← srv.deref (some r)
    pure (srv.store r { win with eventMask := mask })
  | .grab win type => do
    let window ← srv.svGetWindow win
    pure { srv with grabs := srv.grabs++[⟨type,cli,window⟩] }
  | .focus win => do
    let win ← srv.svGetWindow win
    srv.svFocus win
  | .disconnect => pure { srv with removeQueue := srv.removeQueue++[cli] }
  | .props win => do
    let win ← srv.svGetWindow win
    srv.svSendProps cli win
  | .keepalive => pure srv

def acceptClient (srv : Server) : Result Server := do
  let cli := srv.fresh
  let srv := { srv with
    clientId := srv.clientId+1
    fresh := srv.fresh+1
    client := Function.update srv.client cli (some ⟨srv.clientId+1⟩)
    clients := srv.clients++[cli] }
  let root ← srv.deref srv.root
  let overlay ← srv.deref srv.overlay
  srv.svEventSend cli ⟨EVENT_CNN,0,0,root.id,.connect overlay.id⟩

def reap (srv : Server) : Result Server :=
  match srv.removeQueue.getLast? with
  | some cli => { srv with removeQueue := srv.removeQueue.dropLast }.svDisconnect cli
  | none => pure srv

/-- The first loop of `compose_sv_send_keepalive`. The writes to `unreachable` clients fail
with `ENOTCONN`. -/
def sendKeepalive (unreachable : Ref → Bool) (srv : Server) (cli : Ref) : Result Server :=
  if unreachable cli then do
    let _ ← srv.derefClient cli
    pure srv
  else srv.svEventSend cli ⟨EVENT_KEEPALIVE,0,0,0,.plain⟩

def svSendKeepalive (srv : Server) (unreachable : Ref → Bool) : Result Server := do
  let reapList := srv.clients.filter unreachable
  let srv ← srv.clients.foldlM (sendKeepalive unreachable) srv
  reapList.foldlM svDisconnect srv

/-- `calloc` and the empty lists of `compose_sv_create`. -/
def empty : Server where
  clientId := 0
  windowId := 0
  root := none
  overlay := none
  clients := []
  removeQueue := []
  windows := []
  grabs := []
  inputFocus := none
  window := fun _ => none
  client := fun _ => none
  fresh := 0
  events := fun _ => []

/-- The server with its root window and its overlay, each of the size of the screen. -/
def svCreate (w h : BitVec 32) : Result Server := do
  let props : Props := ⟨0,0,w,h,0,0⟩
  let srv ← empty.svCreateWindow none none props
  let srv ← { srv with root := some 0 }.svCreateWindow none none props
  pure { srv with overlay := some 1 }

end Server
end Compose
end ScalesOS
