import ScalesOS.MemMove

/-!
# The text input widget

`input_process_events` of `libs/libwidgets/src/input.c`, compared with an editor for texts of at
most 256 characters. `int` and `size_t` are 32-bit words; a write or a move outside the array of
the widget has no result.
-/

namespace ScalesOS
namespace TextInput

open ByteMemory

abbrev Byte := BitVec 8

def MAX_INPUT_SIZE : BitVec 32 := 256
def INPUT_FLAG_FOCUSED : BitVec 32 := 1
def KBD_EVENT_FLAG_UP : BitVec 8 := 1
def MOUSE_BUTTON_LEFT : BitVec 8 := 1
def KEY_ESC : BitVec 32 := 1
def KEY_BACKSPACE : BitVec 32 := 14
def KEY_ENTER : BitVec 32 := 28
def KEY_LEFT : BitVec 32 := 105
def KEY_RIGHT : BitVec 32 := 106

/-- `confirm` says whether there is a callback. -/
structure Input where
  buffer : Mem
  buffer_size : BitVec 32
  flags : BitVec 32
  cursor_pos : BitVec 32
  confirm : Bool

/-- The events; a resize makes the widget draw itself, and so does a parent that is drawn. -/
inductive Event
  | key (flags : BitVec 8) (scancode : BitVec 32) (translated : Byte)
  | button (buttons : BitVec 8)
  | focus
  | unfocus
  | resize
  | drawn
  | other

/-- What an event makes the widget do, with its data at that time. -/
inductive Action
  | draw (b : Input)
  | confirm (b : Input)
  | focus
  | unfocus

def setByte (buffer : Mem) (i : BitVec 32) (t : Byte) : Option Mem :=
  if i.toNat < 256 then some (Function.update buffer i.toNat t) else none

/-- `memmove` between two places of the array. -/
def moveBytes (buffer : Mem) (dest src n : BitVec 32) : Option Mem :=
  if dest.toNat+n.toNat ≤ 256 ∧ src.toNat+n.toNat ≤ 256 then
    some (copy buffer dest.toNat src.toNat n.toNat) else none

def enter (b : Input) : Option (Input × List Action) :=
  some (b,if b.confirm then [.confirm b] else [])

def backspace (b : Input) : Option (Input × List Action) :=
  if b.cursor_pos ≠ 0 then do
    let cursor_pos := b.cursor_pos-1
    let buffer ← setByte b.buffer cursor_pos 0
    let buffer ← (if b.buffer_size ≠ 1 ∧ cursor_pos ≠ b.buffer_size-1 then
        moveBytes buffer cursor_pos (cursor_pos+1) (b.buffer_size-cursor_pos)
      else some buffer : Option Mem)
    let b := {b with buffer := buffer, cursor_pos := cursor_pos, buffer_size := b.buffer_size-1}
    some (b,[.draw b])
  else some (b,[])

def right (b : Input) : Option (Input × List Action) :=
  let cursor_pos := b.cursor_pos+1
  let b := {b with cursor_pos := if cursor_pos > b.buffer_size then b.buffer_size else cursor_pos}
  some (b,[.draw b])

def left (b : Input) : Option (Input × List Action) :=
  let cursor_pos := b.cursor_pos-1
  let b := {b with cursor_pos := if cursor_pos.toInt < 0 then 0 else cursor_pos}
  some (b,[.draw b])

def insert (b : Input) (t : Byte) : Option (Input × List Action) := do
  let buffer ← (if b.cursor_pos < b.buffer_size then
      moveBytes b.buffer (b.cursor_pos+1) b.cursor_pos (b.buffer_size-b.cursor_pos)
    else some b.buffer : Option Mem)
  let buffer ← setByte buffer b.cursor_pos t
  let b := {b with buffer := buffer, buffer_size := b.buffer_size+1, cursor_pos := b.cursor_pos+1}
  some (b,[.draw b])

def inputProcessEvents (b : Input) : Event → Option (Input × List Action)
  | .key flags scancode translated =>
    if flags &&& KBD_EVENT_FLAG_UP ≠ 0 then some (b,[])
    else if b.buffer_size ≥ MAX_INPUT_SIZE then some (b,[])
    else if scancode = KEY_ENTER then enter b
    else if scancode = KEY_BACKSPACE then backspace b
    else if scancode = KEY_RIGHT then right b
    else if scancode = KEY_LEFT then left b
    else if scancode = KEY_ESC then some (b,[.unfocus])
    else if translated ≠ 0 then insert b translated
    else some (b,[])
  | .button buttons => some (b,if buttons &&& MOUSE_BUTTON_LEFT ≠ 0 then [.focus] else [])
  | .focus =>
    let b := {b with flags := b.flags ||| INPUT_FLAG_FOCUSED}
    some (b,[.draw b])
  | .unfocus =>
    let b := {b with flags := b.flags &&& ~~~INPUT_FLAG_FOCUSED}
    some (b,[.draw b])
  | .resize => some (b,[.draw b])
  | .drawn => some (b,[.draw b])
  | .other => some (b,[])

/-- A widget's data as it comes from `calloc`. -/
def newInput (confirm : Bool) : Input := ⟨fun _ => 0,0,0,0,confirm⟩

structure Editor where
  text : List Byte
  cursor : ℕ
  length_le : text.length ≤ 256
  cursor_le : cursor ≤ text.length

inductive Command
  | insert (t : Byte)
  | backspace
  | left
  | right
  | enter
  | none

def command : Event → Command
  | .key flags scancode translated =>
    if flags &&& KBD_EVENT_FLAG_UP ≠ 0 then .none
    else if scancode = KEY_ENTER then .enter
    else if scancode = KEY_BACKSPACE then .backspace
    else if scancode = KEY_RIGHT then .right
    else if scancode = KEY_LEFT then .left
    else if scancode = KEY_ESC then .none
    else if translated ≠ 0 then .insert translated
    else .none
  | _ => .none

namespace Editor

def empty : Editor := ⟨[],0,by simp,by simp⟩

def insert (e : Editor) (t : Byte) : Editor :=
  if h : e.text.length < 256 then
    ⟨e.text.insertIdx e.cursor t,e.cursor+1,
      by rw [List.length_insertIdx_of_le_length e.cursor_le]; omega,
      by rw [List.length_insertIdx_of_le_length e.cursor_le]; exact Nat.succ_le_succ e.cursor_le⟩
  else e

def backspace (e : Editor) : Editor :=
  if h : 0 < e.cursor then
    have hlt : e.cursor-1 < e.text.length := by have := e.cursor_le; omega
    ⟨e.text.eraseIdx (e.cursor-1),e.cursor-1,
      by rw [List.length_eraseIdx_of_lt hlt]; have := e.length_le; omega,
      by rw [List.length_eraseIdx_of_lt hlt]; have := e.cursor_le; omega⟩
  else e

def apply (e : Editor) : Command → Editor
  | .insert t => e.insert t
  | .backspace => e.backspace
  | .left => ⟨e.text,e.cursor-1,e.length_le,(Nat.sub_le _ _).trans e.cursor_le⟩
  | .right => ⟨e.text,min (e.cursor+1) e.text.length,e.length_le,Nat.min_le_right _ _⟩
  | .enter => e
  | .none => e

end Editor

structure Represents (b : Input) (e : Editor) : Prop where
  size : b.buffer_size.toNat = e.text.length
  cursor : b.cursor_pos.toNat = e.cursor
  text : ∀ i < e.text.length, e.text[i]? = some (b.buffer i)

def Terminated (b : Input) : Prop := b.buffer_size.toNat < 256 ∧ b.buffer b.buffer_size.toNat = 0

def Action.shows : Action → Option Input
  | .draw b => some b
  | .confirm b => some b
  | _ => none

def Action.isConfirm : Action → Bool
  | .confirm _ => true
  | _ => false

/-- The widget does what the editor does, calls the callback when it should, and shows terminated
texts only. -/
def Follows (b : Input) (e : Editor) (ev : Event) : Prop :=
  ∃ b' actions, inputProcessEvents b ev = some (b',actions) ∧
    Represents b' (e.apply (command ev)) ∧ b'.confirm = b.confirm ∧
    (actions.any Action.isConfirm = true ↔ command ev = .enter ∧ b.confirm = true) ∧
    ∀ shown ∈ actions.filterMap Action.shows, Represents shown (e.apply (command ev)) ∧
    Terminated shown

/-- It does so at every event of a run. -/
def RunFollows : Input → Editor → List Event → Prop
  | _,_,[] => True
  | b,e,ev :: evs => Follows b e ev ∧
      ∀ b' actions, inputProcessEvents b ev = some (b',actions) →
      RunFollows b' (e.apply (command ev)) evs

def Fills (e : Editor) (c : Command) : Prop := (∃ t, c = .insert t) ∧ e.text.length = 255

/-- That does not happen. -/
def RunFits : Editor → List Event → Prop
  | _,[] => True
  | e,ev :: evs => ¬Fills e (command ev) ∧ RunFits (e.apply (command ev)) evs

variable {b : Input} {e : Editor} {t : Byte} {ev : Event} {evs : List Event}

/-- The data stand for a text that is not full, and the array is zero behind it. -/
structure Held (b : Input) (e : Editor) : Prop extends Represents b e where
  room : e.text.length < 256
  zero : ∀ i, e.text.length ≤ i → i < 256 → b.buffer i = 0

theorem Held.terminated (h : Held b e) : Terminated b := by
  rw [Terminated,h.size]
  exact ⟨h.room,h.zero _ le_rfl h.room⟩

theorem insert_eq (h : Held b e) : insert b t = some
    ({b with buffer := Function.update (copy b.buffer (e.cursor+1) e.cursor
      (e.text.length-e.cursor)) e.cursor t,
             buffer_size := b.buffer_size+1, cursor_pos := b.cursor_pos+1},
      [.draw {b with buffer := Function.update (copy b.buffer (e.cursor+1) e.cursor
        (e.text.length-e.cursor)) e.cursor t,
                     buffer_size := b.buffer_size+1, cursor_pos := b.cursor_pos+1}]) := by
  have hc := e.cursor_le
  have hsize := h.size
  have hcursor := h.cursor
  have hroom := h.room
  have hmove :
    (if b.cursor_pos < b.buffer_size then
      moveBytes b.buffer (b.cursor_pos+1) b.cursor_pos (b.buffer_size-b.cursor_pos)
      else some b.buffer) = some (copy b.buffer (e.cursor+1) e.cursor
          (e.text.length-e.cursor)) := by
    have hnext : (b.cursor_pos+1).toNat = e.cursor+1 := by bv_omega
    by_cases hlt : b.cursor_pos < b.buffer_size
    · have hsub : (b.buffer_size-b.cursor_pos).toNat = e.text.length-e.cursor := by bv_omega
      have hlt' : e.cursor < e.text.length := by bv_omega
      rw [if_pos hlt,moveBytes,hnext,hsub,hcursor,if_pos (by omega)]
    · have heq : e.text.length-e.cursor = 0 := by bv_omega
      rw [if_neg hlt,heq,MemMove.copy_zero]
  have hset (buffer : Mem) :
      setByte buffer b.cursor_pos t = some (Function.update buffer e.cursor t) := by
    rw [setByte,hcursor,if_pos (by omega)]
  rw [insert,hmove,Option.bind_eq_bind,Option.bind_some,hset]
  rfl

theorem getElem?_insertIdx (h : Represents b e) {i : ℕ} (hi : i < e.text.length+1) :
    (e.text.insertIdx e.cursor t)[i]? =
      some (Function.update (copy b.buffer (e.cursor+1) e.cursor (e.text.length-e.cursor))
          e.cursor t i) := by
  have hc := e.cursor_le
  rw [List.getElem?_insertIdx]
  by_cases hlt : i < e.cursor
  · rw [if_pos hlt,h.text i (by omega),Function.update_of_ne (by omega),
      copy_outside _ (.inl (by omega))]
  · by_cases heq : i = e.cursor
    · rw [if_neg hlt,if_pos heq,if_pos (by omega),heq,Function.update_self]
    · obtain ⟨k,rfl⟩ : ∃ k, i = e.cursor+1+k := ⟨i-e.cursor-1,by omega⟩
      rw [if_neg hlt,if_neg heq,h.text _ (by omega),Function.update_of_ne heq,
        copy_inside _ (by omega)]
      congr 2
      omega

theorem insert_spec (h : Held b e) : ∃ b', insert b t = some (b',[.draw b']) ∧
    Represents b' (e.insert t) ∧
    b'.confirm = b.confirm ∧ ∀ i, e.text.length+1 ≤ i → i < 256 → b'.buffer i = 0 := by
  have hc := e.cursor_le
  have hroom := h.room
  refine ⟨_,insert_eq h,⟨?_,?_,?_⟩,rfl,fun i hi hlt => ?_⟩
  · have hsize := h.size
    rw [Editor.insert,dif_pos hroom,List.length_insertIdx_of_le_length hc]
    bv_omega
  · have hcursor := h.cursor
    rw [Editor.insert,dif_pos hroom]
    bv_omega
  · rw [Editor.insert,dif_pos hroom,List.length_insertIdx_of_le_length hc]
    exact fun i hi => getElem?_insertIdx h.toRepresents hi
  · have hout : copy b.buffer (e.cursor+1) e.cursor (e.text.length-e.cursor) i = b.buffer i :=
      copy_outside _ (.inr (by omega))
    exact (Function.update_of_ne (by omega) _ _).trans (hout.trans (h.zero i (by omega) hlt))

/-- The array after the byte at `k` has been overwritten by those behind it. -/
def closed (buffer : Mem) (k n : ℕ) : Mem := copy (Function.update buffer k 0) k (k+1) (n-k)

theorem closed_before {buffer : Mem} {k n i : ℕ} (hi : i < k) : closed buffer k n i = buffer i := by
  rw [closed,copy_outside _ (.inl hi),Function.update_of_ne (by omega)]

theorem closed_from {buffer : Mem} {k n i : ℕ} (hk : k ≤ i) (hi : i < n) :
    closed buffer k n i = buffer (i+1) := by
  obtain ⟨j,rfl⟩ := Nat.exists_eq_add_of_le hk
  rw [closed,copy_inside _ (by omega),Function.update_of_ne (by omega)]
  congr 1
  omega

theorem closed_behind {buffer : Mem} {k n i : ℕ} (hk : k < n) (hi : n ≤ i) :
    closed buffer k n i = buffer i := by
  rw [closed,copy_outside _ (.inr (by omega)),Function.update_of_ne (by omega)]

/-- Nothing is moved if the last character goes, since there is a zero behind it. -/
theorem closed_last {buffer : Mem} {k : ℕ} (h : buffer (k+1) = 0) :
    closed buffer k (k+1) = Function.update buffer k 0 := by
  funext i
  rcases lt_trichotomy i k with hi | rfl | hi
  · rw [closed_before hi,Function.update_of_ne (by omega)]
  · rw [closed_from le_rfl (by omega),h,Function.update_self]
  · rw [closed_behind (by omega) hi,Function.update_of_ne (by omega)]

theorem backspace_eq (h : Held b e) (hpos : 0 < e.cursor) : backspace b = some
    ({b with buffer := closed b.buffer (e.cursor-1) e.text.length, cursor_pos :=
  b.cursor_pos-1, buffer_size := b.buffer_size-1},
      [.draw {b with buffer := closed b.buffer (e.cursor-1) e.text.length, cursor_pos :=
  b.cursor_pos-1,
                     buffer_size := b.buffer_size-1}]) := by
  have hc := e.cursor_le
  have hsize := h.size
  have hcursor := h.cursor
  have hroom := h.room
  have hback : (b.cursor_pos-1).toNat = e.cursor-1 := by bv_omega
  have hset :
      setByte b.buffer (b.cursor_pos-1) 0 = some (Function.update b.buffer (e.cursor-1) 0) := by
    rw [setByte,hback,if_pos (by omega)]
  have hmove : (if b.buffer_size ≠ 1 ∧ b.cursor_pos-1 ≠ b.buffer_size-1 then
      moveBytes (Function.update b.buffer (e.cursor-1) 0) (b.cursor_pos-1) (b.cursor_pos-1+1)
        (b.buffer_size-(b.cursor_pos-1))
      else some (Function.update b.buffer (e.cursor-1) 0)) =
          some (closed b.buffer (e.cursor-1) e.text.length) := by
    by_cases hlast : e.cursor = e.text.length
    · have hsame : b.cursor_pos-1 = b.buffer_size-1 := by bv_omega
      have hend : b.buffer (e.cursor-1+1) = 0 := h.zero _ (by omega) (by omega)
      rw [if_neg fun h => h.2 hsame,← closed_last hend,← hlast,Nat.sub_add_cancel hpos]
    · have hone : b.buffer_size ≠ 1 := by bv_omega
      have hdiff : b.cursor_pos-1 ≠ b.buffer_size-1 := by bv_omega
      have hnext : (b.cursor_pos-1+1).toNat = e.cursor-1+1 := by bv_omega
      have hsub : (b.buffer_size-(b.cursor_pos-1)).toNat = e.text.length-(e.cursor-1) := by bv_omega
      rw [if_pos ⟨hone,hdiff⟩,moveBytes,hback,hnext,hsub,if_pos (by omega)]
      rfl
  rw [backspace,if_pos (by bv_omega)]
  simp only [hset,Option.bind_eq_bind,Option.bind_some,hmove]

theorem backspace_spec (h : Held b e) : ∃ b' actions, backspace b = some (b',actions) ∧
    Held b' e.backspace ∧ b'.confirm = b.confirm ∧ ∀ a ∈ actions, a = .draw b' := by
  have hc := e.cursor_le
  have hsize := h.size
  have hcursor := h.cursor
  have hroom := h.room
  by_cases hpos : 0 < e.cursor
  · have hlt : e.cursor-1 < e.text.length := by omega
    refine ⟨_,_,backspace_eq h hpos,?_,rfl,by simp⟩
    rw [Editor.backspace,dif_pos hpos]
    refine ⟨⟨?_,?_,?_⟩,?_,?_⟩
    · rw [List.length_eraseIdx_of_lt hlt]
      bv_omega
    · bv_omega
    · intro i hi
      rw [List.length_eraseIdx_of_lt hlt] at hi
      change _ = some (closed b.buffer (e.cursor-1) e.text.length i)
      by_cases hi' : i < e.cursor-1
      · rw [List.getElem?_eraseIdx_of_lt hi',closed_before hi',h.text i (by omega)]
      · rw [List.getElem?_eraseIdx_of_ge (by omega),closed_from (by omega) (by omega),
          h.text (i+1) (by omega)]
    · rw [List.length_eraseIdx_of_lt hlt]
      omega
    · intro i hi hlt'
      rw [List.length_eraseIdx_of_lt hlt] at hi
      by_cases hi' : i < e.text.length
      · exact (closed_from (by omega) hi').trans (h.zero (i+1) (by omega) (by omega))
      · exact (closed_behind hlt (by omega)).trans (h.zero i (by omega) hlt')
  · have hzero : b.cursor_pos = 0 := by bv_omega
    refine ⟨b,[],if_neg (by simp [hzero]),?_,rfl,by simp⟩
    rw [Editor.backspace,dif_neg hpos]
    exact h

theorem right_spec (h : Held b e) : ∃ b', right b = some (b',[.draw b']) ∧
    Held b' (e.apply .right) ∧ b'.confirm = b.confirm := by
  have hc := e.cursor_le
  have hsize := h.size
  have hcursor := h.cursor
  have hroom := h.room
  have hnext : (if b.cursor_pos+1 > b.buffer_size then b.buffer_size else b.cursor_pos+1).toNat =
      min (e.cursor+1) e.text.length := by
    split <;> bv_omega
  exact ⟨_,rfl,⟨⟨h.size,hnext,h.text⟩,h.room,h.zero⟩,rfl⟩

theorem left_spec (h : Held b e) : ∃ b', left b = some (b',[.draw b']) ∧ Held b' (e.apply .left) ∧
    b'.confirm = b.confirm := by
  have hc := e.cursor_le
  have hsize := h.size
  have hcursor := h.cursor
  have hroom := h.room
  have hback : (if (b.cursor_pos-1).toInt < 0 then 0 else b.cursor_pos-1).toNat = e.cursor-1 := by
    by_cases hzero : e.cursor = 0
    · have hcursor0 : b.cursor_pos = 0 := by bv_omega
      rw [hcursor0,hzero]
      rfl
    · have hsub : (b.cursor_pos-1).toNat = e.cursor-1 := by bv_omega
      have hint : (b.cursor_pos-1).toInt = (e.cursor-1 : ℕ) := by
        rw [BitVec.toInt_eq_toNat_cond,if_pos (by omega),hsub]
      rw [if_neg (by omega)]
      exact hsub
  exact ⟨_,rfl,⟨⟨h.size,hback,h.text⟩,h.room,h.zero⟩,rfl⟩

theorem process_key {flags : BitVec 8} {scancode : BitVec 32} {translated : Byte} (h : Held b e) :
    ∃ actions, (∀ a ∈ actions, a = .unfocus) ∧
    inputProcessEvents b (.key flags scancode translated) =
      match command (.key flags scancode translated) with
      | .insert t => insert b t
      | .backspace => backspace b
      | .left => left b
      | .right => right b
      | .enter => enter b
      | .none => some (b,actions) := by
  have hfull : ¬b.buffer_size ≥ MAX_INPUT_SIZE := by
    have hsize := h.size
    have hroom := h.room
    simp only [MAX_INPUT_SIZE]
    bv_omega
  simp only [inputProcessEvents,command,if_neg hfull]
  split_ifs
  · exact ⟨[],by simp,rfl⟩
  · exact ⟨[],by simp,rfl⟩
  · exact ⟨[],by simp,rfl⟩
  · exact ⟨[],by simp,rfl⟩
  · exact ⟨[],by simp,rfl⟩
  · exact ⟨[.unfocus],by simp,rfl⟩
  · exact ⟨[],by simp,rfl⟩
  · exact ⟨[],by simp,rfl⟩

/-- What the actions show is `b'`, and the callback is called if it is asked for. -/
def Shows (b' : Input) (calls : Prop) (actions : List Action) : Prop :=
  (actions.any Action.isConfirm = true ↔ calls) ∧
  ∀ shown ∈ actions.filterMap Action.shows, shown = b'

theorem shows_draws {calls : Prop} {actions : List Action} (h : ¬calls)
    (hall : ∀ a ∈ actions, a = .draw b) :
    Shows b calls actions := by
  refine ⟨iff_of_false (fun hany => ?_) h,fun shown hshown => ?_⟩
  · obtain ⟨a,ha,hconfirm⟩ := List.any_eq_true.mp hany
    rw [hall a ha] at hconfirm
    cases hconfirm
  · obtain ⟨a,ha,hshows⟩ := List.mem_filterMap.mp hshown
    rw [hall a ha] at hshows
    exact (Option.some.inj hshows).symm

theorem shows_silent {calls : Prop} {actions : List Action} (h : ¬calls)
    (hall : ∀ a ∈ actions, a.isConfirm = false ∧ a.shows = none) :
    Shows b calls actions := by
  refine ⟨iff_of_false (fun hany => ?_) h,fun shown hshown => ?_⟩
  · obtain ⟨a,ha,hconfirm⟩ := List.any_eq_true.mp hany
    rw [(hall a ha).1] at hconfirm
    cases hconfirm
  · obtain ⟨a,ha,hshows⟩ := List.mem_filterMap.mp hshown
    rw [(hall a ha).2] at hshows
    cases hshows

theorem enter_shows (b : Input) : ∃ actions, enter b = some (b,actions) ∧
    Shows b (b.confirm = true) actions := by
  cases hconfirm : b.confirm with
  | false => exact ⟨[],by rw [enter,hconfirm]; rfl,by simp [Shows]⟩
  | true => exact ⟨[.confirm b],by rw [enter,hconfirm]; rfl,
      by simp [Shows,Action.isConfirm,Action.shows]⟩

theorem event_spec (h : Held b e) (hfits : ¬Fills e (command ev)) :
    ∃ b' actions, inputProcessEvents b ev = some (b',actions) ∧
    Held b' (e.apply (command ev)) ∧ b'.confirm = b.confirm ∧
    Shows b' (command ev = .enter ∧ b.confirm = true) actions := by
  cases ev with
  | key flags scancode translated =>
    obtain ⟨actions,hunfocus,hprocess⟩ := @process_key b e flags scancode translated h
    rw [hprocess]
    cases hcommand : command (.key flags scancode translated) with
    | insert t =>
      obtain ⟨b',hb,hrep,hconfirm,hzero⟩ := @insert_spec b e t h
      have hroom : e.text.length+1 < 256 := by
        have hne : e.text.length ≠ 255 := fun h255 => hfits ⟨⟨t,hcommand⟩,h255⟩
        have hlt := h.room
        omega
      have hlength : (e.insert t).text.length = e.text.length+1 := by
        rw [Editor.insert,dif_pos h.room]
        exact List.length_insertIdx_of_le_length e.cursor_le t
      exact ⟨b',_,hb,⟨hrep,hlength ▸ hroom,fun i hi => hzero i (hlength ▸ hi)⟩,hconfirm,
        shows_draws (by simp) (by simp)⟩
    | backspace =>
      obtain ⟨b',actions,hb,hheld,hconfirm,hdraw⟩ := backspace_spec h
      exact ⟨b',actions,hb,hheld,hconfirm,shows_draws (by simp) hdraw⟩
    | left =>
      obtain ⟨b',hb,hheld,hconfirm⟩ := left_spec h
      exact ⟨b',_,hb,hheld,hconfirm,shows_draws (by simp) (by simp)⟩
    | right =>
      obtain ⟨b',hb,hheld,hconfirm⟩ := right_spec h
      exact ⟨b',_,hb,hheld,hconfirm,shows_draws (by simp) (by simp)⟩
    | enter =>
      obtain ⟨actions,hb,hshows⟩ := enter_shows b
      exact ⟨b,actions,hb,h,rfl,by simpa using hshows⟩
    | none => exact ⟨b,actions,rfl,h,rfl,
        shows_silent (by simp) fun a ha => by rw [hunfocus a ha]; exact ⟨rfl,rfl⟩⟩
  | button buttons =>
    refine ⟨b,_,rfl,h,rfl,shows_silent (by simp [command]) fun a ha => ?_⟩
    split at ha
    · rw [List.mem_singleton.mp ha]
      exact ⟨rfl,rfl⟩
    · cases ha
  | focus => exact ⟨_,_,rfl,⟨⟨h.size,h.cursor,h.text⟩,h.room,h.zero⟩,rfl,
      shows_draws (by simp [command]) (by simp)⟩
  | unfocus => exact ⟨_,_,rfl,⟨⟨h.size,h.cursor,h.text⟩,h.room,h.zero⟩,rfl,
      shows_draws (by simp [command]) (by simp)⟩
  | resize => exact ⟨b,_,rfl,h,rfl,shows_draws (by simp [command]) (by simp)⟩
  | drawn => exact ⟨b,_,rfl,h,rfl,shows_draws (by simp [command]) (by simp)⟩
  | other => exact ⟨b,_,rfl,h,rfl,shows_silent (by simp [command]) (by simp)⟩

theorem follows_of_not_fills (h : Held b e) (hfits : ¬Fills e (command ev)) : Follows b e ev ∧
    ∀ b' actions, inputProcessEvents b ev = some (b',actions) → Held b' (e.apply (command ev)) := by
  obtain ⟨b',actions,hprocess,hheld,hconfirm,hcalls,hshown⟩ := event_spec h hfits
  refine ⟨⟨b',actions,hprocess,hheld.toRepresents,hconfirm,hcalls,fun shown hmem => ?_⟩,
    fun b'' actions' hprocess' => ?_⟩
  · rw [hshown shown hmem]
    exact ⟨hheld.toRepresents,hheld.terminated⟩
  · rw [hprocess] at hprocess'
    cases hprocess'
    exact hheld

/-- The last character of a full text is drawn without a NUL behind it. -/
theorem not_follows_of_fills (h : Held b e) (hfills : Fills e (command ev)) : ¬Follows b e ev := by
  obtain ⟨⟨t,hcommand⟩,h255⟩ := hfills
  rintro ⟨b',actions,hprocess,hrep,-,-,hshown⟩
  cases ev with
  | key flags scancode translated =>
    obtain ⟨silent,-,hkey⟩ := @process_key b e flags scancode translated h
    rw [hkey,hcommand] at hprocess
    obtain ⟨b'',hb,-⟩ := @insert_spec b e t h
    cases hb.symm.trans hprocess
    have hterminated := (hshown b' (by simp [Action.shows])).2.1
    have hsize := hrep.size
    rw [hcommand,Editor.apply,Editor.insert,dif_pos h.room,
      List.length_insertIdx_of_le_length e.cursor_le] at hsize
    omega
  | _ => cases hcommand

theorem runFollows_iff (evs : List Event) : ∀ {b e}, Held b e →
    (RunFollows b e evs ↔ RunFits e evs) := by
  induction evs with
  | nil => exact fun _ => Iff.rfl
  | cons ev evs ih =>
    intro b e h
    constructor
    · rintro ⟨hfollows,hrest⟩
      have hfits : ¬Fills e (command ev) := fun hfills => not_follows_of_fills h hfills hfollows
      obtain ⟨b',actions,hprocess,-⟩ := hfollows
      exact ⟨hfits,(ih ((follows_of_not_fills h hfits).2 b' actions hprocess)).mp
        (hrest b' actions hprocess)⟩
    · rintro ⟨hfits,hrest⟩
      obtain ⟨hfollows,hheld⟩ := follows_of_not_fills h hfits
      exact ⟨hfollows,fun b' actions hprocess => (ih (hheld b' actions hprocess)).mpr hrest⟩

theorem held_newInput (confirm : Bool) : Held (newInput confirm) .empty :=
  ⟨⟨rfl,rfl,fun i hi => absurd hi (Nat.not_lt_zero i)⟩,by simp [Editor.empty],fun _ _ _ => rfl⟩

/-- A new widget follows the editor through a run of events exactly if no character is typed into
a text of 255. -/
theorem widget_follows_iff (confirm : Bool) (evs : List Event) :
    RunFollows (newInput confirm) .empty evs ↔ RunFits .empty evs :=
  runFollows_iff evs (held_newInput confirm)

theorem not_runFits_typed (t : Byte) (ht : t ≠ 0) (n : ℕ) :
    ∀ e : Editor, e.text.length+n = 255 → ¬RunFits e (List.replicate (n+1) (.key 0 30 t)) := by
  have hcommand : command (.key 0 30 t) = .insert t := by
    have ht' : ¬t = 0#8 := ht
    simp [command,KBD_EVENT_FLAG_UP,KEY_ENTER,KEY_BACKSPACE,KEY_RIGHT,KEY_LEFT,KEY_ESC,ht']
  induction n with
  | zero => exact fun e he h => h.1 ⟨⟨t,hcommand⟩,he⟩
  | succ n ih =>
    intro e he h
    refine ih (e.apply (command (.key 0 30 t))) ?_ h.2
    rw [hcommand,Editor.apply,Editor.insert,dif_pos (by omega),
      List.length_insertIdx_of_le_length e.cursor_le]
    omega

/-- Typing `a` 256 times. -/
theorem full_text : ¬∀ confirm evs, RunFollows (newInput confirm) .empty evs :=
  fun h => not_runFits_typed 97 (by
    decide) 255 .empty rfl ((runFollows_iff _ (held_newInput false)).mp (h false _))

end TextInput
end ScalesOS
