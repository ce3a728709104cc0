import ScalesOS.Select
import ScalesOS.Sockets
import ScalesOS.Pipes

/-!
# Select on pipes and sockets

What `sys_select` without a timeout returns when any number of processes select on the same
pipes and sockets, and read and write them.
-/

namespace ScalesOS

namespace SelectReturn

/-- A call without a timeout does not return 0, and a positive result is the number of bits in
the caller's sets, each of a descriptor that is ready. -/
def Sound (r : SelectReturn) : Prop :=
  r.call.tv = none → r.result ≠ 0 ∧ (0 < r.result → (SelectFiles.countBits r.sets : ℤ) = r.result ∧
    ∀ event, ∀ set ∈ r.sets event, ∀ fd ∈ set, r.ready fd event = true)

theorem Sound.of_neg {r : SelectReturn} (h : r.result < 0) : r.Sound :=
  fun _ => ⟨by omega,fun hpos => absurd hpos (by omega)⟩

end SelectReturn

namespace SelectCall

/-- The caller's sets have no bits from `n` on. -/
def Fits (c : SelectCall) : Prop :=
  ∀ event ∈ SelectEvent.all, ∀ set ∈ c.sets event, ∀ fd ∈ set, (fd : ℤ) < c.n

instance (c : SelectCall) : Decidable c.Fits := by
  unfold Fits
  infer_instance

end SelectCall

namespace SelectProgress

def Cleared (x : SelectProgress) : Prop := ∀ event, ∀ set ∈ (x.sets event).set, set = ∅

end SelectProgress

namespace SelectFiles

variable {D N : Type} {files : SelectFiles D N} {d : D} {p : ℕ} {task : Task} {x : SelectProgress}
    {c : SelectCall}

/-- A process that runs again has been interrupted, or woken for an event of which one of the
descriptors that it waits for is ready. -/
def Roused (files : SelectFiles D N) (d : D) (p : ℕ) (task : Task) (x : SelectProgress) : Prop :=
  task.interrupted = true ∨ task.selectWaitNode.isSome = true ∧
    ∀ event ∈ SelectEvent.ofCode task.selectWaitEvent, ∀ _set ∈ (x.sets event).set,
      ∃ fd ∈ List.range x.call.n.toNat, fd ∈ (x.sets event).wait ∧ files.ready d p fd event = true

instance : Decidable (files.Roused d p task x) := by
  unfold Roused
  infer_instance

theorem testLoop_tests {sets : SelectEvent → SelectSet} {n : ℕ} {hasResult : ℕ}
    (hfits : ∀ event, ∀ set ∈ c.sets event, ∀ fd ∈ set, fd < n)
    (h : testLoop (files.checkFd d p) (tests n) (fun event => ⟨c.sets event,∅⟩) 0 =
      (sets,some hasResult)) :
    hasResult = countBits (fun event => (sets event).set) ∧
      ∀ event, ∀ set ∈ (sets event).set, ∀ fd ∈ set, files.ready d p fd event = true := by
  obtain ⟨hsets,hhas⟩ := testLoop_spec (tests n) (tests_nodup n) h
  have hmem : ∀ event, ∀ set ∈ (sets event).set, ∀ fd ∈ set, fd < n ∧
      files.ready d p fd event = true := by
    intro event set hset fd hfd
    rw [hsets event] at hset
    obtain ⟨set',hset',rfl⟩ := Option.map_eq_some_iff.mp hset
    obtain ⟨hfd,hready⟩ := Finset.mem_filter.mp hfd
    have hlt := hfits event set' hset' fd hfd
    exact ⟨hlt,decide_eq_true (hready (mem_tests.mpr hlt))⟩
  refine ⟨?_,fun event set hset fd hfd => (hmem event set hset fd hfd).2⟩
  rw [hhas,Nat.zero_add]
  exact countP_tests fun event set hset fd hfd => (hmem event set hset fd hfd).1

theorem cleared_of_countBits {sets : SelectEvent → Option FdSet} (h : countBits sets = 0)
    (event : SelectEvent) :
    ∀ set ∈ sets event, set = ∅ := by
  intro set hset
  rw [countBits,List.sum_eq_zero_iff] at h
  have hzero := h _ (List.mem_map.mpr ⟨event,SelectEvent.mem_all event,rfl⟩)
  rw [hset] at hzero
  exact Finset.card_eq_zero.mp hzero

theorem start_sound (hfits : c.tv = none → c.Fits) :
    (∀ r ∈ (files.start d p c).next.result, r.Sound) ∧
      ∀ x ∈ (files.start d p c).next.progress, x.call.tv = none → x.Cleared := by
  have hneg : ∀ e :
    ℕ, 0 < e → ∀ sets clears, (∀ r ∈ (files.finish d p c sets (-e) clears).next.result, r.Sound) ∧
      ∀ x ∈ (files.finish d p c sets (-e) clears).next.progress, x.call.tv = none → x.Cleared := by
    intro e he sets clears
    refine ⟨fun r hr => ?_,fun x hx => by cases hx⟩
    obtain rfl := Option.some.inj hr
    refine SelectReturn.Sound.of_neg ?_
    change -(e : ℤ) < 0
    omega
  rw [start]
  split
  · exact hneg EINVAL (by decide) _ _
  · rename_i hn
    have hspec : ∀ {sets hasResult}, testLoop (files.checkFd d p) (tests c.n.toNat) (fun event =>
      ⟨c.sets event,∅⟩) 0 =
        (sets,some hasResult) → c.tv = none →
        hasResult = countBits (fun event => (sets event).set) ∧
          ∀ event, ∀ set ∈ (sets event).set, ∀ fd ∈ set, files.ready d p fd event = true := by
      intro sets hasResult h htv
      refine testLoop_tests (fun event set hset fd hfd => ?_) h
      have hlt := hfits htv event (SelectEvent.mem_all event) set hset fd hfd
      omega
    split
    · exact hneg EBADF (by decide) _ _
    · rename_i sets hasResult h
      split
      · rename_i hresult
        refine ⟨fun r hr => ?_,fun x hx => by cases hx⟩
        obtain rfl := Option.some.inj hr
        intro htv
        obtain ⟨hcount,hready⟩ := hspec h htv
        exact ⟨Int.natCast_ne_zero.mpr hresult,fun _ => ⟨congrArg Nat.cast hcount.symm,hready⟩⟩
      · rename_i hresult
        rw [not_not] at hresult
        have hwait : ∀ x : SelectProgress, x = ⟨c,sets⟩ → x.call.tv = none → x.Cleared := by
          rintro x rfl htv
          have hzero : countBits (fun event => (sets event).set) = 0 := by
            rw [← (hspec h htv).1,hresult]
          exact fun event => cleared_of_countBits hzero event
        split
        · exact ⟨fun r hr => (by cases hr),fun x hx => hwait x (Option.some.inj hx).symm⟩
        · rename_i tv htv
          split
          · exact ⟨fun r hr => (by cases hr),fun x hx => hwait x (Option.some.inj hx).symm⟩
          · refine ⟨fun r hr => ?_,fun x hx => by cases hx⟩
            obtain rfl := Option.some.inj hr
            intro hnone
            cases htv.symm.trans hnone

theorem countBits_update (sets : SelectEvent → Option FdSet)
    (h : ∀ event, ∀ set ∈ sets event, set = ∅) (event : SelectEvent)
    (fd : ℕ) : countBits (Function.update sets event (some {fd})) = 1 := by
  have hzero : ∀ event, (sets event).elim 0 Finset.card = 0 := by
    intro event
    cases hset : sets event with
    | none => rfl
    | some set => exact Finset.card_eq_zero.mpr (h event set hset)
  cases event <;> simp [countBits,SelectEvent.all,hzero]

theorem firstReady_ready {n fd : ℕ} {event : SelectEvent} {wait : FdSet}
    (h : files.firstReady d p n event wait = some fd) :
    files.ready d p fd event = true := by
  have hfd := List.find?_some h
  exact (of_decide_eq_true hfd).2

theorem firstReady_sound {event : SelectEvent} {set : FdSet} {fd : ℕ} (hcleared : x.Cleared)
    (hset : (x.sets event).set = some set) (hready : files.ready d p fd event = true) :
    let sets := Function.update x.sets event { x.sets event with set := some (insert fd set) }
    (1 : ℤ) ≠ 0 ∧ ((0 : ℤ) < 1 → (countBits (fun event => (sets event).set) : ℤ) = 1 ∧
      ∀ event, ∀ set ∈ (sets event).set, ∀ fd ∈ set, files.ready d p fd event = true) := by
  have hempty : set = ∅ := hcleared event set hset
  have hsets :
    (fun event' => (Function.update x.sets event
      { x.sets event with set := some (insert fd set) } event').set) =
      Function.update (fun event => (x.sets event).set) event (some {fd}) := by
    funext event'
    by_cases heq : event' = event
    · subst heq
      rw [Function.update_self,Function.update_self,hempty]
      rfl
    · rw [Function.update_of_ne heq,Function.update_of_ne heq]
  refine ⟨one_ne_zero,fun _ => ⟨?_,fun event' set' hset' fd' hfd' => ?_⟩⟩
  · rw [hsets,countBits_update _ hcleared event fd]
    rfl
  · have hset'' := congrFun hsets event' ▸ hset'
    by_cases heq : event' = event
    · subst heq
      rw [Function.update_self] at hset''
      obtain rfl := Option.some.inj hset''
      rw [Finset.mem_singleton.mp hfd']
      exact hready
    · rw [Function.update_of_ne heq] at hset''
      rw [hcleared event' set' hset''] at hfd'
      cases hfd'

theorem resume_sound (hcleared : x.call.tv = none → x.Cleared)
    (hroused : x.call.tv = none → files.Roused d p task x) :
    (∀ r ∈ (files.resume d p task x).next.result, r.Sound) ∧
    (files.resume d p task x).next.progress = none := by
  have hneg : ∀ e :
    ℕ, 0 < e → ∀ clears, (∀ r ∈ (files.finish d p x.call x.sets (-e) clears).next.result, r.Sound) ∧
      (files.finish d p x.call x.sets (-e) clears).next.progress = none := by
    intro e he clears
    refine ⟨fun r hr => ?_,rfl⟩
    obtain rfl := Option.some.inj hr
    refine SelectReturn.Sound.of_neg ?_
    change -(e : ℤ) < 0
    omega
  -- a call for which nothing has come
  have hzero : (x.call.tv = none → False) →
    (∀ r ∈ (files.finish d p x.call x.sets 0 true).next.result, r.Sound) ∧
      (files.finish d p x.call x.sets 0 true).next.progress = none := by
    intro hno
    refine ⟨fun r hr => ?_,rfl⟩
    obtain rfl := Option.some.inj hr
    exact fun htv => absurd htv hno
  rw [resume]
  split
  · exact hneg EINTR (by decide) false
  · rename_i hint
    split
    · rename_i hnode
      refine hzero fun htv => ?_
      rcases hroused htv with h | ⟨h,-⟩
      · exact hint h
      · rw [Option.isNone_iff_eq_none] at hnode
        rw [hnode] at h
        cases h
    · split
      · exact hneg EFAULT (by decide) true
      · rename_i event hevent
        split
        · exact hneg EFAULT (by decide) true
        · rename_i set hset
          split
          · rename_i hfirst
            refine hzero fun htv => ?_
            rcases hroused htv with h | ⟨-,h⟩
            · exact hint h
            · obtain ⟨fd,hfd,hready⟩ := h event hevent set hset
              exact List.find?_eq_none.mp hfirst fd hfd (decide_eq_true hready)
          · rename_i fd hfirst
            refine ⟨fun r hr => ?_,rfl⟩
            obtain rfl := Option.some.inj hr
            exact fun htv => firstReady_sound (hcleared htv) hset (firstReady_ready hfirst)

section Runs

variable {C P R : Type} {driver : Driver D C P R} {s t : SelectSystem D C P R}
    {e : CallEvent (C ⊕ SelectCall)}
  {own : ℕ → Bool}

/-- The call of `sys_select` that an event makes. -/
def selecting (s : SelectSystem D C P R) (e : CallEvent (C ⊕ SelectCall)) : Option SelectCall :=
  (s.started e).bind Sum.getRight?

/-- The call of `sys_select` that an event goes on with. -/
def selected (s : SelectSystem D C P R) : CallEvent (C ⊕ SelectCall) → Option SelectProgress
  | .resume => (s.calls s.process).bind Sum.getRight?
  | _ => none

/-- Calls without a timeout are made with bits below `n` only, and the process runs again only
if it is interrupted or finds what it has been woken for. -/
def Answered (files : SelectFiles D N) (s : SelectSystem D C P R)
    (e : CallEvent (C ⊕ SelectCall)) : Prop :=
  (∀ c ∈ selecting s e, c.tv = none → c.Fits) ∧
    ∀ x ∈ selected s e, x.call.tv = none →
    files.Roused s.device s.process (s.sched.tasks s.process) x

instance (s : SelectSystem D C P R) (e : CallEvent (C ⊕ SelectCall)) :
    Decidable (Answered files s e) := by
  unfold Answered
  infer_instance

structure SelectsSound (s : SelectSystem D C P R) : Prop where
  returns : ∀ p r, (p,Sum.inr r) ∈ s.returns → SelectReturn.Sound r
  waits : ∀ p x, s.calls p = some (.inr x) → x.call.tv = none → SelectProgress.Cleared x

def Proper (x : Stretch D (C ⊕ SelectCall) (P ⊕ SelectProgress) (R ⊕ SelectReturn)) : Prop :=
  (∀ r, x.next.result = some (.inr r) → r.Sound) ∧
    ∀ y, x.next.progress = some (.inr y) → y.call.tv = none → y.Cleared

theorem proper_own (x : Stretch D C P R) : Proper (x.embed id id id Sum.inl Sum.inl Sum.inl) := by
  refine ⟨fun r hr => ?_,fun y hy => ?_⟩
  · rw [Stretch.embed,Next.map_result] at hr
    obtain ⟨r',-,h⟩ := Option.map_eq_some_iff.mp hr
    cases h
  · rw [Stretch.embed,Next.map_progress] at hy
    obtain ⟨y',-,h⟩ := Option.map_eq_some_iff.mp hy
    cases h

theorem proper_select {x : SelectStretch D} (hresult : ∀ r ∈ x.next.result, r.Sound)
    (hprogress : ∀ y ∈ x.next.progress, y.call.tv = none → y.Cleared) :
    Proper ((x.embed id id id Sum.inr Sum.inr Sum.inr : Stretch D (C ⊕ SelectCall)
        (P ⊕ SelectProgress) (R ⊕ SelectReturn))) := by
  refine ⟨fun r hr => ?_,fun y hy => ?_⟩
  · rw [Stretch.embed,Next.map_result] at hr
    obtain ⟨r',hr',h⟩ := Option.map_eq_some_iff.mp hr
    exact Sum.inr.inj h ▸ hresult r' hr'
  · rw [Stretch.embed,Next.map_progress] at hy
    obtain ⟨y',hy',h⟩ := Option.map_eq_some_iff.mp hy
    exact Sum.inr.inj h ▸ hprogress y' hy'

theorem SelectsSound.proper (hs : SelectsSound s) (hen : s.Enabled own e) (hal : Answered files s e)
    {x : Stretch D (C ⊕ SelectCall) (P ⊕ SelectProgress) (R ⊕ SelectReturn)}
    (hx : s.stretch (driver.withSelect files) e = some x) : Proper x := by
  rcases CallSystem.stretch_cases hen hx with ⟨-,call,hcall,rfl⟩ | ⟨rfl,progress,hprogress,rfl⟩
  · cases call with
    | inl call => exact proper_own _
    | inr c =>
      have hfits : c.tv = none → c.Fits := fun htv => hal.1 c (by rw [selecting,hcall]; rfl) htv
      exact proper_select (start_sound hfits).1 (start_sound hfits).2
  · cases progress with
    | inl progress => exact proper_own _
    | inr y =>
      have hsound := resume_sound (hs.waits s.process y hprogress) fun htv =>
        hal.2 y (by rw [selected,hprogress]; rfl) htv
      refine proper_select hsound.1 fun y' hy' => ?_
      rw [hsound.2] at hy'
      cases hy'

theorem SelectsSound.step (hs : SelectsSound s)
    (hstep : CallSystem.Step (driver.withSelect files) own (Answered files) s t) :
    SelectsSound t := by
  obtain ⟨e,hen,hal,hret⟩ := hstep
  cases hx : s.stretch (driver.withSelect files) e with
  | none =>
    have hsame := CallSystem.step_none hx hret
    exact ⟨hsame.returns_eq ▸ hs.returns,hsame.calls_eq ▸ hs.waits⟩
  | some x =>
    have hran := CallSystem.step_stretch hx hret
    obtain ⟨hresult,hprogress⟩ := hs.proper hen hal hx
    refine ⟨fun p r hr => ?_,fun p y hy => ?_⟩
    · rw [hran.returns_eq] at hr
      rcases List.mem_append.mp hr with hr | hr
      · exact hs.returns p r hr
      · obtain ⟨r',hr',heq⟩ := Option.map_eq_some_iff.mp (Option.mem_toList.mp hr)
        exact hresult r (hr'.trans (congrArg some (Prod.mk.inj heq).2))
    · by_cases hp : p = s.process
      · rw [hp,hran.calls_self] at hy
        exact hprogress y hy
      · rw [hran.calls_other hp] at hy
        exact hs.waits p y hy

theorem boot_selectsSound (device : D) :
    SelectsSound (CallSystem.boot device : SelectSystem D C P R) :=
  ⟨fun _ _ h => (by cases h),fun _ _ h => (by cases h)⟩

end Runs

end SelectFiles

inductive IpcNode
  | pipe (i : ℕ)
  | socket (sd : ℕ)

/-- Pipes and sockets, and the descriptors of the processes. -/
structure Ipc where
  pipes : ℕ → Pipe
  sockets : Sockets
  fds : ℕ → ℕ → Option IpcNode

inductive IpcCall
  | pipe (i : ℕ) (call : PipeCall)
  | socket (call : SocketCall)
  deriving DecidableEq

inductive IpcProgress
  | pipe (i : ℕ) (progress : PipeProgress)
  | socket (progress : SocketProgress)

inductive IpcReturn
  | pipe (i : ℕ) (r : PipeReturn)
  | socket (r : SocketReturn)

namespace Pipe

def kFsPipeCheck (d : Pipe) : SelectEvent → Bool
  | .read => 0 < d.ring.readAvailable
  | .write => 0 < d.ring.writeAvailable
  | .except => false

/-- `__k_fs_pipe_wait`. -/
def selQueue : SelectEvent → ℕ
  | .read => PIPE_SEL_QUEUE_R
  | .write => PIPE_SEL_QUEUE_W
  | .except => PIPE_SEL_QUEUE_E

end Pipe

namespace Sockets

def kFsSocketCheck (d : Sockets) (sd : ℕ) : SelectEvent → Bool
  | .read => 0 < (d.sockets sd).availableData ∨ 0 < (d.sockets sd).backlog.length
  | .write => (d.sockets sd).availableData < SOCKET_MAX_BUFFER_SIZE
  | .except => false

/-- `__k_fs_socket_wait`. -/
def selQueue (sd : ℕ) : SelectEvent → ℕ
  | .read => SOCK_SEL_QUEUE_R sd
  | .write => SOCK_SEL_QUEUE_W sd
  | .except => SOCK_SEL_QUEUE_E sd

end Sockets

namespace Ipc

def pipeQueue (i q : ℕ) : ℕ := 3*(4*i+q)
def socketQueue (q : ℕ) : ℕ := 3*q+1
def pipeNode (i : ℕ) (_ : ℕ) : ℕ := 2*i
def socketNode (sd : ℕ) : ℕ := 2*sd+1

def isOwn (q : ℕ) : Bool := q%3 ≠ 2

def setPipe (d : Ipc) (i : ℕ) (pipe : Pipe) : Ipc :=
  { d with pipes := Function.update d.pipes i pipe }

def setSockets (d : Ipc) (sockets : Sockets) : Ipc := { d with sockets := sockets }

def driver : Driver Ipc IpcCall IpcProgress IpcReturn where
  start d p
    | .pipe i call => ((d.pipes i).start p call).embed (d.setPipe i) (pipeQueue i) (pipeNode i)
        (.pipe i) (.pipe i) (.pipe i)
    | .socket call => (d.sockets.start p call).embed d.setSockets socketQueue socketNode
        .socket .socket .socket
  resume d p task
    | .pipe i x => ((d.pipes i).resume p task x).embed (d.setPipe i) (pipeQueue i) (pipeNode i)
        (.pipe i) (.pipe i) (.pipe i)
    | .socket x => (d.sockets.resume p task x).embed d.setSockets socketQueue socketNode
        .socket .socket .socket

def files : SelectFiles Ipc IpcNode where
  node d p fd := d.fds p fd
  check d
    | .pipe i => (d.pipes i).kFsPipeCheck
    | .socket sd => d.sockets.kFsSocketCheck sd
  queue
    | .pipe i => fun event => pipeQueue i (Pipe.selQueue event)
    | .socket sd => fun event => socketQueue (Sockets.selQueue sd event)

abbrev System := SelectSystem Ipc IpcCall IpcProgress IpcReturn

/-- The kernel with pipes and sockets, and the calls on them. -/
def Step (allowed : System → CallEvent (IpcCall ⊕ SelectCall) → Prop) : System → System → Prop :=
  CallSystem.Step (driver.withSelect files) isOwn allowed

/-- In a run in which every call of `sys_select` without a timeout finds what it was woken for,
none of them returns 0, and a positive result counts the bits, each of a descriptor that is
ready. -/
theorem select_without_timeout (device : Ipc) {s : System}
    (h : Relation.ReflTransGen (Step (SelectFiles.Answered files)) (CallSystem.boot device) s) :
    ∀ p r, (p,Sum.inr r) ∈ s.returns → SelectReturn.Sound r :=
  (reach_invariant (fun _ _ hs hstep =>
    hs.step hstep) (SelectFiles.boot_selectsSound device) h).returns

def onePipe : Ipc := ⟨fun _ => .create 16,.init,fun _ fd => if fd = 0 then some (.pipe 0) else none⟩

def selectRead : SelectCall := ⟨1,fun event => if event = .read then some {0} else none,none⟩

def twoSelectors : List (CallEvent (IpcCall ⊕ SelectCall)) :=
  [.other .fork,.other .fork,.other .yield,.call (.inr selectRead),.call (.inr selectRead),
    .call (.inl (.pipe 0 (.write false [7]))),.other .yield,.resume,
    .call (.inl (.pipe 0 (.read false 1))),.other .yield,.resume]

theorem select_returns_zero : ¬ ∀ (device : Ipc) (s : System),
    Relation.ReflTransGen (Step CallSystem.anyStep) (CallSystem.boot device) s →
      ∀ p r, (p,Sum.inr r) ∈ s.returns → SelectReturn.Sound r := by
  intro hall
  have hrun : ∃ s, Relation.ReflTransGen (Step CallSystem.anyStep) (CallSystem.boot onePipe) s ∧
      (s.returns.any fun r => r.2.getRight?.any fun r => r.call.tv = none && r.result = 0) = true :=
    CallSystem.exists_run isOwn CallSystem.anyStep twoSelectors _ (by decide +kernel)
  obtain ⟨s,hs,hany⟩ := hrun
  obtain ⟨⟨p,r⟩,hr,hzero⟩ := List.any_eq_true.mp hany
  cases r with
  | inl r => cases hzero
  | inr r =>
    have hzero' : (r.call.tv = none && r.result = 0) = true := hzero
    rw [Bool.and_eq_true,decide_eq_true_eq,decide_eq_true_eq] at hzero'
    exact (hall onePipe s hs p r hr hzero'.1).1 hzero'.2

/-- A process selects what it has written itself. -/
theorem select_without_timeout_written : ∃ s : System, ∃ p r,
    Relation.ReflTransGen (Step (SelectFiles.Answered files)) (CallSystem.boot onePipe) s ∧
      (p,Sum.inr r) ∈ s.returns ∧ r.call.tv = none ∧ r.result = 1 ∧ SelectReturn.Sound r := by
  have hrun :
    ∃ s, Relation.ReflTransGen (Step (SelectFiles.Answered files)) (CallSystem.boot onePipe) s ∧
      (s.returns.any fun r => r.2.getRight?.any fun r => r.call.tv = none && r.result = 1) = true :=
    CallSystem.exists_run isOwn (SelectFiles.Answered files)
      [.call (.inl (.pipe 0 (.write false [7]))),.call (.inr selectRead)] _ (by decide +kernel)
  obtain ⟨s,hs,hany⟩ := hrun
  obtain ⟨⟨p,r⟩,hr,hone⟩ := List.any_eq_true.mp hany
  cases r with
  | inl r => cases hone
  | inr r =>
    have hone' : (r.call.tv = none && r.result = 1) = true := hone
    rw [Bool.and_eq_true,decide_eq_true_eq,decide_eq_true_eq] at hone'
    exact ⟨s,p,r,hs,hr,hone'.1,hone'.2,select_without_timeout onePipe hs p r hr⟩

end Ipc
end ScalesOS
