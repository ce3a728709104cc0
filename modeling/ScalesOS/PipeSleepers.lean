import ScalesOS.Pipes

/-!
# Who sleeps on a pipe

A reader is to sleep on `wait_queue` only while the pipe is empty, and a writer only while it
is full. The queue is woken at the end of a transfer and not when a transfer goes to sleep
in the middle, so that this holds for as long as no call has to sleep while a process of the
other kind does.
-/

namespace ScalesOS
namespace Pipe

variable {s t : PipeSystem} {e : CallEvent PipeCall} {p : ℕ} {x : PipeStretch} {d : Pipe}
    {noblock : Bool}

def waiters (s : PipeSystem) : List ℕ := s.sched.queues (.other PIPE_WAIT_QUEUE)

def isRead : PipeCall → Bool
  | .write _ _ => false
  | .read _ _ => true

/-- The process is in a read. -/
def isReader (s : PipeSystem) (p : ℕ) : Bool := (s.calls p).any fun y => isRead y.call

/-- The process is in a write. -/
def isWriter (s : PipeSystem) (p : ℕ) : Bool := (s.calls p).any fun y => !isRead y.call

/-- Readers sleep while there is nothing to read, writers while there is no room. -/
def Justified (s : PipeSystem) : Prop :=
  ∀ p ∈ waiters s, (isReader s p = true → s.device.ring.readAvailable = 0) ∧
    (isWriter s p = true → s.device.ring.writeAvailable = 0)

/-- The call that an event starts or goes on with. -/
def running (s : PipeSystem) : CallEvent PipeCall → Option PipeProgress
  | .call call => some ⟨call,[]⟩
  | .resume => if (s.sched.tasks s.process).interrupted then none else s.calls s.process
  | .returnFromSignal true => (s.interruptedSyscall s.process).map fun call => ⟨call,[]⟩
  | _ => none

/-- The call that runs does not ask for more than the pipe can give or hold while processes
of the other kind sleep. -/
def Untangled (s : PipeSystem) (e : CallEvent PipeCall) : Prop :=
  match running s e with
  | some ⟨.write false data,moved⟩ =>
    data.length-moved.length ≤ s.device.ring.writeAvailable ∨ ∀ q ∈ waiters s, isReader s q = false
  | some ⟨.read false size,moved⟩ =>
    size-moved.length ≤ s.device.ring.readAvailable ∨ ∀ q ∈ waiters s, isWriter s q = false
  | _ => True

instance (s : PipeSystem) (e : CallEvent PipeCall) : Decidable (Untangled s e) := by
  unfold Untangled
  split <;> infer_instance

/-- Nothing is moved: the call is interrupted, or would have to wait. -/
structure Quiet (d : Pipe) (x : PipeStretch) : Prop where
  device_eq : x.device = d
  clears_eq : x.clears = false
  wakes_eq : x.wakes = []
  events_eq : x.next.events = []
  progress_eq : x.next.progress = none

structure Ends (x : PipeStretch) : Prop where
  valid : x.device.ring.Valid
  clears_eq : x.clears = false
  wakes_eq : ∃ queue event, x.wakes = [.wakeup PIPE_WAIT_QUEUE,.wakeupSelect queue PIPE_NODE event]
  next_eq : ∃ r, x.next = .finish r

/-- The call sleeps in the middle of its transfer. -/
structure Sleeps (x : PipeStretch) (y : PipeProgress) : Prop where
  valid : x.device.ring.Valid
  clears_eq : x.clears = false
  wakes_eq : x.wakes = []
  next_eq : x.next = .sleep PIPE_WAIT_QUEUE y

theorem write_kind (hv : d.ring.Valid) (p : ℕ) (noblock : Bool) (data moved : List Byte) :
    ((data.length-moved.length ≤ d.ring.writeAvailable ∨ noblock) ∧
      Ends (d.kFsPipeWrite p noblock data moved)) ∨
      (d.ring.writeAvailable < data.length-moved.length ∧ noblock = false ∧
        (∃ moved', Sleeps (d.kFsPipeWrite p noblock data moved) ⟨.write false data,moved'⟩) ∧
        (d.kFsPipeWrite p noblock data moved).device.ring.writeAvailable = 0) := by
  obtain ⟨hv',hsize,hcontents,-⟩ := Ringbuffer.storeLoop_spec (data.drop moved.length) d.ring hv
  rw [kFsPipeWrite_eq hv,← List.length_drop]
  dsimp only
  split
  · rename_i hend
    exact Or.inl ⟨hend,hv',rfl,⟨_,_,rfl⟩,⟨_,rfl⟩⟩
  · rename_i hend
    rw [not_or,not_le,Bool.not_eq_true] at hend
    obtain ⟨hlt,rfl⟩ := hend
    refine Or.inr ⟨hlt,rfl,⟨_,hv',rfl,rfl,rfl⟩,?_⟩
    -- the pipe has been filled
    change (Ringbuffer.storeLoop (data.drop moved.length) d.ring).1.writeAvailable = 0
    have hsum := hv.available
    have hsum' := hv'.available
    rw [Ringbuffer.readAvailable_eq] at hsum hsum'
    rw [hcontents,List.length_append,List.length_take,hsize] at hsum'
    omega

theorem read_kind (hv : d.ring.Valid) (p : ℕ) (noblock : Bool) {size : ℕ} (moved : List Byte)
    (hm : moved.length ≤ size) :
    (size-moved.length ≤ d.ring.readAvailable ∧ Ends (d.readLoop p noblock size moved)) ∨
      (d.ring.readAvailable < size-moved.length ∧
        (∃ moved', moved'.length ≤ size ∧
          Sleeps (d.readLoop p noblock size moved) ⟨.read noblock size,moved'⟩) ∧
        (d.readLoop p noblock size moved).device.ring.readAvailable = 0) := by
  obtain ⟨hv',-,hcontents,-⟩ := Ringbuffer.takeLoop_spec (size-moved.length) d.ring hv
  rw [readLoop_eq hv _ _ hm]
  dsimp only
  split
  · rename_i hend
    exact Or.inl ⟨hend,hv',rfl,⟨_,_,rfl⟩,⟨_,rfl⟩⟩
  · rename_i hend
    refine Or.inr ⟨by omega,⟨_,?_,hv',rfl,rfl,rfl⟩,?_⟩
    · rw [List.length_append,List.length_take]
      omega
    · change (Ringbuffer.takeLoop (size-moved.length) d.ring).1.readAvailable = 0
      rw [Ringbuffer.readAvailable_eq] at hend
      rw [Ringbuffer.readAvailable_eq,hcontents,List.length_drop]
      omega

theorem Quiet.sched (h : Quiet d x) (hx : s.stretch driver e = some x)
    (hret : s.step driver e = .ok t) :
    t.sched = s.sched := by
  obtain ⟨u,hu,ht⟩ := CallSystem.step_sched hx hret
  rw [CallSystem.cleared,h.clears_eq,h.wakes_eq] at hu
  rw [h.events_eq] at ht
  exact (Except.ok.inj ht).symm.trans (Except.ok.inj hu).symm

theorem Ends.sched (h : Ends x) (hs : s.sched.Inv) (hx : s.stretch driver e = some x)
    (hret : s.step driver e = .ok t) :
    t.sched.Inv ∧ waiters t = [] := by
  obtain ⟨u,hu,ht⟩ := CallSystem.step_sched hx hret
  obtain ⟨queue,event,hwakes⟩ := h.wakes_eq
  obtain ⟨r,hnext⟩ := h.next_eq
  rw [CallSystem.cleared,h.clears_eq,hwakes] at hu
  rw [hnext] at ht
  obtain ⟨v,hv,hu⟩ := Result.bind_eq_ok.mp hu
  have hv' := Sched.wakeupQueue_spec hs.core hv
  have hvi := hs.wakes hv'.wakes
  have hu' := Sched.wakeupQueueSelect_spec hvi.core (Sched.perform_one hu)
  have heq : t.sched = u := (Except.ok.inj ht).symm
  rw [waiters,heq]
  refine ⟨hvi.wakes hu'.wakes,List.eq_nil_iff_forall_not_mem.mpr fun p => hu'.wakes.off_queue ?_⟩
  rw [hv'.empty]
  exact List.not_mem_nil

theorem Sleeps.sched {y : PipeProgress} (h : Sleeps x y) (hs : s.sched.Inv)
    (hidle : s.process ≠ IDLE) (hx : s.stretch driver e = some x) (hret : s.step driver e = .ok t) :
    t.sched.Inv ∧ ∀ q, q ∈ waiters t ↔ q ∈ waiters s ∨ q = s.process := by
  obtain ⟨u,hu,ht⟩ := CallSystem.step_sched hx hret
  rw [CallSystem.cleared,h.clears_eq,h.wakes_eq] at hu
  obtain rfl := Except.ok.inj hu
  rw [h.next_eq] at ht
  have hsleep := Sched.perform_one ht
  have hq : ∀ r, Queue.other PIPE_WAIT_QUEUE = .wait r → r = s.sched.current := fun r hr => by
    cases hr
  exact ⟨hs.sleepOnQueue hidle hq hsleep,Sched.sleepOnQueue_members hs hidle hq hsleep⟩

def Blocking (y : PipeProgress) : Prop :=
  match y.call with
  | .write noblock _ => noblock = false
  | .read noblock size => noblock = false ∧ y.moved.length ≤ size

structure Base (s : PipeSystem) : Prop where
  inv : s.sched.Inv
  valid : s.device.ring.Valid
  progress : ∀ p, ∀ y ∈ s.calls p, p ≠ IDLE ∧ Blocking y
  member : ∀ p ∈ waiters s, (s.calls p).isSome

/-- The stretch falls asleep in a call of one kind, and those of the other kind are the
condition. -/
structure FallsAsleep (s : PipeSystem) (e : CallEvent PipeCall) (x : PipeStretch)
    (y : PipeProgress) : Prop where
  sleeps : Sleeps x y
  blocking : Blocking y
  kind : (isRead y.call = false ∧ x.device.ring.writeAvailable = 0 ∧
      (Untangled s e ↔ ∀ q ∈ waiters s, isReader s q = false)) ∨
    (isRead y.call = true ∧ x.device.ring.readAvailable = 0 ∧
      (Untangled s e ↔ ∀ q ∈ waiters s, isWriter s q = false))

theorem go_kind (hv : s.device.ring.Valid) {call : PipeCall} {moved : List Byte}
    (hrun : running s e = some ⟨call,moved⟩) :
    match call with
    | .write noblock data =>
      (Ends (s.device.kFsPipeWrite p noblock data moved) ∧ Untangled s e) ∨
        ∃ y, FallsAsleep s e (s.device.kFsPipeWrite p noblock data moved) y
    | .read noblock size => noblock = false → moved.length ≤ size →
      (Ends (s.device.readLoop p noblock size moved) ∧ Untangled s e) ∨
        ∃ y, FallsAsleep s e (s.device.readLoop p noblock size moved) y := by
  cases call with
  | write noblock data =>
    rcases write_kind hv p noblock data moved with ⟨hend,hends⟩ | ⟨hlt,rfl,⟨moved',hsleeps⟩,hfull⟩
    · refine Or.inl ⟨hends,?_⟩
      rw [Untangled,hrun]
      cases noblock with
      | true => trivial
      | false => exact Or.inl (hend.resolve_right Bool.false_ne_true)
    · refine Or.inr ⟨_,hsleeps,rfl,Or.inl ⟨rfl,hfull,?_⟩⟩
      rw [Untangled,hrun]
      exact ⟨fun h => h.resolve_left (by omega),Or.inr⟩
  | read noblock size =>
    rintro rfl hm
    rcases read_kind hv p false _ hm with ⟨hend,hends⟩ | ⟨hlt,⟨moved',hm',hsleeps⟩,hempty⟩
    · refine Or.inl ⟨hends,?_⟩
      rw [Untangled,hrun]
      exact Or.inl hend
    · refine Or.inr ⟨_,hsleeps,⟨rfl,hm'⟩,Or.inr ⟨rfl,hempty,?_⟩⟩
      rw [Untangled,hrun]
      exact ⟨fun h => h.resolve_left (by omega),Or.inr⟩

theorem start_kind (hv : s.device.ring.Valid) {call : PipeCall}
    (hrun : running s e = some ⟨call,[]⟩) :
    (Quiet s.device (s.device.start p call) ∧ Untangled s e) ∨
    (Ends (s.device.start p call) ∧ Untangled s e) ∨
      ∃ y, FallsAsleep s e (s.device.start p call) y := by
  have hgo := go_kind (p:=p) hv hrun
  cases call with
  | write noblock data => exact Or.inr hgo
  | read noblock size =>
    rw [start,kFsPipeRead]
    cases noblock with
    | false =>
      rw [if_neg (fun h => Bool.false_ne_true h.1)]
      exact Or.inr (hgo rfl (Nat.zero_le _))
    | true =>
      have huntangled : Untangled s e := by
        rw [Untangled,hrun]
        trivial
      split
      · exact Or.inl ⟨⟨rfl,rfl,rfl,rfl,rfl⟩,huntangled⟩
      · rename_i hsize
        rw [not_and,not_lt] at hsize
        rcases read_kind hv p true [] (Nat.zero_le size) with ⟨-,hends⟩ | ⟨hlt,-⟩
        · exact Or.inr (Or.inl ⟨hends,huntangled⟩)
        · exact absurd (hsize rfl) (Nat.not_le.mpr hlt)

theorem stretch_kind (hs : Base s) (hx : s.stretch driver e = some x) :
    (Quiet s.device x ∧ Untangled s e) ∨ (Ends x ∧ Untangled s e) ∨ ∃ y, FallsAsleep s e x y := by
  cases e with
  | call call =>
    obtain rfl := Option.some.inj hx
    exact start_kind hs.valid rfl
  | resume =>
    obtain ⟨⟨call,moved⟩,hy,rfl⟩ := Option.map_eq_some_iff.mp hx
    change (Quiet s.device (s.device.resume _ _ _) ∧ _) ∨ (Ends (s.device.resume _ _ _) ∧ _) ∨ ∃ y,
      FallsAsleep s _ (s.device.resume _ _ _) y
    rw [resume]
    by_cases hint : (s.sched.tasks s.process).interrupted = true
    · rw [if_pos hint]
      refine Or.inl ⟨⟨rfl,rfl,rfl,rfl,rfl⟩,?_⟩
      rw [Untangled,running,if_pos hint]
      trivial
    · rw [if_neg hint]
      have hrun : running s .resume = some ⟨call,moved⟩ := by
        rw [running,if_neg hint,hy]
      have hgo := go_kind (p:=s.process) hs.valid hrun
      obtain ⟨-,hblock⟩ := hs.progress _ _ hy
      cases call with
      | write noblock data => exact Or.inr hgo
      | read noblock size =>
        obtain ⟨hnb,hm⟩ := hblock
        exact Or.inr (hgo hnb hm)
  | returnFromSignal saRestart =>
    cases saRestart with
    | false => cases hx
    | true =>
      obtain ⟨call,hcall,rfl⟩ := Option.map_eq_some_iff.mp hx
      refine start_kind hs.valid ?_
      rw [running,hcall]
      rfl
  | other e => cases hx

theorem Base.not_waiting (hs : Base s) : s.process ∉ waiters s := fun hm =>
  Sched.not_sleeping_of_schedulable hs.inv.current_runs (hs.inv.core.sleeping_of_mem hm)

theorem Base.idle (hs : Base s) (hen : s.Enabled isOwn e) (hx : s.stretch driver e = some x) :
    s.process ≠ IDLE := by
  cases e with
  | call call => exact hen.1
  | resume =>
    obtain ⟨y,hy,-⟩ := Option.map_eq_some_iff.mp hx
    exact (hs.progress _ y hy).1
  | returnFromSignal saRestart => exact hen.1
  | other e => cases hx

theorem Base.none (hs : Base s) (hen : s.Enabled isOwn e) (hx : s.stretch driver e = none)
    (hret : s.step driver e = .ok t) :
    t.sched.Inv ∧ ∀ q ∈ waiters t, q ∈ waiters s := by
  obtain ⟨u,hu,h⟩ := Result.bind_eq_ok.mp hret
  simp only [hx] at h
  obtain rfl := Except.ok.inj h
  cases e with
  | other e =>
    obtain ⟨sched,hsched,hu⟩ := Result.bind_eq_ok.mp hu
    obtain rfl := Except.ok.inj hu
    refine ⟨hs.inv.step hen.1 hen.2.1 hsched,fun q hq => ?_⟩
    have hjoins := Sched.step_joins hsched
    exact (hjoins _ q hq).resolve_right fun h => hen.not_own (q:=PIPE_WAIT_QUEUE) rfl h.2
  | _ =>
    obtain rfl := Except.ok.inj hu
    exact ⟨hs.inv,fun q hq => hq⟩

theorem running_none (hx : s.stretch driver e = none) : running s e = none := by
  cases e with
  | call call => cases hx
  | resume =>
    rw [running]
    split
    · rfl
    · exact Option.map_eq_none_iff.mp hx
  | returnFromSignal saRestart =>
    cases saRestart with
    | false => rfl
    | true =>
      rw [running,Option.map_eq_none_iff]
      exact Option.map_eq_none_iff.mp hx
  | other e => rfl

theorem reader_other (hran : CallSystem.Ran s t x) {q : ℕ} (hq : q ≠ s.process) :
    isReader t q = isReader s q ∧ isWriter t q = isWriter s q := by
  rw [isReader,isReader,isWriter,isWriter,hran.calls_other hq]
  exact ⟨rfl,rfl⟩

/-- A process has come onto the queue that is not of the other kind: those of the other kind
must not have been there, since they would have something to do. -/
theorem others_iff {other other' : ℕ → Bool} {l l' : List ℕ} {p n : ℕ}
    (hmem : ∀ q, q ∈ l' ↔ q ∈ l ∨ q = p)
    (hself : other' p = false) (hsame : ∀ q, q ≠ p → other' q = other q) (hp : p ∉ l) (hn : n ≠ 0) :
    (∀ q ∈ l', other' q = true → n = 0) ↔ ∀ q ∈ l, other q = false := by
  have hne : ∀ q ∈ l, q ≠ p := fun q hq heq => hp (heq ▸ hq)
  constructor
  · intro h q hq
    by_contra hother
    rw [Bool.not_eq_false,← hsame q (hne q hq)] at hother
    exact hn (h q ((hmem q).mpr (Or.inl hq)) hother)
  · intro h q hq hother
    rcases (hmem q).mp hq with hq | rfl
    · rw [hsame q (hne q hq),h q hq] at hother
      cases hother
    · rw [hself] at hother
      cases hother

theorem FallsAsleep.step {y : PipeProgress} (h : FallsAsleep s e x y) (hs : Base s)
    (hidle : s.process ≠ IDLE) (hx : s.stretch driver e = some x) (hret : s.step driver e = .ok t) :
    Base t ∧ (Justified t ↔ Untangled s e) := by
  have hran := CallSystem.step_stretch hx hret
  obtain ⟨hinv,hmem⟩ := h.sleeps.sched hs.inv hidle hx hret
  have hcall : t.calls s.process = some y := by
    rw [hran.calls_self,h.sleeps.next_eq]
    rfl
  have hv : t.device.ring.Valid := hran.device_eq ▸ h.sleeps.valid
  have hsum := hv.available
  have htwo := hv.two_le
  refine ⟨⟨hinv,hv,fun p z hz => ?_,fun p hp => ?_⟩,?_⟩
  · by_cases hp : p = s.process
    · rw [hp,hcall] at hz
      obtain rfl := Option.mem_some_iff.mp hz
      exact ⟨hp ▸ hidle,h.blocking⟩
    · rw [hran.calls_other hp] at hz
      exact hs.progress p z hz
  · rcases (hmem p).mp hp with hm | rfl
    · rw [hran.calls_other (fun heq => hs.not_waiting (heq ▸ hm))]
      exact hs.member p hm
    · rw [hcall]
      rfl
  · rw [Justified]
    rcases h.kind with ⟨hread,hfull,hiff⟩ | ⟨hread,hempty,hiff⟩
    · rw [← hran.device_eq] at hfull
      have hself : isReader t s.process = false := by
        rw [isReader,hcall]
        exact hread
      rw [hiff,← others_iff hmem hself (fun q hq => (reader_other hran hq).1) hs.not_waiting
        (n:=t.device.ring.readAvailable) (by omega)]
      exact ⟨fun hj q hq => (hj q hq).1,fun hj q hq => ⟨hj q hq,fun _ => hfull⟩⟩
    · rw [← hran.device_eq] at hempty
      have hself : isWriter t s.process = false := by
        rw [isWriter,hcall]
        change (!isRead y.call) = false
        rw [hread]
        rfl
      rw [hiff,← others_iff hmem hself (fun q hq => (reader_other hran hq).2) hs.not_waiting
        (n:=t.device.ring.writeAvailable) (by omega)]
      exact ⟨fun hj q hq => (hj q hq).2,fun hj q hq => ⟨fun _ => hempty,hj q hq⟩⟩

theorem Base.step (hs : Base s) (hold : Justified s) (hen : s.Enabled isOwn e)
    (hret : s.step driver e = .ok t) :
    Base t ∧ (Justified t ↔ Untangled s e) := by
  cases hx : s.stretch driver e with
  | none =>
    have hsame := CallSystem.step_none hx hret
    obtain ⟨hinv,hsub⟩ := hs.none hen hx hret
    refine ⟨⟨hinv,?_,?_,fun p hp => ?_⟩,iff_of_true (fun q hq => ?_) ?_⟩
    · rw [hsame.device_eq]
      exact hs.valid
    · rw [hsame.calls_eq]
      exact hs.progress
    · rw [hsame.calls_eq]
      exact hs.member p (hsub p hp)
    · rw [isReader,isWriter,hsame.calls_eq,hsame.device_eq]
      exact hold q (hsub q hq)
    · rw [Untangled,running_none hx]
      trivial
  | some x =>
    have hran := CallSystem.step_stretch hx hret
    have hidle := hs.idle hen hx
    have hprogress : x.next.progress = Option.none → ∀ p, ∀ y ∈ t.calls p, p ≠ IDLE ∧
        Blocking y := by
      intro hnone p y hy
      by_cases hp : p = s.process
      · rw [hp,hran.calls_self,hnone] at hy
        cases hy
      · rw [hran.calls_other hp] at hy
        exact hs.progress p y hy
    rcases stretch_kind hs hx with ⟨hquiet,huntangled⟩ | ⟨hends,huntangled⟩ | ⟨y,hfalls⟩
    · have hsched := hquiet.sched hx hret
      have hwait : waiters t = waiters s := by
        rw [waiters,hsched]
        rfl
      have hother : ∀ q ∈ waiters s, q ≠ s.process := fun q hq heq => hs.not_waiting (heq ▸ hq)
      refine ⟨⟨hsched ▸ hs.inv,?_,hprogress hquiet.progress_eq,fun p hp => ?_⟩,
        iff_of_true (fun q hq => ?_) huntangled⟩
      · rw [hran.device_eq,hquiet.device_eq]
        exact hs.valid
      · rw [hwait] at hp
        rw [hran.calls_other (hother p hp)]
        exact hs.member p hp
      · rw [hwait] at hq
        rw [(reader_other hran (hother q hq)).1,(reader_other hran (hother q hq)).2,hran.device_eq,
          hquiet.device_eq]
        exact hold q hq
    · obtain ⟨hinv,hempty⟩ := hends.sched hs.inv hx hret
      have hnone : x.next.progress = Option.none := by
        obtain ⟨r,hr⟩ := hends.next_eq
        rw [hr]
        rfl
      refine ⟨⟨hinv,hran.device_eq ▸ hends.valid,hprogress hnone,fun p hp => ?_⟩,
        iff_of_true (fun q hq => ?_) huntangled⟩
      · rw [hempty] at hp
        cases hp
      · rw [hempty] at hq
        cases hq
    · exact hfalls.step hs hidle hx hret

theorem boot_base {size : ℕ} (hsize : 2 ≤ size) : Base (.boot (create size)) where
  inv := Sched.boot_inv
  valid := create_valid hsize
  progress := fun _ y hy => by cases hy
  member := fun p hp => by cases hp

/-- In every run in which no call has to sleep while a process of the other kind sleeps,
nobody sleeps on the pipe without need, and so never a reader and a writer at once; a step
from there keeps this just if its call does not have to sleep in such a state. -/
theorem no_needless_sleep {size : ℕ} (hsize : 2 ≤ size)
    (h : Relation.ReflTransGen (CallSystem.Step driver isOwn Untangled) (.boot (create size)) s) :
    Justified s ∧ ¬ (∃ p ∈ waiters s, ∃ q ∈ waiters s, isReader s p = true ∧ isWriter s q = true) ∧
      ∀ e t, s.Enabled isOwn e → s.step driver e = .ok t → (Justified t ↔ Untangled s e) := by
  have hs : Base s ∧ Justified s := by
    refine reach_invariant (I:=fun s => Base s ∧ Justified s) ?_ ⟨boot_base hsize,
      fun p hp => by cases hp⟩ h
    rintro s t hs ⟨e,hen,hal,hret⟩
    obtain ⟨hb,hj⟩ := hs.1.step hs.2 hen hret
    exact ⟨hb,hj.mpr hal⟩
  obtain ⟨hbase,hjust⟩ := hs
  refine ⟨hjust,?_,fun e t hen hret => (hbase.step hjust hen hret).2⟩
  rintro ⟨p,hp,q,hq,hreader,hwriter⟩
  have hsum := hbase.valid.available
  have htwo := hbase.valid.two_le
  have hread := (hjust p hp).1 hreader
  have hwrite := (hjust q hq).2 hwriter
  omega

/-- A reader sleeps on an empty pipe. -/
theorem no_needless_sleep_reader : ∃ s : PipeSystem, waiters s = [1] ∧ isReader s 1 = true ∧
    Justified s := by
  obtain ⟨s,hs,hps⟩ := CallSystem.exists_run (d:=driver) isOwn Untangled (s:=.boot (create 2))
    [.other .fork,.call (.read false 1)] (fun s => waiters s = [1] ∧ isReader s 1 = true) (by
      decide +kernel)
  exact ⟨s,(of_decide_eq_true hps).1,(of_decide_eq_true hps).2,(no_needless_sleep (by decide) hs).1⟩

/-- The first process sleeps because a pipe of two cells is empty. The second writes two
bytes into it: it sleeps after the first of them, on the same queue, and has woken nobody. -/
theorem reader_and_writer_asleep : ∃ s : PipeSystem,
    Relation.ReflTransGen (CallSystem.Step driver isOwn CallSystem.anyStep) (.boot (create 2)) s ∧
      waiters s = [1,2] ∧ isReader s 1 = true ∧ isWriter s 2 = true ∧ s.sched.current = IDLE ∧
      ¬ Justified s := by
  obtain ⟨s,hs,hps⟩ :=
    CallSystem.exists_run (d:=driver) isOwn CallSystem.anyStep (s:=.boot (create 2))
    [.other .fork,.call (.read false 1),.call (.write false [5,6])]
    (fun s => waiters s = [1,2] ∧ isReader s 1 = true ∧ isWriter s 2 = true ∧
      s.sched.current = IDLE ∧ s.device.ring.readAvailable = 1) (by decide +kernel)
  obtain ⟨hwait,hr,hw,hidle,hread⟩ := of_decide_eq_true hps
  refine ⟨s,hs,hwait,hr,hw,hidle,fun hj => ?_⟩
  have hzero := (hj 1 (hwait ▸ List.mem_cons_self)).1 hr
  rw [hread] at hzero
  cases hzero

end Pipe
end ScalesOS
