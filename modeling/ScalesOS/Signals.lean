import ScalesOS.Machine

/-!
# Signals

Sending, configuring and dispatching signals: `k_proc_process_send_signal` and
`k_proc_process_process_signals` of `kernel/src/proc/process.c`, `sys_sigact` of
`kernel/src/int/syscall.c`. The sets of pending and of ignored signals have 64 bits, but
the masks are shifts of the `int` 1, which the processor does modulo 32 and which are
extended with their sign.
-/

namespace ScalesOS

def MAX_SIGNAL : ℕ := 64

def SIGCHLD : ℕ := 17
def SIGSTOP : ℕ := 19
def SIGTSTP : ℕ := 20
def SIGSYS : ℕ := 31

def SIG_IGNORE : ℕ := 0
def SIG_TERMINATE : ℕ := 1
def SIG_STOP : ℕ := 2

def sigDefaults : List ℕ :=
  [SIG_IGNORE,0,SIG_TERMINATE,SIG_TERMINATE,0,0,SIG_TERMINATE,0,0,SIG_TERMINATE,
    SIG_TERMINATE,SIG_TERMINATE,SIG_TERMINATE,0,0,0,0,SIG_IGNORE,0,SIGSTOP]

/-- `1 << sig` where it meets a 64-bit set. -/
def signalMask (sig : ℕ) : BitVec 64 := ((1#32) <<< (sig%32)).signExtend 64

/-- The argument of `sys_sigact`: `SIG_DFL`, `SIG_IGN` or a function. -/
inductive SigHandler
  | default
  | ignore
  | function
  deriving DecidableEq, Repr

structure SignalState where
  signalQueue : BitVec 64
  signalsIgnored : BitVec 64
  /-- the signals with a handler of their own -/
  handler : ℕ → Bool

/-- What became of a signal that was taken off the queue. -/
inductive Dispatch
  | ignored (sig : ℕ)
  | default (sig action : ℕ)
  | handler (sig : ℕ)
  deriving DecidableEq, Repr

def Dispatch.sig : Dispatch → ℕ
  | .ignored sig => sig
  | .default sig _ => sig
  | .handler sig => sig

namespace SignalState

/-- A new process has no signals and no handlers. -/
def empty : SignalState := ⟨0,0,fun _ => false⟩

def isSignalIgnored (s : SignalState) (sig : ℕ) : Bool := s.signalsIgnored &&& signalMask sig != 0

def setSignalIgnored (s : SignalState) (sig : ℕ) : SignalState :=
  { s with signalsIgnored := s.signalsIgnored ||| signalMask sig }

def setSignalUnignored (s : SignalState) (sig : ℕ) : SignalState :=
  { s with signalsIgnored := s.signalsIgnored &&& ~~~ signalMask sig }

/-- The part of `k_proc_process_send_signal` that records the signal. -/
def sendSignal (s : SignalState) (sig : ℤ) : SignalState :=
  if sig < 0 ∨ MAX_SIGNAL ≤ sig then s
  else { s with signalQueue := s.signalQueue ||| signalMask sig.toNat }

def sysSigact (s : SignalState) (sig : ℤ) (handler : SigHandler) : SignalState :=
  if sig < 0 ∨ MAX_SIGNAL ≤ sig then s
  else
    match handler with
    | .default => { s.setSignalUnignored sig.toNat with
        handler := Function.update s.handler sig.toNat false }
    | .ignore => s.setSignalIgnored sig.toNat
    | .function => { s.setSignalUnignored sig.toNat with
        handler := Function.update s.handler sig.toNat true }

/-- `sig_defaults[sig]`; `beyond` is the memory behind the table. -/
def defaultAction (beyond : ℕ → ℕ) (sig : ℕ) : ℕ := sigDefaults.getD sig (beyond sig)

/-- `__k_proc_process_handle_signal`: what it does, and whether the caller goes on with the
next signal. It does not after the process has left for its handler or has ended. -/
def kProcProcessHandleSignal (beyond : ℕ → ℕ) (s : SignalState) (sig : ℕ) : Dispatch × Bool :=
  if s.isSignalIgnored sig then (.ignored sig,false)
  else if s.handler sig then (.handler sig,false)
  else
    let action := defaultAction beyond sig
    if action = SIG_TERMINATE then (.default sig action,false)
    else if action = SIG_STOP then (.default sig action,false)
    else (.default sig action,s.signalQueue != 0)

/-- The loop of `k_proc_process_process_signals` from signal `i` on, `n` signals. -/
def processLoop (beyond : ℕ → ℕ) : ℕ → ℕ → SignalState → SignalState × List Dispatch
  | 0, _, s => (s,[])
  | n+1, i, s =>
    if s.signalQueue &&& signalMask i = 0 then processLoop beyond n (i+1) s
    else
      let s := { s with signalQueue := s.signalQueue &&& ~~~ signalMask i }
      let (d,more) := kProcProcessHandleSignal beyond s i
      if more then
        let (s,log) := processLoop beyond n (i+1) s
        (s,d :: log)
      else (s,[d])

def kProcProcessProcessSignals (beyond : ℕ → ℕ) (s : SignalState) : SignalState × List Dispatch :=
  if s.signalQueue = 0 then (s,[]) else processLoop beyond MAX_SIGNAL 0 s

variable {s : SignalState} {i j : ℕ}

theorem signalMask_eq (hi : i < 31) : signalMask i = 1#64 <<< i := by
  have h : ∀ i < 31, signalMask i = 1#64 <<< i := by decide
  exact h i hi

theorem getLsbD_signalMask (hi : i < 31) (j : ℕ) : (signalMask i).getLsbD j = decide (j = i) := by
  rw [signalMask_eq hi,BitVec.getLsbD_shiftLeft,BitVec.getLsbD_one]
  by_cases h : j = i
  · simp [h]
    omega
  · simp [h]
    omega

theorem getLsbD_or_mask (x : BitVec 64) (hi : i < 31) (j : ℕ) :
    (x ||| signalMask i).getLsbD j = true ↔ x.getLsbD j = true ∨ j = i := by
  rw [BitVec.getLsbD_or,getLsbD_signalMask hi]
  simp

theorem getLsbD_and_not_mask (x : BitVec 64) (hi : i < 31) (j : ℕ) :
    (x &&& ~~~ signalMask i).getLsbD j = true ↔ x.getLsbD j = true ∧ j ≠ i := by
  rw [BitVec.getLsbD_and,BitVec.getLsbD_not,getLsbD_signalMask hi]
  by_cases hj : j < 64
  · simp [hj]
  · simp [BitVec.getLsbD_of_ge x j (by omega)]

theorem and_signalMask (x : BitVec 64) (hi : i < 31) : x &&& signalMask i = 0 ↔
    x.getLsbD i = false := by
  constructor
  · intro h
    have := congrArg (fun y => y.getLsbD i) h
    simpa [BitVec.getLsbD_and,getLsbD_signalMask hi] using this
  · intro h
    refine BitVec.eq_of_getLsbD_eq fun j hj => ?_
    rw [BitVec.getLsbD_and,getLsbD_signalMask hi]
    by_cases hji : j = i
    · simp [hji,h]
    · simp [hji]

/-- The signal is recorded as pending. -/
def Pending (s : SignalState) (sig : ℕ) : Prop := s.signalQueue.getLsbD sig = true

/-- The signal is recorded as ignored. -/
def Ignored (s : SignalState) (sig : ℕ) : Prop := s.signalsIgnored.getLsbD sig = true

instance (s : SignalState) (sig : ℕ) : Decidable (s.Pending sig) :=
  inferInstanceAs (Decidable (_ = _))

instance (s : SignalState) (sig : ℕ) : Decidable (s.Ignored sig) :=
  inferInstanceAs (Decidable (_ = _))

def Low (s : SignalState) : Prop := ∀ sig, s.Pending sig → sig < 31

def Passed (beyond : ℕ → ℕ) (s : SignalState) (sig : ℕ) : Prop :=
  ¬ s.Ignored sig ∧ s.handler sig = false ∧ defaultAction beyond sig ≠ SIG_TERMINATE

def Follows (beyond : ℕ → ℕ) (s : SignalState) : Dispatch → Prop
  | .ignored sig => s.Ignored sig
  | .default sig action => ¬ s.Ignored sig ∧ s.handler sig = false ∧
      action = defaultAction beyond sig
  | .handler sig => ¬ s.Ignored sig ∧ s.handler sig = true

theorem queue_eq_zero (h : ∀ j, ¬ s.Pending j) : s.signalQueue = 0 :=
  BitVec.eq_of_getLsbD_eq fun j _ => by
    rw [Bool.eq_false_iff.mpr (h j)]
    simp

theorem isSignalIgnored_iff (hi : i < 31) : s.isSignalIgnored i = true ↔ s.Ignored i := by
  rw [isSignalIgnored,bne_iff_ne,Ne,and_signalMask _ hi,Ignored]
  simp

theorem handleSignal_spec (beyond : ℕ → ℕ) (s : SignalState) (hi : i < 31) :
    (kProcProcessHandleSignal beyond s i).1.sig = i ∧
    Follows beyond s (kProcProcessHandleSignal beyond s i).1 ∧
      ((kProcProcessHandleSignal beyond s i).2 = true → Passed beyond s i) := by
  rw [kProcProcessHandleSignal]
  by_cases hig : s.isSignalIgnored i = true
  · rw [if_pos hig]
    exact ⟨rfl,(isSignalIgnored_iff hi).mp hig,fun h => by cases h⟩
  · have hni : ¬ s.Ignored i := fun h => hig ((isSignalIgnored_iff hi).mpr h)
    rw [if_neg hig]
    cases hh : s.handler i with
    | true => exact ⟨rfl,⟨hni,hh⟩,fun h => by cases h⟩
    | false =>
      simp only [Bool.false_eq_true,if_false]
      split
      · exact ⟨rfl,⟨hni,hh,rfl⟩,fun h => by cases h⟩
      · rename_i hterm
        split
        · exact ⟨rfl,⟨hni,hh,rfl⟩,fun h => by cases h⟩
        · exact ⟨rfl,⟨hni,hh,rfl⟩,fun _ => ⟨hni,hh,hterm⟩⟩

structure Processed (beyond : ℕ → ℕ) (i : ℕ) (s : SignalState)
    (r : SignalState × List Dispatch) : Prop where
  pending : ∀ j, r.1.Pending j ↔ s.Pending j ∧ j ∉ r.2.map Dispatch.sig
  ignored_eq : r.1.signalsIgnored = s.signalsIgnored
  handler_eq : r.1.handler = s.handler
  taken : ∀ d ∈ r.2, i ≤ d.sig ∧ s.Pending d.sig ∧ Follows beyond s d
  passed : ∀ d ∈ r.2, ∀ j < d.sig, s.Pending j → Passed beyond s j
  increasing : (r.2.map Dispatch.sig).Pairwise (· < ·)

/-- The loop goes upwards; `i` is where it is, and nothing below is pending any more. -/
theorem processLoop_spec (beyond : ℕ → ℕ) (n : ℕ) : ∀ i s, s.Low → (∀ j < i, ¬ s.Pending j) →
    Processed beyond i s (processLoop beyond n i s) := by
  induction n with
  | zero =>
    intro i s _ _
    refine ⟨fun j => ?_,rfl,rfl,fun d hd => ?_,fun d hd => ?_,List.Pairwise.nil⟩
    · simp [processLoop]
    · cases hd
    · cases hd
  | succ n ih =>
    intro i s hlow hbelow
    rw [processLoop]
    by_cases hi : s.Pending i
    · have hi31 := hlow i hi
      have hne : s.signalQueue &&& signalMask i ≠ 0 := by
        rw [Ne,and_signalMask _ hi31,Bool.not_eq_false]
        exact hi
      rw [if_neg hne]
      set u := { s with signalQueue := s.signalQueue &&& ~~~ signalMask i } with hu
      have hpend : ∀ j, u.Pending j ↔ s.Pending j ∧ j ≠ i := getLsbD_and_not_mask s.signalQueue hi31
      obtain ⟨hsig,hfollows,hmore⟩ := handleSignal_spec beyond u hi31
      cases hm : (kProcProcessHandleSignal beyond u i).2 with
      | false =>
        simp only [hm,Bool.false_eq_true,if_false]
        refine ⟨fun j => ?_,rfl,rfl,fun d hd => ?_,fun d hd j hj hp => ?_,
          List.pairwise_singleton _ _⟩
        · rw [hpend,List.map_singleton,List.mem_singleton,hsig]
        · obtain rfl := List.mem_singleton.mp hd
          exact ⟨hsig.ge,by rwa [hsig],hfollows⟩
        · obtain rfl := List.mem_singleton.mp hd
          exact absurd hp (hbelow j (by omega))
      | true =>
        simp only [hm,if_true]
        have hrest := ih (i+1) u (fun j hj => hlow j ((hpend j).mp hj).1) fun j hj hp => by
          obtain ⟨hp,hne⟩ := (hpend j).mp hp
          exact hbelow j (by omega) hp
        refine ⟨fun j => ?_,hrest.ignored_eq,hrest.handler_eq,fun d hd => ?_,
          fun d hd j hj hp => ?_,?_⟩
        · rw [hrest.pending,hpend,List.map_cons,List.mem_cons,hsig,not_or,and_assoc]
        · rcases List.mem_cons.mp hd with rfl | hd
          · exact ⟨hsig.ge,by rwa [hsig],hfollows⟩
          · obtain ⟨hle,hp,hf⟩ := hrest.taken d hd
            exact ⟨by omega,((hpend _).mp hp).1,hf⟩
        · rcases List.mem_cons.mp hd with rfl | hd
          · exact absurd hp (hbelow j (by omega))
          · by_cases hji : j = i
            · rw [hji]
              exact hmore hm
            · exact hrest.passed d hd j hj ((hpend j).mpr ⟨hp,hji⟩)
        · rw [List.map_cons,List.pairwise_cons]
          refine ⟨fun k hk => ?_,hrest.increasing⟩
          obtain ⟨d,hd,rfl⟩ := List.mem_map.mp hk
          have := (hrest.taken d hd).1
          omega
    · -- from 31 on the mask is another one, but then nothing is pending
      have hzero : s.signalQueue &&& signalMask i = 0 := by
        rcases Nat.lt_or_ge i 31 with h31 | h31
        · rw [and_signalMask _ h31]
          exact Bool.eq_false_iff.mpr hi
        · rw [queue_eq_zero fun j hj => hbelow j (by have := hlow j hj; omega) hj]
          exact BitVec.zero_and
      rw [if_pos hzero]
      have hrest := ih (i+1) s hlow fun j hj => by
        rcases Nat.lt_succ_iff_lt_or_eq.mp hj with hlt | rfl
        · exact hbelow j hlt
        · exact hi
      exact ⟨hrest.pending,hrest.ignored_eq,hrest.handler_eq,
        fun d hd => ⟨by have := (hrest.taken d hd).1; omega,(hrest.taken d hd).2⟩,hrest.passed,
        hrest.increasing⟩

theorem processSignals_spec (beyond : ℕ → ℕ) (hlow : s.Low) :
    Processed beyond 0 s (kProcProcessProcessSignals beyond s) := by
  rw [kProcProcessProcessSignals]
  split
  · exact ⟨fun j => by simp,rfl,rfl,fun d hd => (by cases hd),fun d hd => (by cases hd),
      List.Pairwise.nil⟩
  · exact processLoop_spec beyond MAX_SIGNAL 0 s hlow fun j hj => absurd hj (Nat.not_lt_zero j)

/-- A pending signal that the table does not cover is ignored or has a handler, or the loop
ends before it. -/
def InTable (s : SignalState) : Prop := ∀ sig, sigDefaults.length ≤ sig → s.Pending sig →
  s.Ignored sig ∨ s.handler sig = true ∨ ∃ j < sig, s.Pending j ∧
    (s.Ignored j ∨ s.handler j = true ∨ sigDefaults.getD j SIG_IGNORE = SIG_TERMINATE)

theorem Processed.lookup_lt {beyond : ℕ → ℕ} {r : SignalState × List Dispatch}
    (h : Processed beyond i s r)
    (ht : s.InTable) {sig action : ℕ} (hd : .default sig action ∈ r.2) :
    sig < sigDefaults.length := by
  by_contra hge
  obtain ⟨-,hp,hni,hnh,-⟩ := h.taken _ hd
  rcases ht sig (by omega) hp with hig | hh | ⟨j,hj,hpj,hstop⟩
  · exact hni hig
  · rw [hnh] at hh
    cases hh
  · obtain ⟨hnij,hnhj,hterm⟩ := h.passed _ hd j hj hpj
    rcases hstop with hig | hh | hdef
    · exact hnij hig
    · rw [hnhj] at hh
      cases hh
    · refine hterm ?_
      rcases Nat.lt_or_ge j sigDefaults.length with hlt | hge
      · rw [List.getD_eq_getElem?_getD,List.getElem?_eq_getElem hlt] at hdef
        rw [defaultAction,List.getD_eq_getElem?_getD,List.getElem?_eq_getElem hlt]
        exact hdef
      · rw [List.getD_eq_getElem?_getD,List.getElem?_eq_none hge] at hdef
        exact absurd hdef (by decide)

end SignalState

/-- The signals of a process beside the sets they stand for: what was sent and has not been
taken off the queue, and what is ignored. -/
structure Tracked where
  signals : SignalState
  pending : Finset ℕ
  ignored : Finset ℕ

namespace Tracked

inductive Event
  | send (sig : ℤ)
  | sigact (sig : ℤ) (handler : SigHandler)
  | process
  deriving DecidableEq

def IsSignal (sig : ℤ) : Prop := 0 ≤ sig ∧ sig < MAX_SIGNAL

instance (sig : ℤ) : Decidable (IsSignal sig) := inferInstanceAs (Decidable (_ ∧ _))

def step (beyond : ℕ → ℕ) (t : Tracked) : Event → Tracked
  | .send sig =>
    { t with
      signals := t.signals.sendSignal sig
      pending := if IsSignal sig then insert sig.toNat t.pending else t.pending }
  | .sigact sig handler =>
    { t with
      signals := t.signals.sysSigact sig handler
      ignored := if IsSignal sig then
        if handler = .ignore then insert sig.toNat t.ignored else t.ignored.erase sig.toNat
        else t.ignored }
  | .process =>
    let (signals,log) := t.signals.kProcProcessProcessSignals beyond
    { t with signals := signals, pending := t.pending \ (log.map Dispatch.sig).toFinset }

/-- Only signals below 31 are sent or configured, and signals without a default action do
not get as far as asking for it. -/
def Allowed (t : Tracked) : Event → Prop
  | .send sig => sig < SIGSYS
  | .sigact sig _ => sig < SIGSYS
  | .process => t.signals.InTable

def Step (beyond : ℕ → ℕ) (t u : Tracked) : Prop := ∃ e, t.Allowed e ∧ u = t.step beyond e

def start : Tracked := ⟨.empty,∅,∅⟩

/-- The bits are the sets. -/
structure Exact (t : Tracked) : Prop where
  low : t.signals.Low
  pending : ∀ sig, t.signals.Pending sig ↔ sig ∈ t.pending
  ignored : ∀ sig, t.signals.Ignored sig ↔ sig ∈ t.ignored

variable {beyond : ℕ → ℕ} {t u : Tracked}

theorem IsSignal.in_range {sig : ℤ} (h : IsSignal sig) : ¬ (sig < 0 ∨ (MAX_SIGNAL : ℤ) ≤ sig) := by
  have := h.1
  have := h.2
  omega

theorem out_of_range {sig : ℤ} (h : ¬ IsSignal sig) : sig < 0 ∨ (MAX_SIGNAL : ℤ) ≤ sig := by
  rw [IsSignal] at h
  omega

theorem IsSignal.toNat_lt {sig : ℤ} (h : IsSignal sig) (hlt : sig < SIGSYS) : sig.toNat < 31 := by
  have := h.1
  have : sig < 31 := hlt
  omega

theorem send_exact (h : t.Exact) {sig : ℤ} (hsig : sig < SIGSYS) :
    (t.step beyond (.send sig)).Exact := by
  by_cases hs : IsSignal sig
  · have h31 := hs.toNat_lt hsig
    have hset : (t.step beyond (.send sig)).signals =
        { t.signals with signalQueue := t.signals.signalQueue ||| signalMask sig.toNat } :=
  if_neg hs.in_range
    have hpend : ∀ j, (t.step beyond (.send sig)).signals.Pending j ↔ t.signals.Pending j ∨
        j = sig.toNat := by
      rw [hset]
      exact SignalState.getLsbD_or_mask _ h31
    refine ⟨fun j hj => ?_,fun j => ?_,fun j => ?_⟩
    · rcases (hpend j).mp hj with hj | rfl
      · exact h.low j hj
      · exact h31
    · rw [hpend,h.pending]
      simp [step,hs,or_comm]
    · rw [hset]
      exact h.ignored j
  · have hset : t.step beyond (.send sig) = t := by
      simp [step,hs,SignalState.sendSignal,out_of_range hs]
    rw [hset]
    exact h

theorem sigact_queue (s : SignalState) (sig : ℤ) (handler : SigHandler) :
    (s.sysSigact sig handler).signalQueue = s.signalQueue := by
  simp only [SignalState.sysSigact]
  split
  · rfl
  · cases handler <;> rfl

theorem sigact_ignored (s : SignalState) {sig : ℤ} (handler : SigHandler) (hs : IsSignal sig)
    (hsig : sig < SIGSYS) (j : ℕ) : (s.sysSigact sig handler).Ignored j ↔
      if handler = .ignore then s.Ignored j ∨ j = sig.toNat else s.Ignored j ∧ j ≠ sig.toNat := by
  have h31 := hs.toNat_lt hsig
  simp only [SignalState.sysSigact,if_neg hs.in_range]
  cases handler with
  | ignore => exact SignalState.getLsbD_or_mask _ h31 j
  | default => exact SignalState.getLsbD_and_not_mask _ h31 j
  | function => exact SignalState.getLsbD_and_not_mask _ h31 j

theorem sigact_out_of_range (s : SignalState) {sig : ℤ} (handler : SigHandler)
    (hs : ¬ IsSignal sig) :
    s.sysSigact sig handler = s := by simp [SignalState.sysSigact,out_of_range hs]

theorem sigact_exact (h : t.Exact) {sig : ℤ} {handler : SigHandler} (hsig : sig < SIGSYS) :
    (t.step beyond (.sigact sig handler)).Exact := by
  have hqueue := sigact_queue t.signals sig handler
  refine ⟨fun j hj => h.low j ?_,fun j => ?_,fun j => ?_⟩
  · change (t.signals.sysSigact sig handler).signalQueue.getLsbD j = true at hj
    rwa [hqueue] at hj
  · change (t.signals.sysSigact sig handler).signalQueue.getLsbD j = true ↔ _
    rw [hqueue]
    exact h.pending j
  · change (t.signals.sysSigact sig handler).Ignored j ↔ _
    by_cases hs : IsSignal sig
    · rw [sigact_ignored t.signals handler hs hsig,h.ignored]
      split
      · rename_i hig
        simp [step,hs,hig,or_comm]
      · rename_i hig
        simp [step,hs,hig,and_comm]
    · rw [sigact_out_of_range t.signals handler hs,h.ignored]
      simp [step,hs]

theorem process_exact (h : t.Exact) : (t.step beyond .process).Exact := by
  have hp := SignalState.processSignals_spec beyond h.low
  refine ⟨fun sig hsig => h.low sig ((hp.pending sig).mp hsig).1,fun sig => ?_,fun sig => ?_⟩
  · change SignalState.Pending (t.signals.kProcProcessProcessSignals beyond).1 sig ↔ _
    rw [hp.pending,h.pending]
    simp [step]
  · change SignalState.Ignored (t.signals.kProcProcessProcessSignals beyond).1 sig ↔ _
    rw [SignalState.Ignored,hp.ignored_eq]
    exact h.ignored sig

theorem step_exact (h : t.Exact) (hs : Step beyond t u) : u.Exact := by
  obtain ⟨e,he,rfl⟩ := hs
  cases e with
  | send sig => exact send_exact h he
  | sigact sig handler => exact sigact_exact h he
  | process => exact process_exact h

theorem start_exact : start.Exact :=
  ⟨fun sig h => absurd h (by simp [start,SignalState.empty,SignalState.Pending]),
    fun sig => by simp [start,SignalState.empty,SignalState.Pending],
    fun sig => by simp [start,SignalState.empty,SignalState.Ignored]⟩

/-- With signals below 31 the two sets are exact, configuring one signal does not touch the
others, and the loop takes pending signals in order, acts on those that are not ignored,
and asks for default actions inside the table. -/
theorem signals_exact (h : Relation.ReflTransGen (Step beyond) start t) :
    (∀ sig < MAX_SIGNAL, t.signals.Pending sig ↔ sig ∈ t.pending) ∧
    (∀ sig < MAX_SIGNAL, t.signals.Ignored sig ↔ sig ∈ t.ignored) ∧
    (∀ sig handler, t.Allowed (.sigact sig handler) → ∀ j < MAX_SIGNAL, j ≠ sig.toNat →
      ((t.signals.sysSigact sig handler).Ignored j ↔ t.signals.Ignored j)) ∧
    (t.Allowed .process → ((t.signals.kProcProcessProcessSignals beyond).2.map Dispatch.sig).Nodup ∧
      ∀ d ∈ (t.signals.kProcProcessProcessSignals beyond).2, d.sig ∈ t.pending ∧
        (d = .ignored d.sig ↔ d.sig ∈ t.ignored) ∧ ∀ action, d = .default d.sig action →
        d.sig < sigDefaults.length) := by
  have ht : t.Exact := reach_invariant (fun _ _ h1 h2 => step_exact h1 h2) start_exact h
  have hp := SignalState.processSignals_spec beyond ht.low
  refine ⟨fun sig _ => ht.pending sig,fun sig _ => ht.ignored sig,fun sig handler hsig j _ hj => ?_,
    fun htable => ?_⟩
  · by_cases hs : IsSignal sig
    · rw [sigact_ignored t.signals handler hs hsig]
      split <;> simp [hj]
    · rw [sigact_out_of_range t.signals handler hs]
  · refine ⟨hp.increasing.imp Nat.ne_of_lt,fun d hd => ?_⟩
    obtain ⟨-,hpend,hfollows⟩ := hp.taken d hd
    refine ⟨(ht.pending _).mp hpend,?_,fun action heq => ?_⟩
    · rw [← ht.ignored]
      cases d with
      | ignored sig => exact iff_of_true rfl hfollows
      | default sig action => exact iff_of_false (fun h => by cases h) hfollows.1
      | handler sig => exact iff_of_false (fun h => by cases h) hfollows.1
    · rw [heq] at hd
      exact hp.lookup_lt htable hd

theorem signals_exact_interrupted : ∃ t : Tracked, t.pending = {2} ∧ t.signals.Pending 2 ∧
    ¬ t.signals.Pending 34 := by
  have hrun : Relation.ReflTransGen (Step fun _ => 0) start (start.step (fun _ => 0) (.send 2)) :=
    .single ⟨.send 2,show (2 : ℤ) < SIGSYS by decide,rfl⟩
  have h := (signals_exact hrun).1
  exact ⟨_,rfl,(h 2 (by decide)).mpr (by decide),fun h34 =>
    absurd ((h 34 (by decide)).mp h34) (by decide)⟩

/-- Signal 31 makes all signals from 31 on pending. The default action of signal 20 is
looked up behind the table. -/
theorem signals_not_exact :
    ((start.step (fun _ => 0) (.send SIGSYS)).pending = {SIGSYS} ∧
      (start.step (fun _ => 0) (.send SIGSYS)).signals.Pending 40) ∧
    ((start.step (fun _ => 0) (.send SIGTSTP)).signals.kProcProcessProcessSignals fun _ => 0).2 =
      [.default SIGTSTP 0] ∧ sigDefaults.length ≤ SIGTSTP := by
  refine ⟨⟨by decide,by decide⟩,by decide,by decide⟩

end Tracked
end ScalesOS
