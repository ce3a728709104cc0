import ScalesOS.Signals

/-! The dispositions of signals: what `sys_sigact` stores of an action in the three places
`handler`, `flags` and `signals_ignored`, and what it hands back of the old one. -/
namespace ScalesOS

def SIG_DFL : BitVec 32 := 0
def SIG_IGN : BitVec 32 := 1

/-- `signal_t`. -/
structure Signal where
  handler : BitVec 32
  flags : BitVec 8
  deriving DecidableEq

/-- What `sys_sigact` uses of a `struct sigaction`. -/
structure SigAction where
  handler : BitVec 32
  flags : BitVec 32

/-- The signals of a process. -/
structure SignalTable where
  signals : ℕ → Signal
  signalsIgnored : BitVec 64

inductive Disposition
  | default
  | ignored
  | handler (cfg : Signal)
  deriving DecidableEq

namespace SignalTable

/-- A process starts without handlers. -/
def fresh : SignalTable := ⟨fun _ => ⟨SIG_DFL,0⟩,0⟩

def isSignalIgnored (t : SignalTable) (sig : ℕ) : Bool := t.signalsIgnored &&& signalMask sig != 0

def setSignalIgnored (t : SignalTable) (sig : ℕ) : SignalTable :=
  { t with signalsIgnored := t.signalsIgnored ||| signalMask sig }

def setSignalUnignored (t : SignalTable) (sig : ℕ) : SignalTable :=
  { t with signalsIgnored := t.signalsIgnored &&& ~~~signalMask sig }

def setSignal (t : SignalTable) (sig : ℕ) (cfg : Signal) : SignalTable :=
  { t with signals := Function.update t.signals sig cfg }

/-- The branches of `sys_sigact` on the kind of the new action. -/
def install (t : SignalTable) (sig : ℕ) (action : SigAction) : SignalTable :=
  if action.handler = SIG_DFL then
    (t.setSignal sig { t.signals sig with handler := 0 }).setSignalUnignored sig
  else if action.handler = SIG_IGN then t.setSignalIgnored sig
  else (t.setSignalUnignored sig).setSignal sig ⟨action.handler,action.flags.setWidth 8⟩

/-- `prev->sa_handler = old`, for a valid pointer. -/
def savePrev (t : SignalTable) (mem : ℕ → SigAction) (sig : ℕ) : Option ℕ → ℕ → SigAction
  | none => mem
  | some prev => Function.update mem prev { mem prev with handler := (t.signals sig).handler }

/-- The result, the process and the structures in its memory. An argument is `none` if its pointer
is not valid; two pointers may be the same. -/
def sysSigact (t : SignalTable) (mem : ℕ → SigAction) (sig : ℤ) (handler prev : Option ℕ) :
    ℕ × SignalTable × (ℕ → SigAction) :=
  if sig < 0 ∨ MAX_SIGNAL ≤ sig then (1,t,mem)
  else
    match handler with
    -- -EINVAL
    | none => (W32-22,t,mem)
    | some handler =>
      let mem := t.savePrev mem sig.toNat prev
      (0,t.install sig.toNat (mem handler),mem)

def disposition (t : SignalTable) (sig : ℕ) : Disposition :=
  if t.isSignalIgnored sig then .ignored
  else if (t.signals sig).handler = SIG_DFL then .default
  else .handler (t.signals sig)

/-- Any call of `sys_sigact`. -/
def Step (t t' : SignalTable) : Prop :=
  ∃ mem sig handler prev, (t.sysSigact mem sig handler prev).2.1 = t'

/-- After `sys_sigact(sig, new, old)` a call `sys_sigact(sig, old, prev)` leaves all dispositions as
they were before both. -/
def Restores (t : SignalTable) (mem : ℕ → SigAction) (sig : ℤ) (new old : ℕ)
    (prev : Option ℕ) : Prop :=
  let r := t.sysSigact mem sig (some new) (some old)
  ∀ j < MAX_SIGNAL, ((r.2.1.sysSigact r.2.2 sig (some old) prev).2.1).disposition j =
    t.disposition j

def hasHandler (cfg : Signal) : Bool := cfg.handler != SIG_DFL

def view (t : SignalTable) (queue : BitVec 64) : SignalState :=
  ⟨queue,t.signalsIgnored,fun sig => hasHandler (t.signals sig)⟩

def kind (action : SigAction) : SigHandler :=
  if action.handler = SIG_DFL then .default else if action.handler = SIG_IGN then
    .ignore else .function

theorem view_sysSigact (t : SignalTable) (mem : ℕ → SigAction) (queue : BitVec 64)
    (sig : ℤ) (handler : ℕ)
    (prev : Option ℕ) : (t.sysSigact mem sig (some handler) prev).2.1.view queue =
      (t.view queue).sysSigact sig (kind (t.savePrev mem sig.toNat prev handler)) := by
  by_cases hsig : sig < 0 ∨ MAX_SIGNAL ≤ sig
  · simp only [sysSigact,SignalState.sysSigact,if_pos hsig]
  · have hupdate : ∀ (signals : ℕ → Signal) (a : Signal),
        (fun i => hasHandler (Function.update signals sig.toNat a i)) =
          Function.update (fun i => hasHandler (signals i)) sig.toNat (hasHandler a) :=
      fun signals a => Function.comp_update hasHandler signals sig.toNat a
    simp only [sysSigact,SignalState.sysSigact,if_neg hsig,install,kind]
    generalize t.savePrev mem sig.toNat prev handler = action
    by_cases hd : action.handler = SIG_DFL
    · simp only [if_pos hd,view,setSignal,setSignalUnignored,SignalState.setSignalUnignored,hupdate]
      rfl
    · by_cases hi : action.handler = SIG_IGN
      · simp only [if_neg hd,if_pos hi]
        rfl
      · have hhas : hasHandler ⟨action.handler,action.flags.setWidth 8⟩ = true := by
          simpa [hasHandler] using hd
        simp only [if_neg hd,if_neg hi,view,setSignal,setSignalUnignored,
          SignalState.setSignalUnignored,hupdate,hhas]

theorem and_not_mask_and (x m : BitVec 64) : x &&& ~~~m &&& m = 0 := by
  rw [BitVec.and_assoc,BitVec.and_comm _ m,BitVec.and_not_self]
  simp

theorem or_and_not_mask (x m : BitVec 64) : (x ||| m) &&& ~~~m = x &&& ~~~m := by
  ext i hi
  simp only [BitVec.getElem_and,BitVec.getElem_or,BitVec.getElem_not]
  cases x[i] <;> cases m[i] <;> rfl

theorem and_not_mask_of_disjoint {x m : BitVec 64} (h : x &&& m = 0) : x &&& ~~~m = x := by
  ext i hi
  have hbit : (x &&& m)[i] = false := by simp [h]
  rw [BitVec.getElem_and] at hbit
  simp only [BitVec.getElem_and,BitVec.getElem_not]
  cases hm : m[i] <;> simp_all

theorem install_handler_ne {t : SignalTable} (h : ∀ i, (t.signals i).handler ≠ SIG_IGN) (sig : ℕ)
    (action : SigAction) (i : ℕ) : ((t.install sig action).signals i).handler ≠ SIG_IGN := by
  rw [install]
  split
  · by_cases hi : i = sig
    · subst hi
      simp [setSignal,setSignalUnignored,SIG_IGN]
    · simpa [setSignal,setSignalUnignored,Function.update_of_ne hi] using h i
  · split
    · exact h i
    · by_cases hi : i = sig
      · subst hi
        simpa [setSignal,setSignalUnignored]
      · simpa [setSignal,setSignalUnignored,Function.update_of_ne hi] using h i

theorem Step.handler_ne {t t' : SignalTable} (h : ∀ i, (t.signals i).handler ≠ SIG_IGN)
    (hstep : Step t t') :
    ∀ i, (t'.signals i).handler ≠ SIG_IGN := by
  obtain ⟨mem,sig,handler,prev,rfl⟩ := hstep
  unfold sysSigact
  split
  · exact h
  · cases handler with
    | none => exact h
    | some handler => exact install_handler_ne h sig.toNat _

theorem handler_ne {t : SignalTable} (h : Relation.ReflTransGen Step fresh t) (i : ℕ) :
    (t.signals i).handler ≠ SIG_IGN :=
  reach_invariant (I:=fun t : SignalTable => ∀ i, (t.signals i).handler ≠ SIG_IGN) (fun _ _ =>
    Step.handler_ne)
    (fun _ => show SIG_DFL ≠ SIG_IGN by decide) h i

theorem install_ignored (t : SignalTable) (sig : ℕ) (action : SigAction) :
    (t.install sig action).signalsIgnored &&& ~~~signalMask sig = t.signalsIgnored &&&
    ~~~signalMask sig := by
  rw [install]
  split
  · simp [setSignal,setSignalUnignored,BitVec.and_assoc]
  · split
    · exact or_and_not_mask _ _
    · simp [setSignal,setSignalUnignored,BitVec.and_assoc]

theorem install_other (t : SignalTable) {sig i : ℕ} (h : i ≠ sig) (action : SigAction) :
    (t.install sig action).signals i = t.signals i := by
  rw [install]
  split
  · simp [setSignal,setSignalUnignored,Function.update_of_ne h]
  · split <;> simp [setSignal,setSignalIgnored,setSignalUnignored,Function.update_of_ne h]

/-- Installing an action that is not `SIG_IGN`: the signal is not ignored afterwards. -/
theorem install_unignored (t : SignalTable) {sig : ℕ} {action : SigAction}
    (h : action.handler ≠ SIG_IGN) :
    (t.install sig action).signalsIgnored = t.signalsIgnored &&& ~~~signalMask sig ∧
      ((t.install sig action).signals sig).handler = action.handler ∧
      (action.handler ≠ SIG_DFL →
        (t.install sig action).signals sig = ⟨action.handler,action.flags.setWidth 8⟩) := by
  rw [install,if_neg h]
  split
  · simp_all [setSignal,setSignalUnignored,SIG_DFL]
  · simp [setSignal,setSignalUnignored]

theorem disposition_eq_ignored {t : SignalTable} {sig : ℕ} : t.disposition sig = .ignored ↔
    t.isSignalIgnored sig := by
  rw [disposition]
  split
  · simp [*]
  · split <;> simp [*]

theorem isSignalIgnored_eq_false {t : SignalTable} {sig : ℕ} :
    t.isSignalIgnored sig = false ↔ t.signalsIgnored &&& signalMask sig = 0 := by
  simp [isSignalIgnored]

theorem install_saved_handler {t : SignalTable} {sig : ℕ} (h : (t.signals sig).handler ≠ SIG_IGN)
    (mem : ℕ → SigAction) (new old : ℕ) :
    ((t.install sig (t.savePrev mem sig (some old) new)).signals sig).handler =
    (t.signals sig).handler ↔
      new = old ∨ (mem new).handler = SIG_IGN ∨ (mem new).handler = (t.signals sig).handler := by
  by_cases hsame : new = old
  · subst hsame
    have hread : (t.savePrev mem sig (some new) new).handler = (t.signals sig).handler := by
      simp [savePrev]
    simp only [true_or,iff_true]
    rw [(install_unignored t (by rwa [hread])).2.1,hread]
  · have hread : t.savePrev mem sig (some old) new = mem new := Function.update_of_ne hsame _ _
    rw [hread,or_iff_right hsame]
    by_cases hign : (mem new).handler = SIG_IGN
    · have hkept : (t.install sig (mem new)).signals sig = t.signals sig := by
        rw [install,if_neg (by rw [hign]; decide),if_pos hign]
        rfl
      simp [hkept,hign]
    · rw [(install_unignored t hign).2.1,or_iff_right hign]

/-- Installing a saved action after `new`: the old disposition is back exactly if the signal was not
ignored, the saved handler is the one it had, and so are the flags of a handler. -/
theorem installed_back_iff {t t' : SignalTable} {sig : ℕ}
    (hother : ∀ j, j ≠ sig → t'.signals j = t.signals j)
    (hign : t'.signalsIgnored &&& ~~~signalMask sig = t.signalsIgnored &&& ~~~signalMask sig)
    (hlt : sig < MAX_SIGNAL) {saved : SigAction} (h : saved.handler ≠ SIG_IGN) :
    (∀ j < MAX_SIGNAL, (t'.install sig saved).disposition j = t.disposition j) ↔
      t.isSignalIgnored sig = false ∧ saved.handler = (t.signals sig).handler ∧
        ((t.signals sig).handler = SIG_DFL ∨ saved.flags.setWidth 8 = (t.signals sig).flags) := by
  obtain ⟨hbits,hhandler,hflags⟩ := install_unignored t' h
  rw [hign] at hbits
  have hnot : (t'.install sig saved).isSignalIgnored sig = false := by
    rw [isSignalIgnored_eq_false,hbits]
    exact and_not_mask_and _ _
  constructor
  · intro hback
    have hown := hback sig hlt
    have hwas : t.isSignalIgnored sig = false := by
      by_contra hc
      have hold : t.disposition sig = .ignored := disposition_eq_ignored.mpr (by simpa using hc)
      rw [hold,disposition_eq_ignored,hnot] at hown
      cases hown
    refine ⟨hwas,?_⟩
    rw [disposition,disposition,hnot,hwas,hhandler] at hown
    simp only [Bool.false_eq_true,if_false] at hown
    by_cases hd : saved.handler = SIG_DFL
    · rw [if_pos hd] at hown
      have hold : (t.signals sig).handler = SIG_DFL := by
        by_contra hc
        rw [if_neg hc] at hown
        cases hown
      exact ⟨hd.trans hold.symm,Or.inl hold⟩
    · rw [if_neg hd,hflags hd] at hown
      split at hown
      · cases hown
      · have hsame := Disposition.handler.inj hown
        exact ⟨congrArg Signal.handler hsame,Or.inr (congrArg Signal.flags hsame)⟩
  · rintro ⟨hwas,hsame,hbits'⟩ j hj
    have hkept : (t'.install sig saved).signalsIgnored = t.signalsIgnored :=
      hbits.trans (and_not_mask_of_disjoint (isSignalIgnored_eq_false.mp hwas))
    have hbit : (t'.install sig saved).isSignalIgnored j = t.isSignalIgnored j := by
      rw [isSignalIgnored,isSignalIgnored,hkept]
    rw [disposition,disposition,hbit]
    by_cases hj' : j = sig
    · subst hj'
      rw [hhandler,hsame]
      by_cases hd : (t.signals j).handler = SIG_DFL
      · rw [if_pos hd,if_pos hd]
      · rw [if_neg hd,if_neg hd,hflags (by rwa [hsame]),hsame,hbits'.resolve_left hd]
    · rw [install_other _ hj',hother j hj']

/-- Saving and restoring a disposition brings it back exactly if it was not `SIG_IGN`, if
a handler's flags happen to stand in the structure for the old action already, and if the second
call does not save over that structure a handler that differs. -/
theorem sigact_restores_iff {t : SignalTable} (h : Relation.ReflTransGen Step fresh t)
    (mem : ℕ → SigAction) (sig : ℤ) (new old : ℕ) (prev : Option ℕ) :
    t.Restores mem sig new old prev ↔ sig < 0 ∨ MAX_SIGNAL ≤ sig ∨
      (t.isSignalIgnored sig.toNat = false ∧
        (prev = some old → new = old ∨ (mem new).handler = SIG_IGN ∨
          (mem new).handler = (t.signals sig.toNat).handler) ∧
        ((t.signals sig.toNat).handler = SIG_DFL ∨
          (mem old).flags.setWidth 8 = (t.signals sig.toNat).flags)) := by
  by_cases hsig : sig < 0 ∨ MAX_SIGNAL ≤ sig
  · refine iff_of_true (fun j hj => ?_) (hsig.imp id .inl)
    simp only [sysSigact,if_pos hsig]
  · have hlt : sig.toNat < MAX_SIGNAL := by simp only [MAX_SIGNAL] at hsig ⊢; omega
    have hne := handler_ne h sig.toNat
    rw [← or_assoc,or_iff_right hsig,Restores]
    simp only [sysSigact,if_neg hsig]
    rw [← install_saved_handler hne mem new old]
    set saved := t.savePrev mem sig.toNat (some old) with hsaved
    have hold : saved old = { mem old with handler := (t.signals sig.toNat).handler } :=
      Function.update_self ..
    set t' := t.install sig.toNat (saved new) with ht'
    have hother : ∀ j, j ≠ sig.toNat → t'.signals j = t.signals j := fun j hj =>
      install_other t hj _
    have hign := install_ignored t sig.toNat (saved new)
    by_cases hprev : prev = some old
    · -- the second call puts the handler of the first over the saved one
      subst hprev
      have hread : t'.savePrev saved sig.toNat (some old) old =
          { mem old with handler := (t'.signals sig.toNat).handler } := by
        simp only [savePrev,Function.update_self,hold]
      have hne' : (t'.signals sig.toNat).handler ≠ SIG_IGN :=
        install_handler_ne (handler_ne h) _ _ _
      rw [hread,installed_back_iff hother hign hlt hne']
      simp
    · have hread : t'.savePrev saved sig.toNat prev old = saved old := by
        cases prev with
        | none => rfl
        | some p =>
          have hp : old ≠ p := fun hc => hprev (by rw [hc])
          exact Function.update_of_ne hp _ _
      rw [hread,hold,installed_back_iff hother hign hlt hne]
      simp [hprev]

/-- Saving and restoring the handler of `SIGCHLD`. The structures are at 0 (a handler), 1
(`SIG_IGN`) and 2 (the old action, whose flags are those of the handler in the bits that are
stored). -/
theorem sigact_restores_iff_handler :
    ((fresh.sysSigact (fun _ => ⟨0x1000,1⟩) 17 (some 0) none).2.1).Restores
    (fun i => if i = 1 then ⟨SIG_IGN,0⟩ else ⟨0,0x101⟩) 17 1 2 none :=
  (sigact_restores_iff (.single ⟨_,17,_,_,rfl⟩) _ 17 1 2 none).mpr
    (.inr (.inr ⟨by decide,fun hc => absurd hc (by simp),.inr (by decide)⟩))

/-- An ignored signal is not ignored after saving and restoring. -/
theorem ignored_not_restored : ¬∀ (t : SignalTable), Relation.ReflTransGen Step fresh t →
    ∀ mem sig new old, new ≠ old → t.Restores mem sig new old none := by
  intro h
  have hreach :
      Relation.ReflTransGen Step fresh (fresh.sysSigact (fun _ =>
          ⟨SIG_IGN,0⟩) 17 (some 0) none).2.1 :=
    .single ⟨_,17,_,_,rfl⟩
  exact absurd (h _ hreach (fun _ => ⟨SIG_DFL,0⟩) 17 0 1 (by decide) 17 (by decide)) (by decide)

end SignalTable
end ScalesOS
