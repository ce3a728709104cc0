import ScalesOS.Dispositions
import ScalesOS.StackImage

/-!
# Signal handlers

How a process enters a handler and comes back: `__k_proc_process_handle_signal`,
`k_proc_process_process_signals` and `k_proc_process_return_from_signal` of
`kernel/src/proc/process.c`. The interrupted registers are kept on the stack of the process,
below its stack pointer. The handler returns to `0xDEADBEEF`, and the page fault there restores
them. Handlers may be interrupted by further signals.
-/

namespace ScalesOS
namespace SignalFrames

open ByteMemory StackImage Stack

def ERESTARTSYS : ℕ := 512
def EINTR : ℕ := 4
def SA_RESTART : BitVec 32 := 1 <<< 5
def MAX_SYSCALL : ℕ := 255

/-- `interrupt_context_t`, in the order of the source. -/
structure InterruptContext where
  edi : BitVec 32
  esi : BitVec 32
  ebp : BitVec 32
  unused : BitVec 32
  ebx : BitVec 32
  edx : BitVec 32
  ecx : BitVec 32
  eax : BitVec 32
  intNo : BitVec 32
  errCode : BitVec 32
  eip : BitVec 32
  cs : BitVec 32
  eflags : BitVec 32
  esp : BitVec 32
  ss : BitVec 32
  deriving DecidableEq

namespace InterruptContext

def words (c : InterruptContext) : List ℕ :=
  [c.edi.toNat,c.esi.toNat,c.ebp.toNat,c.unused.toNat,c.ebx.toNat,c.edx.toNat,c.ecx.toNat,
    c.eax.toNat,c.intNo.toNat,
    c.errCode.toNat,c.eip.toNat,c.cs.toNat,c.eflags.toNat,c.esp.toNat,c.ss.toNat]

def ofWords (ws : List ℕ) : InterruptContext :=
  let word i := BitVec.ofNat 32 (ws.getD i 0)
  ⟨word 0,word 1,word 2,word 3,word 4,word 5,word 6,word 7,word 8,word 9,word 10,word 11,word 12,
    word 13,word 14⟩

/-- The fields that `k_proc_process_return_from_signal` takes from the saved context. -/
def restore (c out : InterruptContext) : InterruptContext :=
  { c with
    eip := out.eip, esp := out.esp, ebp := out.ebp, eax := out.eax, ebx := out.ebx, ecx :=
      out.ecx, edx := out.edx, edi := out.edi, esi := out.esi }

end InterruptContext

structure Process where
  table : SignalTable
  signalQueue : BitVec 64
  interruptedSyscall : BitVec 32

/-- What comes of pending signals: the call returns (with 1 to end the loop), the process ends, it
stops, or it enters a handler. -/
inductive Outcome
  | returns (done : Bool)
  | exits (status : ℕ)
  | stops
  | enters (ctx : InterruptContext) (memory : Mem)

/-- `__k_proc_process_enter_usermode`; the registers that it does not load are those of the
kernel. -/
def enterUsermode (kernel : InterruptContext) (entry userstack : BitVec 32) : InterruptContext :=
  { kernel with
    ebx := entry, ecx := userstack, eax := kernel.eflags ||| 0x200, eflags :=
      kernel.eflags ||| 0x200, eip := entry, esp := userstack, cs := 0x18 ||| 3, ss := 0x20 ||| 3 }

/-- The three `PUSH`es. -/
def pushFrame (ctx : InterruptContext) (sig : ℕ) (memory : Mem) : Stack :=
  (((Stack.mk ctx.esp.toNat memory []).pushArray ctx.words).push32 sig).push32 0xDEADBEEF

def handleSignal (beyond : ℕ → ℕ) (kernel : InterruptContext) (p : Process) (sig : ℕ)
    (ctx : InterruptContext) (memory : Mem) :
    Outcome :=
  if p.table.isSignalIgnored sig then .returns true
  else
    let cfg := p.table.signals sig
    if cfg.handler = 0 then
      let action := SignalState.defaultAction beyond sig
      if action = SIG_TERMINATE then .exits ((128+sig) <<< 4 ||| sig)
      else if action = SIG_STOP then .stops
      else .returns (p.signalQueue == 0)
    else
      let s := pushFrame ctx sig memory
      .enters (enterUsermode kernel cfg.handler (BitVec.ofNat 32 s.sp)) s.mem

/-- The loop of `k_proc_process_process_signals` from signal `i` on, `n` signals. -/
def processLoop (beyond : ℕ → ℕ) (kernel ctx : InterruptContext) (memory : Mem) : ℕ → ℕ → Process →
    Process × Outcome
  | 0,_,p => (p,.returns true)
  | n+1,i,p =>
    if p.signalQueue &&& signalMask i = 0 then processLoop beyond kernel ctx memory n (i+1) p
    else
      let p := { p with signalQueue := p.signalQueue &&& ~~~signalMask i }
      match handleSignal beyond kernel p i ctx memory with
      | .returns false => processLoop beyond kernel ctx memory n (i+1) p
      | o => (p,o)

def processSignals (beyond : ℕ → ℕ) (kernel : InterruptContext) (p : Process)
    (ctx : InterruptContext) (memory : Mem) :
    Process × Outcome :=
  if p.signalQueue = 0 then (p,.returns true)
  else processLoop beyond kernel ctx memory MAX_SIGNAL 0 p

/-- How a page fault at `0xDEADBEEF` ends: in the process or in the dispatcher of system calls with
these registers, or as pending signals say. -/
inductive Resumption
  | resumes (ctx : InterruptContext)
  | restarts (ctx : InterruptContext)
  | signalled (o : Outcome)

/-- `__k_proc_process_try_restart_syscalls`; `sig` is an `int` of 32 bits. -/
def tryRestartSyscalls (p : Process) (sig : ℕ) (ctx : InterruptContext) : Process × Resumption :=
  if MAX_SYSCALL ≤ sig then (p,.resumes ctx)
  else if p.interruptedSyscall ≠ 0 ∧ ctx.eax = -BitVec.ofNat 32 ERESTARTSYS then
    if (p.table.signals sig).flags.setWidth 32 &&& SA_RESTART ≠ 0 then
      ({ p with interruptedSyscall := 0 },.restarts { ctx with eax := p.interruptedSyscall })
    else ({ p with interruptedSyscall := 0 },.resumes { ctx with eax := -BitVec.ofNat 32 EINTR })
  else (p,.resumes ctx)

def returnFromSignal (beyond : ℕ → ℕ) (kernel : InterruptContext) (p : Process)
    (ctx : InterruptContext) (memory : Mem) :
    Process × Resumption :=
  let esp := ctx.esp.toNat
  let sig := read32 memory esp
  let out := InterruptContext.ofWords (array memory (esp+4) 15)
  let ctx := ctx.restore out
  let (p,o) := processSignals beyond kernel p ctx memory
  match o with
  | .exits status => (p,.signalled (.exits status))
  | .enters ctx memory => (p,.signalled (.enters ctx memory))
  | _ => tryRestartSyscalls p sig ctx

/-- A process in user mode. `frames` are the contexts of which the handler has not returned yet,
the innermost first. -/
structure State where
  process : Process
  ctx : InterruptContext
  memory : Mem
  frames : List InterruptContext

/-- Code that runs while these frames are open leaves what is saved there, and what lies above, as
it is. The argument of a handler is its own. -/
def limit : List InterruptContext → ℕ
  | [] => W32
  | c :: _ => c.esp.toNat-60

/-- The process runs on its own, or is interrupted with signals pending, or a handler returns with
the stack pointer where it got it. -/
inductive Step (beyond : ℕ → ℕ) : State → State → Prop
  | user {s : State} (p : Process) (ctx : InterruptContext) (m : Mem) :
      (∀ x, limit s.frames ≤ x → m x = s.memory x) → Step beyond s ⟨p,ctx,m,s.frames⟩
  | signal {s : State} {p : Process} {kernel ctx : InterruptContext} {m : Mem} :
      68 ≤ s.ctx.esp.toNat → s.ctx.esp.toNat ≤ limit s.frames →
      processSignals beyond kernel s.process s.ctx s.memory = (p,.enters ctx m) →
      Step beyond s ⟨p,ctx,m,s.ctx :: s.frames⟩
  | resume {s : State} {c : InterruptContext} {frames : List InterruptContext} {p : Process}
      {kernel ctx : InterruptContext}
      {r : Resumption} : s.frames = c :: frames → s.ctx.esp.toNat+64 = c.esp.toNat →
      returnFromSignal beyond kernel s.process s.ctx s.memory = (p,r) → r = .resumes ctx ∨
      r = .restarts ctx → Step beyond s ⟨p,ctx,s.memory,frames⟩
  | next {s : State} {c : InterruptContext} {frames : List InterruptContext} {p : Process}
      {kernel ctx : InterruptContext}
      {m : Mem} : s.frames = c :: frames → s.ctx.esp.toNat+64 = c.esp.toNat →
      returnFromSignal beyond kernel s.process s.ctx s.memory = (p,.signalled (.enters ctx m)) →
      Step beyond s ⟨p,ctx,m,s.ctx.restore c :: frames⟩

/-- The registers that a handler may not change. -/
structure Same (c c' : InterruptContext) : Prop where
  eip : c.eip = c'.eip
  esp : c.esp = c'.esp
  ebp : c.ebp = c'.ebp
  ebx : c.ebx = c'.ebx
  ecx : c.ecx = c'.ecx
  edx : c.edx = c'.edx
  edi : c.edi = c'.edi
  esi : c.esi = c'.esi

/-- Every open frame is intact on the stack, and lies below those around it. -/
def Ok (m : Mem) : List InterruptContext → Prop
  | [] => True
  | c :: frames => array m (c.esp.toNat-60) 15 = c.words ∧ 68 ≤ c.esp.toNat ∧
      c.esp.toNat ≤ limit frames ∧ Ok m frames

variable {beyond : ℕ → ℕ} {kernel c c' ctx : InterruptContext} {p p' : Process}
    {m m' : Mem} {sig n i : ℕ}
  {frames before : List InterruptContext} {s t u v w : State}

@[simp] theorem ofWords_words (c : InterruptContext) : InterruptContext.ofWords c.words = c := by
  simp [InterruptContext.ofWords,InterruptContext.words]

theorem words_length (c : InterruptContext) : c.words.length = 15 := rfl

theorem words_lt (c : InterruptContext) : ∀ v ∈ c.words, v < 0x100000000 := by
  intro v hv
  simp only [InterruptContext.words,List.mem_cons,List.not_mem_nil,or_false] at hv
  rcases hv with rfl | rfl | rfl | rfl | rfl | rfl | rfl | rfl | rfl | rfl | rfl | rfl
    | rfl | rfl | rfl <;>
    exact BitVec.isLt _

theorem pushFrame_grows (ctx : InterruptContext) (sig : ℕ) (m : Mem) :
    Grows ((Stack.mk ctx.esp.toNat m []).pushArray ctx.words) 8 (pushFrame ctx sig m) :=
  (Grows.word _ sig).trans (Grows.word _ 0xDEADBEEF)

/-- The context is saved below the stack pointer, with the argument of the handler and the address
that it returns to below, and nothing changes above. -/
structure Pushed (ctx : InterruptContext) (sig : ℕ) (m : Mem) (s : Stack) : Prop where
  sp : s.sp = ctx.esp.toNat-68
  returnAddress : read32 s.mem (ctx.esp.toNat-68) = 0xDEADBEEF
  argument : read32 s.mem (ctx.esp.toNat-64) = sig%W32
  saved : array s.mem (ctx.esp.toNat-60) 15 = ctx.words
  above : ∀ x, ctx.esp.toNat ≤ x → s.mem x = m x

theorem pushFrame_spec (ctx : InterruptContext) (sig : ℕ) (m : Mem) (hesp : 68 ≤ ctx.esp.toNat) :
    Pushed ctx sig m (pushFrame ctx sig m) := by
  have harray := pushArray_grows (Stack.mk ctx.esp.toNat m []) ctx.words
  have hframe := pushFrame_grows ctx sig m
  have hlength : 4*ctx.words.length = 60 := by rw [words_length]
  have hsp := harray.sp
  rw [hlength] at harray hsp
  simp only at hsp
  have hlast :=
    Grows.word (((Stack.mk ctx.esp.toNat m []).pushArray ctx.words).push32 sig) 0xDEADBEEF
  have hsig := (Grows.word ((Stack.mk ctx.esp.toNat m []).pushArray ctx.words) sig).sp
  have hsp' : (pushFrame ctx sig m).sp = ctx.esp.toNat-68 := by
    rw [hframe.sp,hsp]
    omega
  refine ⟨hsp',?_,?_,?_,fun x hx => ?_⟩
  · rw [← hsp']
    exact read32_push32 _ (by decide)
  · have hargument :
        read32 (((Stack.mk ctx.esp.toNat m []).pushArray ctx.words).push32 sig).mem
            (ctx.esp.toNat-64) = sig%W32 := by
      have hat :
        (((Stack.mk ctx.esp.toNat m []).pushArray ctx.words).push32 sig).sp =
        ctx.esp.toNat-64 := by omega
      have hword :=
        store_word ((Stack.mk ctx.esp.toNat m []).pushArray ctx.words).mem (ctx.esp.toNat-64) sig
      rw [← hat] at hword ⊢
      exact (congrArg (read32 · _) hword).trans (read32_write32 _ _ _)
    rw [← hargument]
    exact hlast.read32 (by omega) (by omega)
  · have hread :=
      array_pushArray (Stack.mk ctx.esp.toNat m []) ctx.words (words_lt ctx) (by
        simp only [words_length]; omega)
    rw [hsp,words_length] at hread
    rw [hframe.array (by omega) (by omega),hread]
  · rw [hframe.mem (by omega) (by omega),harray.mem (by simp only; omega) hx]

structure Entered (p : Process) (ctx : InterruptContext) (m : Mem) (sig : ℕ) (c : InterruptContext)
    (m' : Mem) : Prop where
  pending : p.signalQueue &&& signalMask sig ≠ 0
  allowed : p.table.isSignalIgnored sig = false
  eip : c.eip = (p.table.signals sig).handler
  esp : c.esp = BitVec.ofNat 32 (pushFrame ctx sig m).sp
  memory : m' = (pushFrame ctx sig m).mem

theorem handleSignal_enters (h : handleSignal beyond kernel p sig ctx m = .enters c m') :
    p.table.isSignalIgnored sig = false ∧ c.eip = (p.table.signals sig).handler ∧
      c.esp = BitVec.ofNat 32 (pushFrame ctx sig m).sp ∧ m' = (pushFrame ctx sig m).mem := by
  rw [handleSignal] at h
  split at h
  case isTrue => cases h
  case isFalse hallowed =>
    simp only at h
    split at h
    · split at h
      · cases h
      · split at h <;> cases h
    · obtain ⟨rfl,rfl⟩ := Outcome.enters.inj h
      exact ⟨by simpa using hallowed,rfl,rfl,rfl⟩

theorem processLoop_enters (h : processLoop beyond kernel ctx m n i p = (p',.enters c m')) :
    ∃ sig, Entered p ctx m sig c m' := by
  induction n generalizing i p with
  | zero => cases h
  | succ n ih =>
    rw [processLoop] at h
    split at h
    case isTrue => exact ih h
    case isFalse hpending =>
      simp only at h
      split at h
      · obtain ⟨sig,hentered⟩ := ih h
        refine ⟨sig,{ hentered with pending := fun hnone => hentered.pending ?_ }⟩
        simp only
        rw [BitVec.and_assoc,BitVec.and_comm (~~~_),← BitVec.and_assoc,hnone]
        exact BitVec.zero_and
      · obtain ⟨hallowed,heip,hesp,hmemory⟩ := handleSignal_enters (Prod.mk.inj h).2
        exact ⟨i,hpending,hallowed,heip,hesp,hmemory⟩

theorem processSignals_enters (h : processSignals beyond kernel p ctx m = (p',.enters c m')) :
    ∃ sig, Entered p ctx m sig c m' := by
  rw [processSignals] at h
  split at h
  · cases h
  · exact processLoop_enters h

theorem processLoop_interrupted :
    (processLoop beyond kernel ctx m n i p).1.interruptedSyscall = p.interruptedSyscall := by
  induction n generalizing i p with
  | zero => rfl
  | succ n ih =>
    rw [processLoop]
    split
    · exact ih
    · simp only
      split
      · exact ih
      · rfl

theorem processSignals_interrupted :
    (processSignals beyond kernel p ctx m).1.interruptedSyscall = p.interruptedSyscall := by
  rw [processSignals]
  split
  · rfl
  · exact processLoop_interrupted

/-- How the result of a system call changes that a signal has interrupted: it is made again, or
it fails. -/
structure Interrupted (p p' : Process) (before after : BitVec 32) : Prop where
  result : before = -BitVec.ofNat 32 ERESTARTSYS
  pending : p.interruptedSyscall ≠ 0
  changed : after = p.interruptedSyscall ∨ after = -BitVec.ofNat 32 EINTR
  done : p'.interruptedSyscall = 0

theorem tryRestartSyscalls_same {r : Resumption} (h : tryRestartSyscalls p sig ctx = (p',r))
    (hr : r = .resumes c ∨ r = .restarts c) :
    Same c ctx ∧ (c.eax = ctx.eax ∨ Interrupted p p' ctx.eax c.eax) := by
  rw [tryRestartSyscalls] at h
  split at h
  · obtain ⟨-,rfl⟩ := Prod.mk.inj h
    rcases hr with hr | hr <;> cases hr
    exact ⟨⟨rfl,rfl,rfl,rfl,rfl,rfl,rfl,rfl⟩,.inl rfl⟩
  · split at h
    case isTrue hrestart =>
      split at h <;> obtain ⟨rfl,rfl⟩ := Prod.mk.inj h <;> rcases hr with hr | hr <;> cases hr
      · exact ⟨⟨rfl,rfl,rfl,rfl,rfl,rfl,rfl,rfl⟩,.inr ⟨hrestart.2,hrestart.1,.inl rfl,rfl⟩⟩
      · exact ⟨⟨rfl,rfl,rfl,rfl,rfl,rfl,rfl,rfl⟩,.inr ⟨hrestart.2,hrestart.1,.inr rfl,rfl⟩⟩
    case isFalse =>
      obtain ⟨-,rfl⟩ := Prod.mk.inj h
      rcases hr with hr | hr <;> cases hr
      exact ⟨⟨rfl,rfl,rfl,rfl,rfl,rfl,rfl,rfl⟩,.inl rfl⟩

theorem returnFromSignal_eq (hsaved : array m (c.esp.toNat-60) 15 = c.words)
    (hesp : ctx.esp.toNat+64 = c.esp.toNat) :
    returnFromSignal beyond kernel p ctx m =
      match processSignals beyond kernel p (ctx.restore c) m with
      | (p,.exits status) => (p,.signalled (.exits status))
      | (p,.enters c' m') => (p,.signalled (.enters c' m'))
      | (p,_) => tryRestartSyscalls p (read32 m ctx.esp.toNat) (ctx.restore c) := by
  have hat : ctx.esp.toNat+4 = c.esp.toNat-60 := by omega
  simp only [returnFromSignal,hat,hsaved,ofWords_words]
  generalize processSignals beyond kernel p (ctx.restore c) m = r
  obtain ⟨p₁,o⟩ := r
  cases o <;> rfl

theorem returnFromSignal_resumes {r : Resumption} (hsaved : array m (c.esp.toNat-60) 15 = c.words)
    (hesp : ctx.esp.toNat+64 = c.esp.toNat) (h : returnFromSignal beyond kernel p ctx m = (p',r))
    (hr : r = .resumes c' ∨ r = .restarts c') :
    Same c' c ∧ (c'.eax = c.eax ∨ Interrupted p p' c.eax c'.eax) := by
  rw [returnFromSignal_eq hsaved hesp] at h
  have hkept : (processSignals beyond kernel p (ctx.restore c) m).1.interruptedSyscall =
      p.interruptedSyscall :=
    processSignals_interrupted
  split at h
  · rcases hr with rfl | rfl <;> cases h
  · rcases hr with rfl | rfl <;> cases h
  · rename_i p₁ o _ _ heq
    rw [heq] at hkept
    obtain ⟨hsame,heax⟩ := tryRestartSyscalls_same h hr
    have heax : c'.eax = c.eax ∨ Interrupted p p' c.eax c'.eax := heax.imp_right fun h =>
      ⟨h.result,hkept ▸ h.pending,hkept ▸ h.changed,h.done⟩
    exact ⟨⟨hsame.eip,hsame.esp,hsame.ebp,hsame.ebx,hsame.ecx,hsame.edx,hsame.edi,hsame.esi⟩,heax⟩

theorem returnFromSignal_enters (hsaved : array m (c.esp.toNat-60) 15 = c.words)
    (hesp : ctx.esp.toNat+64 = c.esp.toNat)
    (h : returnFromSignal beyond kernel p ctx m = (p',.signalled (.enters c' m'))) :
    ∃ sig, m' = (pushFrame (ctx.restore c) sig m).mem := by
  rw [returnFromSignal_eq hsaved hesp] at h
  split at h
  · cases h
  · rename_i heq
    cases h
    obtain ⟨sig,hentered⟩ := processSignals_enters heq
    exact ⟨sig,hentered.memory⟩
  · rw [tryRestartSyscalls] at h
    split at h
    · cases h
    · split at h
      · split at h <;> cases h
      · cases h

theorem Ok.congr (h : Ok m frames) (hm : ∀ x, limit frames ≤ x → m' x = m x) : Ok m' frames := by
  induction frames with
  | nil => trivial
  | cons c frames ih =>
    obtain ⟨hsaved,hesp,hlimit,hrest⟩ := h
    simp only [limit] at hm
    refine ⟨?_,hesp,hlimit,ih hrest fun x hx => hm x (by omega)⟩
    rw [← hsaved]
    exact List.map_congr_left fun i _ => read32_congr fun x hx _ => hm x (by omega)

theorem Ok.push (h : Ok m frames) (hesp : 68 ≤ c.esp.toNat)
    (hlimit : c.esp.toNat ≤ limit frames) (sig : ℕ) :
    Ok (pushFrame c sig m).mem (c :: frames) := by
  have hpushed := pushFrame_spec c sig m hesp
  exact ⟨hpushed.saved,hesp,hlimit,h.congr fun x hx => hpushed.above x (by omega)⟩

theorem Ok.limit_le (h : Ok m (before++c :: frames)) :
    limit (before++c :: frames) ≤ c.esp.toNat-60 := by
  induction before with
  | nil => exact le_rfl
  | cons b before ih =>
    have hlimit : b.esp.toNat ≤ limit (before++c :: frames) := h.2.2.1
    have hrest := ih h.2.2.2
    change b.esp.toNat-60 ≤ c.esp.toNat-60
    omega

theorem Step.ok (h : Step beyond s t) (hs : Ok s.memory s.frames) : Ok t.memory t.frames := by
  cases h with
  | user p ctx m hm => exact hs.congr hm
  | signal hesp hlimit hp =>
    obtain ⟨sig,hentered⟩ := processSignals_enters hp
    obtain rfl := hentered.memory
    exact hs.push hesp hlimit sig
  | resume hframes =>
    rw [hframes] at hs
    exact hs.2.2.2
  | @next c frames p kernel ctx m hframes hesp hp =>
    rw [hframes] at hs
    obtain ⟨hsaved,hlow,hlimit,hrest⟩ := hs
    obtain ⟨sig,rfl⟩ := returnFromSignal_enters hsaved hesp hp
    exact hrest.push (c:=s.ctx.restore c) hlow hlimit sig

/-- What holds while handlers run that a signal at `t` and those after it have entered: the
outermost of their frames has the registers of `t`, and the stack of `t` is as it was. -/
structure Inside (t s : State) : Prop where
  frames : ∃ before c, s.frames = before++c :: t.frames ∧ Same c t.ctx ∧ c.eax = t.ctx.eax
  memory : ∀ x, t.ctx.esp.toNat ≤ x → s.memory x = t.memory x

theorem Same.refl (c : InterruptContext) : Same c c := ⟨rfl,rfl,rfl,rfl,rfl,rfl,rfl,rfl⟩

theorem Same.trans {c₁ c₂ c₃ : InterruptContext} (h : Same c₁ c₂) (h' : Same c₂ c₃) : Same c₁ c₃ :=
  ⟨h.eip.trans h'.eip,h.esp.trans h'.esp,h.ebp.trans h'.ebp,h.ebx.trans h'.ebx,h.ecx.trans h'.ecx,
    h.edx.trans h'.edx,h.edi.trans h'.edi,h.esi.trans h'.esi⟩

theorem inside_signal (hesp : 68 ≤ s.ctx.esp.toNat)
    (hp : processSignals beyond kernel s.process s.ctx s.memory = (p,.enters c m)) :
    Inside s ⟨p,c,m,s.ctx :: s.frames⟩ := by
  obtain ⟨sig,hentered⟩ := processSignals_enters hp
  obtain rfl := hentered.memory
  exact ⟨⟨[],s.ctx,rfl,Same.refl _,rfl⟩,(pushFrame_spec s.ctx sig s.memory hesp).above⟩

theorem Inside.limit_le (h : Inside t s) (hs : Ok s.memory s.frames) :
    limit s.frames ≤ t.ctx.esp.toNat := by
  obtain ⟨before,c,hframes,hsame,-⟩ := h.frames
  rw [hframes] at hs ⊢
  have hle := hs.limit_le
  rw [hsame.esp] at hle
  omega

theorem Inside.step (h : Inside t s) (hs : Ok s.memory s.frames) (hstep : Step beyond s u)
    (hin : t.frames.length < u.frames.length) :
    Inside t u := by
  have hlimit := h.limit_le hs
  cases hstep with
  | user p ctx m hm => exact ⟨h.frames,fun x hx => (hm x (hlimit.trans hx)).trans (h.memory x hx)⟩
  | @signal p kernel ctx m hesp hbelow hp =>
    obtain ⟨before,c,hframes,hsame,heax⟩ := h.frames
    obtain ⟨sig,hentered⟩ := processSignals_enters hp
    obtain rfl := hentered.memory
    refine ⟨⟨s.ctx :: before,c,congrArg (s.ctx :: ·) hframes,hsame,heax⟩,fun x hx => ?_⟩
    exact ((pushFrame_spec s.ctx sig s.memory hesp).above x (hbelow.trans (hlimit.trans hx))).trans
      (h.memory x hx)
  | @resume c frames p kernel ctx r hframes hesp hp hr =>
    obtain ⟨before,c',hframes',hsame,heax⟩ := h.frames
    rw [hframes] at hframes'
    cases before with
    | nil =>
      obtain ⟨-,rfl⟩ := List.cons.inj hframes'
      exact absurd hin (lt_irrefl _)
    | cons b before => exact ⟨⟨before,c',(List.cons.inj hframes').2,hsame,heax⟩,h.memory⟩
  | @next c frames p kernel ctx m hframes hesp hp =>
    obtain ⟨before,c',hframes',hsame,heax⟩ := h.frames
    rw [hframes] at hframes' hs
    obtain ⟨hsaved,hlow,hbelow,hrest⟩ := hs
    obtain ⟨sig,rfl⟩ := returnFromSignal_enters hsaved hesp hp
    have habove := (pushFrame_spec (s.ctx.restore c) sig s.memory hlow).above
    cases before with
    | nil =>
      -- the next signal comes where the outermost handler returns to
      obtain ⟨rfl,rfl⟩ := List.cons.inj hframes'
      refine ⟨⟨[],s.ctx.restore c,rfl,?_,heax⟩,fun x hx => (habove x ?_).trans (h.memory x hx)⟩
      · exact ⟨hsame.eip,hsame.esp,hsame.ebp,hsame.ebx,hsame.ecx,hsame.edx,hsame.edi,hsame.esi⟩
      · exact (congrArg BitVec.toNat hsame.esp).le.trans hx
    | cons b before =>
      rw [List.cons_append] at hframes'
      obtain ⟨-,rfl⟩ := List.cons.inj hframes'
      have hout : c.esp.toNat ≤ t.ctx.esp.toNat := by
        have hle := hrest.limit_le
        rw [hsame.esp] at hle
        omega
      exact ⟨⟨s.ctx.restore c :: before,c',rfl,hsame,heax⟩,fun x hx =>
        (habove x (hout.trans hx)).trans (h.memory x hx)⟩

/-- The process at `t` calls the handler of a pending signal, as C functions are called. -/
structure Called (t u : State) (sig : ℕ) : Prop where
  pending : t.process.signalQueue &&& signalMask sig ≠ 0
  allowed : t.process.table.isSignalIgnored sig = false
  eip : u.ctx.eip = (t.process.table.signals sig).handler
  returnAddress : read32 u.memory u.ctx.esp.toNat = 0xDEADBEEF
  argument : read32 u.memory (u.ctx.esp.toNat+4) = sig%W32

theorem called_signal (hesp : 68 ≤ s.ctx.esp.toNat)
    (hp : processSignals beyond kernel s.process s.ctx s.memory = (p,.enters c m)) :
    ∃ sig, Called s ⟨p,c,m,s.ctx :: s.frames⟩ sig := by
  obtain ⟨sig,hentered⟩ := processSignals_enters hp
  have hpushed := pushFrame_spec s.ctx sig s.memory hesp
  have hsp : c.esp.toNat = s.ctx.esp.toNat-68 := by
    have hlt := s.ctx.esp.isLt
    rw [hentered.esp,hpushed.sp,BitVec.toNat_ofNat,Nat.mod_eq_of_lt (by omega)]
  obtain rfl := hentered.memory
  refine ⟨sig,hentered.pending,hentered.allowed,hentered.eip,?_,?_⟩
  · simp only [hsp]
    exact hpushed.returnAddress
  · simp only [hsp,show s.ctx.esp.toNat-68+4 = s.ctx.esp.toNat-64 by omega]
    exact hpushed.argument

theorem run_ok (hs : s.frames = []) (hrun : Relation.ReflTransGen (Step beyond) s t) :
    Ok t.memory t.frames :=
  reach_invariant (I:=fun s => Ok s.memory s.frames) (fun _ _ hs h => h.ok hs) (by
    rw [hs]; trivial) hrun

/-- A pending signal calls its handler. However many signals follow, with handlers that are
interrupted and handlers that are entered one after the other, the process goes on at last with the
registers and the stack that it had when the first of them came. Only the result of a system call
that was interrupted may change. -/
theorem handlers_return (hs : s.frames = []) (hrun : Relation.ReflTransGen (Step beyond) s t)
    (henter : Step beyond t u) (hu : t.frames.length < u.frames.length)
    (hin : Relation.ReflTransGen (fun a b =>
      Step beyond a b ∧ t.frames.length < b.frames.length) u v)
    (hback : Step beyond v w) (hw : w.frames.length = t.frames.length) :
    (∃ sig, Called t u sig) ∧ w.frames = t.frames ∧ Same w.ctx t.ctx ∧
    (w.ctx.eax = t.ctx.eax ∨ Interrupted v.process w.process t.ctx.eax w.ctx.eax) ∧
      ∀ x, t.ctx.esp.toNat ≤ x → w.memory x = t.memory x := by
  have ht := run_ok hs hrun
  obtain ⟨hfirst,hcalled⟩ : Inside t u ∧ ∃ sig, Called t u sig := by
    cases henter with
    | user => exact absurd hu (lt_irrefl _)
    | signal hesp _ hp => exact ⟨inside_signal hesp hp,called_signal hesp hp⟩
    | resume hframes =>
      rw [hframes] at hu
      simp at hu
    | next hframes =>
      rw [hframes] at hu
      simp at hu
  obtain ⟨hv,hinside⟩ : Ok v.memory v.frames ∧ Inside t v :=
    reach_invariant (I:=fun s => Ok s.memory s.frames ∧ Inside t s)
      (fun _ _ h hstep => ⟨hstep.1.ok h.1,h.2.step h.1 hstep.1 hstep.2⟩) ⟨henter.ok ht,hfirst⟩ hin
  obtain ⟨before,c,hframes,hsame,heax⟩ := hinside.frames
  cases hback with
  | user =>
    simp only [hframes,List.length_append,List.length_cons] at hw
    omega
  | signal =>
    simp only [hframes,List.length_append,List.length_cons] at hw
    omega
  | @resume c' frames p kernel ctx r hframes' hesp hp hr =>
    rw [hframes'] at hframes hv
    obtain ⟨hsaved,-⟩ := hv
    cases before with
    | nil =>
      obtain ⟨rfl,rfl⟩ := List.cons.inj hframes
      obtain ⟨hsame',heax'⟩ := returnFromSignal_resumes hsaved hesp hp hr
      refine ⟨hcalled,rfl,hsame'.trans hsame,?_,hinside.memory⟩
      rw [← heax]
      exact heax'
    | cons b before =>
      rw [List.cons_append] at hframes
      have hlength := congrArg List.length (List.cons.inj hframes).2
      simp only [List.length_append,List.length_cons] at hlength hw
      omega
  | @next c' frames p kernel ctx m hframes' hesp hp =>
    have hlength := congrArg List.length (hframes'.symm.trans hframes)
    simp only [List.length_append,List.length_cons] at hlength hw
    omega

/-- Signal 2 is pending, its handler is at `0x2000`. -/
def pendingOne : State where
  process := ⟨⟨fun _ => ⟨0x2000,0⟩,0⟩,4,0⟩
  ctx := ⟨0,0,0,0,0,0,0,7,0,0,0x1000,0,0,0x8000,0⟩
  memory _ := 0
  frames := []

/-- The handler returns, and the process goes on with 7 in `eax`. -/
theorem handlers_return_one : ∃ u v w : State, Step (fun _ => 0) pendingOne u ∧
    Step (fun _ => 0) u v ∧ Step (fun _ => 0) v w ∧
    u.ctx.eip = 0x2000 ∧ w.ctx.eip = 0x1000 ∧ w.ctx.esp = 0x8000 ∧ w.ctx.eax = 7 := by
  let p : Process := { pendingOne.process with signalQueue := 0 }
  let entry := enterUsermode pendingOne.ctx 0x2000 (0x8000-68)
  let m := (pushFrame pendingOne.ctx 2 pendingOne.memory).mem
  let u : State := ⟨p,entry,m,[pendingOne.ctx]⟩
  -- `ret` takes the address off the stack
  let v : State := ⟨p,{ entry with eip := 0xDEADBEEF, esp := 0x8000-64 },m,[pendingOne.ctx]⟩
  let w : State := ⟨p,v.ctx.restore pendingOne.ctx,m,[]⟩
  have hpushed := pushFrame_spec pendingOne.ctx 2 pendingOne.memory (by decide)
  have henter : Step (fun _ => 0) pendingOne u :=
    @Step.signal _ pendingOne p pendingOne.ctx entry m (by decide) (by decide) rfl
  have hrun : Step (fun _ => 0) u v := .user p _ m fun _ _ => rfl
  have hreturn : returnFromSignal (fun _ => 0) pendingOne.ctx v.process v.ctx v.memory =
      (p,.resumes w.ctx) := by
    rw [returnFromSignal_eq (c:=pendingOne.ctx) hpushed.saved (by decide)]
    change tryRestartSyscalls p _ w.ctx = _
    rw [tryRestartSyscalls]
    split
    · rfl
    · exact if_neg fun h => h.1 rfl
  have hback : Step (fun _ => 0) v w := .resume rfl (by decide) hreturn (.inl rfl)
  obtain ⟨⟨sig,hcalled⟩,-,hsame,heax,-⟩ :=
    handlers_return rfl .refl henter (by decide) (.single ⟨hrun,by decide⟩) hback rfl
  exact ⟨u,v,w,henter,hrun,hback,hcalled.eip,hsame.eip,hsame.esp,
    heax.resolve_right fun h => h.pending rfl⟩

end SignalFrames
end ScalesOS
