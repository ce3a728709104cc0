import ScalesOS.Pipes

/-!
# The stream through a pipe

What is stored and taken by each process against what its calls have told it. The accounts
agree for as long as no call is interrupted after it has moved something.
-/

namespace ScalesOS

/-- The entries of a log that belong to process `p`. -/
def entriesOf {α : Type} (log : List (ℕ × α)) (p : ℕ) : List α :=
  log.filterMap fun x => if x.1 = p then some x.2 else none

section
variable {α : Type} {p q : ℕ}

theorem entriesOf_append (l l' : List (ℕ × α)) (p : ℕ) :
    entriesOf (l++l') p = entriesOf l p++entriesOf l' p :=
  List.filterMap_append

theorem entriesOf_self (l : List α) (p : ℕ) : entriesOf (l.map fun x => (p,x)) p = l := by
  have hsome : (fun x : ℕ × α => if x.1 = p then some x.2 else none) ∘ (fun x => (p,x)) = some := by
    funext x
    exact if_pos rfl
  rw [entriesOf,List.filterMap_map,hsome,List.filterMap_some]

theorem entriesOf_other (l : List α) (h : q ≠ p) : entriesOf (l.map fun x => (q,x)) p = [] := by
  rw [entriesOf,List.filterMap_eq_nil_iff]
  intro x hx
  obtain ⟨y,-,rfl⟩ := List.mem_map.mp hx
  exact if_neg h

theorem map_snd_tagged (l : List α) (p : ℕ) : (l.map fun x => (p,x)).map Prod.snd = l := by
  rw [List.map_map]
  exact List.map_id l

end

namespace PipeReturn

/-- The bytes that a successful write has accepted. -/
def accepted (r : PipeReturn) : List Byte :=
  match r.call with
  | .write _ data => data.take r.result.toNat
  | .read _ _ => []

/-- The bytes that a successful read has delivered. -/
def delivered (r : PipeReturn) : List Byte :=
  match r.call with
  | .write _ _ => []
  | .read _ _ => if r.result < 0 then [] else r.moved

theorem none_of_neg {r : PipeReturn} (h : r.result < 0) : r.accepted = [] ∧ r.delivered = [] := by
  obtain ⟨call,result,moved⟩ := r
  cases call with
  | write noblock data =>
    refine ⟨?_,rfl⟩
    change data.take result.toNat = []
    rw [Int.toNat_of_nonpos (le_of_lt h),List.take_zero]
  | read noblock size => exact ⟨rfl,if_pos h⟩

end PipeReturn

namespace PipeProgress

def written (x : PipeProgress) : List Byte :=
  match x.call with
  | .write _ _ => x.moved
  | .read _ _ => []

def read (x : PipeProgress) : List Byte :=
  match x.call with
  | .write _ _ => []
  | .read _ _ => x.moved

/-- A call has moved the first of its bytes, and not all of them. -/
def Ok (x : PipeProgress) : Prop :=
  match x.call with
  | .write _ data => data.take x.moved.length = x.moved
  | .read _ size => x.moved.length ≤ size

end PipeProgress

namespace Pipe

variable {s t : PipeSystem} {e : CallEvent PipeCall} {p : ℕ} {x : PipeStretch}

/-- What the calls of process `p` account for: the bytes that successful writes have
reported and those that its call has written so far. -/
def writtenBy (s : PipeSystem) (p : ℕ) : List Byte :=
  (entriesOf s.returns p).flatMap PipeReturn.accepted++(s.calls p).elim [] PipeProgress.written

def readBy (s : PipeSystem) (p : ℕ) : List Byte :=
  (entriesOf s.returns p).flatMap PipeReturn.delivered++(s.calls p).elim [] PipeProgress.read

/-- The bytes taken out are the bytes stored, in their order and without those that are
still in the pipe; and every process has stored and taken what its calls account for. -/
structure Intact (s : PipeSystem) : Prop where
  fifo : s.device.stored.map Prod.snd = s.device.taken.map Prod.snd++s.device.ring.contents
  stored : ∀ p, entriesOf s.device.stored p = writtenBy s p
  taken : ∀ p, entriesOf s.device.taken p = readBy s p

/-- The event is not the interruption of a call that has moved something. -/
def Undisturbed (s : PipeSystem) (e : CallEvent PipeCall) : Prop :=
  e = .resume → (s.sched.tasks s.process).interrupted = true → ∀ x ∈ s.calls s.process, x.moved = []

instance (s : PipeSystem) (e : CallEvent PipeCall) : Decidable (Undisturbed s e) := by
  unfold Undisturbed
  infer_instance

/-- A stretch of process `p` has stored the bytes `ws` and taken the bytes `rs`. -/
structure Transfer (d : Pipe) (p : ℕ) (x : PipeStretch) (ws rs : List Byte) : Prop where
  valid : x.device.ring.Valid
  stored : x.device.stored = d.stored++ws.map fun b => (p,b)
  taken : x.device.taken = d.taken++rs.map fun b => (p,b)
  contents : d.ring.contents++ws = rs++x.device.ring.contents
  progress : ∀ y ∈ x.next.progress, y.Ok

theorem Transfer.none {d : Pipe} {next : Next PipeCall PipeProgress PipeReturn} (hv : d.ring.Valid)
    (hp : next.progress = .none) (clears : Bool) : Transfer d p ⟨d,[],next,clears⟩ [] [] := by
  refine ⟨hv,?_,?_,?_,fun y hy => ?_⟩
  · exact (List.append_nil _).symm
  · exact (List.append_nil _).symm
  · exact List.append_nil _
  · rw [hp] at hy
    cases hy

def Accounted (before : Option PipeProgress) (x : PipeStretch) (ws rs : List Byte) : Prop :=
  before.elim [] PipeProgress.written++ws =
      x.next.result.elim [] PipeReturn.accepted++x.next.progress.elim [] PipeProgress.written ∧
    before.elim [] PipeProgress.read++rs =
      x.next.result.elim [] PipeReturn.delivered++x.next.progress.elim [] PipeProgress.read

theorem entriesOf_returned (h : CallSystem.Ran s t x) (p : ℕ) : entriesOf t.returns p =
    entriesOf s.returns p++if p = s.process then x.next.result.toList else [] := by
  rw [h.returns_eq,entriesOf_append]
  congr 1
  cases x.next.result with
  | none => split <;> rfl
  | some r =>
    split
    · rename_i hp
      rw [hp]
      exact entriesOf_self [r] s.process
    · rename_i hp
      exact entriesOf_other [r] fun heq => hp heq.symm

/-- If the books were right before a stretch, they are right after it just if the account of
the process has changed by what it has moved. -/
theorem Intact.ran_iff (h : Intact s) (hran : CallSystem.Ran s t x) {ws rs : List Byte}
    (hx : Transfer s.device s.process x ws rs) : Intact t ↔
    Accounted (s.calls s.process) x ws rs := by
  have hret : ∀ (f : PipeReturn → List Byte) (p : ℕ), (entriesOf t.returns p).flatMap f =
      (entriesOf s.returns p).flatMap f++if p = s.process then x.next.result.elim [] f else [] := by
    intro f p
    rw [entriesOf_returned hran,List.flatMap_append]
    congr 1
    split
    · cases x.next.result <;> simp
    · rfl
  have hcalls : ∀ (f : PipeProgress → List Byte) (p : ℕ), p ≠ s.process →
      (t.calls p).elim [] f = (s.calls p).elim [] f := fun f p hp => by rw [hran.calls_other hp]
  have hmoved : ∀ (l bs : List (ℕ × Byte)) (bytes : List Byte),
    bs = l++bytes.map (fun b => (s.process,b)) → ∀ p,
      entriesOf bs p = entriesOf l p++if p = s.process then bytes else [] := by
    intro l bs bytes hbs p
    rw [hbs,entriesOf_append]
    congr 1
    split
    · rename_i hp
      rw [hp]
      exact entriesOf_self bytes s.process
    · rename_i hp
      exact entriesOf_other bytes fun heq => hp heq.symm
  -- the equation of one process, for writes and for reads
  have hside :
    ∀ (f : PipeReturn → List Byte) (g : PipeProgress →
      List Byte) (l bs : List (ℕ × Byte)) (bytes : List Byte),
      bs = l++bytes.map (fun b => (s.process,b)) →
      (∀ p, entriesOf l p = (entriesOf s.returns p).flatMap f++(s.calls p).elim [] g) →
      ((∀ p, entriesOf bs p = (entriesOf t.returns p).flatMap f++(t.calls p).elim [] g) ↔
        (s.calls s.process).elim [] g++bytes = x.next.result.elim
        [] f++x.next.progress.elim [] g) := by
    intro f g l bs bytes hbs hold
    constructor
    · intro hnew
      have hp := hnew s.process
      rw [hmoved l bs bytes hbs,if_pos rfl,hold,hret,if_pos rfl,hran.calls_self,List.append_assoc,
        List.append_assoc] at hp
      exact List.append_cancel_left hp
    · intro heq p
      rw [hmoved l bs bytes hbs,hold,hret]
      by_cases hp : p = s.process
      · rw [if_pos hp,if_pos hp,hp,hran.calls_self,List.append_assoc,List.append_assoc,heq]
      · rw [if_neg hp,if_neg hp,List.append_nil,List.append_nil,hcalls g p hp]
  have hdev := hran.device_eq
  have hw := hside PipeReturn.accepted PipeProgress.written _ _ ws (hdev ▸ hx.stored) h.stored
  have hr := hside PipeReturn.delivered PipeProgress.read _ _ rs (hdev ▸ hx.taken) h.taken
  constructor
  · exact fun ht => ⟨hw.mp ht.stored,hr.mp ht.taken⟩
  · rintro ⟨haw,har⟩
    refine ⟨?_,hw.mpr haw,hr.mpr har⟩
    rw [hdev,hx.stored,hx.taken,List.map_append,List.map_append,map_snd_tagged,map_snd_tagged,
      h.fifo,List.append_assoc,List.append_assoc,hx.contents]

theorem write_transfer {d : Pipe} (hv : d.ring.Valid) (noblock : Bool) (data moved : List Byte)
    (hm : data.take moved.length = moved) :
    ∃ ws, Transfer d p (d.kFsPipeWrite p noblock data moved) ws [] ∧
      ∀ before : Option PipeProgress, before.elim [] PipeProgress.written = moved →
        before.elim [] PipeProgress.read = [] →
        Accounted before (d.kFsPipeWrite p noblock data moved) ws [] := by
  obtain ⟨hv',-,hcontents,-⟩ := Ringbuffer.storeLoop_spec (data.drop moved.length) d.ring hv
  have hpref :
      ∀ n, data.take (moved++(data.drop moved.length).take n).length =
          moved++(data.drop moved.length).take n := by
    intro n
    rw [List.length_append,List.take_add,hm,List.length_take,← List.take_eq_take_min]
  have hdevice : ∀ next, (∀ y ∈ next.progress, y.Ok) → ∀ wakes clears,
      Transfer d p ⟨d.store p (Ringbuffer.storeLoop (data.drop moved.length) d.ring).1
        ((data.drop moved.length).take d.ring.writeAvailable),wakes,next,clears⟩
        ((data.drop moved.length).take d.ring.writeAvailable) [] :=
    fun next hnext wakes clears => ⟨hv',rfl,(List.append_nil _).symm,hcontents.symm,hnext⟩
  refine ⟨(data.drop moved.length).take d.ring.writeAvailable,?_,fun before hw hr => ?_⟩
  · rw [kFsPipeWrite_eq hv]
    dsimp only
    split
    · exact hdevice _ (fun y hy => by cases hy) _ _
    · refine hdevice _ (fun y hy => ?_) _ _
      obtain rfl := Option.mem_some_iff.mp hy
      exact hpref _
  · rw [Accounted,kFsPipeWrite_eq hv,hw,hr]
    dsimp only
    split
    · refine ⟨?_,rfl⟩
      change moved++_ = data.take (Int.toNat _)++[]
      rw [Int.toNat_natCast,hpref,List.append_nil]
    · exact ⟨rfl,rfl⟩

theorem read_transfer {d : Pipe} (hv : d.ring.Valid) (noblock : Bool) {size : ℕ} (moved : List Byte)
    (hm : moved.length ≤ size) : ∃ rs, Transfer d p (d.readLoop p noblock size moved) [] rs ∧
      ∀ before : Option PipeProgress, before.elim [] PipeProgress.written = [] →
        before.elim [] PipeProgress.read = moved →
        Accounted before (d.readLoop p noblock size moved) [] rs := by
  obtain ⟨hv',-,hcontents,-⟩ := Ringbuffer.takeLoop_spec (size-moved.length) d.ring hv
  have hdevice : ∀ next, (∀ y ∈ next.progress, y.Ok) → ∀ wakes clears,
      Transfer d p ⟨d.take p (Ringbuffer.takeLoop (size-moved.length) d.ring).1
        (d.ring.contents.take (size-moved.length)),wakes,next,
        clears⟩ [] (d.ring.contents.take (size-moved.length)) := by
    refine fun next hnext wakes clears => ⟨hv',(List.append_nil _).symm,rfl,?_,hnext⟩
    change _ = _++(Ringbuffer.takeLoop (size-moved.length) d.ring).1.contents
    rw [hcontents,List.append_nil,List.take_append_drop]
  refine ⟨d.ring.contents.take (size-moved.length),?_,fun before hw hr => ?_⟩
  · rw [readLoop_eq hv _ _ hm]
    dsimp only
    split
    · exact hdevice _ (fun y hy => by cases hy) _ _
    · refine hdevice _ (fun y hy => ?_) _ _
      obtain rfl := Option.mem_some_iff.mp hy
      change (moved++_).length ≤ size
      rw [List.length_append,List.length_take]
      omega
  · rw [Accounted,readLoop_eq hv _ _ hm,hw,hr]
    dsimp only
    split
    · refine ⟨rfl,?_⟩
      change moved++d.ring.contents.take (size-moved.length) =
        (if ((moved++d.ring.contents.take (size-moved.length)).length : ℤ) < 0 then []
          else moved++d.ring.contents.take (size-moved.length))++[]
      rw [if_neg (Int.not_lt.mpr (Int.natCast_nonneg _)),List.append_nil]
    · exact ⟨rfl,rfl⟩

structure Orderly (s : PipeSystem) : Prop where
  valid : s.device.ring.Valid
  progress : ∀ p, ∀ y ∈ s.calls p, y.Ok
  intact : Intact s

theorem start_transfer {d : Pipe} (hv : d.ring.Valid) (call : PipeCall) :
    ∃ ws rs, Transfer d p (d.start p call) ws rs ∧ Accounted none (d.start p call) ws rs := by
  cases call with
  | write noblock data =>
    obtain ⟨ws,hx,hacc⟩ := write_transfer (p:=p) hv noblock data [] rfl
    exact ⟨ws,[],hx,hacc none rfl rfl⟩
  | read noblock size =>
    rw [start,kFsPipeRead]
    split
    · exact ⟨[],[],Transfer.none hv rfl _,rfl,rfl⟩
    · obtain ⟨rs,hx,hacc⟩ := read_transfer (p:=p) hv noblock [] (Nat.zero_le size)
      exact ⟨[],rs,hx,hacc none rfl rfl⟩

theorem written_read (y : PipeProgress) : y.moved = [] ↔ y.written = [] ∧ y.read = [] := by
  obtain ⟨call,moved⟩ := y
  cases call <;> simp [PipeProgress.written,PipeProgress.read]

/-- A call goes on, or is interrupted: only then its account may go wrong. -/
theorem resume_transfer {d : Pipe} (hv : d.ring.Valid) (task : Task)
    {y : PipeProgress} (hy : y.Ok) :
    ∃ ws rs, Transfer d p (d.resume p task y) ws rs ∧
      (Accounted (some y) (d.resume p task y) ws rs ↔
        (task.interrupted = true → y.moved = [])) := by
  rw [resume]
  split
  · rename_i hint
    refine ⟨[],[],Transfer.none hv rfl _,?_⟩
    have hneg : (-ERESTARTSYS : ℤ) < 0 := by decide
    have hnone := PipeReturn.none_of_neg (r:=⟨y.call,-ERESTARTSYS,y.moved⟩) hneg
    rw [Accounted,written_read]
    simp only [Option.elim,Next.result,Next.progress,hnone.1,hnone.2,List.append_nil]
    exact ⟨fun hacc _ => hacc,fun hacc => hacc hint⟩
  · rename_i hint
    obtain ⟨call,moved⟩ := y
    cases call with
    | write noblock data =>
      obtain ⟨ws,hx,hacc⟩ := write_transfer (p:=p) hv noblock _ _ hy
      exact ⟨ws,[],hx,fun _ hi => absurd hi hint,fun _ => hacc (some ⟨_,moved⟩) rfl rfl⟩
    | read noblock size =>
      obtain ⟨rs,hx,hacc⟩ := read_transfer (p:=p) hv noblock _ hy
      exact ⟨[],rs,hx,fun _ hi => absurd hi hint,fun _ => hacc (some ⟨_,moved⟩) rfl rfl⟩

theorem step_valid (hv : s.device.ring.Valid) (hp : ∀ p, ∀ y ∈ s.calls p, y.Ok)
    (hen : s.Enabled isOwn e)
    (hret : s.step driver e = .ok t) : t.device.ring.Valid ∧ ∀ p, ∀ y ∈ t.calls p, y.Ok := by
  cases hx : s.stretch driver e with
  | none =>
    have hsame := CallSystem.step_none hx hret
    rw [hsame.device_eq,hsame.calls_eq]
    exact ⟨hv,hp⟩
  | some x =>
    have hran := CallSystem.step_stretch hx hret
    obtain ⟨ws,rs,htr⟩ : ∃ ws rs, Transfer s.device s.process x ws rs := by
      rcases CallSystem.stretch_cases hen hx with ⟨-,call,-,rfl⟩ | ⟨rfl,y,hy,rfl⟩
      · obtain ⟨ws,rs,htr,-⟩ := start_transfer hv (p:=s.process) call
        exact ⟨ws,rs,htr⟩
      · obtain ⟨ws,rs,htr,-⟩ :=
          resume_transfer hv (p:=s.process) (s.sched.tasks s.process) (hp _ y hy)
        exact ⟨ws,rs,htr⟩
    refine ⟨hran.device_eq ▸ htr.valid,fun p y hy => ?_⟩
    by_cases hself : p = s.process
    · rw [hself,hran.calls_self] at hy
      exact htr.progress y hy
    · rw [hran.calls_other hself] at hy
      exact hp p y hy

theorem Orderly.step (h : Orderly s) (hen : s.Enabled isOwn e) (hret : s.step driver e = .ok t) :
    (t.device.ring.Valid ∧ ∀ p, ∀ y ∈ t.calls p, y.Ok) ∧ (Intact t ↔ Undisturbed s e) := by
  refine ⟨step_valid h.valid h.progress hen hret,?_⟩
  cases hx : s.stretch driver e with
  | none =>
    have hsame := CallSystem.step_none hx hret
    refine iff_of_true ?_ ?_
    · refine ⟨?_,fun p => ?_,fun p => ?_⟩
      · rw [hsame.device_eq]
        exact h.intact.fifo
      · rw [hsame.device_eq,writtenBy,hsame.returns_eq,hsame.calls_eq]
        exact h.intact.stored p
      · rw [hsame.device_eq,readBy,hsame.returns_eq,hsame.calls_eq]
        exact h.intact.taken p
    · rintro rfl - y hy
      rw [CallSystem.stretch,Option.map_eq_none_iff] at hx
      rw [hx] at hy
      cases hy
  | some x =>
    have hran := CallSystem.step_stretch hx hret
    rcases CallSystem.stretch_cases hen hx with ⟨hnone,call,-,rfl⟩ | ⟨rfl,y,hy,rfl⟩
    · obtain ⟨ws,rs,htr,hacc⟩ := start_transfer h.valid (p:=s.process) call
      have hcalls := Option.isNone_iff_eq_none.mp hnone
      refine iff_of_true ((h.intact.ran_iff hran htr).mpr ?_) ?_
      · rw [hcalls]
        exact hacc
      · rintro - - y hy
        rw [hcalls] at hy
        cases hy
    · obtain ⟨ws,rs,htr,hacc⟩ :=
        resume_transfer h.valid (p:=s.process) (s.sched.tasks s.process) (h.progress _ y hy)
      refine (h.intact.ran_iff hran htr).trans ?_
      rw [hy]
      refine hacc.trans ⟨fun hm _ hi z hz => ?_,fun hm hi => hm rfl hi y hy⟩
      rw [hy] at hz
      obtain rfl := Option.mem_some_iff.mp hz
      exact hm hi

theorem boot_orderly {size : ℕ} (hsize : 2 ≤ size) : Orderly (.boot (create size)) :=
  ⟨create_valid hsize,fun _ y hy => (by cases hy),⟨rfl,fun _ => rfl,fun _ => rfl⟩⟩

theorem reach_valid {size : ℕ} (hsize : 2 ≤ size)
    (h : Relation.ReflTransGen (CallSystem.Step driver isOwn CallSystem.anyStep)
      (.boot (create size)) s) :
    s.device.ring.Valid :=
  (reach_invariant (I:=fun s : PipeSystem => s.device.ring.Valid ∧ ∀ p, ∀ y ∈ s.calls p, y.Ok)
    (fun _ _ hs ⟨_,hen,_,hret⟩ => step_valid hs.1 hs.2 hen hret) ⟨create_valid hsize,fun _ y hy =>
      (by cases hy)⟩ h).1

/-- In every run in which no call is interrupted after it has moved something, what the
calls report is what was stored and taken; a step from there keeps it just if it is not such
an interruption. -/
theorem stream_integrity {size : ℕ} (hsize : 2 ≤ size)
    (h : Relation.ReflTransGen (CallSystem.Step driver isOwn Undisturbed) (.boot (create size)) s) :
    Intact s ∧ ∀ e t, s.Enabled isOwn e → s.step driver e = .ok t →
        (Intact t ↔ Undisturbed s e) := by
  have hs : Orderly s := by
    refine reach_invariant (fun s t hs ⟨e,hen,hal,hret⟩ => ?_) (boot_orderly hsize) h
    obtain ⟨⟨hv,hp⟩,hi⟩ := hs.step hen hret
    exact ⟨hv,hp,hi.mpr hal⟩
  exact ⟨hs.intact,fun e t hen hret => (hs.step hen hret).2⟩

/-- A reader that sleeps is interrupted before it has read anything. -/
theorem stream_integrity_interrupted : ∃ s :
    PipeSystem, s.returns = [(1,⟨.read false 1,-ERESTARTSYS,[]⟩)] ∧ Intact s := by
  obtain ⟨s,hs,hps⟩ := CallSystem.exists_run (d:=driver) isOwn Undisturbed (s:=.boot (create 2))
    [.other .fork,.call (.read false 1),.other (.kill 1 10),.other .yield,.resume]
    (fun s => s.returns = [(1,⟨.read false 1,-ERESTARTSYS,[]⟩)]) (by decide +kernel)
  exact ⟨s,of_decide_eq_true hps,(stream_integrity (by decide) hs).1⟩

/-- A pipe of three cells, into which the first process writes `5`, `6` and `7`. It is
interrupted when the pipe is full, and its write is made again after the second process has
read: that process gets `5` and `6` twice, although one write of three bytes was reported. -/
theorem restarted_write_repeats : ∃ s : PipeSystem,
    Relation.ReflTransGen (CallSystem.Step driver isOwn CallSystem.anyStep) (.boot (create 3)) s ∧
      s.returns.flatMap (fun r => r.2.accepted) = [5,6,7] ∧
      s.returns.flatMap (fun r => r.2.delivered) = [5,6,5,6,7] ∧ ¬ Intact s := by
  obtain ⟨s,hs,hps⟩ :=
    CallSystem.exists_run (d:=driver) isOwn CallSystem.anyStep (s:=.boot (create 3))
    [.other .fork,.call (.write false [5,6,7]),.other (.kill 1 10),.other .yield,
      .resume,.other .yield,
      .call (.read false 2),.other .yield,.returnFromSignal true,.call (.read false 2),
      .other .yield,.resume,.other .yield,.call (.read false 1)]
    (fun s => s.returns.flatMap (fun r => r.2.accepted) = [5,6,7] ∧
      s.returns.flatMap (fun r => r.2.delivered) = [5,6,5,6,7] ∧ s.device.stored.length = 5 ∧
      s.calls 1 = none ∧ (entriesOf s.returns 1).flatMap PipeReturn.accepted = [5,6,7] ∧
      entriesOf s.device.stored 1 = [5,6,5,6,7])
    (by decide +kernel)
  obtain ⟨hacc,hdel,-,hcall,hone,hstored⟩ := of_decide_eq_true hps
  refine ⟨s,hs,hacc,hdel,fun hi => ?_⟩
  have heq := hi.stored 1
  rw [writtenBy,hone,hstored,hcall] at heq
  exact absurd heq (by decide)

end Pipe
end ScalesOS
