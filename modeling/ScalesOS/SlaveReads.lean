import ScalesOS.PseudoTerminals

/-!
# What a terminal stores for a reader

A read of a slave asks the ring buffer for `VMIN` bytes, or for all that are there, also when
its caller has asked for less.
-/

namespace ScalesOS

namespace Tty

/-- The ring buffer is asked for no more than the caller has room for. -/
def AsksWithin (t : Tty) (available size : ℕ) : Prop :=
  t.ts.lflag ICANON = true ∨ if t.ts.cCc VMIN = 0 then available ≤ size
    else (t.ts.cCc VMIN).toNat ≤ size

instance (t : Tty) (available size : ℕ) : Decidable (t.AsksWithin available size) := by
  unfold AsksWithin
  infer_instance

theorem readSize_le (t : Tty) (available size : ℕ) : t.readSize available size ≤ size ↔
    t.AsksWithin available size := by
  rw [readSize,AsksWithin]
  by_cases hcanon : t.ts.lflag ICANON = true
  · rw [if_pos hcanon]
    exact iff_of_true le_rfl (.inl hcanon)
  · rw [if_neg hcanon,or_iff_right hcanon]
    by_cases hmin : t.ts.cCc VMIN = 0
    · rw [if_pos hmin,if_pos hmin]
      split <;> omega
    · rw [if_neg hmin,if_neg hmin]
      split <;> omega

end Tty

namespace Ptys

variable {d : Ptys} {s t : PtySystem} {e : CallEvent (PtyCall ⊕ SelectCall)} {node : PtyNode}
    {p size asked : ℕ}

def RingsValid (d : Ptys) : Prop := ∀ i, (d.ptys i).inBuffer.Valid ∧ (d.ptys i).outBuffer.Valid

theorem RingsValid.setPty (h : d.RingsValid) (i : ℕ) {pty : Pty}
    (hpty : pty.inBuffer.Valid ∧ pty.outBuffer.Valid) :
    (d.setPty i pty).RingsValid := by
  intro j
  by_cases hj : j = i
  · have hself : (d.setPty i pty).ptys j = pty := hj ▸ Function.update_self ..
    rw [hself]
    exact hpty
  · have hother : (d.setPty i pty).ptys j = d.ptys j := Function.update_of_ne hj _ _
    rw [hother]
    exact h j

theorem readRound_valid (h : d.RingsValid) (node : PtyNode) (size asked : ℕ) :
    (d.readRound node size asked).device.RingsValid := by
  have htake : ∀ rb : Ringbuffer, rb.Valid → (rb.takeLoop asked).1.Valid := fun rb hv =>
    (Ringbuffer.takeLoop_spec asked rb hv).1
  have hdevice : (d.readRound node size asked).device =
      if node.master then d.setOut node.pty
        (((d.ptys node.pty).readBuffer node.master).takeLoop asked).1
      else d.setIn node.pty (((d.ptys node.pty).readBuffer node.master).takeLoop asked).1 := by
    rw [readRound]
    dsimp only
    split <;> rfl
  obtain ⟨i,master⟩ := node
  obtain ⟨hin,hout⟩ := h i
  rw [hdevice]
  cases master with
  | true => exact h.setPty i ⟨hin,htake _ hout⟩
  | false => exact h.setPty i ⟨htake _ hin,hout⟩

theorem writeRound_valid (h : d.RingsValid) (node : PtyNode) (data : List Byte)
    (interrupted : Bool) (todo : List TtyOp) :
    (d.writeRound node data interrupted todo).device.RingsValid := by
  obtain ⟨hin,hout⟩ := h node.pty
  cases todo with
  | nil => exact h
  | cons op rest =>
    cases op with
    | putIn c =>
      rw [writeRound]
      split
      · exact h
      · split
        · exact h
        · exact h.setPty _ ⟨hin.store c,hout⟩
    | putOut c =>
      rw [writeRound]
      split
      · exact h
      · split
        · exact h
        · exact h.setPty _ ⟨hin,hout.store c⟩
    | signal sig => exact h
    | _ => exact h.setPty _ ⟨hin,hout⟩

theorem stretch_valid (h : s.device.RingsValid) (hen : s.Enabled isOwn e)
    {x : Stretch Ptys (PtyCall ⊕ SelectCall) (PtyProgress ⊕ SelectProgress)
      (PtyReturn ⊕ SelectReturn)}
    (hx : s.stretch (driver.withSelect files) e = some x) : x.device.RingsValid := by
  rcases CallSystem.stretch_cases hen hx with ⟨-,call,-,rfl⟩ | ⟨-,progress,-,rfl⟩
  · cases call with
    | inl call => cases call <;> exact h
    | inr c =>
      have hsame : (files.start s.device s.process c).device = s.device :=
        SelectFiles.start_device.1
      exact hsame.symm ▸ h
  · cases progress with
    | inl y =>
      cases y with
      | reading node size asked slept =>
        change (resume s.device s.process _ (.reading node size asked slept)).device.RingsValid
        rw [resume]
        split
        · exact h
        · exact readRound_valid h node size asked
      | writing node data todo slept => exact writeRound_valid h node data _ todo
    | inr y =>
      have hsame :
        (files.resume s.device s.process (s.sched.tasks s.process) y).device = s.device :=
  SelectFiles.resume_device.1
      exact hsame.symm ▸ h

theorem step_valid (h : s.device.RingsValid) (hstep : Step CallSystem.anyStep s t) :
    t.device.RingsValid := by
  obtain ⟨e,hen,-,hret⟩ := hstep
  cases hx : s.stretch (driver.withSelect files) e with
  | none => exact (CallSystem.step_none hx hret).device_eq ▸ h
  | some x => exact (CallSystem.step_stretch hx hret).device_eq ▸ stretch_valid h hen hx

/-- A step in which process `p` stays in its call. -/
def During (p : ℕ) (s t : PtySystem) : Prop := Step CallSystem.anyStep s t ∧ (t.calls p).isSome

/-- Process `p` reads from the slave of terminal `i` with room for `size` bytes. The call is
made in `s₀`, and returns `r` in the step from `s₁` to `s₂`. -/
structure ReadCall (p i size : ℕ) (s₀ s₁ s₂ : PtySystem) (r : PtyReturn) : Prop where
  made : ∃ e t, s₀.process = p ∧ s₀.started e = some (.inl (.read ⟨i,false⟩ size)) ∧
    s₀.Enabled isOwn e ∧
    s₀.step (driver.withSelect files) e = .ok t ∧ Relation.ReflTransGen (During p) t s₁
  returned : Step CallSystem.anyStep s₁ s₂ ∧ s₂.returns = s₁.returns++[(p,.inl r)]

/-- A round keeps what the ring buffer is asked for, and returns what it gives. -/
theorem reading_spec (d : Ptys) (p : ℕ) (task : Task) (node : PtyNode) (size asked : ℕ)
    (slept : Bool) :
    (∀ y ∈ (resume d p task (.reading node size asked slept)).next.progress,
      y = .reading node size asked true) ∧
    ∀ r ∈ (resume d p task (.reading node size asked slept)).next.result,
    (r.moved = [] ∧ r.result < 0) ∨
      (r.moved = (((d.ptys node.pty).readBuffer node.master).takeLoop asked).2 ∧
        r.result = r.moved.length) := by
  rw [resume]
  split
  · refine ⟨fun y hy => (by cases hy),fun r hr => ?_⟩
    obtain rfl := Option.some.inj hr
    refine .inl ⟨rfl,?_⟩
    change -(ERESTARTSYS : ℤ) < 0
    decide
  · rw [readRound]
    dsimp only
    split
    · exact ⟨fun y hy => (Option.some.inj hy).symm,fun r hr => (by cases hr)⟩
    · refine ⟨fun y hy => (by cases hy),fun r hr => ?_⟩
      obtain rfl := Option.some.inj hr
      exact .inr ⟨rfl,rfl⟩

theorem During.reading (h : During p s t) {slept : Bool}
    (hcalls : s.calls p = some (.inl (.reading node size asked slept))) :
    ∃ slept, t.calls p = some (.inl (.reading node size asked slept)) := by
  obtain ⟨⟨e,hen,-,hret⟩,hin⟩ := h
  cases hx : s.stretch (driver.withSelect files) e with
  | none =>
    rw [(CallSystem.step_none hx hret).calls_eq]
    exact ⟨slept,hcalls⟩
  | some x =>
    have hran := CallSystem.step_stretch hx hret
    by_cases hp : p = s.process
    · subst hp
      rw [hran.calls_self] at hin ⊢
      rcases CallSystem.stretch_cases hen hx with ⟨hnone,-⟩ | ⟨-,progress,hprogress,rfl⟩
      · rw [hcalls] at hnone
        cases hnone
      · obtain rfl := Option.some.inj (hcalls.symm.trans hprogress)
        obtain ⟨y,hy⟩ := Option.isSome_iff_exists.mp hin
        have hy' : (Next.map id Sum.inl Sum.inl Sum.inl
          (resume s.device s.process (s.sched.tasks s.process)
            (.reading node size asked slept)).next).progress = some y := hy
        rw [Next.map_progress] at hy'
        obtain ⟨z,hz,rfl⟩ := Option.map_eq_some_iff.mp hy'
        obtain rfl :=
          (reading_spec s.device s.process (s.sched.tasks s.process) node size asked slept).1 z hz
        exact ⟨true,hy⟩
    · rw [hran.calls_other hp]
      exact ⟨slept,hcalls⟩

theorem started_reading (hen : s.Enabled isOwn e) {i : ℕ}
    (hcall : s.started e = some (.inl (.read ⟨i,false⟩ size)))
    (hret : s.step (driver.withSelect files) e = .ok t) :
    t.calls s.process = some (.inl (.reading ⟨i,false⟩ size
      ((s.device.ptys i).tty.readSize (s.device.ptys i).inBuffer.readAvailable size) false)) := by
  cases hx : s.stretch (driver.withSelect files) e with
  | none =>
    rw [CallSystem.started_none hx] at hcall
    cases hcall
  | some x =>
    rw [(CallSystem.step_stretch hx hret).calls_self]
    rcases CallSystem.stretch_cases hen hx with ⟨-,call,hcall',rfl⟩ | ⟨rfl,-⟩
    · obtain rfl := Option.some.inj (hcall'.symm.trans hcall)
      rfl
    · cases hcall

/-- A call that does not fail stores the bytes that come first, as many as are asked for. -/
theorem ReadCall.moved {s₀ s₁ s₂ : PtySystem} {i : ℕ} {r : PtyReturn}
    (h : ReadCall p i size s₀ s₁ s₂ r)
    (hvalid : s₀.device.RingsValid) : (r.moved = [] ∧ r.result < 0) ∨ (r.result = r.moved.length ∧
      r.moved.length = min ((s₀.device.ptys i).tty.readSize
        (s₀.device.ptys i).inBuffer.readAvailable size)
        (s₁.device.ptys i).inBuffer.readAvailable) := by
  obtain ⟨e,u,rfl,hcall,hen,hmade,hduring⟩ := h.made
  have hstart := started_reading hen hcall hmade
  set asked := (s₀.device.ptys i).tty.readSize (s₀.device.ptys i).inBuffer.readAvailable size
  have hreading : s₁.device.RingsValid ∧ ∃ slept,
      s₁.calls s₀.process = some (.inl (.reading ⟨i,false⟩ size asked slept)) := by
    refine reach_invariant (I:=fun s : PtySystem => s.device.RingsValid ∧ ∃ slept,
      s.calls s₀.process = some (.inl (.reading ⟨i,false⟩ size asked slept))) (fun s t hs hstep =>
      ?_) ?_ hduring
    · obtain ⟨hv,slept,hcalls⟩ := hs
      exact ⟨step_valid hv hstep.1,hstep.reading hcalls⟩
    · exact ⟨step_valid hvalid ⟨e,hen,trivial,hmade⟩,false,hstart⟩
  obtain ⟨hv,slept,hcalls⟩ := hreading
  obtain ⟨⟨e',hen',-,hret⟩,hreturns⟩ := h.returned
  cases hx : s₁.stretch (driver.withSelect files) e' with
  | none =>
    rw [(CallSystem.step_none hx hret).returns_eq] at hreturns
    exact absurd (List.self_eq_append_right.mp hreturns) (List.cons_ne_nil _ _)
  | some x =>
    rw [(CallSystem.step_stretch hx hret).returns_eq] at hreturns
    have hlast := Option.toList_eq_singleton_iff.mp (List.append_cancel_left hreturns)
    obtain ⟨r',hr',heq⟩ := Option.map_eq_some_iff.mp hlast
    obtain ⟨hprocess,rfl⟩ := Prod.mk.inj heq
    rcases CallSystem.stretch_cases hen' hx with ⟨hnone,-⟩ | ⟨-,progress,hprogress,rfl⟩
    · rw [hprocess,hcalls] at hnone
      cases hnone
    · rw [hprocess] at hprogress
      obtain rfl := Option.some.inj (hcalls.symm.trans hprogress)
      have hr'' :
        (Next.map id Sum.inl Sum.inl Sum.inl
          (resume s₁.device s₁.process (s₁.sched.tasks s₁.process)
        (.reading ⟨i,false⟩ size asked slept)).next).result = some (.inl r) := hr'
      rw [Next.map_result] at hr''
      obtain ⟨r',hr,hinl⟩ := Option.map_eq_some_iff.mp hr''
      obtain rfl := Sum.inl.inj hinl
      rcases (reading_spec s₁.device _ _ ⟨i,false⟩ size asked slept).2 r' hr with
        hfail | ⟨hmoved,hresult⟩
      · exact .inl hfail
      · refine .inr ⟨hresult,?_⟩
        have hin : (s₁.device.ptys i).readBuffer false = (s₁.device.ptys i).inBuffer := rfl
        rw [hmoved,hin,(Ringbuffer.takeLoop_spec asked _ (hv i).1).2.2.2,List.length_take,
          Ringbuffer.readAvailable_eq]

/-- In every run, a read of a slave that fails stores nothing, and one that returns stores and
returns at most as many bytes as its caller has room for just if it has asked for no more, or
no more are there when it gets them. -/
theorem slave_read_within (device : Ptys) (hvalid : device.RingsValid) {s₀ s₁ s₂ : PtySystem}
    {i : ℕ} {r : PtyReturn}
    (hreach : Relation.ReflTransGen (Step CallSystem.anyStep) (CallSystem.boot device) s₀)
    (h : ReadCall p i size s₀ s₁ s₂ r) : (r.result < 0 → r.moved = []) ∧
      (0 ≤ r.result → (r.moved.length ≤ size ∧ r.result ≤ size ↔
        (s₀.device.ptys i).tty.AsksWithin (s₀.device.ptys i).inBuffer.readAvailable size ∨
          (s₁.device.ptys i).inBuffer.readAvailable ≤ size)) := by
  have hv₀ : s₀.device.RingsValid :=
    reach_invariant (I:=fun s : PtySystem => s.device.RingsValid) (fun _ _ hs hstep =>
      step_valid hs hstep) hvalid hreach
  rw [← Tty.readSize_le]
  rcases h.moved hv₀ with ⟨hmoved,hneg⟩ | ⟨hresult,hmoved⟩
  · exact ⟨fun _ => hmoved,fun hpos => absurd hpos (by omega)⟩
  · refine ⟨fun hneg => absurd hneg (by omega),fun _ => ?_⟩
    rw [hresult,hmoved,← min_le_iff]
    exact ⟨fun hle => hle.1,fun hle => ⟨hle,by exact_mod_cast hle⟩⟩

def rawTerminals : Ptys := ⟨fun _ => .create ⟨0,0,0,fun place => if place = VMIN then 2
    else 0⟩ (fun _ => 0) (fun _ => 0) (fun _ => 0),fun _ _ => none⟩

def writeTwo : List (CallEvent (PtyCall ⊕ SelectCall)) :=
  .call (.inl (.write ⟨0,true⟩ [0x61,0x62])) :: List.replicate 5 .resume

def readsNow (size : ℕ) (P : PtyReturn → Bool) (s : PtySystem) : Bool :=
  decide (s.Enabled isOwn (.call (.inl (.read ⟨0,false⟩ size)))) &&
    (s.step (driver.withSelect files) (.call (.inl (.read ⟨0,false⟩ size)))).toOption.any fun t :
    PtySystem =>
      decide (t.process = s.process) && decide (t.Enabled isOwn .resume) &&
        (t.step (driver.withSelect files) .resume).toOption.isSome &&
        (t.stretch (driver.withSelect files) .resume).any fun x => x.next.result.any fun r =>
        r.getLeft?.any P

theorem readsNow_call {P : PtyReturn → Bool} (h : readsNow size P s = true) :
    ∃ s₁ s₂ r, ReadCall s.process 0 size s s₁ s₂ r ∧ P r = true := by
  rw [readsNow,Bool.and_eq_true,decide_eq_true_eq] at h
  obtain ⟨s₁,hmade,h₁⟩ := (Option.any_eq_true _ _).mp h.2
  rw [Bool.and_eq_true,Bool.and_eq_true,Bool.and_eq_true,decide_eq_true_eq,decide_eq_true_eq] at h₁
  obtain ⟨⟨⟨hprocess,hen⟩,hsome⟩,hresult⟩ := h₁
  obtain ⟨s₂,hret⟩ := Option.isSome_iff_exists.mp hsome
  obtain ⟨x,hx,hresult⟩ := (Option.any_eq_true _ _).mp hresult
  obtain ⟨r',hr',hresult⟩ := (Option.any_eq_true _ _).mp hresult
  obtain ⟨r,hr,hP⟩ := (Option.any_eq_true _ _).mp hresult
  obtain rfl := Sum.getLeft?_eq_some_iff.mp hr
  have hstep := Result.eq_ok_of_toOption hret
  refine ⟨s₁,s₂,r,⟨⟨_,s₁,rfl,rfl,h.1,Result.eq_ok_of_toOption hmade,.refl⟩,
    ⟨_,hen,trivial,hstep⟩,?_⟩,hP⟩
  rw [(CallSystem.step_stretch hx hstep).returns_eq,hr',hprocess]
  rfl

theorem rawTerminals_valid : rawTerminals.RingsValid := by
  have hring : (Ringbuffer.create PTY_BUFFER_SIZE fun _ => 0).Valid :=
    ⟨by decide,by decide,by decide⟩
  exact fun _ => ⟨hring,hring⟩

/-- Two bytes are stored for a reader that has room for one. -/
theorem slave_read_overflow : ¬ ∀ device : Ptys, device.RingsValid → ∀ (p i size : ℕ)
    (s₀ s₁ s₂ : PtySystem) (r : PtyReturn),
    Relation.ReflTransGen (Step CallSystem.anyStep) (CallSystem.boot device) s₀ →
    ReadCall p i size s₀ s₁ s₂ r → 0 ≤ r.result → r.moved.length ≤ size ∧ r.result ≤ size := by
  intro hall
  have hrun :
    ∃ s₀, Relation.ReflTransGen (Step CallSystem.anyStep) (CallSystem.boot rawTerminals) s₀ ∧
      readsNow 1 (fun r => r.result = 2) s₀ = true :=
    CallSystem.exists_run isOwn CallSystem.anyStep writeTwo _ (by decide +kernel)
  obtain ⟨s₀,hreach,hreads⟩ := hrun
  obtain ⟨s₁,s₂,r,hcall,hr⟩ := readsNow_call hreads
  have htwo := of_decide_eq_true hr
  have hle := (hall rawTerminals rawTerminals_valid _ _ _ _ _ _ _ hreach hcall (by omega)).2
  omega

/-- A reader with room for two bytes gets what it has room for. -/
theorem slave_read_within_two :
    ∃ s₀ s₁ s₂ r, Relation.ReflTransGen (Step CallSystem.anyStep)
    (CallSystem.boot rawTerminals) s₀ ∧
    ReadCall s₀.process 0 2 s₀ s₁ s₂ r ∧ r.result = 2 ∧ r.moved.length ≤ 2 := by
  have hrun :
    ∃ s₀, Relation.ReflTransGen (Step CallSystem.anyStep) (CallSystem.boot rawTerminals) s₀ ∧
      (readsNow 2 (fun r => r.result = 2) s₀ &&
        (s₀.device.ptys 0).tty.AsksWithin (s₀.device.ptys 0).inBuffer.readAvailable 2) = true :=
    CallSystem.exists_run isOwn CallSystem.anyStep writeTwo _ (by decide +kernel)
  obtain ⟨s₀,hreach,hreads⟩ := hrun
  rw [Bool.and_eq_true,decide_eq_true_eq] at hreads
  obtain ⟨s₁,s₂,r,hcall,hr⟩ := readsNow_call hreads.1
  have htwo := of_decide_eq_true hr
  have hwithin := (slave_read_within rawTerminals rawTerminals_valid hreach hcall).2 (by omega)
  exact ⟨s₀,s₁,s₂,r,hreach,hcall,htwo,(hwithin.mpr (.inl hreads.2)).1⟩

end Ptys
end ScalesOS
