import ScalesOS.RingCalls

/-!
# Order and wake-ups of a ring buffer

Whatever the calls and the signals, the bytes come out in the order in which they went in,
and nobody sleeps on a queue of the buffer although there is something to do.
-/

namespace ScalesOS

/-- What a call that has returned says is what it did: if it was interrupted, nothing. -/
structure Return.Exact (r : Return) : Prop where
  interrupted : r.result < 0 → r.result = -ERESTARTSYS ∧ r.moved = []
  moved : 0 ≤ r.result → r.result = r.moved.length ∧ 1 ≤ r.moved.length ∧
    r.moved.length ≤ r.call.size

theorem Return.exact_of_moved {call : RingCall} {bytes : List Byte} (hpos : 1 ≤ bytes.length)
    (hle : bytes.length ≤ call.size) : Return.Exact ⟨call,bytes.length,bytes⟩ where
  interrupted := fun hneg => absurd hneg (Int.not_lt.mpr (Int.natCast_nonneg _))
  moved := fun _ => ⟨rfl,hpos,hle⟩

theorem Return.exact_of_interrupted (call : RingCall) : Return.Exact ⟨call,-ERESTARTSYS,[]⟩ where
  interrupted := fun _ => ⟨rfl,rfl⟩
  moved := fun hpos => absurd (show (0 : ℤ) ≤ -ERESTARTSYS from hpos) (by decide)

namespace RingSystem

variable {s t : RingSystem} {call : RingCall} {n : ℕ} {wake wait : Queue}

/-- The buffer is in order, calls that sleep have moved nothing, and the bytes that were
delivered and those in the buffer are the bytes accepted. -/
structure Ordered (s : RingSystem) : Prop where
  valid : s.rb.Valid
  asleep : ∀ p, s.calls p ≠ none → s.moved p = []
  exact : ∀ r ∈ s.returns, r.Exact
  fifo : s.returns.flatMap Return.accepted = s.returns.flatMap Return.delivered++s.rb.contents

theorem Ordered.setSched (h : s.Ordered) (sched : Sched) : (s.setSched sched).Ordered :=
  ⟨h.valid,h.asleep,h.exact,h.fifo⟩

theorem Ordered.sleep (h : s.Ordered) {p : ℕ} (hm : s.moved p = []) (call : RingCall) :
    { s with calls := Function.update s.calls p (some call) }.Ordered := by
  refine ⟨h.valid,fun x hx => ?_,h.exact,h.fifo⟩
  by_cases hxp : x = p
  · rw [hxp]
    exact hm
  · change Function.update s.calls p (some call) x ≠ none at hx
    rw [Function.update_of_ne hxp] at hx
    exact h.asleep x hx

theorem Ordered.finish {rb : Ringbuffer} {p : ℕ} {bytes : List Byte} {result : ℤ}
    (h : s.Ordered) (hv : rb.Valid) (hr : Return.Exact ⟨call,result,bytes⟩)
    (hfifo : s.rb.contents++Return.accepted ⟨call,result,bytes⟩ = Return.delivered ⟨call,result,
      bytes⟩++rb.contents) :
    ({ s with rb := rb, moved := Function.update s.moved p bytes }.finish p call
      result).Ordered := by
  refine ⟨hv,fun x hx => ?_,fun r hmem => ?_,?_⟩
  · change Function.update s.calls p none x ≠ none at hx
    change Function.update s.moved p bytes x = []
    by_cases hxp : x = p
    · rw [hxp,Function.update_self] at hx
      exact absurd rfl hx
    · rw [Function.update_of_ne hxp] at hx ⊢
      exact h.asleep x hx
  · rcases List.mem_append.mp hmem with hmem | hmem
    · exact h.exact r hmem
    · rw [List.mem_singleton.mp hmem]
      change Return.Exact ⟨call,result,Function.update s.moved p bytes p⟩
      rw [Function.update_self]
      exact hr
  · change (s.returns++[Return.mk call result (Function.update s.moved p bytes p)]).flatMap
      Return.accepted =
      (s.returns++[Return.mk call result (Function.update s.moved p bytes p)]).flatMap
      Return.delivered++rb.contents
    rw [Function.update_self,List.flatMap_append,List.flatMap_append,List.flatMap_singleton,
      List.flatMap_singleton,h.fifo,List.append_assoc,List.append_assoc,hfifo]

theorem settle_spec (h : s.settle call n wake wait = .ok t) : ∃ sched,
    (n = 0 ∧ t = { s.setSched sched with calls := Function.update s.calls s.process (some call) }) ∨
      (n ≠ 0 ∧ t = (s.setSched sched).finish s.process call n) := by
  rw [settle] at h
  obtain ⟨v,-,h⟩ := Result.bind_eq_ok.mp h
  split at h
  · rename_i hn
    obtain ⟨w,-,h⟩ := Result.bind_eq_ok.mp h
    exact ⟨w,Or.inl ⟨hn,(Except.ok.inj h).symm⟩⟩
  · rename_i hn
    obtain ⟨w,-,h⟩ := Result.bind_eq_ok.mp h
    exact ⟨w,Or.inr ⟨hn,(Except.ok.inj h).symm⟩⟩

theorem Ordered.settle {rb : Ringbuffer} {bytes : List Byte} (h : s.Ordered)
    (hm : s.moved s.process = []) (hv : rb.Valid) (hn : bytes.length = n) (hsize : n ≤ call.size)
    (hfifo : s.rb.contents++Return.accepted ⟨call,n,bytes⟩ = Return.delivered ⟨call,n,
      bytes⟩++rb.contents)
    (hzero : n = 0 → rb.contents = s.rb.contents)
    (hret : (s.copied rb bytes).settle call n wake wait = .ok t) : t.Ordered := by
  have hcopied : s.copied rb bytes =
      { s with rb := rb, moved := Function.update s.moved s.process bytes } := by
    rw [copied,hm,List.nil_append]
  obtain ⟨sched,⟨hn0,rfl⟩ | ⟨hn0,rfl⟩⟩ := settle_spec hret
  · have hnil : bytes = [] := List.length_eq_zero_iff.mp (hn.trans hn0)
    have hself : Function.update s.moved s.process [] = s.moved := by
      rw [← hm,Function.update_eq_self]
    have hordered : (s.copied rb bytes).Ordered := by
      rw [hcopied,hnil,hself]
      refine ⟨hv,h.asleep,h.exact,?_⟩
      rw [h.fifo,← hzero hn0]
    refine (hordered.setSched sched).sleep ?_ call
    change (s.copied rb bytes).moved s.process = []
    rw [hcopied]
    change Function.update s.moved s.process bytes s.process = []
    rw [Function.update_self,hnil]
  · rw [hcopied]
    subst hn
    exact (h.setSched sched).finish hv (Return.exact_of_moved (by omega) hsize) hfifo

theorem Ordered.round (h : s.Ordered) (hm : s.moved s.process = [])
    (hret : s.round call = .ok t) : t.Ordered := by
  cases call with
  | write data =>
    obtain ⟨hv,-,hcontents,hrest⟩ := Ringbuffer.storeLoop_spec data s.rb h.valid
    have hlen :
        data.length-(Ringbuffer.storeLoop data s.rb).2.length =
            min s.rb.writeAvailable data.length := by
      rw [hrest,List.length_drop]
      omega
    have htake : data.take (min s.rb.writeAvailable data.length) = data.take s.rb.writeAvailable :=
      (List.take_eq_take_min ..).symm
    rw [RingSystem.round,ringbufferWrite] at hret
    dsimp only at hret
    rw [hlen] at hret
    refine h.settle hm hv ?_ (min_le_right _ _) ?_ (fun hn => ?_) hret
    · rw [List.length_take,min_assoc,min_self]
      rfl
    · rw [hcontents]
      exact congrArg _ htake
    · have hn' : min s.rb.writeAvailable data.length = 0 := hn
      rw [hcontents,← htake,hn',List.take_zero,List.append_nil]
  | read size =>
    obtain ⟨hv,-,hcontents,hbytes⟩ := Ringbuffer.takeLoop_spec size s.rb h.valid
    rw [RingSystem.round,ringbufferRead] at hret
    refine h.settle hm hv rfl ?_ ?_ (fun hn => ?_) hret
    · rw [hbytes,List.length_take]
      exact min_le_left _ _
    · rw [hcontents,hbytes]
      change s.rb.contents++[] = (if ((s.rb.contents.take size).length : ℤ) < 0 then []
        else s.rb.contents.take size)++
        s.rb.contents.drop size
      rw [if_neg (by omega),List.append_nil,List.take_append_drop]
    · have hnil := List.length_eq_zero_iff.mp hn
      rw [hbytes] at hnil
      rw [hcontents]
      conv_rhs => rw [← List.take_append_drop size s.rb.contents,hnil,List.nil_append]

theorem Ordered.step (h : s.Ordered) {e : Event} (hret : s.step e = .ok t) : t.Ordered := by
  cases e with
  | call call =>
    have hfresh : { s with moved := Function.update s.moved s.process [] }.Ordered := by
      refine ⟨h.valid,fun p hp => ?_,h.exact,h.fifo⟩
      change Function.update s.moved s.process [] p = []
      by_cases hps : p = s.process
      · rw [hps,Function.update_self]
      · rw [Function.update_of_ne hps]
        exact h.asleep p hp
    exact hfresh.round (Function.update_self _ _ _) hret
  | resume =>
    rw [RingSystem.step,resume] at hret
    split at hret
    · obtain rfl := Except.ok.inj hret
      exact h
    · rename_i call hcall
      have hm := h.asleep s.process (by rw [hcall]; simp)
      split at hret
      · obtain rfl := Except.ok.inj hret
        have hself : { s with rb := s.rb, moved := Function.update s.moved s.process [] } = s := by
          rw [← hm,Function.update_eq_self]
        have hnone : s.rb.contents++Return.accepted ⟨call,-ERESTARTSYS,[]⟩ =
            Return.delivered ⟨call,-ERESTARTSYS,[]⟩++s.rb.contents := by
          cases call <;> simp [Return.accepted,Return.delivered]
        have hfin := h.finish (p:=s.process) h.valid (Return.exact_of_interrupted call) hnone
        rw [hself] at hfin
        exact hfin
      · exact h.round hm hret
  | other e =>
    obtain ⟨sched,-,hret⟩ := Result.bind_eq_ok.mp hret
    obtain rfl := Except.ok.inj hret
    exact h.setSched sched

theorem boot_valid {size : ℕ} (memory : ℕ → Byte) (hsize : 2 ≤ size) :
    (Ringbuffer.create size memory).Valid :=
  ⟨hsize,by change 0 < size; omega,by change 0 < size; omega⟩

theorem boot_ordered {size : ℕ} (memory : ℕ → Byte) (hsize : 2 ≤ size) :
    (boot size memory).Ordered := by
  refine ⟨boot_valid memory hsize,fun _ _ => rfl,fun r hr => ?_,rfl⟩
  cases hr

theorem copied_size {rb : Ringbuffer} {bytes : List Byte} (hsize : rb.size = s.rb.size)
    (h : (s.copied rb bytes).settle call n wake wait = .ok t) : t.rb.size = s.rb.size := by
  obtain ⟨sched,⟨-,rfl⟩ | ⟨-,rfl⟩⟩ := settle_spec h
  · exact hsize
  · exact hsize

theorem round_size (hv : s.rb.Valid) (hret : s.round call = .ok t) : t.rb.size = s.rb.size := by
  cases call with
  | write data => exact copied_size (Ringbuffer.storeLoop_spec data s.rb hv).2.1 hret
  | read size => exact copied_size (Ringbuffer.takeLoop_spec size s.rb hv).2.1 hret

theorem Ordered.step_size (h : s.Ordered) {e : Event} (hret : s.step e = .ok t) :
    t.rb.size = s.rb.size := by
  cases e with
  | call call => exact round_size (s:={ s with
      moved := Function.update s.moved s.process [] }) h.valid hret
  | resume =>
    rw [RingSystem.step,resume] at hret
    split at hret
    · obtain rfl := Except.ok.inj hret
      rfl
    · split at hret
      · obtain rfl := Except.ok.inj hret
        rfl
      · exact round_size h.valid hret
  | other e =>
    obtain ⟨sched,-,hret⟩ := Result.bind_eq_ok.mp hret
    obtain rfl := Except.ok.inj hret
    rfl

/-- In every state the free and the used cells are all but one; the bytes delivered by reads,
in the order they were taken, and then the bytes in the buffer, are the bytes accepted by
writes, in the order they were stored; and a call that was interrupted has moved nothing. -/
theorem bounded_fifo {size : ℕ} {memory : ℕ → Byte} (hsize : 2 ≤ size)
    (h : Relation.ReflTransGen Step (boot size memory) s) :
    s.rb.readAvailable+s.rb.writeAvailable = size-1 ∧
    s.returns.flatMap Return.accepted = s.returns.flatMap Return.delivered++s.rb.contents ∧
    ∀ r ∈ s.returns, r.Exact := by
  have hs : s.Ordered ∧ s.rb.size = size := by
    refine reach_invariant (I:=fun s => s.Ordered ∧ s.rb.size = size) ?_
      ⟨boot_ordered memory hsize,rfl⟩ h
    rintro s t ⟨hs,heq⟩ ⟨e,-,hret⟩
    exact ⟨hs.step hret,(hs.step_size hret).trans heq⟩
  obtain ⟨hs,heq⟩ := hs
  refine ⟨?_,hs.fifo,hs.exact⟩
  rw [← heq]
  exact hs.valid.available

theorem exists_run (size : ℕ) (memory : ℕ → Byte) (es : List Event) (P : RingSystem → Bool)
    (h : (runAll Enabled step es (boot size memory)).any P = true) :
    ∃ t, Relation.ReflTransGen Step (boot size memory) t ∧ P t = true :=
  exists_of_runAll P h

/-- A buffer of four cells takes one of the two bytes that the second process writes. -/
theorem bounded_fifo_three : ∃ s : RingSystem, s.returns.map Return.result = [2,1,2] ∧
    s.returns.flatMap Return.delivered = [5,6] ∧ [5,6,7] = [5,6]++s.rb.contents := by
  obtain ⟨s,hs,hps⟩ := exists_run 4 (fun _ => 0)
    [.call (.write [5,6]),.other .fork,.other .yield,.call (.write [7,8]),.call (.read 2)]
    (fun s => s.returns.map Return.result = [2,1,2] ∧ s.returns.flatMap Return.delivered = [5,6] ∧
      s.returns.flatMap Return.accepted = [5,6,7]) (by decide +kernel)
  obtain ⟨hres,hdel,hacc⟩ := of_decide_eq_true hps
  obtain ⟨-,hfifo,-⟩ := bounded_fifo (by decide) hs
  rw [hacc,hdel] at hfifo
  exact ⟨s,hres,hdel,hfifo⟩

structure NoneLost (s : RingSystem) : Prop where
  inv : s.sched.Inv
  valid : s.rb.Valid
  calls : ∀ p c, s.calls p = some c → p ≠ IDLE ∧ 1 ≤ c.size
  readers : s.rb.readAvailable ≠ 0 → s.sched.queues READ_WAIT_QUEUE = []
  writers : s.rb.writeAvailable ≠ 0 → s.sched.queues WRITE_WAIT_QUEUE = []

theorem queue_nil {s t : Sched} {on : Queue → Prop} {q : Queue} (h : Sched.Joins s t on)
    (hq : s.queues q = []) (hon : ¬ on q) : t.queues q = [] := by
  refine List.eq_nil_iff_forall_not_mem.mpr fun x hx => ?_
  rcases h q x hx with hm | ⟨-,ho⟩
  · rw [hq] at hm
    cases hm
  · exact hon ho

/-- A round wakes everybody on one queue, and sleeps on the other if it has moved nothing. -/
theorem settle_queues (hs : s.sched.Inv) (hidle : s.process ≠ IDLE)
    (hwait : ∀ r, wait ≠ .wait r) (hne : wake ≠ wait) (h : s.settle call n wake wait = .ok t) :
    t.sched.Inv ∧ t.sched.queues wake = [] ∧ t.rb = s.rb ∧
      ((n = 0 ∧ Sched.Joins s.sched t.sched fun q => q = wait) ∨
        (n ≠ 0 ∧ Sched.Joins s.sched t.sched fun _ => False)) := by
  rw [settle] at h
  obtain ⟨v,hv,h⟩ := Result.bind_eq_ok.mp h
  have hvw := Sched.wakeupQueue_spec hs.core hv
  have hvi := hs.wakes hvw.wakes
  split at h
  · rename_i hn
    obtain ⟨w,hw,h⟩ := Result.bind_eq_ok.mp h
    obtain rfl := Except.ok.inj h
    have hvidle : v.current ≠ IDLE := by
      rw [hvw.current_eq]
      exact hidle
    have hok : ∀ r, wait = .wait r → r = v.current := fun r hr => absurd hr (hwait r)
    have hjoins := Sched.sleepOnQueue_joins hw
    exact ⟨hvi.sleepOnQueue hvidle hok hw,queue_nil hjoins hvw.empty hne,rfl,
      Or.inl ⟨hn,(Sched.wakeupAll_leaves _ _ hv).then hvw.current_eq hjoins⟩⟩
  · rename_i hn
    obtain ⟨w,hw,h⟩ := Result.bind_eq_ok.mp h
    obtain rfl := Except.ok.inj h
    have hww := Sched.wakeupQueue_spec hvi.core hw
    exact ⟨hvi.wakes hww.wakes,hww.empty,rfl,
      Or.inr ⟨hn,((Sched.wakeupAll_leaves _ _ hv).trans (Sched.wakeupAll_leaves _ _ hw)).joins _⟩⟩

theorem NoneLost.settle_calls (h : s.NoneLost) (call : RingCall) (hidle : s.process ≠ IDLE)
    (hsize : 1 ≤ call.size) {rb : Ringbuffer}
    {bytes : List Byte} (hret : (s.copied rb bytes).settle call n wake wait = .ok t) :
    ∀ p c, t.calls p = some c → p ≠ IDLE ∧ 1 ≤ c.size := by
  intro p c hc
  obtain ⟨sched,⟨-,rfl⟩ | ⟨-,rfl⟩⟩ := settle_spec hret
  · change Function.update s.calls s.process (some call) p = some c at hc
    by_cases hp : p = s.process
    · rw [hp,Function.update_self] at hc
      rw [hp,← Option.some.inj hc]
      exact ⟨hidle,hsize⟩
    · rw [Function.update_of_ne hp] at hc
      exact h.calls p c hc
  · change Function.update s.calls s.process none p = some c at hc
    by_cases hp : p = s.process
    · rw [hp,Function.update_self] at hc
      cases hc
    · rw [Function.update_of_ne hp] at hc
      exact h.calls p c hc

theorem NoneLost.write (h : s.NoneLost) (hidle : s.process ≠ IDLE) {data : List Byte}
    (hdata : 1 ≤ data.length) (hret : s.ringbufferWrite data = .ok t) : t.NoneLost := by
  obtain ⟨hv,hsize,hcontents,hrest⟩ := Ringbuffer.storeLoop_spec data s.rb h.valid
  have hlen :
      data.length-(Ringbuffer.storeLoop data s.rb).2.length =
          min s.rb.writeAvailable data.length := by
    rw [hrest,List.length_drop]
    omega
  have hsettle := settle_queues (s:=s.copied (Ringbuffer.storeLoop data s.rb).1 _) h.inv hidle
    (fun r hr => by cases hr) (by decide) hret
  obtain ⟨hinv,hempty,hrb,hjoins⟩ := hsettle
  have hrb' : t.rb = (Ringbuffer.storeLoop data s.rb).1 := hrb
  refine ⟨hinv,hrb' ▸ hv,h.settle_calls (.write data) hidle hdata hret,fun _ => hempty,
    fun hroom => ?_⟩
  rw [hlen] at hjoins
  rcases hjoins with ⟨hn,-⟩ | ⟨hn,hjoins⟩
  · -- nothing was written because there was no room, and there still is none
    have hfull : s.rb.writeAvailable = 0 := by omega
    have hsame : (Ringbuffer.storeLoop data s.rb).1.contents.length = s.rb.contents.length := by
      rw [hcontents,hfull,List.take_zero,List.append_nil]
    have hsum := h.valid.available
    have hsum' := hv.available
    rw [Ringbuffer.readAvailable_eq] at hsum hsum'
    rw [hrb'] at hroom
    omega
  · exact queue_nil hjoins (h.writers (by omega)) id

theorem NoneLost.read (h : s.NoneLost) (hidle : s.process ≠ IDLE) {size : ℕ} (hsize : 1 ≤ size)
    (hret : s.ringbufferRead size = .ok t) : t.NoneLost := by
  obtain ⟨hv,-,hcontents,hbytes⟩ := Ringbuffer.takeLoop_spec size s.rb h.valid
  have hlen : (Ringbuffer.takeLoop size s.rb).2.length = min size s.rb.contents.length := by
    rw [hbytes,List.length_take]
  have hsettle := settle_queues (s:=s.copied (Ringbuffer.takeLoop size s.rb).1 _) h.inv hidle
    (fun r hr => by cases hr) (by decide) hret
  obtain ⟨hinv,hempty,hrb,hjoins⟩ := hsettle
  have hrb' : t.rb = (Ringbuffer.takeLoop size s.rb).1 := hrb
  refine ⟨hinv,hrb' ▸ hv,h.settle_calls (.read size) hidle hsize hret,fun hfull => ?_,
    fun _ => hempty⟩
  rw [hlen] at hjoins
  rcases hjoins with ⟨hn,-⟩ | ⟨hn,hjoins⟩
  · -- nothing was read because the buffer was empty, and it still is
    rw [hrb',Ringbuffer.readAvailable_eq,hcontents,List.length_drop] at hfull
    omega
  · refine queue_nil hjoins (h.readers ?_) id
    rw [Ringbuffer.readAvailable_eq]
    omega

theorem NoneLost.round (h : s.NoneLost) (hidle : s.process ≠ IDLE) (hsize : 1 ≤ call.size)
    (hret : s.round call = .ok t) : t.NoneLost := by
  cases call with
  | write data => exact h.write hidle hsize hret
  | read size => exact h.read hidle hsize hret

theorem NoneLost.step (h : s.NoneLost) {e : Event} (hen : s.Enabled e) (hret : s.step e = .ok t) :
    t.NoneLost := by
  cases e with
  | call call =>
    have hfresh : { s with moved := Function.update s.moved s.process [] }.NoneLost :=
      ⟨h.inv,h.valid,h.calls,h.readers,h.writers⟩
    exact hfresh.round hen.1 hen.2.2.2 hret
  | resume =>
    rw [RingSystem.step,resume] at hret
    split at hret
    · obtain rfl := Except.ok.inj hret
      exact h
    · rename_i call hcall
      obtain ⟨hidle,hsize⟩ := h.calls _ _ hcall
      split at hret
      · obtain rfl := Except.ok.inj hret
        refine ⟨h.inv,h.valid,fun p c hc => ?_,h.readers,h.writers⟩
        change Function.update s.calls s.process none p = some c at hc
        by_cases hp : p = s.process
        · rw [hp,Function.update_self] at hc
          cases hc
        · rw [Function.update_of_ne hp] at hc
          exact h.calls p c hc
      · exact h.round hidle hsize hret
  | other e =>
    obtain ⟨hen,hspare,-,hread,hwrite⟩ := hen
    obtain ⟨sched,hsched,hret⟩ := Result.bind_eq_ok.mp hret
    obtain rfl := Except.ok.inj hret
    have hjoins := Sched.step_joins hsched
    exact ⟨h.inv.step hen hspare hsched,h.valid,h.calls,
      fun hne => queue_nil hjoins (h.readers hne) hread,
      fun hne => queue_nil hjoins (h.writers hne) hwrite⟩

theorem boot_none_lost {size : ℕ} (memory : ℕ → Byte) (hsize : 2 ≤ size) :
    (boot size memory).NoneLost := by
  refine ⟨Sched.boot_inv,boot_valid memory hsize,fun p c hc => ?_,fun _ => rfl,fun _ => rfl⟩
  cases hc

/-- Nobody sleeps on the read queue while there is something to read, or on the write queue
while there is room, and so never a reader and a writer at once. -/
theorem no_lost_wakeup {size : ℕ} {memory : ℕ → Byte} (hsize : 2 ≤ size)
    (h : Relation.ReflTransGen Step (boot size memory) s) :
    (s.rb.readAvailable > 0 → s.sched.queues READ_WAIT_QUEUE = []) ∧
    (s.rb.writeAvailable > 0 → s.sched.queues WRITE_WAIT_QUEUE = []) ∧
    ¬ (s.sched.queues READ_WAIT_QUEUE ≠ [] ∧ s.sched.queues WRITE_WAIT_QUEUE ≠ []) := by
  have hs : s.NoneLost ∧ s.rb.size = size := by
    refine reach_invariant (I:=fun s => (s.Ordered ∧ s.NoneLost) ∧ s.rb.size = size) ?_
      ⟨⟨boot_ordered memory hsize,boot_none_lost memory hsize⟩,rfl⟩ h |>.imp_left And.right
    rintro s t ⟨⟨ho,hs⟩,heq⟩ ⟨e,hen,hret⟩
    exact ⟨⟨ho.step hret,hs.step hen hret⟩,(ho.step_size hret).trans heq⟩
  obtain ⟨hs,heq⟩ := hs
  have hsum := hs.valid.available
  refine ⟨fun hr => hs.readers (by omega),fun hw => hs.writers (by omega),fun ⟨hr,hw⟩ => ?_⟩
  by_cases hread : s.rb.readAvailable = 0
  · exact hw (hs.writers (by omega))
  · exact hr (hs.readers hread)

/-- The first process sleeps because there is nothing to read. -/
theorem no_lost_wakeup_reader : ∃ s : RingSystem, s.sched.queues READ_WAIT_QUEUE = [ROOT] ∧
    ¬ (s.sched.queues READ_WAIT_QUEUE ≠ [] ∧ s.sched.queues WRITE_WAIT_QUEUE ≠ []) := by
  obtain ⟨s,hs,hps⟩ := exists_run 2 (fun _ => 0) [.other .fork,.call (.read 1)]
    (fun s => s.sched.queues READ_WAIT_QUEUE = [ROOT]) (by decide +kernel)
  exact ⟨s,of_decide_eq_true hps,(no_lost_wakeup (by decide) hs).2.2⟩

end RingSystem
end ScalesOS
