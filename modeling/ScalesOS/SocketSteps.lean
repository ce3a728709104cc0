import ScalesOS.Sockets

/-!
# What socket calls leave alone

Reads and writes change one buffer, the other calls no buffer at all; and no call goes
beyond the sockets that have been made.
-/

namespace ScalesOS

namespace Socket

def forget (s : Socket) : Socket :=
  { s with buffer := fun _ => 0, bufferSize := 0, availableData := 0, lock := none }

theorem takeOut_forget (s : Socket) (n : ℕ) : (s.takeOut n).forget = s.forget := rfl

theorem append_forget (s : Socket) (data : List Byte) (sz : ℕ) :
    (s.append data sz).forget = s.forget := rfl

/-- The buffers are the same. -/
structure SameData (s s' : Socket) : Prop where
  buffer_eq : s'.buffer = s.buffer
  bufferSize_eq : s'.bufferSize = s.bufferSize
  availableData_eq : s'.availableData = s.availableData
  lock_eq : s'.lock = s.lock

theorem SameData.refl (s : Socket) : SameData s s := ⟨rfl,rfl,rfl,rfl⟩

theorem SameData.trans {s t u : Socket} (h : SameData s t) (h' : SameData t u) : SameData s u :=
  ⟨h'.buffer_eq.trans h.buffer_eq,h'.bufferSize_eq.trans h.bufferSize_eq,
    h'.availableData_eq.trans h.availableData_eq,h'.lock_eq.trans h.lock_eq⟩

theorem SameData.contents {s s' : Socket} (h : SameData s s') : s'.contents = s.contents := by
  rw [Socket.contents,Socket.contents,h.buffer_eq,h.availableData_eq]

theorem contents_length (s : Socket) : s.contents.length = s.availableData := by
  rw [contents,List.length_map,List.length_range]

theorem append_contents (s : Socket) (data : List Byte) {sz : ℕ} (h : sz ≤ data.length) :
    (s.append data sz).contents = s.contents++data.take sz := by
  apply List.ext_getElem
  · rw [contents_length,List.length_append,contents_length,List.length_take,Nat.min_eq_left h]
    rfl
  · intro i hi _
    rw [contents_length] at hi
    change i < s.availableData+sz at hi
    simp only [contents,List.getElem_map,List.getElem_range,append]
    by_cases hold : i < s.availableData
    · rw [if_neg (by omega),List.getElem_append_left (by simpa using hold)]
      simp
    · rw [if_pos ⟨Nat.not_lt.mp hold,hi⟩,List.getElem_append_right (by simpa using hold)]
      simp only [List.length_map,List.length_range,List.getElem_take]
      exact (List.getElem_eq_getD 0).symm

/-- The bytes come from the front, and the others stay in their order. -/
theorem takeOut_contents (s : Socket) {n : ℕ} (h : n ≤ s.availableData) :
    (s.takeOut n).contents = s.contents.drop n ∧
    (List.range n).map s.buffer = s.contents.take n := by
  have hleft := sub32_eq h
  constructor
  · apply List.ext_getElem
    · rw [contents_length,List.length_drop,contents_length]
      exact hleft
    · intro i hi _
      rw [contents_length] at hi
      change i < sub32 s.availableData n at hi
      simp only [contents,takeOut,List.getElem_map,List.getElem_range,List.getElem_drop]
      rw [if_neg (by omega),if_pos hi,Nat.add_comm]
  · rw [contents,← List.map_take,List.take_range,Nat.min_eq_left h]

end Socket

namespace Sockets

variable {d d' e : Sockets} {sd c b p : ℕ} {f : Socket → Socket}

theorem modify_self (d : Sockets) (c : ℕ) (f : Socket → Socket) :
    (d.modify c f).sockets c = f (d.sockets c) :=
  Function.update_self ..

theorem modify_other (d : Sockets) (f : Socket → Socket) (h : b ≠ c) :
    (d.modify c f).sockets b = d.sockets b :=
  Function.update_of_ne h _ _

theorem create_self (d : Sockets) (domain : ℕ) (nonblock : Bool) :
    (d.kFsSocketCreate domain nonblock).sockets d.count = .new domain nonblock :=
  Function.update_self ..

theorem create_other (d : Sockets) (domain : ℕ) (nonblock : Bool) (h : b ≠ d.count) :
    (d.kFsSocketCreate domain nonblock).sockets b = d.sockets b := Function.update_of_ne h _ _

/-- A statement about the new socket, where a socket may have been modified. -/
theorem modify_rec {motive : Socket → Prop} (d : Sockets) (hf : b = c → motive (f (d.sockets c)))
    (ho : b ≠ c → motive (d.sockets b)) : motive ((d.modify c f).sockets b) := by
  by_cases h : b = c
  · rw [h,modify_self]
    exact hf h
  · rw [modify_other _ _ h]
    exact ho h

/-- Nothing but the buffer of socket `c` is different. -/
structure OnlyData (d d' : Sockets) (c : ℕ) : Prop where
  count_eq : d'.count = d.count
  bound_eq : d'.bound = d.bound
  other : ∀ b, b ≠ c → d'.sockets b = d.sockets b
  forget_eq : (d'.sockets c).forget = (d.sockets c).forget

theorem OnlyData.refl (d : Sockets) (c : ℕ) : OnlyData d d c := ⟨rfl,rfl,fun _ _ => rfl,rfl⟩

theorem OnlyData.trans (h : OnlyData d d' c) (h' : OnlyData d' e c) : OnlyData d e c :=
  ⟨h'.count_eq.trans h.count_eq,h'.bound_eq.trans h.bound_eq,
    fun b hb => (h'.other b hb).trans (h.other b hb),h'.forget_eq.trans h.forget_eq⟩

theorem OnlyData.modify (d : Sockets) (hf : ∀ s, (f s).forget = s.forget) :
    OnlyData d (d.modify c f) c :=
  ⟨rfl,rfl,fun _ hb => modify_other d f hb,
    (congrArg Socket.forget (modify_self d c f)).trans (hf _)⟩

theorem OnlyData.forget (h : OnlyData d d' c) (b : ℕ) :
    (d'.sockets b).forget = (d.sockets b).forget := by
  by_cases hb : b = c
  · rw [hb]
    exact h.forget_eq
  · rw [h.other b hb]

theorem OnlyData.connect_eq (h : OnlyData d d' c) (b : ℕ) :
    (d'.sockets b).connect = (d.sockets b).connect := by
  have heq := congrArg Socket.connect (h.forget b)
  exact heq

theorem OnlyData.backlog_eq (h : OnlyData d d' c) (b : ℕ) :
    (d'.sockets b).backlog = (d.sockets b).backlog := by
  have heq := congrArg Socket.backlog (h.forget b)
  exact heq

theorem OnlyData.isOpen_eq (h : OnlyData d d' c) (b : ℕ) :
    (d'.sockets b).isOpen = (d.sockets b).isOpen := by
  have heq := congrArg Socket.isOpen (h.forget b)
  exact heq

theorem mutexLock_onlyData (d : Sockets) (c p : ℕ) : OnlyData d (d.mutexLock c p) c :=
  OnlyData.modify d fun _ => rfl

theorem mutexUnlock_onlyData (d : Sockets) (c : ℕ) : OnlyData d (d.mutexUnlock c) c :=
  OnlyData.modify d fun _ => rfl

theorem takeOut_onlyData (d : Sockets) (c n : ℕ) : OnlyData d (d.modify c (Socket.takeOut · n)) c :=
  OnlyData.modify d fun s => s.takeOut_forget n

theorem readChunk_onlyData (d : Sockets) (p sd n : ℕ) : OnlyData d (d.readChunk p sd n) sd :=
  ((mutexLock_onlyData d sd p).trans (takeOut_onlyData _ sd n)).trans (mutexUnlock_onlyData _ sd)

def Reads (d : Sockets) (sd : ℕ) (y : SocketStretch) : Prop :=
  OnlyData d y.device sd ∧ (∀ z ∈ y.next.progress, ∃ size copy, z = .reading sd size copy ∨
    ∃ n, z = .readLocking sd size n copy) ∧ ∀ r ∈ y.next.result, ∃ size, r.call = .read sd size

theorem readDone_reads (h : OnlyData d d' sd) (size : UInt32) (x : SocketCopy)
    (wakes : List Sched.Event) :
    Reads d sd (d'.readDone sd size x wakes) :=
  ⟨h,fun z hz => (by cases hz),fun r hr => ⟨size,by rw [← Option.mem_some_iff.mp hr]⟩⟩

theorem readLoop_reads (size : UInt32) (fuel : ℕ) : ∀ {d' : Sockets} (x : SocketCopy)
    (wakes : List Sched.Event),
    OnlyData d d' sd → Reads d sd (readLoop p sd size fuel d' x wakes) := by
  induction fuel with
  | zero => exact fun x wakes h => readDone_reads h size x wakes
  | succ fuel ih =>
    intro d' x wakes h
    rw [readLoop]
    split
    · exact readDone_reads h size x wakes
    · split
      · split
        · exact readDone_reads h size x wakes
        · exact ⟨h,fun z hz => ⟨size,x,Or.inl (Option.mem_some_iff.mp hz).symm⟩,
            fun r hr => by cases hr⟩
      · dsimp only
        split
        · exact ⟨h,fun z hz => ⟨size,x,Or.inr ⟨_,(Option.mem_some_iff.mp hz).symm⟩⟩,
            fun r hr => by cases hr⟩
        · exact ih _ _ (h.trans (readChunk_onlyData ..))

def Writes (d : Sockets) (sd client : ℕ) (y : SocketStretch) : Prop :=
  OnlyData d y.device client ∧ (∀ z ∈ y.next.progress, ∃ data, z = .writeLocking sd client data ∨
    ∃ copy, z = .writing sd client data copy) ∧ ∀ r ∈ y.next.result, ∃ data, r.call = .write sd data

theorem writeBlocked_writes {client : ℕ} (h : OnlyData d d' client) (data : List Byte)
    (x : SocketCopy)
    (wakes : List Sched.Event) : Writes d sd client (d'.writeBlocked sd client data x wakes) := by
  rw [writeBlocked]
  split
  · exact ⟨h,fun z hz => (by cases hz),fun r hr => ⟨data,by rw [← Option.mem_some_iff.mp hr]⟩⟩
  · exact ⟨h,fun z hz => ⟨data,Or.inr ⟨x,(Option.mem_some_iff.mp hz).symm⟩⟩,fun r hr => by cases hr⟩

theorem grow_onlyData (d : Sockets) (c : ℕ) : OnlyData d (d.modify c .grow) c :=
  OnlyData.modify d fun _ => rfl

theorem makeRoom_onlyData (d : Sockets) (c : ℕ) : OnlyData d (d.makeRoom c) c := by
  rw [makeRoom]
  split
  · exact grow_onlyData d c
  · exact OnlyData.refl d c

theorem append_onlyData (d : Sockets) (c : ℕ) (data : List Byte) (sz : ℕ) :
    OnlyData d (d.modify c (Socket.append · data sz)) c :=
  OnlyData.modify d fun s => s.append_forget data sz

theorem writeLoop_writes {client : ℕ} (data : List Byte) (fuel : ℕ) : ∀ {d' : Sockets}
    (x : SocketCopy) (wakes : List Sched.Event), OnlyData d d' client →
    Writes d sd client (writeLoop sd client data fuel d' x wakes) := by
  have hdone : ∀ {d' : Sockets} (x : SocketCopy) (wakes : List Sched.Event), OnlyData d d' client →
      Writes d sd client (d'.writeDone sd client data x wakes) := fun x wakes h =>
    ⟨h.trans (mutexUnlock_onlyData _ client),fun z hz => (by cases hz),
      fun r hr => ⟨data,by rw [← Option.mem_some_iff.mp hr]⟩⟩
  induction fuel with
  | zero => exact fun x wakes h => hdone x wakes h
  | succ fuel ih =>
    intro d' x wakes h
    rw [writeLoop]
    split
    · exact hdone x wakes h
    · split
      · exact writeBlocked_writes h data x wakes
      · exact ih _ _ ((h.trans (makeRoom_onlyData d' client)).trans (append_onlyData ..))

theorem writeLocked_writes (d : Sockets) (p sd client : ℕ) (data : List Byte) :
    Writes d sd client (d.writeLocked p sd client data) := by
  rw [writeLocked]
  split
  · exact ⟨OnlyData.refl d client,fun z hz => ⟨data,Or.inl (Option.mem_some_iff.mp hz).symm⟩,
      fun r hr => by cases hr⟩
  · exact writeLoop_writes data _ _ _ (mutexLock_onlyData d client p)

theorem writeResumed_writes (d : Sockets) (sd client : ℕ) (data : List Byte) (x : SocketCopy) :
    Writes d sd client (d.writeResumed sd client data x) := by
  rw [writeResumed]
  split
  · exact writeBlocked_writes (OnlyData.refl d client) data x []
  · exact writeLoop_writes data _ _ _ ((grow_onlyData d client).trans (append_onlyData ..))

structure Known (d : Sockets) : Prop where
  unused : ∀ c, d.count ≤ c → d.sockets c = init.sockets c
  connect_lt : ∀ a b, (d.sockets a).connect = some b → b < d.count
  backlog_lt : ∀ a, ∀ b ∈ (d.sockets a).backlog, b < d.count
  bound_lt : ∀ names b, d.bound names = some b → b < d.count

theorem init_known : Known init :=
  ⟨fun _ _ => rfl,fun _ _ h => (by cases h),fun _ _ h => (by cases h),fun _ _ h => (by cases h)⟩

theorem Known.lt_of_open (h : Known d) (ho : (d.sockets c).isOpen = true) : c < d.count := by
  by_contra hc
  rw [h.unused c (Nat.not_lt.mp hc)] at ho
  cases ho

theorem Known.modify (h : Known d) (hc : c < d.count)
    (hconnect : ∀ b, (f (d.sockets c)).connect = some b → b < d.count)
    (hbacklog : ∀ b ∈ (f (d.sockets c)).backlog, b < d.count) : Known (d.modify c f) where
  unused := fun b hb => (modify_other d f (by
    rintro rfl; exact absurd hc (Nat.not_lt.mpr hb))).trans (h.unused b hb)
  connect_lt := fun _ b => modify_rec (motive := fun s => s.connect = some b →
    b < d.count) d (fun _ => hconnect b)
    fun _ => h.connect_lt _ b
  backlog_lt := fun _ => modify_rec (motive := fun s => ∀ b ∈ s.backlog,
    b < d.count) d (fun _ => hbacklog)
    fun _ => h.backlog_lt _
  bound_lt := h.bound_lt

theorem Known.onlyData (h : Known d) (hd : OnlyData d d' c) (hc : c < d.count) : Known d' where
  unused := by
    intro b hb
    rw [hd.count_eq] at hb
    rw [hd.other b (by omega)]
    exact h.unused b hb
  connect_lt := by
    intro a b hab
    rw [hd.count_eq]
    exact h.connect_lt a b (hd.connect_eq a ▸ hab)
  backlog_lt := by
    intro a b hab
    rw [hd.count_eq]
    exact h.backlog_lt a b (hd.backlog_eq a ▸ hab)
  bound_lt := by
    intro names b hb
    rw [hd.count_eq]
    rw [hd.bound_eq] at hb
    exact h.bound_lt names b hb

theorem Known.create (h : Known d) (domain : ℕ) (nonblock : Bool) :
    Known (d.kFsSocketCreate domain nonblock) where
  unused := by
    intro c hc
    have hne : c ≠ d.count := fun heq => absurd hc (by rw [heq]; exact Nat.not_succ_le_self _)
    exact (Function.update_of_ne hne _ _).trans (h.unused c (Nat.le_of_succ_le hc))
  connect_lt := by
    intro a b hab
    by_cases ha : a = d.count
    · rw [ha,create_self] at hab
      cases hab
    · rw [create_other _ _ _ ha] at hab
      exact Nat.lt_succ_of_lt (h.connect_lt a b hab)
  backlog_lt := by
    intro a b hab
    by_cases ha : a = d.count
    · rw [ha,create_self] at hab
      cases hab
    · rw [create_other _ _ _ ha] at hab
      exact Nat.lt_succ_of_lt (h.backlog_lt a b hab)
  bound_lt := fun names b hb => Nat.lt_succ_of_lt (h.bound_lt names b hb)

theorem Known.mount (h : Known d) (names : List Path) (hsd : sd < d.count) :
    Known (d.mount names sd) where
  unused := h.unused
  connect_lt := h.connect_lt
  backlog_lt := h.backlog_lt
  bound_lt := by
    intro names' b hb
    have hb' := (Function.update_apply d.bound names (some sd) names').symm.trans hb
    split at hb'
    · rw [← Option.some.inj hb']
      exact hsd
    · exact h.bound_lt names' b hb'

end Sockets

namespace SocketProgress

def socket : SocketProgress → ℕ
  | .connecting sd _ _ => sd
  | .accepting sd => sd
  | .reading sd _ _ => sd
  | .readLocking sd _ _ _ => sd
  | .writeLocking _ client _ => client
  | .writing _ client _ _ => client

end SocketProgress

namespace Sockets

variable {d d' : Sockets} {sd c p : ℕ} {y : SocketStretch}

structure KeepsTo (d : Sockets) (y : SocketStretch) : Prop where
  known : Known y.device
  count_le : d.count ≤ y.device.count
  progress : ∀ z ∈ y.next.progress, z.socket < y.device.count

theorem KeepsTo.done (h : Known d') (hle : d.count ≤ d'.count) (call : SocketCall) (result : ℤ)
    (wakes : List Sched.Event) :
    KeepsTo d (d'.done call result wakes) := ⟨h,hle,fun _ hz => (by cases hz)⟩

theorem Reads.keepsTo (h : Reads d sd y) (hd : Known d) (hsd : sd < d.count) : KeepsTo d y := by
  obtain ⟨hdata,hprogress,-⟩ := h
  refine ⟨hd.onlyData hdata hsd,hdata.count_eq.ge,fun z hz => ?_⟩
  rw [hdata.count_eq]
  obtain ⟨size,copy,rfl | ⟨n,rfl⟩⟩ := hprogress z hz
  · exact hsd
  · exact hsd

theorem Writes.keepsTo {client : ℕ} (h : Writes d sd client y) (hd : Known d)
    (hc : client < d.count) : KeepsTo d y := by
  obtain ⟨hdata,hprogress,-⟩ := h
  refine ⟨hd.onlyData hdata hc,hdata.count_eq.ge,fun z hz => ?_⟩
  rw [hdata.count_eq]
  obtain ⟨data,rfl | ⟨copy,rfl⟩⟩ := hprogress z hz
  · exact hc
  · exact hc

theorem connectLoop_keepsTo (h : Known d') (hle : d.count ≤ d'.count) (hsd : sd < d'.count)
    (path : Path) (server : ℕ)
    (wakes : List Sched.Event) : KeepsTo d (d'.connectLoop sd path server wakes) := by
  rw [connectLoop]
  split
  · exact .done h hle _ _ _
  · split
    · exact .done h hle _ _ _
    · refine ⟨h,hle,fun z hz => ?_⟩
      rw [← Option.mem_some_iff.mp hz]
      exact hsd

theorem Known.enqueue (h : Known d) (hsd : sd < d.count) (path : Path) {server : ℕ}
    (hserver : server < d.count) :
    Known (d.enqueue sd path server) := by
  have haddr :=
    h.modify (f:=fun s => { s with addr := some path }) hsd (h.connect_lt sd) (h.backlog_lt sd)
  refine haddr.modify hserver (haddr.connect_lt server) fun b hb => ?_
  rcases List.mem_append.mp hb with hb | hb
  · exact haddr.backlog_lt server b hb
  · rw [List.mem_singleton.mp hb]
    exact hsd

theorem connect_keepsTo (h : Known d) (hsd : sd < d.count) (path : Path) :
    KeepsTo d (d.kFsSocketConnect sd path) := by
  rw [kFsSocketConnect]
  split
  · exact .done h le_rfl _ _ _
  · split
    · split
      · exact .done h le_rfl _ _ _
      · rename_i server hserver
        split
        · exact .done h le_rfl _ _ _
        · exact connectLoop_keepsTo (h.enqueue hsd path (h.bound_lt _ _ hserver))
            (le_refl d.count) hsd _ _ _
    · exact .done h le_rfl _ _ _

theorem acceptFirst_known (h : Known d) (hsd : sd < d.count) {client : ℕ} {rest : List ℕ}
    (hbacklog : (d.sockets sd).backlog = client :: rest) :
    Known (d.acceptFirst sd client rest) := by
  have hmem : ∀ b ∈ client :: rest, b < d.count := fun b hb => h.backlog_lt sd b (hbacklog ▸ hb)
  have hclient := hmem client List.mem_cons_self
  have hrest := h.modify (f:=fun s => { s with backlog := rest }) hsd (h.connect_lt sd)
    fun b hb => hmem b (List.mem_cons_of_mem _ hb)
  have hcreate : Known (d.acceptSocket sd rest) := hrest.create _ _
  have hconnect :=
    hcreate.modify (f:=fun s => { s with connect := some d.count }) (Nat.lt_succ_of_lt hclient)
    (fun b hb => Option.some.inj hb ▸ Nat.lt_succ_self d.count) (hcreate.backlog_lt client)
  exact hconnect.modify (Nat.lt_succ_self d.count) (fun b hb => Option.some.inj hb ▸
    Nat.lt_succ_of_lt hclient)
    (hconnect.backlog_lt d.count)

theorem accept_keepsTo (h : Known d) (hsd : sd < d.count) : KeepsTo d (d.kFsSocketAccept sd) := by
  rw [kFsSocketAccept]
  split
  · split
    · split
      · exact .done h le_rfl _ _ _
      · refine ⟨h,le_rfl,fun z hz => ?_⟩
        rw [← Option.mem_some_iff.mp hz]
        exact hsd
    · rename_i client rest hbacklog
      exact .done (acceptFirst_known h hsd hbacklog) (Nat.le_succ d.count) _ _ _
  · exact .done h le_rfl _ _ _

theorem Known.close (h : Known d) (hsd : sd < d.count) :
    Known (d.kFsSocketClose sd) ∧ (d.kFsSocketClose sd).count = d.count := by
  rw [kFsSocketClose]
  split
  · exact ⟨h,rfl⟩
  · rename_i other hother
    have hself :=
      h.modify (f:=fun s => { s with connect := none }) hsd (fun b hb => by cases hb)
        (h.backlog_lt sd)
    exact ⟨hself.modify (h.connect_lt sd other hother) (fun b hb => by cases hb)
      (hself.backlog_lt other),rfl⟩

theorem close_keepsTo (h : Known d) (hsd : sd < d.count) : KeepsTo d (d.kFsVfsClose sd) := by
  obtain ⟨hclose,hcount⟩ := h.close hsd
  exact .done (hclose.modify (hcount ▸ hsd) (hclose.connect_lt sd) (hclose.backlog_lt sd))
    hcount.ge _ _ _

theorem start_keepsTo (h : Known d) (p : ℕ) (call : SocketCall) : KeepsTo d (d.start p call) := by
  rw [start]
  split
  · rename_i hhas
    cases call with
    | create domain nonblock =>
      rw [startOpen]
      split
      · exact .done h le_rfl _ _ _
      · exact .done (h.create domain nonblock) (Nat.le_succ _) _ _ _
    | bind sd path =>
      have hsd := h.lt_of_open (hhas sd rfl)
      rw [startOpen,kFsSocketBind]
      split
      · exact .done h le_rfl _ _ _
      · split
        · exact .done ((h.mount (Path.names path) hsd).modify hsd (h.connect_lt sd)
            (h.backlog_lt sd)) (le_refl d.count) _ _ _
        · exact .done h le_rfl _ _ _
    | listen sd =>
      exact .done (h.modify (h.lt_of_open (hhas sd rfl)) (h.connect_lt sd) (h.backlog_lt sd))
        (le_refl d.count) _ _ _
    | connect sd path => exact connect_keepsTo h (h.lt_of_open (hhas sd rfl)) path
    | accept sd => exact accept_keepsTo h (h.lt_of_open (hhas sd rfl))
    | read sd size => exact (readLoop_reads size _ _ _
        (OnlyData.refl d sd)).keepsTo h (h.lt_of_open (hhas sd rfl))
    | write sd data =>
      rw [startOpen,kFsSocketWrite]
      split
      · exact .done h le_rfl _ _ _
      · split
        · exact .done h le_rfl _ _ _
        · rename_i client hclient
          exact (writeLocked_writes d p sd client data).keepsTo h (h.connect_lt sd client hclient)
    | close sd => exact close_keepsTo h (h.lt_of_open (hhas sd rfl))
  · exact .done h le_rfl _ _ _

theorem resume_keepsTo (h : Known d) (p : ℕ) (task : Task) {z : SocketProgress}
    (hz : z.socket < d.count) :
    KeepsTo d (d.resume p task z) := by
  cases z with
  | connecting sd path server => exact connectLoop_keepsTo h le_rfl hz path server []
  | accepting sd => exact accept_keepsTo h hz
  | reading sd size copy => exact (readLoop_reads size _ _ _ (OnlyData.refl d sd)).keepsTo h hz
  | readLocking sd size n copy =>
    rw [resume]
    split
    · refine ⟨h,le_rfl,fun z' hz' => ?_⟩
      rw [← Option.mem_some_iff.mp hz']
      exact hz
    · exact Reads.keepsTo (readLoop_reads size _ _ _ (readChunk_onlyData d p sd n)) h hz
  | writeLocking sd client data => exact (writeLocked_writes d p sd client data).keepsTo h hz
  | writing sd client data copy => exact (writeResumed_writes d sd client data copy).keepsTo h hz

variable {s t : SocketSystem} {e : CallEvent SocketCall} {own : ℕ → Bool}

structure Base (s : SocketSystem) : Prop where
  known : Known s.device
  progress : ∀ p, ∀ z ∈ s.calls p, z.socket < s.device.count

theorem Base.keepsTo (h : Base s) (hen : s.Enabled own e) (hx : s.stretch driver e = some y) :
    KeepsTo s.device y := by
  rcases CallSystem.stretch_cases hen hx with ⟨-,call,-,rfl⟩ | ⟨-,z,hz,rfl⟩
  · exact start_keepsTo h.known _ call
  · exact resume_keepsTo h.known _ (s.sched.tasks s.process) (h.progress _ z hz)

theorem Base.step (h : Base s) (hen : s.Enabled own e)
    (hret : s.step driver e = .ok t) : Base t := by
  cases hx : s.stretch driver e with
  | none =>
    have hsame := CallSystem.step_none hx hret
    constructor
    · rw [hsame.device_eq]
      exact h.known
    · rw [hsame.device_eq,hsame.calls_eq]
      exact h.progress
  | some y =>
    have hran := CallSystem.step_stretch hx hret
    have hkeeps := h.keepsTo hen hx
    constructor
    · rw [hran.device_eq]
      exact hkeeps.known
    · intro p z hz
      rw [hran.device_eq]
      by_cases hp : p = s.process
      · rw [hp,hran.calls_self] at hz
        exact hkeeps.progress z hz
      · rw [hran.calls_other hp] at hz
        exact lt_of_lt_of_le (h.progress p z hz) hkeeps.count_le

theorem boot_base : Base (.boot init) := ⟨init_known,fun _ _ hz => (by cases hz)⟩

end Sockets

namespace SocketCall

def isData : SocketCall → Bool
  | .read _ _ => true
  | .write _ _ => true
  | _ => false

end SocketCall

namespace SocketProgress

def isConnection : SocketProgress → Bool
  | .connecting _ _ _ => true
  | .accepting _ => true
  | _ => false

end SocketProgress

namespace SocketReturn

structure Idle (r : SocketReturn) : Prop where
  moved_eq : r.moved = []
  out_eq : r.out = fun _ => none
  fails : r.call.isData = true → r.result < 0

end SocketReturn

namespace Sockets

variable {d d' : Sockets} {sd b c p : ℕ} {f : Socket → Socket} {y : SocketStretch}

/-- A stretch that touches no buffer. -/
structure Plain (d : Sockets) (y : SocketStretch) : Prop where
  data : ∀ b, Socket.SameData (d.sockets b) (y.device.sockets b)
  progress : ∀ z ∈ y.next.progress, z.isConnection = true
  result : ∀ r ∈ y.next.result, r.Idle

theorem sameData_modify {s : Socket} (h : Socket.SameData s (d.sockets b))
    (hf : ∀ s, Socket.SameData s (f s)) :
    Socket.SameData s ((d.modify c f).sockets b) := by
  by_cases hb : b = c
  · rw [hb] at h
    rw [hb,modify_self]
    exact h.trans (hf _)
  · rwa [modify_other _ _ hb]

theorem create_sameData (h : Known d) (domain : ℕ) (nonblock : Bool) (b : ℕ) :
    Socket.SameData (d.sockets b) ((d.kFsSocketCreate domain nonblock).sockets b) := by
  by_cases hb : b = d.count
  · rw [hb,create_self,h.unused d.count le_rfl]
    exact ⟨rfl,rfl,rfl,rfl⟩
  · rw [create_other _ _ _ hb]
    exact Socket.SameData.refl _

theorem done_plain (h : ∀ b, Socket.SameData (d.sockets b) (d'.sockets b))
    (call : SocketCall) {result : ℤ}
    (hcall : call.isData = true → result < 0) (wakes : List Sched.Event) :
    Plain d (d'.done call result wakes) :=
  ⟨h,fun _ hz => (by cases hz),
    fun r hr => by rw [← Option.mem_some_iff.mp hr]; exact ⟨rfl,rfl,hcall⟩⟩

theorem refused_plain (d : Sockets) {call : SocketCall} {result : ℤ}
    (hcall : call.isData = true → result < 0) :
    Plain d (d.done call result []) := done_plain (fun _ => Socket.SameData.refl _) call hcall []

theorem connectLoop_plain (h : ∀ b, Socket.SameData (d.sockets b) (d'.sockets b)) (sd : ℕ)
    (path : Path) (server : ℕ)
    (wakes : List Sched.Event) : Plain d (d'.connectLoop sd path server wakes) := by
  rw [connectLoop]
  split
  · exact done_plain h _ (fun hc => by cases hc) wakes
  · split
    · exact done_plain h _ (fun hc => by cases hc) wakes
    · refine ⟨h,fun z hz => ?_,fun r hr => by cases hr⟩
      rw [← Option.mem_some_iff.mp hz]
      rfl

theorem connect_plain (d : Sockets) (sd : ℕ) (path : Path) :
    Plain d (d.kFsSocketConnect sd path) := by
  have hrefused : ∀ result, Plain d (d.done (.connect sd path) result []) := fun result =>
    refused_plain d fun hc => by cases hc
  rw [kFsSocketConnect]
  split
  · exact hrefused _
  · split
    · split
      · exact hrefused _
      · split
        · exact hrefused _
        · refine connectLoop_plain (fun b => ?_) _ _ _ _
          rw [enqueue]
          exact sameData_modify (sameData_modify (.refl _) fun s => ⟨rfl,rfl,rfl,rfl⟩) fun s =>
            ⟨rfl,rfl,rfl,rfl⟩
    · exact hrefused _

theorem acceptFirst_sameData (h : Known d) (hsd : sd < d.count) {client : ℕ} {rest : List ℕ}
    (hbacklog : (d.sockets sd).backlog = client :: rest) (b : ℕ) :
    Socket.SameData (d.sockets b) ((d.acceptFirst sd client rest).sockets b) := by
  have hrest := h.modify (f:=fun s => { s with backlog := rest }) hsd (h.connect_lt sd) fun b hb =>
    h.backlog_lt sd b (hbacklog ▸ List.mem_cons_of_mem _ hb)
  have hpop :
      Socket.SameData (d.sockets b) ((d.modify sd fun s => { s with backlog := rest }).sockets b) :=
    sameData_modify (.refl _) fun s => ⟨rfl,rfl,rfl,rfl⟩
  rw [acceptFirst]
  refine sameData_modify (sameData_modify ?_ fun s => ⟨rfl,rfl,rfl,rfl⟩) fun s => ⟨rfl,rfl,rfl,rfl⟩
  exact hpop.trans (create_sameData hrest _ _ b)

theorem accept_plain (h : Known d) (hsd : sd < d.count) : Plain d (d.kFsSocketAccept sd) := by
  rw [kFsSocketAccept]
  split
  · split
    · split
      · exact refused_plain d fun hc => by cases hc
      · refine ⟨fun b => Socket.SameData.refl _,fun z hz => ?_,fun r hr => by cases hr⟩
        rw [← Option.mem_some_iff.mp hz]
        rfl
    · rename_i client rest hbacklog
      exact done_plain (acceptFirst_sameData h hsd hbacklog) _ (fun hc => by cases hc) _
  · exact refused_plain d fun hc => by cases hc

theorem close_plain (d : Sockets) (sd : ℕ) : Plain d (d.kFsVfsClose sd) := by
  have hclose : ∀ b, Socket.SameData (d.sockets b) ((d.kFsSocketClose sd).sockets b) := by
    intro b
    rw [kFsSocketClose]
    split
    · exact Socket.SameData.refl _
    · exact sameData_modify (sameData_modify (.refl _) fun s => ⟨rfl,rfl,rfl,rfl⟩) fun s =>
        ⟨rfl,rfl,rfl,rfl⟩
  rw [kFsVfsClose]
  refine done_plain (fun b => ?_) (.close sd) (fun hc => by cases hc) []
  exact sameData_modify (hclose b) fun s => ⟨rfl,rfl,rfl,rfl⟩

structure HasPeer (d : Sockets) (sd client : ℕ) : Prop where
  isOpen : (d.sockets sd).isOpen = true
  domain_eq : (d.sockets sd).domain = AF_LOCAL
  connect_eq : (d.sockets sd).connect = some client

/-- A call reads from an open socket, writes to one that has a peer, or touches no buffer. -/
theorem start_kind (h : Known d) (p : ℕ) (call : SocketCall) :
    (∃ sd size, call = .read sd size ∧
      d.start p call = d.kFsSocketRead p sd size (.start size.toNat) []) ∨
    (∃ sd data client, call = .write sd data ∧ d.HasPeer sd client ∧
      d.start p call = d.writeLocked p sd client data) ∨
    (Plain d (d.start p call) ∧ ∀ sd data client, call = .write sd data →
      ¬ d.HasPeer sd client) := by
  rw [start]
  split
  · rename_i hhas
    cases call with
    | create domain nonblock =>
      refine Or.inr (Or.inr ⟨?_,fun _ _ _ hcall => by cases hcall⟩)
      rw [startOpen]
      split
      · exact refused_plain d fun hc => by cases hc
      · exact done_plain (create_sameData h domain nonblock) _ (fun hc => by cases hc) []
    | bind sd path =>
      refine Or.inr (Or.inr ⟨?_,fun _ _ _ hcall => by cases hcall⟩)
      rw [startOpen,kFsSocketBind]
      split
      · exact refused_plain d fun hc => by cases hc
      · split
        · refine done_plain (fun b => ?_) (.bind sd path) (fun hc => by cases hc) []
          have hmount : Socket.SameData (d.sockets b) ((d.mount (Path.names path) sd).sockets b) :=
            Socket.SameData.refl _
          exact sameData_modify hmount fun s => ⟨rfl,rfl,rfl,rfl⟩
        · exact refused_plain d fun hc => by cases hc
    | listen sd =>
      refine Or.inr (Or.inr ⟨?_,fun _ _ _ hcall => by cases hcall⟩)
      rw [startOpen,kFsSocketListen]
      refine done_plain (fun b => ?_) (.listen sd) (fun hc => by cases hc) []
      exact sameData_modify (.refl _) fun s => ⟨rfl,rfl,rfl,rfl⟩
    | connect sd path => exact Or.inr (Or.inr ⟨connect_plain d sd path,
        fun _ _ _ hcall => by cases hcall⟩)
    | accept sd =>
      exact Or.inr (Or.inr ⟨accept_plain h (h.lt_of_open (hhas sd rfl)),
        fun _ _ _ hcall => by cases hcall⟩)
    | read sd size => exact Or.inl ⟨sd,size,rfl,rfl⟩
    | write sd data =>
      rw [startOpen,kFsSocketWrite]
      split
      · rename_i hdomain
        refine Or.inr (Or.inr ⟨refused_plain d fun _ => by decide,
          fun sd' data' client hcall hpeer => ?_⟩)
        cases hcall
        exact hdomain hpeer.domain_eq
      · rename_i hdomain
        split
        · rename_i hnone
          refine Or.inr (Or.inr ⟨refused_plain d fun _ => by decide,
            fun sd' data' client hcall hpeer => ?_⟩)
          cases hcall
          rw [hpeer.connect_eq] at hnone
          cases hnone
        · rename_i client hclient
          exact Or.inr (Or.inl ⟨sd,data,client,rfl,⟨hhas sd rfl,not_not.mp hdomain,hclient⟩,rfl⟩)
    | close sd => exact Or.inr (Or.inr ⟨close_plain d sd,fun _ _ _ hcall => by cases hcall⟩)
  · rename_i hhas
    refine Or.inr (Or.inr ⟨refused_plain d fun _ => by decide,fun sd data client hcall hpeer =>
      hhas fun b hb => ?_⟩)
    rw [hcall] at hb
    rw [← Option.mem_some_iff.mp hb]
    exact hpeer.isOpen

theorem resume_plain (h : Known d) (p : ℕ) (task : Task) {z : SocketProgress}
    (hz : z.socket < d.count)
    (hconnection : z.isConnection = true) : Plain d (d.resume p task z) := by
  cases z with
  | connecting sd path server =>
    exact connectLoop_plain (fun b => Socket.SameData.refl _) sd path server []
  | accepting sd => exact accept_plain h hz
  | _ => cases hconnection

end Sockets
end ScalesOS
