import ScalesOS.SocketSteps

/-!
# The streams between local sockets

What successful writes have sent to a socket against what reads have delivered from it. A
read or a write that goes through its loop a second time begins again at the front of the
caller's buffer, so that the two agree for as long as every call is through after one turn.
-/

namespace ScalesOS

namespace SocketReturn

/-- What a write that succeeds has sent to socket `c`. -/
def sent (c : ℕ) (r : SocketReturn) : List Byte :=
  match r.call with
  | .write _ data => if r.peer = c ∧ 0 ≤ r.result then data else []
  | _ => []

/-- What a read from socket `c` says it has stored at the front of the caller's buffer. -/
def received (c : ℕ) (r : SocketReturn) : List Byte :=
  match r.call with
  | .read _ _ => if r.peer = c then (List.range r.result.toNat).map fun i =>
    (r.out i).getD 0 else []
  | _ => []

/-- A read has stored something at just as many positions as it says, and not at more than
it was asked for. -/
def Within (r : SocketReturn) : Prop :=
  match r.call with
  | .read _ size => r.result ≤ size.toNat ∧ ∀ i : ℕ, (r.out i).isSome ↔ (i : ℤ) < r.result
  | _ => True

theorem Idle.sent_eq {r : SocketReturn} (h : r.Idle) (c : ℕ) : r.sent c = [] := by
  obtain ⟨call,result,peer,moved,out⟩ := r
  cases call with
  | write sd data => exact if_neg fun hr => absurd (h.fails rfl) (Int.not_lt.mpr hr.2)
  | _ => rfl

theorem Idle.received_eq {r : SocketReturn} (h : r.Idle) (c : ℕ) : r.received c = [] := by
  obtain ⟨call,result,peer,moved,out⟩ := r
  cases call with
  | read sd size =>
    have hneg : result < 0 := h.fails rfl
    change (if peer = c then (List.range result.toNat).map _ else []) = []
    rw [Int.toNat_of_nonpos (le_of_lt hneg)]
    exact ite_self _
  | _ => rfl

theorem Idle.within {r : SocketReturn} (h : r.Idle) : r.Within := by
  obtain ⟨call,result,peer,moved,out⟩ := r
  cases call with
  | read sd size =>
    have hneg : result < 0 := h.fails rfl
    have hout : out = fun _ => none := h.out_eq
    refine ⟨le_trans (le_of_lt hneg) (Int.natCast_nonneg _),fun i => ?_⟩
    rw [hout]
    change false = true ↔ (i : ℤ) < result
    exact iff_of_false Bool.false_ne_true (by omega)
  | _ => trivial

end SocketReturn

namespace Socket

/-- How much a write puts into the buffer before it looks for room a second time. -/
def room (s : Socket) : ℕ :=
  if s.bufferSize ≤ s.availableData then
    if SOCKET_MAX_BUFFER_SIZE ≤ s.availableData then 0
    else s.bufferSize+SOCKET_INIT_BUFFER_SIZE-s.availableData
  else s.bufferSize-s.availableData

end Socket

namespace SocketProgress

def IsFresh : SocketProgress → Prop
  | .connecting _ _ _ => True
  | .accepting _ => True
  | .reading _ size x => x = .start size.toNat
  | _ => False

theorem isFresh_of_connection {z : SocketProgress} (h : z.isConnection = true) : z.IsFresh := by
  cases z with
  | connecting sd path server => trivial
  | accepting sd => trivial
  | _ => cases h

end SocketProgress

namespace Sockets

/-- The bytes that successful writes have sent to a socket are those that reads from it
have delivered and those that wait in its buffer. -/
structure ByteStreams (s : SocketSystem) : Prop where
  stream : ∀ c, (s.returns.flatMap fun r => r.2.sent c) =
    (s.returns.flatMap fun r => r.2.received c)++(s.device.sockets c).contents
  within : ∀ r ∈ s.returns, r.2.Within

/-- A read gets all that it asks for at once, or has to wait for the first byte, or does not
wait. -/
def ReadsAtOnce (d : Sockets) (sd : ℕ) (size : UInt32) : Prop :=
  (d.sockets sd).nonblock = true ∨ (d.sockets sd).availableData = 0 ∨
  size.toNat ≤ (d.sockets sd).availableData

def StartsAtOnce (d : Sockets) : SocketCall → Prop
  | .read sd size => d.ReadsAtOnce sd size
  | .write sd data => ∀ client ∈ (d.sockets sd).connect, data.length ≤ (d.sockets client).room
  | _ => True

def ResumesAtOnce (d : Sockets) : SocketProgress → Prop
  | .reading sd size _ => d.ReadsAtOnce sd size
  | _ => True

def AtOnce (s : SocketSystem) (e : CallEvent SocketCall) : Prop :=
  (∀ call ∈ s.started e, s.device.StartsAtOnce call) ∧
  (e = .resume → ∀ z ∈ s.calls s.process, s.device.ResumesAtOnce z)

instance (d : Sockets) (sd : ℕ) (size : UInt32) : Decidable (d.ReadsAtOnce sd size) := by
  unfold ReadsAtOnce
  infer_instance

instance (d : Sockets) (call : SocketCall) : Decidable (d.StartsAtOnce call) := by
  induction call using SocketCall.casesOn <;> dsimp only [StartsAtOnce] <;> infer_instance

instance (d : Sockets) (z : SocketProgress) : Decidable (d.ResumesAtOnce z) := by
  induction z using SocketProgress.casesOn <;> dsimp only [ResumesAtOnce] <;> infer_instance

instance (s : SocketSystem) (e : CallEvent SocketCall) : Decidable (AtOnce s e) := by
  unfold AtOnce
  infer_instance

variable {d : Sockets} {sd client p : ℕ} {x : SocketCopy} {data : List Byte} {size : UInt32}

theorem writeLoop_done (h : x.left = 0) (fuel : ℕ) (wakes : List Sched.Event) :
    writeLoop sd client data fuel d x wakes = d.writeDone sd client data x wakes := by
  cases fuel with
  | zero => rfl
  | succ fuel => rw [writeLoop,if_pos h]

theorem makeRoom_contents (d : Sockets) (client : ℕ) :
    ((d.makeRoom client).sockets client).contents = (d.sockets client).contents := by
  rw [makeRoom]
  split
  · rw [modify_self]
    rfl
  · rfl

variable (sd data) in
theorem writeLoop_turn (hx : x.left ≠ 0) (hroom : x.left ≤ (d.sockets client).room) (fuel : ℕ)
    (wakes : List Sched.Event) :
    writeLoop sd client data (fuel+1) d x wakes =
      ((d.makeRoom client).modify client (Socket.append · data x.left)).writeDone sd client data
      (x.wrote data x.left)
        (wakes++written client) := by
  have hchunk : (d.makeRoom client).chunkSize client x = x.left := by
    rw [chunkSize]
    refine if_neg (Nat.not_lt.mpr ?_)
    rw [Socket.room] at hroom
    rw [makeRoom]
    split
    · rename_i hfull
      rw [if_pos hfull] at hroom
      rw [modify_self]
      split at hroom
      · exact absurd (Nat.le_zero.mp hroom) hx
      · have hle :
          (d.sockets client).availableData ≤
          (d.sockets client).bufferSize+SOCKET_INIT_BUFFER_SIZE := by omega
        exact hroom.trans (sub32_eq hle).ge
    · rename_i hfull
      rw [if_neg hfull] at hroom
      exact hroom.trans (sub32_eq (Nat.le_of_lt (Nat.not_le.mp hfull))).ge
  have hfull : ¬ ((d.sockets client).bufferSize ≤ (d.sockets client).availableData ∧
      SOCKET_MAX_BUFFER_SIZE ≤ (d.sockets client).availableData) := by
    rintro ⟨hfull,hmax⟩
    rw [Socket.room,if_pos hfull,if_pos hmax] at hroom
    exact hx (Nat.le_zero.mp hroom)
  rw [writeLoop,if_neg hx,if_neg hfull]
  dsimp only
  rw [hchunk]
  exact writeLoop_done (Nat.sub_self x.left) fuel _

theorem write_turn (hlock : (d.sockets client).lock = none)
    (hroom : data.length ≤ (d.sockets client).room) (p sd : ℕ) :
    ∃ out, (d.writeLocked p sd client data).next = .finish ⟨.write sd data,data.length,
      client,data,out⟩ ∧ ((d.writeLocked p sd client data).device.sockets client).contents =
      (d.sockets client).contents++data ∧
      ((d.writeLocked p sd client data).device.sockets client).lock = none := by
  have hlocked :
      ((d.mutexLock client p).sockets client).contents = (d.sockets client).contents := by
    rw [mutexLock,modify_self]
    rfl
  rw [writeLocked,if_neg (by rw [hlock]; exact Bool.false_ne_true)]
  refine ⟨fun _ => none,?_⟩
  cases hdata : data with
  | nil =>
    rw [writeLoop_done rfl,writeDone,mutexUnlock]
    refine ⟨rfl,?_,?_⟩
    · dsimp only
      rw [modify_self,List.append_nil]
      exact hlocked
    · dsimp only
      rw [modify_self]
  | cons b rest =>
    rw [← hdata]
    have hne : (SocketCopy.start data.length).left ≠ 0 := by
      rw [hdata]
      exact Nat.succ_ne_zero _
    obtain ⟨fuel,hfuel⟩ := Nat.exists_eq_succ_of_ne_zero hne
    have hroom' :
        (SocketCopy.start data.length).left ≤ ((d.mutexLock client p).sockets client).room := by
      rw [mutexLock,modify_self]
      exact hroom
    have hturn := writeLoop_turn sd data hne hroom' fuel []
    have hlen : data.length = fuel+1 := hfuel
    rw [← hlen] at hturn
    rw [hturn,writeDone,mutexUnlock]
    refine ⟨?_,?_,?_⟩
    · change Next.finish (SocketReturn.mk _ _ _ ([]++data.take data.length) _) = _
      rw [List.take_length,List.nil_append]
      rfl
    · dsimp only
      rw [modify_self,modify_self]
      change (Socket.append _ data data.length).contents = _
      rw [Socket.append_contents _ _ le_rfl,makeRoom_contents,hlocked,List.take_length]
    · dsimp only
      rw [modify_self]

theorem readLoop_done (h : x.left = 0 ∨
    ((d.sockets sd).availableData = 0 ∧ (d.sockets sd).nonblock = true)) (fuel : ℕ)
    (wakes : List Sched.Event) :
    readLoop p sd size (fuel+1) d x wakes = d.readDone sd size x wakes := by
  rw [readLoop]
  by_cases hleft : x.left = 0
  · rw [if_pos hleft]
  · obtain ⟨hempty,hnonblock⟩ := h.resolve_left hleft
    rw [if_neg hleft,if_pos hempty,if_pos hnonblock]

theorem readChunk_self (d : Sockets) (p sd n : ℕ) :
    (d.readChunk p sd n).sockets sd = { (d.sockets sd).takeOut n with lock := none } := by
  rw [readChunk,mutexUnlock,modify_self,modify_self,mutexLock,modify_self]
  rfl

/-- A read that returns has taken the first `n` bytes of the buffer, and stored them at the
first `n` positions. -/
structure ReadTurn (d : Sockets) (sd : ℕ) (size : UInt32) (y : SocketStretch) (n : ℕ) : Prop where
  next : ∃ moved out, y.next = .finish ⟨.read sd size,n,sd,moved,out⟩ ∧
    ∀ i, out i = if i < n then some ((d.sockets sd).buffer i) else none
  le_size : n ≤ size.toNat
  le_available : n ≤ (d.sockets sd).availableData
  contents : (y.device.sockets sd).contents = (d.sockets sd).contents.drop n
  lock : (y.device.sockets sd).lock = none

/-- One turn that takes all that is asked for, or all that there is where no more is waited
for. -/
theorem chunk_turn (d : Sockets) (p : ℕ) {n : ℕ} (hle : n ≤ size.toNat)
    (hav : n ≤ (d.sockets sd).availableData)
    (hlast : n = size.toNat ∨ (n = (d.sockets sd).availableData ∧ (d.sockets sd).nonblock = true))
    (fuel : ℕ) (wakes : List Sched.Event) :
    ReadTurn d sd size (readLoop p sd size (fuel+1) (d.readChunk p sd n)
      ((SocketCopy.start size.toNat).read (d.sockets sd).buffer n) wakes) n := by
  have hself := readChunk_self d p sd n
  set x := (SocketCopy.start size.toNat).read (d.sockets sd).buffer n with hx
  have hleft : x.left = size.toNat-n := sub32_eq hle
  have hdone : x.left = 0 ∨ (((d.readChunk p sd n).sockets sd).availableData = 0 ∧
      ((d.readChunk p sd n).sockets sd).nonblock = true) := by
    rw [hleft,hself]
    rcases hlast with hn | ⟨hn,hnonblock⟩
    · exact Or.inl (by omega)
    · refine Or.inr ⟨?_,hnonblock⟩
      change sub32 (d.sockets sd).availableData n = 0
      rw [hn,sub32_eq le_rfl,Nat.sub_self]
  rw [readLoop_done hdone]
  refine ⟨⟨x.moved,x.out,?_,fun i => rfl⟩,hle,hav,?_,?_⟩
  · change Next.finish (SocketReturn.mk _ ((sub32 size.toNat x.left : ℕ) : ℤ) _ _ _) = _
    rw [hleft,sub32_eq (Nat.sub_le _ _),Nat.sub_sub_self hle]
  · change ((d.readChunk p sd n).sockets sd).contents = _
    rw [hself]
    exact ((d.sockets sd).takeOut_contents hav).1
  · change ((d.readChunk p sd n).sockets sd).lock = none
    rw [hself]

theorem read_turn (hlock : (d.sockets sd).lock = none) (h : d.ReadsAtOnce sd size) (p : ℕ)
    (wakes : List Sched.Event) :
    (∃ n, ReadTurn d sd size (d.kFsSocketRead p sd size (.start size.toNat) wakes) n) ∨
      d.kFsSocketRead p sd size (.start size.toNat) wakes =
        ⟨d,wakes,.sleep (blockedProcesses sd) (.reading sd size (.start size.toNat)),false⟩ := by
  have hnothing : ReadTurn d sd size (d.readDone sd size (.start size.toNat) wakes) 0 := by
    refine ⟨⟨[],fun _ => none,?_,fun i => rfl⟩,Nat.zero_le _,Nat.zero_le _,rfl,hlock⟩
    change Next.finish (SocketReturn.mk _ ((sub32 size.toNat size.toNat : ℕ) : ℤ) _ _ _) = _
    rw [sub32_eq le_rfl,Nat.sub_self]
    rfl
  rw [kFsSocketRead]
  by_cases hzero : size.toNat = 0
  · rw [readLoop_done (Or.inl hzero)]
    exact Or.inl ⟨0,hnothing⟩
  · have hleft : ¬(SocketCopy.start size.toNat).left = 0 := hzero
    by_cases hempty : (d.sockets sd).availableData = 0
    · by_cases hnonblock : (d.sockets sd).nonblock = true
      · rw [readLoop_done (Or.inr ⟨hempty,hnonblock⟩)]
        exact Or.inl ⟨0,hnothing⟩
      · rw [readLoop,if_neg hleft,if_pos hempty,if_neg hnonblock]
        exact Or.inr rfl
    · obtain ⟨fuel,hfuel⟩ := Nat.exists_eq_succ_of_ne_zero hempty
      rw [readLoop,if_neg hleft,if_neg hempty]
      dsimp only
      rw [hlock,if_neg (by exact Bool.false_ne_true)]
      refine Or.inl ⟨if size.toNat < (d.sockets sd).availableData then size.toNat
        else (d.sockets sd).availableData,?_⟩
      have hturns :
        readLoop p sd size (d.sockets sd).availableData = readLoop p sd size (fuel+1) := by
          rw [hfuel]
      rw [hturns]
      split
      · exact chunk_turn d p le_rfl (by omega) (Or.inl rfl) fuel _
      · refine chunk_turn d p (by omega) le_rfl ?_ fuel _
        rcases h with hnonblock | hnone | hall
        · exact Or.inr ⟨rfl,hnonblock⟩
        · exact absurd hnone hempty
        · exact Or.inl (by omega)

/-- What a stretch does to the streams: what is sent is what is received or kept. -/
structure Balanced (d : Sockets) (y : SocketStretch) : Prop where
  free : ∀ c, (y.device.sockets c).lock = none
  balance : ∀ c, (d.sockets c).contents++y.next.result.elim [] (SocketReturn.sent c) =
    y.next.result.elim [] (SocketReturn.received c)++(y.device.sockets c).contents
  within : ∀ r ∈ y.next.result, r.Within
  fresh : ∀ z ∈ y.next.progress, z.IsFresh

variable {y : SocketStretch}

theorem Plain.balanced (h : Plain d y) (hfree : ∀ c, (d.sockets c).lock = none) : Balanced d y := by
  refine ⟨fun c => (h.data c).lock_eq.trans (hfree c),fun c => ?_,
    fun r hr => (h.result r hr).within,
    fun z hz => SocketProgress.isFresh_of_connection (h.progress z hz)⟩
  rw [(h.data c).contents]
  cases hr : y.next.result with
  | none => exact List.append_nil _
  | some r =>
    rw [Option.elim_some,Option.elim_some,(h.result r hr).sent_eq,(h.result r hr).received_eq,
      List.append_nil,List.nil_append]

theorem write_balanced (hfree : ∀ c, (d.sockets c).lock = none)
    (hroom : data.length ≤ (d.sockets client).room) (p sd : ℕ) :
    Balanced d (d.writeLocked p sd client data) := by
  obtain ⟨out,hnext,hcontents,hlock⟩ := write_turn (hfree client) hroom p sd
  obtain ⟨hdata,-⟩ := writeLocked_writes d p sd client data
  refine ⟨fun c => ?_,fun c => ?_,fun r hr => ?_,fun z hz => ?_⟩
  · by_cases hc : c = client
    · rw [hc]
      exact hlock
    · rw [hdata.other c hc]
      exact hfree c
  · rw [hnext]
    change _++(if client = c ∧ (0 : ℤ) ≤ data.length then data else []) = []++_
    rw [List.nil_append]
    by_cases hc : c = client
    · rw [hc,if_pos ⟨rfl,Int.natCast_nonneg _⟩,hcontents]
    · rw [if_neg fun h => hc h.1.symm,List.append_nil,hdata.other c hc]
  · rw [hnext] at hr
    rw [← Option.mem_some_iff.mp hr]
    trivial
  · rw [hnext] at hz
    cases hz

theorem read_balanced (hfree : ∀ c, (d.sockets c).lock = none) (h : d.ReadsAtOnce sd size) (p : ℕ)
    (wakes : List Sched.Event) :
    Balanced d (d.kFsSocketRead p sd size (.start size.toNat) wakes) := by
  obtain ⟨hdata,-⟩ :=
    readLoop_reads (p:=p) size ((d.sockets sd).availableData+1) (.start size.toNat) wakes
      (OnlyData.refl d sd)
  rcases read_turn (hfree sd) h p wakes with
    ⟨n,⟨moved,out,hnext,hout⟩,hsize,havailable,hcontents,hlock⟩ | hsleep
  · refine ⟨fun c => ?_,fun c => ?_,fun r hr => ?_,fun z hz => ?_⟩
    · by_cases hc : c = sd
      · rw [hc]
        exact hlock
      · exact (congrArg Socket.lock (hdata.other c hc)).trans (hfree c)
    · rw [hnext]
      change _++[] = (if sd = c then (List.range (n : ℤ).toNat).map fun i =>
        (out i).getD 0 else [])++_
      rw [List.append_nil,Int.toNat_natCast]
      by_cases hc : c = sd
      · have hbytes :
            ((List.range n).map fun i => (out i).getD 0) =
            (List.range n).map (d.sockets sd).buffer := by
          refine List.map_congr_left fun i hi => ?_
          rw [hout i,if_pos (List.mem_range.mp hi)]
          rfl
        rw [hc,if_pos rfl,hcontents,hbytes,((d.sockets sd).takeOut_contents havailable).2,
          List.take_append_drop]
      · rw [if_neg fun h => hc h.symm,List.nil_append]
        exact congrArg Socket.contents (hdata.other c hc).symm
    · rw [hnext] at hr
      rw [← Option.mem_some_iff.mp hr]
      refine ⟨Int.ofNat_le.mpr hsize,fun i => ?_⟩
      change (out i).isSome = true ↔ (i : ℤ) < n
      rw [hout i,Int.ofNat_lt]
      split
      · rename_i hi
        exact iff_of_true rfl hi
      · rename_i hi
        exact iff_of_false Bool.false_ne_true hi
    · rw [hnext] at hz
      cases hz
  · rw [hsleep]
    refine ⟨hfree,fun c => List.append_nil _,fun r hr => (by cases hr),fun z hz => ?_⟩
    rw [← Option.mem_some_iff.mp hz]
    rfl

variable {s t : SocketSystem} {e : CallEvent SocketCall} {own : ℕ → Bool}

/-- The streams are right, no socket is locked, and calls that sleep have moved nothing. -/
structure Flowing (s : SocketSystem) : Prop where
  base : Base s
  free : ∀ c, (s.device.sockets c).lock = none
  fresh : ∀ p, ∀ z ∈ s.calls p, z.IsFresh
  streams : ByteStreams s

theorem Flowing.balanced (h : Flowing s) (hen : s.Enabled own e) (honce : AtOnce s e)
    (hx : s.stretch driver e = some y) :
    Balanced s.device y := by
  rcases CallSystem.stretch_cases hen hx with ⟨-,call,hcall,rfl⟩ | ⟨rfl,z,hz,rfl⟩
  · have hstart := honce.1 call hcall
    rcases start_kind h.base.known s.process call with
      ⟨sd,size,rfl,heq⟩ | ⟨sd,data,client,rfl,hpeer,heq⟩ | ⟨hplain,-⟩
    · change Balanced _ (s.device.start _ _)
      rw [heq]
      exact read_balanced h.free hstart _ []
    · change Balanced _ (s.device.start _ _)
      rw [heq]
      exact write_balanced h.free (hstart client hpeer.connect_eq) _ sd
    · exact hplain.balanced h.free
  · have hresume := honce.2 rfl z hz
    have hfresh := h.fresh _ z hz
    cases hconnection : z.isConnection with
    | true => exact (resume_plain h.base.known _ (s.sched.tasks s.process)
        (h.base.progress _ z hz) hconnection).balanced h.free
    | false =>
      cases z with
      | reading sd size x =>
        obtain rfl := hfresh
        exact read_balanced h.free hresume _ []
      | connecting sd path server => cases hconnection
      | accepting sd => cases hconnection
      | readLocking sd size n x => exact hfresh.elim
      | writeLocking sd client data => exact hfresh.elim
      | writing sd client data x => exact hfresh.elim

theorem Flowing.step (h : Flowing s) (hen : s.Enabled own e) (honce : AtOnce s e)
    (hret : s.step driver e = .ok t) :
    Flowing t := by
  have hbase := h.base.step hen hret
  cases hx : s.stretch driver e with
  | none =>
    have hsame := CallSystem.step_none hx hret
    refine ⟨hbase,?_,?_,?_,?_⟩
    · rw [hsame.device_eq]
      exact h.free
    · rw [hsame.calls_eq]
      exact h.fresh
    · rw [hsame.device_eq,hsame.returns_eq]
      exact h.streams.stream
    · rw [hsame.returns_eq]
      exact h.streams.within
  | some y =>
    have hran := CallSystem.step_stretch hx hret
    have hy := h.balanced hen honce hx
    refine ⟨hbase,?_,fun p z hz => ?_,fun c => ?_,fun r hr => ?_⟩
    · rw [hran.device_eq]
      exact hy.free
    · by_cases hp : p = s.process
      · rw [hp,hran.calls_self] at hz
        exact hy.fresh z hz
      · rw [hran.calls_other hp] at hz
        exact h.fresh p z hz
    · have hbalance := hy.balance c
      rw [hran.returns_eq,hran.device_eq,List.flatMap_append,List.flatMap_append,h.streams.stream c]
      cases hr : y.next.result with
      | none =>
        rw [hr] at hbalance
        simpa using hbalance
      | some r =>
        rw [hr] at hbalance
        simpa using hbalance
    · rw [hran.returns_eq] at hr
      rcases List.mem_append.mp hr with hr | hr
      · exact h.streams.within r hr
      · obtain ⟨r',hr',rfl⟩ := Option.map_eq_some_iff.mp (Option.mem_toList.mp hr)
        exact hy.within r' hr'

theorem boot_flowing : Flowing (.boot init) :=
  ⟨boot_base,fun _ => rfl,fun _ _ hz => (by cases hz),fun _ => rfl,fun _ hr => by cases hr⟩

/-- In every run in which every read and every write is through after one turn of its loop,
what has been sent to a socket is what its readers have got, in this order, and what still
waits; and no read stores more than it says. -/
theorem byte_streams (h : Relation.ReflTransGen (CallSystem.Step driver own AtOnce)
    (.boot init) s) : ByteStreams s := by
  have hs : Flowing s :=
    reach_invariant (fun s t hs ⟨e,hen,honce,hret⟩ => hs.step hen honce hret) boot_flowing h
  exact hs.streams

/-- Socket `0` is bound to a name and listens, socket `1` connects to it, and socket `2` is
accepted for it. All of them do not block. -/
def connectedPair : List (CallEvent SocketCall) :=
  [.call (.create AF_LOCAL true),.call (.create AF_LOCAL true),.call (.bind 0 "/s".toList),
    .call (.listen 0),.call (.connect 1 "/s".toList),.call (.accept 0)]

theorem byte_streams_written : ∃ s :
    SocketSystem, s.returns.map (fun r => r.2.result) = [0,0,0,0,-(EAGAIN : ℤ),0,3,2] ∧
    (s.device.sockets 2).connect = some 1 ∧ ByteStreams s := by
  obtain ⟨s,hs,hps⟩ := CallSystem.exists_run (d:=driver) (fun _ => false) AtOnce (s:=.boot init)
    (connectedPair++[.call (.write 1 [5,6,7]),.call (.read 2 2)])
    (fun s => s.returns.map (fun r => r.2.result) = [0,0,0,0,-(EAGAIN : ℤ),0,3,2] ∧
      (s.device.sockets 2).connect = some 1)
    (by decide +kernel)
  obtain ⟨hreturns,hconnect⟩ := of_decide_eq_true hps
  exact ⟨s,hreturns,hconnect,byte_streams hs⟩

/-- A process reads two bytes. It gets the first, sleeps, and stores the second in its place:
the read says that there are two bytes in the buffer, and there is one. -/
theorem second_byte_in_place_of_first : ∃ s : SocketSystem,
    Relation.ReflTransGen (CallSystem.Step driver (fun _ => false) CallSystem.anyStep)
    (.boot init) s ∧ (s.returns.flatMap fun r => r.2.sent 2) = [5,6] ∧
      (s.returns.flatMap fun r => r.2.received 2) = [6,0] ∧ ¬ ByteStreams s := by
  obtain ⟨s,hs,hps⟩ :=
    CallSystem.exists_run (d:=driver) (fun _ => false) CallSystem.anyStep (s:=.boot init)
    [.other .fork,.call (.create AF_LOCAL false),.call (.create AF_LOCAL true),
      .call (.bind 0 "/s".toList),.call (.listen 0),
      .call (.connect 1 "/s".toList),.call (.accept 0),.call (.write 1 [5]),.call (.read 2 2),
      .call (.write 1 [6]),.other .yield,.resume]
    (fun s => (s.returns.flatMap fun r => r.2.sent 2) = [5,6] ∧
      (s.returns.flatMap fun r => r.2.received 2) = [6,0] ∧ (s.device.sockets 2).contents = [])
    (by decide +kernel)
  obtain ⟨hsent,hreceived,hcontents⟩ := of_decide_eq_true hps
  refine ⟨s,hs,hsent,hreceived,fun hb => ?_⟩
  have heq := hb.stream 2
  rw [hsent,hreceived,hcontents] at heq
  exact absurd heq (by decide)

end Sockets
end ScalesOS
