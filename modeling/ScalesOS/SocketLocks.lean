import ScalesOS.SocketStream

/-!
# The locks of sockets

A write locks its peer once, around all of its loop, and returns or sleeps in the middle
when the peer is full. The lock is free and a failed write leaves nothing behind for as long
as every write fits into what the buffer of the peer can grow to.
-/

namespace ScalesOS

namespace Socket

/-- The buffer is large enough, and grows in steps. -/
structure Fits (s : Socket) : Prop where
  available_le : s.availableData ≤ s.bufferSize
  size_le : s.bufferSize ≤ SOCKET_MAX_BUFFER_SIZE
  dvd : SOCKET_INIT_BUFFER_SIZE ∣ s.bufferSize

theorem Fits.sameData {s s' : Socket} (h : s.Fits) (hd : SameData s s') : s'.Fits := by
  constructor
  · rw [hd.availableData_eq,hd.bufferSize_eq]
    exact h.available_le
  · rw [hd.bufferSize_eq]
    exact h.size_le
  · rw [hd.bufferSize_eq]
    exact h.dvd

theorem Fits.unlock {s : Socket} (h : s.Fits) : Fits { s with lock := none } :=
  ⟨h.available_le,h.size_le,h.dvd⟩

theorem Fits.grow {s : Socket} (h : s.Fits) (hfull : s.bufferSize ≤ s.availableData)
    (hlt : s.availableData < SOCKET_MAX_BUFFER_SIZE) : s.grow.Fits := by
  obtain ⟨k,hk⟩ := h.dvd
  refine ⟨h.available_le.trans (Nat.le_add_right _ _),?_,h.dvd.add (dvd_refl _)⟩
  have hle := h.available_le
  change s.bufferSize+SOCKET_INIT_BUFFER_SIZE ≤ SOCKET_MAX_BUFFER_SIZE
  simp only [SOCKET_INIT_BUFFER_SIZE,SOCKET_MAX_BUFFER_SIZE] at hk hlt ⊢
  omega

theorem Fits.append {s : Socket} (h : s.Fits) (data : List Byte) {sz : ℕ}
    (hsz : s.availableData+sz ≤ s.bufferSize) :
    (s.append data sz).Fits := ⟨hsz,h.size_le,h.dvd⟩

theorem Fits.takeOut {s : Socket} (h : s.Fits) {n : ℕ} (hn : n ≤ s.availableData) :
    (s.takeOut n).Fits := by
  refine ⟨?_,h.size_le,h.dvd⟩
  change sub32 s.availableData n ≤ s.bufferSize
  rw [sub32_eq hn]
  exact (Nat.sub_le _ _).trans h.available_le

end Socket

namespace SocketProgress

def IsUnlocked : SocketProgress → Prop
  | .connecting _ _ _ => True
  | .accepting _ => True
  | .reading _ _ _ => True
  | _ => False

theorem isUnlocked_of_connection {z : SocketProgress} (h : z.isConnection = true) :
    z.IsUnlocked := by
  cases z with
  | connecting sd path server => trivial
  | accepting sd => trivial
  | _ => cases h

end SocketProgress

namespace SocketReturn

/-- The return of a write that fails. -/
def FailedWrite (r : SocketReturn) : Prop :=
  match r.call with
  | .write _ _ => r.result < 0
  | _ => False

end SocketReturn

namespace Sockets

/-- Between two stretches no lock is held, and the writes that have failed have moved
nothing. -/
structure Clean (s : SocketSystem) : Prop where
  free : ∀ c, (s.device.sockets c).lock = none
  failure : ∀ r ∈ s.returns, r.2.FailedWrite → r.2.moved = []

/-- What a write writes fits into the buffer of its peer. -/
def Holds (d : Sockets) : SocketCall → Prop
  | .write sd data => ∀ client ∈ (d.sockets sd).connect, (d.sockets sd).isOpen = true →
      (d.sockets sd).domain = AF_LOCAL →
    data = [] ∨ (d.sockets client).availableData+data.length ≤ SOCKET_MAX_BUFFER_SIZE
  | _ => True

def HasRoom (s : SocketSystem) (e : CallEvent SocketCall) : Prop :=
  ∀ call ∈ s.started e, s.device.Holds call

instance (d : Sockets) (call : SocketCall) : Decidable (d.Holds call) := by
  induction call using SocketCall.casesOn <;> dsimp only [Holds] <;> infer_instance

instance (s : SocketSystem) (e : CallEvent SocketCall) : Decidable (HasRoom s e) := by
  unfold HasRoom
  infer_instance

variable {d : Sockets} {sd client p : ℕ} {data : List Byte} {size : UInt32}

variable (data) in
/-- One turn writes something, and keeps the sum of what is there and what is left. -/
theorem turn_fits {x : SocketCopy} (h : (d.sockets client).Fits) (hx : x.left ≠ 0)
    (hfull : ¬ ((d.sockets client).bufferSize ≤ (d.sockets client).availableData ∧
      SOCKET_MAX_BUFFER_SIZE ≤ (d.sockets client).availableData)) :
    ∃ sz, (d.makeRoom client).chunkSize client x = sz ∧ sz ≠ 0 ∧ sz ≤ x.left ∧
      (((d.makeRoom client).modify client (Socket.append · data sz)).sockets client).Fits ∧
      (((d.makeRoom client).modify client (Socket.append · data sz)).sockets client).availableData =
        (d.sockets client).availableData+sz ∧
      (((d.makeRoom client).modify client (Socket.append · data sz)).sockets client).lock =
      (d.sockets client).lock := by
  have hroom : ((d.makeRoom client).sockets client).Fits ∧
      ((d.makeRoom client).sockets client).availableData = (d.sockets client).availableData ∧
      (d.sockets client).availableData < ((d.makeRoom client).sockets client).bufferSize ∧
      ((d.makeRoom client).sockets client).lock = (d.sockets client).lock := by
    rw [makeRoom]
    split
    · rename_i hle
      have hlt : (d.sockets client).availableData < SOCKET_MAX_BUFFER_SIZE :=
        Nat.not_le.mp fun hmax => hfull ⟨hle,hmax⟩
      rw [modify_self]
      refine ⟨h.grow hle hlt,rfl,?_,rfl⟩
      exact Nat.lt_of_le_of_lt h.available_le (Nat.lt_add_of_pos_right (by decide))
    · rename_i hlt
      exact ⟨h,rfl,Nat.not_le.mp hlt,rfl⟩
  obtain ⟨hfits,havailable,hlt,hlock⟩ := hroom
  refine ⟨_,rfl,?_⟩
  have hsub := sub32_eq hfits.available_le
  have hchunk : (d.makeRoom client).chunkSize client x =
      min (((d.makeRoom client).sockets client).bufferSize-(d.sockets client).availableData)
          x.left := by
    rw [chunkSize,hsub,havailable]
    split <;> omega
  rw [hchunk,modify_self]
  refine ⟨by omega,by omega,hfits.append data (by omega),?_,hlock⟩
  exact congrArg (· + _) havailable

variable (sd data) in
/-- A write for which there is room goes through, and unlocks the peer. -/
theorem writeLoop_fits (fuel : ℕ) : ∀ {d : Sockets} {x : SocketCopy}
    (wakes : List Sched.Event), (d.sockets client).Fits →
    x.left ≤ fuel → (d.sockets client).availableData+x.left ≤ SOCKET_MAX_BUFFER_SIZE →
    ((writeLoop sd client data fuel d x wakes).device.sockets client).Fits ∧
      ((writeLoop sd client data fuel d x wakes).device.sockets client).lock = none ∧
      ∃ moved out, (writeLoop sd client data fuel d x wakes).next =
        .finish ⟨.write sd data,data.length,client,moved,out⟩ := by
  have hdone : ∀ {d : Sockets} {x : SocketCopy} (fuel : ℕ) (wakes : List Sched.Event),
    (d.sockets client).Fits → x.left = 0 →
      ((writeLoop sd client data fuel d x wakes).device.sockets client).Fits ∧
        ((writeLoop sd client data fuel d x wakes).device.sockets client).lock = none ∧
        ∃ moved out, (writeLoop sd client data fuel d x wakes).next =
          .finish ⟨.write sd data,data.length,client,moved,out⟩ := by
    intro d x fuel wakes hfits hx
    rw [writeLoop_done hx,writeDone,mutexUnlock,modify_self]
    exact ⟨hfits.unlock,rfl,x.moved,x.out,rfl⟩
  induction fuel with
  | zero => exact fun wakes hfits hle _ => hdone 0 wakes hfits (Nat.le_zero.mp hle)
  | succ fuel ih =>
    intro d x wakes hfits hle hmax
    by_cases hx : x.left = 0
    · exact hdone (fuel+1) wakes hfits hx
    · have hfull : ¬ ((d.sockets client).bufferSize ≤ (d.sockets client).availableData ∧
          SOCKET_MAX_BUFFER_SIZE ≤ (d.sockets client).availableData) := by omega
      obtain ⟨sz,hsz,hpos,hleft,hfits',havailable,-⟩ := turn_fits data hfits hx hfull
      rw [writeLoop,if_neg hx,if_neg hfull]
      dsimp only
      rw [hsz]
      have hleft' : (x.wrote data sz).left = x.left-sz := rfl
      exact ih _ hfits' (by omega) (by omega)

variable (sd data) in
theorem writeLoop_full (fuel : ℕ) : ∀ {d : Sockets} {x : SocketCopy}
    (wakes : List Sched.Event), (d.sockets client).Fits →
    x.left ≤ fuel → SOCKET_MAX_BUFFER_SIZE < (d.sockets client).availableData+x.left →
    ((writeLoop sd client data fuel d x wakes).device.sockets client).lock =
    (d.sockets client).lock := by
  induction fuel with
  | zero =>
    intro d x wakes hfits hle hmax
    have hav := hfits.available_le.trans hfits.size_le
    omega
  | succ fuel ih =>
    intro d x wakes hfits hle hmax
    have hav := hfits.available_le.trans hfits.size_le
    have hx : x.left ≠ 0 := by omega
    rw [writeLoop,if_neg hx]
    split
    · rw [writeBlocked]
      split
      · rfl
      · rfl
    · rename_i hfull
      obtain ⟨sz,hsz,hpos,hleft,hfits',havailable,hlock⟩ := turn_fits data hfits hx hfull
      dsimp only
      rw [hsz]
      have hleft' : (x.wrote data sz).left = x.left-sz := rfl
      rw [ih _ hfits' (by omega) (by omega),hlock]

variable (p size) in
theorem readLoop_free (fuel : ℕ) : ∀ {d : Sockets} {x : SocketCopy}
    (wakes : List Sched.Event), (d.sockets sd).Fits →
    (d.sockets sd).lock = none → ((readLoop p sd size fuel d x wakes).device.sockets sd).Fits ∧
      ((readLoop p sd size fuel d x wakes).device.sockets sd).lock = none ∧
      ∀ z ∈ (readLoop p sd size fuel d x wakes).next.progress, z.IsUnlocked := by
  induction fuel with
  | zero => exact fun wakes hfits hlock => ⟨hfits,hlock,fun z hz => by cases hz⟩
  | succ fuel ih =>
    intro d x wakes hfits hlock
    rw [readLoop]
    split
    · exact ⟨hfits,hlock,fun z hz => by cases hz⟩
    · split
      · split
        · exact ⟨hfits,hlock,fun z hz => by cases hz⟩
        · refine ⟨hfits,hlock,fun z hz => ?_⟩
          rw [← Option.mem_some_iff.mp hz]
          trivial
      · dsimp only
        rw [hlock,if_neg (by exact Bool.false_ne_true)]
        refine ih _ ?_ ?_
        · rw [readChunk_self]
          refine (Socket.Fits.takeOut hfits ?_).unlock
          split <;> omega
        · rw [readChunk_self]

structure Leaves (d : Sockets) (y : SocketStretch) : Prop where
  fits : ∀ c, (y.device.sockets c).Fits
  unlocked : ∀ z ∈ y.next.progress, z.IsUnlocked
  free : ∀ c, (y.device.sockets c).lock = none
  failure : ∀ r ∈ y.next.result, r.FailedWrite → r.moved = [] ∧ ∀ c,
    Socket.SameData (d.sockets c) (y.device.sockets c)

variable {y : SocketStretch}

theorem Plain.leaves (h : Plain d y) (hfits : ∀ c, (d.sockets c).Fits)
    (hfree : ∀ c, (d.sockets c).lock = none) : Leaves d y :=
  ⟨fun c => (hfits c).sameData (h.data c),
    fun z hz => SocketProgress.isUnlocked_of_connection (h.progress z hz),
    fun c => (h.data c).lock_eq.trans (hfree c),fun r hr _ => ⟨(h.result r hr).moved_eq,h.data⟩⟩

theorem read_leaves (hfits : ∀ c, (d.sockets c).Fits) (hfree : ∀ c, (d.sockets c).lock = none)
    (p sd : ℕ) (size : UInt32)
    (x : SocketCopy) (wakes : List Sched.Event) : Leaves d (d.kFsSocketRead p sd size x wakes) := by
  obtain ⟨hdata,-,hcall⟩ :=
    readLoop_reads (p:=p) size ((d.sockets sd).availableData+1) x wakes (OnlyData.refl d sd)
  obtain ⟨hfits',hlock,hprogress⟩ :=
    readLoop_free p size ((d.sockets sd).availableData+1) (x:=x) wakes
    (hfits sd) (hfree sd)
  refine ⟨fun c => ?_,hprogress,fun c => ?_,fun r hr hfailed => ?_⟩
  · by_cases hc : c = sd
    · exact hc ▸ hfits'
    · exact (congrArg Socket.Fits (hdata.other c hc)).mpr (hfits c)
  · by_cases hc : c = sd
    · exact hc ▸ hlock
    · exact (congrArg Socket.lock (hdata.other c hc)).trans (hfree c)
  · obtain ⟨size',hr'⟩ := hcall r hr
    rw [SocketReturn.FailedWrite,hr'] at hfailed
    exact hfailed.elim

variable (client data) in
theorem write_leaves (hfits : ∀ c, (d.sockets c).Fits)
    (hfree : ∀ c, (d.sockets c).lock = none) (p sd : ℕ) :
    (data = [] ∨ (d.sockets client).availableData+data.length ≤ SOCKET_MAX_BUFFER_SIZE →
      Leaves d (d.writeLocked p sd client data)) ∧
      ((∀ c, ((d.writeLocked p sd client data).device.sockets c).lock = none) →
        data = [] ∨ (d.sockets client).availableData+data.length ≤ SOCKET_MAX_BUFFER_SIZE) := by
  obtain ⟨hdata,-⟩ := writeLocked_writes d p sd client data
  have hlocked :
      (d.mutexLock client p).sockets client = { d.sockets client with lock := some p } := by
    rw [mutexLock,modify_self]
  have hlfits : ((d.mutexLock client p).sockets client).Fits := by
    rw [hlocked]
    exact ⟨(hfits client).available_le,(hfits client).size_le,(hfits client).dvd⟩
  have havailable :
      ((d.mutexLock client p).sockets client).availableData = (d.sockets client).availableData := by
    rw [hlocked]
  have heq : d.writeLocked p sd client data =
      writeLoop sd client data data.length (d.mutexLock client p) (.start data.length) [] := by
    rw [writeLocked,hfree client]
    rfl
  constructor
  · intro hroom
    have hmax :
      ((d.mutexLock client p).sockets client).availableData+(SocketCopy.start data.length).left ≤
        SOCKET_MAX_BUFFER_SIZE := by
      rw [havailable]
      change _+data.length ≤ _
      rcases hroom with hnil | hle
      · rw [hnil]
        exact (hfits client).available_le.trans (hfits client).size_le
      · exact hle
    obtain ⟨hfits',hlock,moved,out,hnext⟩ :=
      writeLoop_fits sd data data.length [] hlfits le_rfl hmax
    rw [← heq] at hfits' hlock hnext
    refine ⟨fun c => ?_,fun z hz => ?_,fun c => ?_,fun r hr hfailed => ?_⟩
    · by_cases hc : c = client
      · exact hc ▸ hfits'
      · exact (congrArg Socket.Fits (hdata.other c hc)).mpr (hfits c)
    · rw [hnext] at hz
      cases hz
    · by_cases hc : c = client
      · exact hc ▸ hlock
      · exact (congrArg Socket.lock (hdata.other c hc)).trans (hfree c)
    · rw [hnext] at hr
      rw [← Option.mem_some_iff.mp hr] at hfailed
      exact absurd hfailed (Int.not_lt.mpr (Int.natCast_nonneg _))
  · intro hlocks
    by_contra hroom
    rw [not_or,Nat.not_le] at hroom
    have hfull := writeLoop_full sd data data.length (x:=.start data.length) [] hlfits le_rfl
      (by rw [havailable]; exact hroom.2)
    rw [← heq,hlocks client,hlocked] at hfull
    cases hfull

variable {s t : SocketSystem} {e : CallEvent SocketCall} {own : ℕ → Bool}

structure Orderly (s : SocketSystem) : Prop where
  base : Base s
  fits : ∀ c, (s.device.sockets c).Fits
  unlocked : ∀ p, ∀ z ∈ s.calls p, z.IsUnlocked
  clean : Clean s

theorem Orderly.leaves (h : Orderly s) (hen : s.Enabled own e) (hx : s.stretch driver e = some y) :
    (HasRoom s e → Leaves s.device y) ∧ ((∀ c, (y.device.sockets c).lock = none) →
      HasRoom s e) := by
  rcases CallSystem.stretch_cases hen hx with ⟨-,call,hcall,rfl⟩ | ⟨rfl,z,hz,rfl⟩
  · have hroom : HasRoom s e ↔ s.device.Holds call := by
      rw [HasRoom,hcall]
      exact ⟨fun h => h call rfl,fun h c hc => Option.mem_some_iff.mp hc ▸ h⟩
    rw [hroom]
    change (_ → Leaves s.device (s.device.start _ _)) ∧
      ((∀ c, ((s.device.start _ _).device.sockets c).lock = none) → _)
    rcases start_kind h.base.known s.process call with
      ⟨sd,size,rfl,heq⟩ | ⟨sd,data,client,rfl,hpeer,heq⟩ | ⟨hplain,hno⟩
    · rw [heq]
      exact ⟨fun _ => read_leaves h.fits h.clean.free _ sd size _ [],fun _ => trivial⟩
    · rw [heq]
      obtain ⟨hgo,hback⟩ := write_leaves client data h.fits h.clean.free s.process sd
      refine ⟨fun hholds => hgo (hholds client hpeer.connect_eq hpeer.isOpen hpeer.domain_eq),
        fun hlocks c hc _ _ => ?_⟩
      rw [hpeer.connect_eq] at hc
      obtain rfl := Option.mem_some_iff.mp hc
      exact hback hlocks
    · refine ⟨fun _ => hplain.leaves h.fits h.clean.free,fun _ => ?_⟩
      cases call with
      | write sd data => exact fun client hclient hopen hdomain => absurd ⟨hopen,
          hdomain,hclient⟩ (hno sd data client rfl)
      | _ => trivial
  · have hroom : HasRoom s .resume := fun call hc => by cases hc
    refine ⟨fun _ => ?_,fun _ => hroom⟩
    have hunlocked := h.unlocked _ z hz
    cases hconnection : z.isConnection with
    | true =>
      exact (resume_plain h.base.known _ (s.sched.tasks s.process)
        (h.base.progress _ z hz) hconnection).leaves h.fits h.clean.free
    | false =>
      cases z with
      | reading sd size x => exact read_leaves h.fits h.clean.free _ sd size x []
      | connecting sd path server => cases hconnection
      | accepting sd => cases hconnection
      | readLocking sd size n x => exact hunlocked.elim
      | writeLocking sd client data => exact hunlocked.elim
      | writing sd client data x => exact hunlocked.elim

theorem Orderly.step (h : Orderly s) (hen : s.Enabled own e) (hret : s.step driver e = .ok t) :
    (HasRoom s e → Orderly t) ∧ (Clean t → HasRoom s e) := by
  have hbase := h.base.step hen hret
  cases hx : s.stretch driver e with
  | none =>
    have hsame := CallSystem.step_none hx hret
    refine ⟨fun _ => ⟨hbase,?_,?_,?_,?_⟩,fun _ call hcall => ?_⟩
    · rw [hsame.device_eq]
      exact h.fits
    · rw [hsame.calls_eq]
      exact h.unlocked
    · rw [hsame.device_eq]
      exact h.clean.free
    · rw [hsame.returns_eq]
      exact h.clean.failure
    · rw [CallSystem.started_none hx] at hcall
      cases hcall
  | some y =>
    have hran := CallSystem.step_stretch hx hret
    obtain ⟨hgo,hback⟩ := h.leaves hen hx
    refine ⟨fun hroom => ?_,fun hclean => hback (hran.device_eq ▸ hclean.free)⟩
    have hy := hgo hroom
    refine ⟨hbase,?_,fun p z hz => ?_,?_,fun r hr => ?_⟩
    · rw [hran.device_eq]
      exact hy.fits
    · by_cases hp : p = s.process
      · rw [hp,hran.calls_self] at hz
        exact hy.unlocked z hz
      · rw [hran.calls_other hp] at hz
        exact h.unlocked p z hz
    · rw [hran.device_eq]
      exact hy.free
    · rw [hran.returns_eq] at hr
      rcases List.mem_append.mp hr with hr | hr
      · exact h.clean.failure r hr
      · obtain ⟨r',hr',rfl⟩ := Option.map_eq_some_iff.mp (Option.mem_toList.mp hr)
        exact fun hfailed => (hy.failure r' hr' hfailed).1

theorem boot_orderly : Orderly (.boot init) :=
  ⟨boot_base,fun _ => ⟨Nat.zero_le _,(by decide : SOCKET_INIT_BUFFER_SIZE ≤ SOCKET_MAX_BUFFER_SIZE),
    dvd_refl _⟩,fun _ _ hz => (by cases hz),fun _ => rfl,fun _ hr => by cases hr⟩

theorem Orderly.failed_write (h : Orderly s) (hen : s.Enabled own e) (hroom : HasRoom s e)
    (hret : s.step driver e = .ok t)
    {q : ℕ} {r : SocketReturn} (hr : t.returns = s.returns++[(q,r)])
    (hfailed : r.FailedWrite) (c : ℕ) :
    Socket.SameData (s.device.sockets c) (t.device.sockets c) := by
  cases hx : s.stretch driver e with
  | none =>
    rw [(CallSystem.step_none hx hret).returns_eq] at hr
    exact absurd (List.self_eq_append_right.mp hr) (List.cons_ne_nil _ _)
  | some y =>
    have hran := CallSystem.step_stretch hx hret
    rw [hran.returns_eq] at hr
    have hlast := List.append_cancel_left hr
    have hresult : y.next.result = some r := by
      cases hy : y.next.result with
      | none =>
        rw [hy] at hlast
        cases hlast
      | some r' =>
        rw [hy] at hlast
        exact congrArg some (congrArg Prod.snd (List.singleton_inj.mp hlast))
    rw [hran.device_eq]
    exact (((h.leaves hen hx).1 hroom).failure r hresult hfailed).2 c

theorem Orderly.run (h : Relation.ReflTransGen (CallSystem.Step driver own HasRoom)
    (.boot init) s) : Orderly s :=
  reach_invariant (fun _ _ hs ⟨_,hen,hroom,hret⟩ => (hs.step hen hret).1 hroom) boot_orderly h

/-- In every run in which every write fits into what the buffer of its peer can grow to, no
lock is held when a call returns or sleeps, and a write that fails leaves nothing behind; a
step from there keeps this just if what it writes fits. -/
theorem write_locking (h : Relation.ReflTransGen (CallSystem.Step driver own HasRoom)
    (.boot init) s) :
    Clean s ∧ ∀ e t, s.Enabled own e → s.step driver e = .ok t → (Clean t ↔ HasRoom s e) ∧
      ∀ q r, t.returns = s.returns++[(q,r)] → r.FailedWrite → Clean t →
        ∀ c, Socket.SameData (s.device.sockets c) (t.device.sockets c) := by
  have hs := Orderly.run h
  refine ⟨hs.clean,fun e t hen hret =>
    ⟨⟨(hs.step hen hret).2,fun hroom => ((hs.step hen hret).1 hroom).clean⟩,?_⟩⟩
  exact fun q r hr hfailed hclean =>
    hs.failed_write hen ((hs.step hen hret).2 hclean) hret hr hfailed

theorem write_locking_pair : ∃ s :
    SocketSystem, s.returns.map (fun r => r.2.result) = [0,0,0,0,-(EAGAIN : ℤ),0,3,2] ∧
    Clean s := by
  obtain ⟨s,hs,hps⟩ := CallSystem.exists_run (d:=driver) (fun _ => false) HasRoom (s:=.boot init)
    (connectedPair++[.call (.write 1 [5,6,7]),.call (.read 2 2)])
    (fun s => s.returns.map (fun r => r.2.result) = [0,0,0,0,-(EAGAIN : ℤ),0,3,2]) (by
      decide +kernel)
  exact ⟨s,of_decide_eq_true hps,(write_locking hs).1⟩

def wokenQueue : Sched.Event → Option ℕ
  | .wakeup q => some q
  | .wakeupSingle q => some q
  | .wakeupSelect q _ _ => some q
  | _ => none

theorem perform_nobody {u : Sched} (es : List Sched.Event)
    (h : ∀ e ∈ es, ∃ q, wokenQueue e = some q ∧ u.queues (.other q) = []) :
    u.perform es = .ok u := by
  induction es with
  | nil => rfl
  | cons e es ih =>
    obtain ⟨q,hq,hempty⟩ := h e List.mem_cons_self
    have hstep : u.step e = .ok u := by
      cases e with
      | wakeup n =>
        rw [Option.some.inj hq] at *
        change u.kProcProcessWakeupQueue _ = _
        rw [Sched.kProcProcessWakeupQueue,hempty]
        rfl
      | wakeupSingle n =>
        rw [Option.some.inj hq] at *
        change u.kProcProcessWakeupQueueSingle _ = _
        rw [Sched.kProcProcessWakeupQueueSingle,hempty]
        rfl
      | wakeupSelect n node event =>
        rw [Option.some.inj hq] at *
        change u.kProcProcessWakeupQueueSelect _ _ _ = _
        rw [Sched.kProcProcessWakeupQueueSelect,hempty]
        rfl
      | _ => cases hq
    exact Result.bind_eq_ok.mpr ⟨u,hstep,ih fun e he => h e (List.mem_cons_of_mem _ he)⟩

def WakesIn (Q : List ℕ) (es : List Sched.Event) : Prop := ∀ e ∈ es, ∃ q ∈ Q, wokenQueue e = some q

theorem WakesIn.append {Q : List ℕ} {es es' : List Sched.Event} (h : WakesIn Q es)
    (h' : WakesIn Q es') : WakesIn Q (es++es') :=
  fun e he => (List.mem_append.mp he).elim (h e) (h' e)

theorem WakesIn.one {Q : List ℕ} {e : Sched.Event} {q : ℕ} (hq : q ∈ Q)
    (he : wokenQueue e = some q) : WakesIn Q [e] :=
  fun _ hm => List.mem_singleton.mp hm ▸ ⟨q,hq,he⟩

def writeQueues (sd client : ℕ) : List ℕ :=
  [blockedProcesses client,SOCK_SEL_QUEUE_R client,lockQueue client,SOCK_SEL_QUEUE_E sd]

variable (sd client data) in
/-- A write to a socket that does not block only wakes, and does not sleep. -/
theorem writeLoop_wakes (fuel : ℕ) : ∀ {d : Sockets} {x : SocketCopy} {wakes : List Sched.Event},
    (d.sockets sd).nonblock = true → WakesIn (writeQueues sd client) wakes →
    (writeLoop sd client data fuel d x wakes).next.events = [] ∧
      WakesIn (writeQueues sd client) (writeLoop sd client data fuel d x wakes).wakes ∧
      (writeLoop sd client data fuel d x wakes).clears = false := by
  have hlock : WakesIn (writeQueues sd client) [.wakeupSingle (lockQueue client)] :=
    .one (by simp [writeQueues]) rfl
  induction fuel with
  | zero => exact fun _ hwakes => ⟨rfl,hwakes.append hlock,rfl⟩
  | succ fuel ih =>
    intro d x wakes hnonblock hwakes
    rw [writeLoop]
    split
    · exact ⟨rfl,hwakes.append hlock,rfl⟩
    · split
      · rw [writeBlocked,if_pos hnonblock]
        exact ⟨rfl,hwakes.append (.one (q:=SOCK_SEL_QUEUE_E sd) (by simp [writeQueues]) rfl),rfl⟩
      · refine ih ?_ (hwakes.append ?_)
        · have hdata :=
            (makeRoom_onlyData d client).trans (append_onlyData (d.makeRoom client) client data
            ((d.makeRoom client).chunkSize client x))
          have heq := congrArg Socket.nonblock (hdata.forget sd)
          exact Eq.trans heq hnonblock
        · have hpeer : WakesIn (writeQueues sd client) [.wakeup (blockedProcesses client)] :=
            .one (by simp [writeQueues]) rfl
          exact hpeer.append (.one (q:=SOCK_SEL_QUEUE_R client) (by simp [writeQueues]) rfl)

/-- Neither socket of a pair blocks, and the second writes one byte more than the buffer of
its peer can grow to. -/
theorem overfull_write : ∃ s t : SocketSystem, ∃ data : List Byte,
    Relation.ReflTransGen (CallSystem.Step driver (fun _ => false) HasRoom) (.boot init) s ∧
      s.Enabled (fun _ => false) (.call (.write 1 data)) ∧
      s.step driver (.call (.write 1 data)) = .ok t ∧
      (t.device.sockets 2).lock = some s.process ∧ OnlyData s.device t.device 2 ∧
      s.device.HasPeer 1 2 ∧ s.device.HasPeer 2 1 ∧ (s.device.sockets 1).availableData = 0 := by
  obtain ⟨s,hs,hps⟩ :=
    CallSystem.exists_run (d:=driver) (fun _ => false) HasRoom (s:=.boot init) connectedPair
    (fun s => s.Enabled (fun _ => false) (.call (.write 1 [])) ∧
      (s.device.sockets 1).connect = some 2 ∧
      (s.device.sockets 1).isOpen = true ∧ (s.device.sockets 1).domain = AF_LOCAL ∧
      (s.device.sockets 1).nonblock = true ∧
      (s.device.sockets 2).connect = some 1 ∧ (s.device.sockets 2).isOpen = true ∧
      (s.device.sockets 2).domain = AF_LOCAL ∧
      (s.device.sockets 1).availableData = 0 ∧ ∀ q ∈ writeQueues 1 2,
      s.sched.queues (.other q) = [])
    (by decide +kernel)
  obtain ⟨hen,hconnect,hopen,hdomain,hnonblock,hconnect',hopen',hdomain',hempty,hqueues⟩ :=
    of_decide_eq_true hps
  have horderly := Orderly.run hs
  obtain ⟨data,hlen⟩ : ∃ data : List Byte, data.length = SOCKET_MAX_BUFFER_SIZE+1 :=
    ⟨List.replicate (SOCKET_MAX_BUFFER_SIZE+1) 0,List.length_replicate⟩
  set locked := s.device.mutexLock 2 s.process with hlocked
  have hsocket :
      ∀ b, (locked.sockets b).Fits ∧
          (locked.sockets b).nonblock = (s.device.sockets b).nonblock := by
    intro b
    have honly := mutexLock_onlyData s.device 2 s.process
    have heq := congrArg Socket.nonblock (honly.forget b)
    refine ⟨?_,heq⟩
    by_cases hb : b = 2
    · rw [hlocked,mutexLock,hb,modify_self]
      exact ⟨(horderly.fits 2).available_le,(horderly.fits 2).size_le,(horderly.fits 2).dvd⟩
    · rw [hlocked,honly.other b hb]
      exact horderly.fits b
  have hx : s.stretch driver (.call (.write 1 data)) =
      some (writeLoop 1 2 data data.length locked (.start data.length) []) := by
    change some (s.device.start _ _) = _
    rw [start,if_pos (show s.device.Has (.write 1 data) from fun b hb =>
      Option.mem_some_iff.mp hb ▸ hopen),startOpen,
      kFsSocketWrite,if_neg (not_not_intro hdomain),hconnect]
    change some (s.device.writeLocked _ 1 2 data) = _
    rw [writeLocked,horderly.clean.free 2]
    rfl
  obtain ⟨hevents,hwakes,hclears⟩ := writeLoop_wakes 1 2 data data.length (d:=locked)
    (x:=.start data.length) ((hsocket 1).2.trans hnonblock)
    (fun e (he : e ∈ ([] : List Sched.Event)) => by cases he)
  have hfull :=
    writeLoop_full 1 data data.length (d:=locked) (x:=.start data.length) [] (hsocket 2).1
    le_rfl (hlen.ge.trans (Nat.le_add_left _ _))
  set y := writeLoop 1 2 data data.length locked (.start data.length) []
  have hret : s.step driver (.call (.write 1 data)) = .ok (s.after s.sched y) := by
    refine Result.bind_eq_ok.mpr ⟨s,rfl,?_⟩
    simp only [hx]
    refine Result.bind_eq_ok.mpr ⟨s.sched,?_,rfl⟩
    rw [CallSystem.cleared,hclears,hevents,List.append_nil]
    exact perform_nobody _ fun e he => (hwakes e he).imp fun q hq => ⟨hq.2,hqueues q hq.1⟩
  have hlock : ((s.after s.sched y).device.sockets 2).lock = some s.process := by
    refine hfull.trans ?_
    rw [hlocked,mutexLock,modify_self]
  have hwrites : Writes s.device 1 2 y :=
    writeLoop_writes data data.length (.start data.length) []
      (mutexLock_onlyData s.device 2 s.process)
  exact ⟨s,_,data,hs,hen,hret,hlock,hwrites.1,⟨hopen,hdomain,hconnect⟩,
    ⟨hopen',hdomain',hconnect'⟩,hempty⟩

/-- The second socket of a pair that does not block writes one byte more than the buffer of
its peer can grow to: it gets an error, and the peer stays locked for ever. -/
theorem full_peer_stays_locked : ∃ s t : SocketSystem, ∃ data : List Byte,
    Relation.ReflTransGen (CallSystem.Step driver (fun _ => false) HasRoom) (.boot init) s ∧
      s.Enabled (fun _ => false) (.call (.write 1 data)) ∧
      s.step driver (.call (.write 1 data)) = .ok t ∧
      (t.device.sockets 2).lock = some s.process ∧ ¬ Clean t := by
  obtain ⟨s,t,data,hs,hen,hret,hlock,-⟩ := overfull_write
  refine ⟨s,t,data,hs,hen,hret,hlock,fun hclean => ?_⟩
  rw [hclean.free 2] at hlock
  cases hlock

end Sockets
end ScalesOS
