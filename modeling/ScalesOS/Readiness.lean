import ScalesOS.SelectCalls
import ScalesOS.PipeStream
import ScalesOS.SocketLocks

/-!
# Ready and not asleep

What the check functions of pipes and sockets report, against a blocking call of one byte that
is made in the same state.
-/

namespace ScalesOS

/-- The call goes to sleep. -/
def Stretch.Sleeps {D C P R : Type} (x : Stretch D C P R) : Prop := x.next.joins ≠ []

namespace Pipe

variable {d : Pipe} {p : ℕ}

theorem read_sleeps (hv : d.ring.Valid) : (d.start p (.read false 1)).Sleeps ↔
    d.ring.readAvailable = 0 := by
  have hloop : d.readLoop p false 1 [] = _ := readLoop_eq hv 1 [] (Nat.zero_le 1)
  simp only [List.length_nil,Nat.sub_zero,List.nil_append] at hloop
  rw [start,kFsPipeRead,if_neg fun h => absurd h.1 Bool.false_ne_true,hloop]
  by_cases hread : 1 ≤ d.ring.readAvailable
  · rw [if_pos hread]
    exact iff_of_false (fun h => h rfl) (by omega)
  · rw [if_neg hread]
    exact iff_of_true (List.cons_ne_nil _ _) (by omega)

theorem write_sleeps (hv : d.ring.Valid) (byte : Byte) :
    (d.start p (.write false [byte])).Sleeps ↔ d.ring.writeAvailable = 0 := by
  have hstart : d.kFsPipeWrite p false [byte] [] = _ := kFsPipeWrite_eq hv [byte] []
  simp only [List.length_nil,List.drop_zero,List.nil_append,List.length_singleton,
    Bool.false_eq_true,or_false] at hstart
  rw [start,hstart]
  by_cases hroom : 1 ≤ d.ring.writeAvailable
  · rw [if_pos hroom]
    exact iff_of_false (fun h => h rfl) (by omega)
  · rw [if_neg hroom]
    exact iff_of_true (List.cons_ne_nil _ _) (by omega)

theorem check_agrees (hv : d.ring.Valid) (byte : Byte) :
    (d.kFsPipeCheck .read = true ↔ ¬ (d.start p (.read false 1)).Sleeps) ∧
      (d.kFsPipeCheck .write = true ↔ ¬ (d.start p (.write false [byte])).Sleeps) := by
  rw [read_sleeps hv,write_sleeps hv]
  constructor
  · exact decide_eq_true_iff.trans Nat.pos_iff_ne_zero
  · exact decide_eq_true_iff.trans Nat.pos_iff_ne_zero

end Pipe

namespace Sockets

variable {d : Sockets} {sd peer p : ℕ} {byte : Byte}

/-- The two ends of a connection. -/
structure Pair (d : Sockets) (sd peer : ℕ) : Prop where
  left : d.HasPeer sd peer
  right : d.HasPeer peer sd

/-- The socket is used without `O_NOBLOCK`. -/
def blocking (d : Sockets) (sd : ℕ) : Sockets := d.modify sd fun s => { s with nonblock := false }

/-- A blocking read of one byte by process `p`. -/
def ReadSleeps (d : Sockets) (p sd : ℕ) : Prop := ((d.blocking sd).start p (.read sd 1)).Sleeps

/-- A blocking write of one byte. -/
def WriteSleeps (d : Sockets) (p sd : ℕ) (byte : Byte) : Prop :=
  ((d.blocking sd).start p (.write sd [byte])).Sleeps

/-- Nobody waits for a connection while there is nothing to read, and nobody holds the lock
while there is. -/
def ReadAgrees (d : Sockets) (sd : ℕ) : Prop :=
  ((d.sockets sd).availableData = 0 → (d.sockets sd).backlog = []) ∧
    ((d.sockets sd).availableData ≠ 0 → (d.sockets sd).lock = none)

/-- The socket's own buffer is as full as it can get just when the peer is locked, or its
buffer is as full as it can get. -/
def WriteAgrees (d : Sockets) (sd peer : ℕ) : Prop :=
  SOCKET_MAX_BUFFER_SIZE ≤ (d.sockets sd).availableData ↔
    (d.sockets peer).lock ≠ none ∨
      ((d.sockets peer).bufferSize ≤ (d.sockets peer).availableData ∧
        SOCKET_MAX_BUFFER_SIZE ≤ (d.sockets peer).availableData)

theorem blocking_self (d : Sockets) (sd : ℕ) :
    (d.blocking sd).sockets sd = { d.sockets sd with nonblock := false } :=
  modify_self ..

theorem blocking_kept {β : Type} (f : Socket → β)
    (hf : ∀ s : Socket, f { s with nonblock := false } = f s) (b : ℕ) :
    f ((d.blocking sd).sockets b) = f (d.sockets b) :=
  modify_rec (motive:=fun s => f s = f (d.sockets b)) d (fun h => h ▸ hf _) fun _ => rfl

theorem readSleeps_iff (hopen : (d.sockets sd).isOpen = true) :
    d.ReadSleeps p sd ↔ (d.sockets sd).availableData = 0 ∨ (d.sockets sd).lock ≠ none := by
  have hopen' : ((d.blocking sd).sockets sd).isOpen = true :=
    (blocking_kept Socket.isOpen (fun _ => rfl) sd).trans hopen
  have hhas : (d.blocking sd).Has (.read sd 1) := fun b hb => Option.mem_some_iff.mp hb ▸ hopen'
  have hleft : (SocketCopy.start (1 : UInt32).toNat).left ≠ 0 := by decide
  rw [ReadSleeps,start,if_pos hhas,startOpen,kFsSocketRead,readLoop,
    if_neg hleft,blocking_self]
  dsimp only
  by_cases hempty : (d.sockets sd).availableData = 0
  · rw [if_pos hempty,if_neg Bool.false_ne_true]
    exact iff_of_true (List.cons_ne_nil _ _) (.inl hempty)
  · rw [if_neg hempty]
    cases hlock : (d.sockets sd).lock with
    | some q =>
      rw [Option.isSome_some,if_pos rfl]
      exact iff_of_true (List.cons_ne_nil _ _) (.inr (Option.some_ne_none q))
    | none =>
      -- one byte is taken, and nothing is left of the size
      have hone : (if (1 : UInt32).toNat < (d.sockets sd).availableData then (1 : UInt32).toNat
          else (d.sockets sd).availableData) = 1 := by
        change (if 1 < _ then 1 else _) = 1
        split <;> omega
      obtain ⟨fuel,hfuel⟩ := Nat.exists_eq_succ_of_ne_zero hempty
      rw [hone,hfuel,Option.isSome_none,if_neg Bool.false_ne_true,readLoop_done (.inl rfl)]
      exact iff_of_false (fun h => h rfl) (by simp)

/-- A write sleeps for the lock of the peer, or for room in its buffer. -/
theorem writeSleeps_iff (hpeer : d.HasPeer sd peer) : d.WriteSleeps p sd byte ↔
    (d.sockets peer).lock ≠ none ∨
    ((d.sockets peer).bufferSize ≤ (d.sockets peer).availableData ∧
      SOCKET_MAX_BUFFER_SIZE ≤ (d.sockets peer).availableData) := by
  have hopen : ((d.blocking sd).sockets sd).isOpen = true :=
    (blocking_kept Socket.isOpen (fun _ => rfl) sd).trans hpeer.isOpen
  have hdomain : ((d.blocking sd).sockets sd).domain = AF_LOCAL :=
    (blocking_kept Socket.domain (fun _ => rfl) sd).trans hpeer.domain_eq
  have hconnect : ((d.blocking sd).sockets sd).connect = some peer :=
    (blocking_kept Socket.connect (fun _ => rfl) sd).trans hpeer.connect_eq
  have hhas : (d.blocking sd).Has (.write sd [byte]) := fun b hb =>
    Option.mem_some_iff.mp hb ▸ hopen
  have hlocked : ((d.blocking sd).sockets peer).lock = (d.sockets peer).lock :=
    blocking_kept Socket.lock (fun _ => rfl) peer
  rw [WriteSleeps,start,if_pos hhas,startOpen,kFsSocketWrite,
    if_neg (not_not_intro hdomain),hconnect]
  dsimp only
  rw [writeLocked,hlocked]
  cases hlock : (d.sockets peer).lock with
  | some q =>
    rw [Option.isSome_some,if_pos rfl]
    exact iff_of_true (List.cons_ne_nil _ _) (.inl (Option.some_ne_none q))
  | none =>
    have hsize :
        (((d.blocking sd).mutexLock peer p).sockets peer).bufferSize =
        (d.sockets peer).bufferSize := by
      rw [mutexLock,modify_self]
      exact blocking_kept Socket.bufferSize (fun _ => rfl) peer
    have havailable :
        (((d.blocking sd).mutexLock peer p).sockets peer).availableData =
        (d.sockets peer).availableData := by
      rw [mutexLock,modify_self]
      exact blocking_kept Socket.availableData (fun _ => rfl) peer
    have hnonblock : (((d.blocking sd).mutexLock peer p).sockets sd).nonblock = false :=
      modify_rec (motive:=fun s => s.nonblock = false) (d.blocking sd)
        (fun h => h ▸ congrArg Socket.nonblock (blocking_self d sd)) fun _ =>
        congrArg Socket.nonblock (blocking_self d sd)
    rw [Option.isSome_none,if_neg Bool.false_ne_true,List.length_singleton,writeLoop,
      if_neg (by decide),hsize,havailable]
    by_cases hfull : (d.sockets peer).bufferSize ≤ (d.sockets peer).availableData ∧
        SOCKET_MAX_BUFFER_SIZE ≤ (d.sockets peer).availableData
    · rw [if_pos hfull,writeBlocked,hnonblock,if_neg Bool.false_ne_true]
      exact iff_of_true (List.cons_ne_nil _ _) (.inr hfull)
    · rw [if_neg hfull,writeLoop]
      exact iff_of_false (fun h => h rfl) fun h => h.elim (fun h => h rfl) hfull

theorem check_read_agrees (hpeer : d.HasPeer sd peer) :
    (d.kFsSocketCheck sd .read = true ↔ ¬ d.ReadSleeps p sd) ↔ d.ReadAgrees sd := by
  rw [readSleeps_iff hpeer.isOpen,kFsSocketCheck,decide_eq_true_iff,ReadAgrees,Nat.pos_iff_ne_zero,
    List.length_pos_iff]
  tauto

theorem check_write_agrees (hpeer : d.HasPeer sd peer) :
    (d.kFsSocketCheck sd .write = true ↔ ¬ d.WriteSleeps p sd byte) ↔ d.WriteAgrees sd peer := by
  rw [writeSleeps_iff hpeer,kFsSocketCheck,decide_eq_true_iff,WriteAgrees,← not_le]
  tauto

/-- In every state that a pipe can reach, ready to read and to write mean that a blocking call
of one byte does not sleep. For the ends of a connection this is so just if nobody waits for a
connection or holds the lock, and if the buffers of both ends are full at the same time. -/
theorem readiness_agrees (own : ℕ → Bool) :
    (∀ size ≥ 2, ∀ s : PipeSystem,
      Relation.ReflTransGen (CallSystem.Step Pipe.driver Pipe.isOwn CallSystem.anyStep)
      (.boot (Pipe.create size)) s → ∀ p byte, (s.device.kFsPipeCheck .read = true ↔
          ¬ (s.device.start p (.read false 1)).Sleeps) ∧ (s.device.kFsPipeCheck .write = true ↔
            ¬ (s.device.start p (.write false [byte])).Sleeps)) ∧
    ∀ s : SocketSystem, Relation.ReflTransGen (CallSystem.Step driver own CallSystem.anyStep)
    (.boot init) s → ∀ sd peer, s.device.Pair sd peer → ∀ p byte,
        ((s.device.kFsSocketCheck sd .read = true ↔ ¬ s.device.ReadSleeps p sd) ↔
          s.device.ReadAgrees sd) ∧
          ((s.device.kFsSocketCheck sd .write = true ↔ ¬ s.device.WriteSleeps p sd byte) ↔
            s.device.WriteAgrees sd peer) :=
  ⟨fun _ hsize _ h _ byte => Pipe.check_agrees (Pipe.reach_valid hsize h) byte,
    fun _ _ _ _ hpair _ _ => ⟨check_read_agrees hpair.left,check_write_agrees hpair.left⟩⟩

/-- The first end has written more than the second takes, and has nothing to read itself: it
is ready for writing, and a write sleeps. -/
theorem ready_and_asleep : ¬ ∀ s : SocketSystem,
    Relation.ReflTransGen (CallSystem.Step driver (fun _ => false) CallSystem.anyStep)
    (.boot init) s →
      ∀ sd peer, s.device.Pair sd peer → ∀ p byte, s.device.kFsSocketCheck sd .write = true ↔
      ¬ s.device.WriteSleeps p sd byte := by
  intro hall
  obtain ⟨s,t,data,hs,hen,hret,hlock,hdata,hleft,hright,hempty⟩ := overfull_write
  have hany :
      Relation.ReflTransGen (CallSystem.Step driver (fun _ => false) CallSystem.anyStep)
          (.boot init) s :=
    Relation.ReflTransGen.mono (fun _ _ ⟨e,hen,_,hret⟩ => ⟨e,hen,trivial,hret⟩) _ _ hs
  have hkept : t.device.sockets 1 = s.device.sockets 1 := hdata.other 1 (by decide)
  have hpair : t.device.Pair 1 2 := by
    refine ⟨⟨?_,?_,?_⟩,⟨?_,?_,?_⟩⟩
    · rw [hkept]
      exact hleft.isOpen
    · rw [hkept]
      exact hleft.domain_eq
    · rw [hkept]
      exact hleft.connect_eq
    · exact (hdata.isOpen_eq 2).trans hright.isOpen
    · exact (congrArg Socket.domain (hdata.forget 2)).trans hright.domain_eq
    · exact (hdata.connect_eq 2).trans hright.connect_eq
  refine (hall t (hany.tail ⟨_,hen,trivial,hret⟩) 1 2 hpair 0 0).mp ?_
    ((writeSleeps_iff hpair.left).mpr (.inl ?_))
  · rw [kFsSocketCheck,hkept,hempty]
    decide
  · rw [hlock]
    exact Option.some_ne_none _

end Sockets
end ScalesOS
