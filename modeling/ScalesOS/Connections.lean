import ScalesOS.SocketSteps
import ScalesOS.Matching

/-!
# Connections of local sockets

The connect fields and the backlogs are a partial matching with waiting lists: `connect`
waits, `accept` matches, the last close leaves. A nonblocking `connect` that is made again
waits a second time, and a socket that is closed while it waits is not taken out.
-/

namespace ScalesOS
namespace Sockets

variable {d d' : Sockets} {sd a c p : ℕ} {f : Socket → Socket}

def links (d : Sockets) : Links ℕ where
  connect := fun a => (d.sockets a).connect
  backlog := fun a => (d.sockets a).backlog
  isOpen := fun a => (d.sockets a).isOpen

theorem OnlyData.links_eq (h : OnlyData d d' c) : d'.links = d.links :=
  Links.ext (funext h.connect_eq) (funext h.backlog_eq) (funext h.isOpen_eq)

theorem modify_field {β : Type} (g : Socket → β) (d : Sockets) (c : ℕ) (f : Socket → Socket) :
    (fun a => g ((d.modify c f).sockets a)) = Function.update (fun a =>
      g (d.sockets a)) c (g (f (d.sockets c))) := by
  funext a
  by_cases ha : a = c
  · rw [ha,modify_self,Function.update_self]
  · rw [modify_other _ _ ha,Function.update_of_ne ha]

theorem modify_kept {β : Type} (g : Socket → β) (d : Sockets) (c : ℕ)
    (h : g (f (d.sockets c)) = g (d.sockets c)) :
    (fun a => g ((d.modify c f).sockets a)) = fun a => g (d.sockets a) := by
  rw [modify_field,h,Function.update_eq_self (f:=fun a => g (d.sockets a))]

theorem modify_links (d : Sockets) (c : ℕ)
    (hconnect : (f (d.sockets c)).connect = (d.sockets c).connect)
    (hbacklog : (f (d.sockets c)).backlog = (d.sockets c).backlog)
    (hopen : (f (d.sockets c)).isOpen = (d.sockets c).isOpen) :
    (d.modify c f).links = d.links :=
  Links.ext (modify_kept Socket.connect d c hconnect) (modify_kept Socket.backlog d c hbacklog)
    (modify_kept Socket.isOpen d c hopen)

theorem setConnect_links (d : Sockets) (c : ℕ)
    (hbacklog : (f (d.sockets c)).backlog = (d.sockets c).backlog)
    (hopen : (f (d.sockets c)).isOpen = (d.sockets c).isOpen) :
    (d.modify c f).links = { d.links with
      connect := Function.update d.links.connect c (f (d.sockets c)).connect } :=
  Links.ext (modify_field Socket.connect d c f) (modify_kept Socket.backlog d c hbacklog)
    (modify_kept Socket.isOpen d c hopen)

theorem setBacklog_links (d : Sockets) (c : ℕ)
    (hconnect : (f (d.sockets c)).connect = (d.sockets c).connect)
    (hopen : (f (d.sockets c)).isOpen = (d.sockets c).isOpen) :
    (d.modify c f).links = { d.links with
      backlog := Function.update d.links.backlog c (f (d.sockets c)).backlog } :=
  Links.ext (modify_kept Socket.connect d c hconnect) (modify_field Socket.backlog d c f)
    (modify_kept Socket.isOpen d c hopen)

theorem setOpen_links (d : Sockets) (c : ℕ)
    (hconnect : (f (d.sockets c)).connect = (d.sockets c).connect)
    (hbacklog : (f (d.sockets c)).backlog = (d.sockets c).backlog) :
    (d.modify c f).links = { d.links with
      isOpen := Function.update d.links.isOpen c (f (d.sockets c)).isOpen } :=
  Links.ext (modify_kept Socket.connect d c hconnect) (modify_kept Socket.backlog d c hbacklog)
    (modify_field Socket.isOpen d c f)

theorem create_links (h : Known d) (domain : ℕ) (nonblock : Bool) :
    (d.kFsSocketCreate domain nonblock).links = d.links.enter d.count := by
  have hunused := h.unused d.count le_rfl
  have heq :
    (d.kFsSocketCreate domain nonblock).links = (d.modify d.count fun _ =>
      .new domain nonblock).links := rfl
  rw [heq]
  refine setOpen_links d d.count ?_ ?_
  · rw [hunused]
    rfl
  · rw [hunused]
    rfl

theorem enqueue_links (d : Sockets) (sd : ℕ) (path : Path) (server : ℕ) :
    (d.enqueue sd path server).links = d.links.wait sd server := by
  have haddr : (d.modify sd fun s => { s with addr := some path }).links = d.links :=
    modify_links d sd rfl rfl rfl
  rw [← haddr]
  exact setBacklog_links _ server rfl rfl

theorem acceptFirst_links (h : Known d) (hsd : sd < d.count) {client : ℕ} {rest : List ℕ}
    (hbacklog : (d.sockets sd).backlog = client :: rest) :
    (d.acceptFirst sd client rest).links = d.links.join sd rest client d.count := by
  have hrest := h.modify (f:=fun s => { s with backlog := rest }) hsd (h.connect_lt sd) fun b hb =>
    h.backlog_lt sd b (hbacklog ▸ List.mem_cons_of_mem _ hb)
  have hpop : (d.modify sd fun s => { s with backlog := rest }).links =
      { d.links with backlog := Function.update d.links.backlog sd rest } :=
    setBacklog_links d sd rfl rfl
  have hnew :
      (d.acceptSocket sd rest).links =
      Links.enter { d.links with backlog := Function.update d.links.backlog sd rest } d.count := by
    rw [← hpop]
    exact create_links hrest _ _
  rw [acceptFirst]
  refine (setConnect_links _ d.count ?_ ?_).trans ?_
  · rfl
  · rfl
  · rw [setConnect_links _ client (by rfl) (by rfl),hnew]
    rfl

theorem close_links (d : Sockets) (sd : ℕ) :
    (d.kFsVfsClose sd).device.links = d.links.leave sd := by
  have hpart : (d.kFsSocketClose sd).links = d.links.part sd := by
    rw [kFsSocketClose]
    cases hconnect : (d.sockets sd).connect with
    | none =>
      have heq : d.links.connect sd = none := hconnect
      rw [Links.part,heq]
    | some other =>
      have heq : d.links.connect sd = some other := hconnect
      rw [Links.part,heq]
      refine (setConnect_links _ other ?_ ?_).trans ?_
      · rfl
      · rfl
      · rw [setConnect_links _ sd (by rfl) (by rfl)]
  have hclosed : ((d.kFsSocketClose sd).modify sd fun s => { s with isOpen := false }).links =
      { (d.kFsSocketClose sd).links with
          isOpen := Function.update (d.kFsSocketClose sd).links.isOpen sd false } :=
    setOpen_links _ sd rfl rfl
  rw [hpart] at hclosed
  exact hclosed

def Waits (d : Sockets) (a : ℕ) : Prop := ∃ s < d.count, a ∈ (d.sockets s).backlog

instance (d : Sockets) (a : ℕ) : Decidable (d.Waits a) := by
  unfold Waits
  infer_instance

theorem Known.not_waits_iff (h : Known d) (a : ℕ) : ¬ d.Waits a ↔ ∀ s, a ∉ d.links.backlog s := by
  constructor
  · intro hno s hmem
    refine hno ⟨s,?_,hmem⟩
    by_contra hs
    have hmem' : a ∈ (d.sockets s).backlog := hmem
    rw [h.unused s (Nat.not_lt.mp hs)] at hmem'
    cases hmem'
  · rintro hno ⟨s,-,hmem⟩
    exact hno s hmem

def LeavesWaiting (d : Sockets) : SocketCall → Prop
  | .connect sd path => (d.sockets sd).isOpen = true → (d.sockets sd).connect = none →
      (d.sockets sd).domain = AF_LOCAL →
    (∃ server ∈ d.bound (Path.names path), (d.sockets server).listening = true) → ¬ d.Waits sd
  | .close sd => (d.sockets sd).isOpen = true → ¬ d.Waits sd
  | _ => True

instance (d : Sockets) (call : SocketCall) : Decidable (d.LeavesWaiting call) := by
  induction call using SocketCall.casesOn <;> dsimp only [LeavesWaiting] <;> infer_instance

/-- The connections are a matching, and nobody who waits is connected. -/
structure Linked (d : Sockets) : Prop where
  matched : d.links.Matched
  patient : d.links.Patient

theorem Linked.same (h : Linked d) (heq : d'.links = d.links) : Linked d' :=
  ⟨heq ▸ h.matched,heq ▸ h.patient⟩

theorem connectLoop_device (d : Sockets) (sd : ℕ) (path : Path) (server : ℕ)
    (wakes : List Sched.Event) :
    (d.connectLoop sd path server wakes).device = d := by
  rw [connectLoop]
  split
  · rfl
  · split
    · rfl
    · rfl

theorem connect_linked (h : Linked d) (hd : Known d)
    (hopen : (d.sockets sd).isOpen = true) (path : Path) :
    (d.LeavesWaiting (.connect sd path) → Linked (d.kFsSocketConnect sd path).device) ∧
      ((d.kFsSocketConnect sd path).device.links.Matched → d.LeavesWaiting (.connect sd path)) := by
  rw [kFsSocketConnect]
  split
  · rename_i hconnected
    refine ⟨fun _ => h,fun _ _ hnone => ?_⟩
    rw [hnone] at hconnected
    cases hconnected
  · rename_i hconnect
    split
    · rename_i hdomain
      split
      · rename_i hbound
        refine ⟨fun _ => h,fun _ _ _ _ => ?_⟩
        rintro ⟨server,hserver,-⟩
        rw [hbound] at hserver
        cases hserver
      · rename_i server hbound
        split
        · rename_i hlistening
          refine ⟨fun _ => h,fun _ _ _ _ => ?_⟩
          rintro ⟨server',hserver,hlistening'⟩
          rw [hbound] at hserver
          rw [← Option.mem_some_iff.mp hserver] at hlistening'
          rw [hlistening'] at hlistening
          cases hlistening
        · rename_i hlistening
          have hnone : (d.sockets sd).connect = none := Option.not_isSome_iff_eq_none.mp hconnect
          have hiff := h.matched.wait_iff hopen server
          rw [connectLoop_device,enqueue_links,hiff,← hd.not_waits_iff]
          refine ⟨fun hno => ?_,fun hno _ _ _ _ => hno⟩
          have hno' := hno hopen hnone hdomain ⟨server,hbound,by simpa using hlistening⟩
          constructor
          · rw [enqueue_links]
            exact hiff.mpr ((hd.not_waits_iff sd).mp hno')
          · rw [enqueue_links]
            exact h.patient.wait hnone server
    · rename_i hdomain
      exact ⟨fun _ => h,fun _ _ _ hdomain' => absurd hdomain' hdomain⟩

theorem accept_linked (h : Linked d) (hd : Known d) (hsd : sd < d.count) :
    Linked (d.kFsSocketAccept sd).device := by
  rw [kFsSocketAccept]
  split
  · split
    · split
      · exact h
      · exact h
    · rename_i client rest hbacklog
      change Linked (d.acceptFirst sd client rest)
      have hunused := hd.unused d.count le_rfl
      have hfresh : d.links.Fresh d.count := by
        refine ⟨?_,fun b hb => absurd (hd.connect_lt b d.count hb) (lt_irrefl _),
          fun s hs => absurd (hd.backlog_lt s d.count hs) (lt_irrefl _)⟩
        change (d.sockets d.count).connect = none
        rw [hunused]
        rfl
      have hjoin := h.matched.join h.patient hbacklog hfresh
      rw [← acceptFirst_links hd hsd hbacklog] at hjoin
      exact ⟨hjoin.1,hjoin.2⟩
  · exact h

theorem read_linked (h : Linked d) (p sd : ℕ) (size : UInt32) (x : SocketCopy)
    (wakes : List Sched.Event) :
    Linked (d.kFsSocketRead p sd size x wakes).device :=
  h.same (readLoop_reads (p:=p) size ((d.sockets sd).availableData+1) x wakes
    (OnlyData.refl d sd)).1.links_eq

theorem start_linked (h : Linked d) (hd : Known d) (p : ℕ) (call : SocketCall) :
    (d.LeavesWaiting call → Linked (d.start p call).device) ∧
      ((d.start p call).device.links.Matched → d.LeavesWaiting call) := by
  rw [start]
  split
  · rename_i hhas
    cases call with
    | create domain nonblock =>
      refine ⟨fun _ => ?_,fun _ => trivial⟩
      rw [startOpen]
      split
      · exact h
      · change Linked (d.kFsSocketCreate domain nonblock)
        constructor
        · rw [create_links hd]
          exact h.matched.enter d.count
        · rw [create_links hd]
          exact h.patient
    | bind sd path =>
      refine ⟨fun _ => ?_,fun _ => trivial⟩
      rw [startOpen,kFsSocketBind]
      split
      · exact h
      · split
        · have hmount :
            ((d.mount (Path.names path) sd).modify sd fun s =>
              { s with addr := some path, bind := true }).links =
              d.links := modify_links (d.mount (Path.names path) sd) sd rfl rfl rfl
          exact h.same hmount
        · exact h
    | listen sd =>
      have hlisten : (d.modify sd fun s => { s with listening := true }).links = d.links :=
        modify_links d sd rfl rfl rfl
      exact ⟨fun _ => h.same hlisten,fun _ => trivial⟩
    | connect sd path => exact connect_linked h hd (hhas sd rfl) path
    | accept sd => exact ⟨fun _ => accept_linked h hd (hd.lt_of_open (hhas sd rfl)),
        fun _ => trivial⟩
    | read sd size => exact ⟨fun _ => read_linked h p sd size _ [],fun _ => trivial⟩
    | write sd data =>
      refine ⟨fun _ => ?_,fun _ => trivial⟩
      rw [startOpen,kFsSocketWrite]
      split
      · exact h
      · split
        · exact h
        · rename_i client hclient
          exact h.same (writeLocked_writes d p sd client data).1.links_eq
    | close sd =>
      change (_ → Linked (d.kFsVfsClose sd).device) ∧ ((d.kFsVfsClose sd).device.links.Matched → _)
      have hopen := hhas sd rfl
      have hiff := h.matched.leave_iff sd
      rw [close_links,hiff,← hd.not_waits_iff]
      refine ⟨fun hno => ⟨?_,?_⟩,fun hno _ => hno⟩
      · rw [close_links]
        exact hiff.mpr ((hd.not_waits_iff sd).mp (hno hopen))
      · rw [close_links]
        exact h.patient.leave h.matched sd
  · rename_i hhas
    refine ⟨fun _ => h,fun _ => ?_⟩
    cases call with
    | connect sd path => exact fun hopen => absurd (fun b hb =>
      Option.mem_some_iff.mp hb ▸ hopen) hhas
    | close sd => exact fun hopen => absurd (fun b hb => Option.mem_some_iff.mp hb ▸ hopen) hhas
    | _ => trivial

theorem resume_linked (h : Linked d) (hd : Known d) (p : ℕ) (task : Task) {z : SocketProgress}
    (hz : z.socket < d.count) :
    Linked (d.resume p task z).device := by
  cases z with
  | connecting sd path server =>
    exact h.same (congrArg links (connectLoop_device d sd path server []))
  | accepting sd => exact accept_linked h hd hz
  | reading sd size x => exact read_linked h p sd size x []
  | readLocking sd size n x =>
    rw [resume]
    split
    · exact h
    · have hread := (readLoop_reads (p:=p) size (((d.readChunk p sd n).sockets sd).availableData+1)
        (x.read (d.sockets sd).buffer n)
        [.wakeupSingle (lockQueue sd)] (readChunk_onlyData d p sd n)).1
      exact h.same hread.links_eq
  | writeLocking sd client data => exact h.same (writeLocked_writes d p sd client data).1.links_eq
  | writing sd client data x => exact h.same (writeResumed_writes d sd client data x).1.links_eq

variable {s t : SocketSystem} {e : CallEvent SocketCall} {own : ℕ → Bool}

/-- The call that an event makes leaves those alone that wait. -/
def Careful (s : SocketSystem) (e : CallEvent SocketCall) : Prop :=
  ∀ call ∈ s.started e, s.device.LeavesWaiting call

instance (s : SocketSystem) (e : CallEvent SocketCall) : Decidable (Careful s e) := by
  unfold Careful
  infer_instance

structure Settled (s : SocketSystem) : Prop where
  base : Base s
  linked : Linked s.device

theorem Settled.step (h : Settled s) (hen : s.Enabled own e) (hret : s.step driver e = .ok t) :
    (Careful s e → Settled t) ∧ (t.device.links.Matched → Careful s e) := by
  have hbase := h.base.step hen hret
  cases hx : s.stretch driver e with
  | none =>
    have hsame := CallSystem.step_none hx hret
    refine ⟨fun _ => ⟨hbase,hsame.device_eq ▸ h.linked⟩,fun _ call hcall => ?_⟩
    rw [CallSystem.started_none hx] at hcall
    cases hcall
  | some y =>
    have hran := CallSystem.step_stretch hx hret
    rcases CallSystem.stretch_cases hen hx with ⟨-,call,hcall,rfl⟩ | ⟨rfl,z,hz,rfl⟩
    · obtain ⟨hgo,hback⟩ := start_linked h.linked h.base.known s.process call
      have hcareful : Careful s e ↔ s.device.LeavesWaiting call := by
        rw [Careful,hcall]
        exact ⟨fun hc => hc call rfl,fun hc c heq => Option.mem_some_iff.mp heq ▸ hc⟩
      rw [hcareful,hran.device_eq]
      exact ⟨fun hc => ⟨hbase,hran.device_eq ▸ hgo hc⟩,hback⟩
    · have hlinked :=
        resume_linked h.linked h.base.known s.process (s.sched.tasks s.process)
          (h.base.progress _ z hz)
      exact ⟨fun _ => ⟨hbase,hran.device_eq ▸ hlinked⟩,fun _ call hcall => by cases hcall⟩

theorem boot_settled : Settled (.boot init) where
  base := boot_base
  linked := by
    refine ⟨⟨?_,?_,fun _ => List.nodup_nil,?_,?_⟩,?_⟩
    · exact fun _ _ h => by cases h
    · exact fun _ _ h => by cases h
    · exact fun _ _ _ h => by cases h
    · exact fun _ _ h => by cases h
    · exact fun _ _ h => by cases h

/-- In every run in which no socket that waits in a backlog is connected again or closed, the
connect fields are a symmetric matching of open sockets, and every socket waits in one place;
a step from there keeps this just if it is not such a call. -/
theorem connection_relation (h : Relation.ReflTransGen (CallSystem.Step driver own Careful)
    (.boot init) s) :
    s.device.links.Matched ∧
      (∀ a b c, (s.device.sockets a).connect = some c →
        (s.device.sockets b).connect = some c → a = b) ∧
      ∀ e t, s.Enabled own e → s.step driver e = .ok t →
      (t.device.links.Matched ↔ Careful s e) := by
  have hs : Settled s :=
    reach_invariant (fun _ _ hs ⟨_,hen,hcareful,hret⟩ =>
      (hs.step hen hret).1 hcareful) boot_settled h
  refine ⟨hs.linked.matched,fun a b c ha hb => hs.linked.matched.partner_unique ha hb,
    fun e t hen hret => ?_⟩
  exact ⟨(hs.step hen hret).2,fun hcareful => ((hs.step hen hret).1 hcareful).linked.matched⟩

/-- Socket `1` connects to socket `0`, is accepted as socket `2` and closed. -/
theorem connection_relation_closed : ∃ s :
    SocketSystem, s.returns.map (fun r => r.2.result) = [0,0,0,0,-(EAGAIN : ℤ),0,0] ∧
    (s.device.sockets 2).isOpen = true ∧ (s.device.sockets 2).connect = none ∧
    s.device.links.Matched := by
  obtain ⟨s,hs,hps⟩ := CallSystem.exists_run (d:=driver) (fun _ => false) Careful (s:=.boot init)
    [.call (.create AF_LOCAL true),.call (.create AF_LOCAL true),.call (.bind 0 "/s".toList),
      .call (.listen 0),.call (.connect 1 "/s".toList),.call (.accept 0),.call (.close 1)]
    (fun s => s.returns.map (fun r => r.2.result) = [0,0,0,0,-(EAGAIN : ℤ),0,0] ∧
      (s.device.sockets 2).isOpen = true ∧ (s.device.sockets 2).connect = none) (by decide +kernel)
  obtain ⟨hreturns,hopen,hconnect⟩ := of_decide_eq_true hps
  exact ⟨s,hreturns,hopen,hconnect,(connection_relation hs).1⟩

/-- A nonblocking connect is made again before the server accepts. The server accepts twice,
and both of the new sockets are connected to the one that is connected to the second. -/
theorem connected_twice : ∃ s : SocketSystem,
    Relation.ReflTransGen (CallSystem.Step driver (fun _ => false) CallSystem.anyStep)
    (.boot init) s ∧ (s.device.sockets 2).connect = some 1 ∧ (s.device.sockets 3).connect = some 1 ∧
      (s.device.sockets 1).connect = some 3 ∧ ¬ s.device.links.Matched := by
  obtain ⟨s,hs,hps⟩ :=
    CallSystem.exists_run (d:=driver) (fun _ => false) CallSystem.anyStep (s:=.boot init)
    [.call (.create AF_LOCAL true),.call (.create AF_LOCAL true),.call (.bind 0 "/s".toList),
      .call (.listen 0),
      .call (.connect 1 "/s".toList),.call (.connect 1 "/s".toList),.call (.accept 0),
      .call (.accept 0)]
    (fun s => (s.device.sockets 2).connect = some 1 ∧ (s.device.sockets 3).connect = some 1 ∧
      (s.device.sockets 1).connect = some 3) (by decide +kernel)
  obtain ⟨htwo,hthree,hone⟩ := of_decide_eq_true hps
  refine ⟨s,hs,htwo,hthree,hone,fun hm => ?_⟩
  have heq : 2 = 3 := hm.partner_unique htwo hthree
  exact absurd heq (by decide)

end Sockets
end ScalesOS
