import ScalesOS.PipeStream

/-!
# A pipe is a bounded queue

Calls on a pipe that return without sleeping, against a queue that has room for one byte
less than the pipe is large. The functions that say how much can be read and written are
computed from the pointers, the queue is what they stand for.
-/

namespace ScalesOS

namespace ByteQueue

/-- What a queue with room for `capacity` bytes does for a call: the bytes that are in it
afterwards, the value that is returned, and the bytes that are handed over. -/
def serve (capacity : ℕ) (queue : List Byte) : PipeCall → List Byte × ℤ × List Byte
  | .write _ data =>
    let n := min data.length (capacity-queue.length)
    (queue++data.take n,n,[])
  | .read _ n => if queue.length < n then (queue,-EAGAIN,[]) else (queue.drop n,n,queue.take n)

/-- The same for one call after the other. -/
def serveAll (capacity : ℕ) : List PipeCall → List Byte → List Byte × List (ℤ × List Byte)
  | [], queue => (queue,[])
  | call :: calls, queue =>
    let (queue,reply) := serve capacity queue call
    let (queue,replies) := serveAll capacity calls queue
    (queue,reply :: replies)

/-- A write puts in the longest beginning of the data that there is room for. -/
theorem serve_write (capacity : ℕ) (queue data : List Byte) (noblock : Bool)
    (hroom : queue.length ≤ capacity) :
    ∃ n ≤ data.length, serve capacity queue (.write noblock data) =
      (queue++data.take n,(n : ℤ),[]) ∧ (queue++data.take n).length ≤ capacity ∧ ∀ k ≤ data.length,
      (queue++data.take k).length ≤ capacity → k ≤ n := by
  refine ⟨min data.length (capacity-queue.length),Nat.min_le_left _ _,rfl,?_,fun k hk hfits => ?_⟩
  · rw [List.length_append,List.length_take]
    omega
  · rw [List.length_append,List.length_take] at hfits
    omega

end ByteQueue

namespace Pipe

/-- A call that returns without sleeping. -/
def call (d : Pipe) (p : ℕ) (c : PipeCall) : Option (Pipe × PipeReturn) :=
  match (d.start p c).next with
  | .finish r => some ((d.start p c).device,r)
  | _ => none

/-- One call after the other, each by some process, as long as none of them sleeps. -/
def callAll : List (ℕ × PipeCall) → Pipe → Option (Pipe × List PipeReturn)
  | [], d => some (d,[])
  | (p,c) :: calls, d => do
    let (d,r) ← d.call p c
    let (d,rs) ← callAll calls d
    pure (d,r :: rs)

variable {d d' : Pipe} {p : ℕ} {c : PipeCall} {r : PipeReturn}

theorem call_write (hv : d.ring.Valid) (noblock : Bool) (data : List Byte) :
    d.call p (.write noblock data) =
      if data.length ≤ d.ring.writeAvailable ∨ noblock then
        some (d.store p (Ringbuffer.storeLoop data d.ring).1 (data.take d.ring.writeAvailable),
          ⟨.write noblock data,(data.take d.ring.writeAvailable).length,
            data.take d.ring.writeAvailable⟩)
      else none := by
  have hstart : d.kFsPipeWrite p noblock data [] = _ := kFsPipeWrite_eq hv data []
  simp only [List.length_nil,List.drop_zero,List.nil_append] at hstart
  rw [call,start,hstart]
  by_cases hfits : data.length ≤ d.ring.writeAvailable ∨ noblock = true
  · rw [if_pos hfits,if_pos hfits]
    rfl
  · rw [if_neg hfits,if_neg hfits]
    rfl

theorem call_read (hv : d.ring.Valid) (noblock : Bool) (n : ℕ) :
    d.call p (.read noblock n) =
      if n ≤ d.ring.readAvailable then
        some (d.take p (Ringbuffer.takeLoop n d.ring).1 (d.ring.contents.take n),
          ⟨.read noblock n,(d.ring.contents.take n).length,d.ring.contents.take n⟩)
      else if noblock then some (d,⟨.read noblock n,-EAGAIN,[]⟩) else none := by
  have hloop : d.readLoop p noblock n [] = _ := readLoop_eq hv n [] (Nat.zero_le n)
  simp only [List.length_nil,Nat.sub_zero,List.nil_append] at hloop
  rw [call,start,kFsPipeRead,hloop]
  by_cases henough : n ≤ d.ring.readAvailable
  · rw [if_neg fun h => absurd h.2 (not_lt.mpr henough),if_pos henough,if_pos henough]
    rfl
  · cases noblock with
    | true =>
      rw [if_pos ⟨rfl,not_le.mp henough⟩,if_neg henough,if_pos rfl]
    | false =>
      rw [if_neg fun h => absurd h.1 Bool.false_ne_true,if_neg henough,if_neg henough,
        if_neg Bool.false_ne_true]
      rfl

theorem call_serves (hv : d.ring.Valid) (h : d.call p c = some (d',r)) :
    d'.ring.Valid ∧ d'.ring.size = d.ring.size ∧
      (d'.ring.contents,r.result,r.delivered) =
      ByteQueue.serve (d.ring.size-1) d.ring.contents c := by
  have hsum := hv.available
  rw [Ringbuffer.readAvailable_eq] at hsum
  cases c with
  | write noblock data =>
    obtain ⟨hv',hsize,hcontents,-⟩ := Ringbuffer.storeLoop_spec data d.ring hv
    rw [call_write hv] at h
    split at h
    · obtain ⟨rfl,rfl⟩ := Prod.mk.inj (Option.some.inj h)
      refine ⟨hv',hsize,?_⟩
      have hroom : d.ring.size-1-d.ring.contents.length = d.ring.writeAvailable := by omega
      have htake :
          data.take (min data.length d.ring.writeAvailable) = data.take d.ring.writeAvailable := by
        conv_rhs => rw [List.take_eq_take_min]
        rw [Nat.min_comm]
      rw [ByteQueue.serve,hroom]
      refine Prod.ext ?_ (Prod.ext ?_ rfl)
      · exact hcontents.trans (by rw [htake])
      · show ((data.take d.ring.writeAvailable).length : ℤ) = _
        rw [List.length_take,Nat.min_comm]
    · cases h
  | read noblock n =>
    obtain ⟨hv',hsize,hcontents,-⟩ := Ringbuffer.takeLoop_spec n d.ring hv
    have hread := Ringbuffer.readAvailable_eq d.ring
    rw [call_read hv] at h
    split at h
    · rename_i henough
      obtain ⟨rfl,rfl⟩ := Prod.mk.inj (Option.some.inj h)
      refine ⟨hv',hsize,?_⟩
      rw [ByteQueue.serve,if_neg (by omega)]
      have hlen : (d.ring.contents.take n).length = n := by
        rw [List.length_take]
        omega
      have hcount : ¬ (((d.ring.contents.take n).length : ℕ) : ℤ) < 0 := by omega
      exact Prod.ext hcontents (Prod.ext (congrArg Nat.cast hlen) (if_neg (t:=[]) hcount))
    · rename_i hshort
      split at h
      · obtain ⟨rfl,rfl⟩ := Prod.mk.inj (Option.some.inj h)
        refine ⟨hv,rfl,?_⟩
        rw [ByteQueue.serve,if_pos (by omega)]
        rfl
      · cases h

theorem callAll_serves (calls : List (ℕ × PipeCall)) : ∀ {d d' : Pipe}
    {rs : List PipeReturn}, d.ring.Valid →
    callAll calls d = some (d',rs) → d'.ring.Valid ∧ d'.ring.size = d.ring.size ∧
      (d'.ring.contents,rs.map fun r => (r.result,r.delivered)) =
        ByteQueue.serveAll (d.ring.size-1) (calls.map Prod.snd) d.ring.contents := by
  induction calls with
  | nil =>
    intro d d' rs hv h
    obtain ⟨rfl,rfl⟩ := Prod.mk.inj (Option.some.inj h)
    exact ⟨hv,rfl,rfl⟩
  | cons pc calls ih =>
    intro d d' rs hv h
    obtain ⟨p,c⟩ := pc
    obtain ⟨⟨d₁,r⟩,hcall,h⟩ := Option.bind_eq_some_iff.mp h
    obtain ⟨⟨d₂,rs'⟩,hrest,h⟩ := Option.bind_eq_some_iff.mp h
    obtain ⟨rfl,rfl⟩ := Prod.mk.inj (Option.some.inj h)
    obtain ⟨hv₁,hsize₁,hserve⟩ := call_serves hv hcall
    obtain ⟨hv₂,hsize₂,hall⟩ := ih hv₁ hrest
    refine ⟨hv₂,hsize₂.trans hsize₁,?_⟩
    rw [hsize₁] at hall
    rw [List.map_cons,List.map_cons,ByteQueue.serveAll,← hserve]
    dsimp only
    rw [← hall]

/-- For every sequence of calls that do not sleep on a new pipe: the replies, the bytes
handed over and the bytes left are those of a queue with room for one byte less than the
size. What can be read and what can be written add up to this room at any time. Calls with
`O_NOBLOCK` never sleep, and one that reads more than there is leaves the pipe as it is. -/
theorem pipe_refines_queue {size : ℕ} (hsize : 2 ≤ size) {calls : List (ℕ × PipeCall)}
    {rs : List PipeReturn} (h : callAll calls (create size) = some (d,rs)) :
    (d.ring.contents,rs.map fun r => (r.result,r.delivered)) =
        ByteQueue.serveAll (size-1) (calls.map Prod.snd) [] ∧
      d.ring.readAvailable+d.ring.writeAvailable = size-1 ∧
      (∀ p data, (d.call p (.write true data)).isSome) ∧ (∀ p n, (d.call p (.read true n)).isSome) ∧
      ∀ p n, d.ring.contents.length < n →
      d.call p (.read true n) = some (d,⟨.read true n,-EAGAIN,[]⟩) := by
  obtain ⟨hv,hs,hserve⟩ := callAll_serves calls (create_valid hsize) h
  refine ⟨hserve,?_,fun p data => ?_,fun p n => ?_,fun p n hshort => ?_⟩
  · rw [hv.available,hs]
    rfl
  · rw [call_write hv,if_pos (.inr rfl)]
    rfl
  · rw [call_read hv]
    split <;> rfl
  · rw [call_read hv,Ringbuffer.readAvailable_eq,if_neg (not_le.mpr hshort),if_pos rfl]

/-- A pipe of four bytes: five bytes are written of which three fit, then two are read, one
more than the rest is asked for, and two bytes go round the end of the buffer. -/
theorem pipe_refines_queue_round : ∃ d rs, callAll
    [(1,.write true [1,2,3,4,5]),(2,.read false 2),(2,.read true 2),
    (1,.write true [6,7])] (create 4) = some (d,rs) ∧ d.ring.contents = [3,6,7] ∧
      rs.map (fun r => (r.result,r.delivered)) = [(3,[]),(2,[1,2]),(-11,[]),(2,[])] ∧
      d.ring.readAvailable+d.ring.writeAvailable = 3 := by
  obtain ⟨⟨d,rs⟩,h⟩ :=
    Option.isSome_iff_exists.mp (show (callAll [(1,.write true [1,2,3,4,5]),(2,.read false 2),
    (2,.read true 2),(1,.write true [6,7])] (create 4)).isSome = true by decide +kernel)
  obtain ⟨hserve,hsum,-⟩ := pipe_refines_queue (by decide : 2 ≤ 4) h
  have hqueue :
    ByteQueue.serveAll 3 [.write true [1,2,3,4,5],.read false 2,.read true 2,.write true [6,7]] [] =
    ([3,6,7],[(3,[]),(2,[1,2]),(-11,[]),(2,[])]) := by decide
  obtain ⟨hcontents,hreplies⟩ := Prod.mk.inj (hserve.trans hqueue)
  exact ⟨d,rs,h,hcontents,hreplies,hsum⟩

end Pipe
end ScalesOS
