import ScalesOS.HeapRuns

/-!
# Payloads under the heap's calls

Headers are written between the payloads, on a split, a merge and when pages are
added. No such write reaches a byte that belongs to a live allocation.
-/

namespace ScalesOS
namespace Heap

open ByteMemory Block

/-- The payloads of `live` have the same bounds and bytes in both heaps. -/
def Keeps (h h' : Heap) (live : List Allocation) : Prop :=
  ∀ a ∈ live, h'.payloadEnd a = h.payloadEnd a ∧
    ∀ x, a.ptr ≤ x → x < h.payloadEnd a → h'.mem x = h.mem x

/-- Allocated blocks that stay in the chain with their bytes keep the payloads of the
allocations in them. -/
theorem Session.Ok.keeps {s : Session} {bs bs' : List Block} {h' : Heap} {live : List Allocation}
    (hs : s.Ok bs) (hok' : HeapOk h' bs')
    (hlive : ∀ a ∈ live, ∃ b ∈ bs, a.ptr = b.addr+HEADER ∧ b ∈ bs' ∧
      ∀ x, b.Payload x → h'.mem x = s.heap.mem x) : Keeps s.heap h' live := by
  intro a ha
  obtain ⟨b,hb,hptr,hb',hpay⟩ := hlive a ha
  have hend := hs.payloadEnd_eq hb hptr
  obtain ⟨pre,post,rfl⟩ := List.append_of_mem hb'
  have hend' : h'.payloadEnd a = b.stop := by
    rw [payloadEnd,hptr,M_HEADER_addr hok' (by simp),hok'.at.size,stop]
  rw [hend,hend']
  exact ⟨rfl,fun x hlow hhigh => hpay x ⟨by omega,hhigh⟩⟩

theorem Session.Ok.malloc_keeps {pm : PageMapper} {s : Session} {bs : List Block} (hs : s.Ok bs)
    {n p : ℕ} {h' : Heap} (hn : 1 ≤ n) (hret : malloc pm s.heap n = .ok (p,h')) :
    Keeps s.heap h' s.live := by
  obtain ⟨bs',b,hok',-,-,-,-,hkeep⟩ := malloc_spec hs.heapOk hn hret
  refine hs.keeps hok' fun a ha => ?_
  obtain ⟨c,hc,hcf,hcp,-⟩ := hs.owned a ha
  obtain ⟨hc',-,hpay⟩ := hkeep c hc hcf
  exact ⟨c,hc,hcp,hc',hpay⟩

theorem Session.Ok.free_keeps {s : Session} {bs : List Block} (hs : s.Ok bs) {a : Allocation}
    (ha : a ∈ s.live) {h' : Heap} (hret : free s.heap a.ptr = .ok h') :
    Keeps s.heap h' (s.live.erase a) := by
  obtain ⟨b,hb,hbf,hbp,-⟩ := hs.owned a ha
  obtain ⟨h₁,bs',hret₁,hok',-,hkeep⟩ := free_spec hs.heapOk hb hbf
  rw [hbp,hret₁] at hret
  obtain rfl := Except.ok.inj hret
  refine hs.keeps hok' fun c hc => ?_
  obtain ⟨-,d,hd,hdb,hdf,hdp,-⟩ := (hs.erase ha hbp).2 c hc
  obtain ⟨hd',hpay⟩ := hkeep d hd hdf hdb
  exact ⟨d,hd,hdp,hd',hpay⟩

/-- The old block of a `realloc` that returned `p`: it is the block returned, or part
of a free one. -/
def GivenUp (h h' : Heap) (a : Allocation) (p : ℕ) : Prop :=
  p = a.ptr ∨ ∃ b ∈ h'.chain, b.free = true ∧ b.addr ≤ M_HEADER a.ptr ∧ h.payloadEnd a ≤ b.stop

theorem Session.Ok.realloc_keeps {pm : PageMapper} {s : Session} {bs : List Block} (hs : s.Ok bs)
    {a : Allocation} (ha : a ∈ s.live) {n p : ℕ} {h' : Heap} (hn : 1 ≤ n)
    (hret : realloc pm s.heap a.ptr n = .ok (p,h')) :
    Keeps s.heap h' (s.live.erase a) ∧
    (∀ i < min a.requested n, h'.mem (p+i) = s.heap.mem (a.ptr+i)) ∧
    GivenUp s.heap h' a p := by
  obtain ⟨b,hb,hbf,hbp,hbn⟩ := hs.owned a ha
  have hend := hs.payloadEnd_eq hb hbp
  rw [hbp] at hret
  obtain ⟨bs',d,hok',-,-,-,-,hcopy,hold,hkeep⟩ := realloc_spec hs.heapOk hb hbf hn hret
  refine ⟨hs.keeps hok' fun c hc => ?_,fun i hi => ?_,?_⟩
  · obtain ⟨-,e,he,heb,hef,hep,-⟩ := (hs.erase ha hbp).2 c hc
    obtain ⟨he',-,hpay⟩ := hkeep e he hef heb
    exact ⟨e,he,hep,he',hpay⟩
  · obtain ⟨hreq,hin⟩ := lt_min_iff.mp hi
    rw [hbp]
    exact hcopy i (hreq.trans_le hbn) hin
  · rw [GivenUp,hend,hbp,M_HEADER_addr hs.heapOk hb,chain_eq hok']
    exact hold

/-- In every state of a run with requests of at least one byte: no call changes a byte
of a live allocation other than the one it is given, and `realloc` returns a block
that starts with the bytes of the old one, which is free unless it is the block
returned. -/
theorem heap_keeps_payloads (pm : PageMapper) (memory : Mem) {h : Heap}
    (hinit : heapInit memory = .ok h) {s : Session}
    (hrun : Relation.ReflTransGen (Call pm fun n => 1 ≤ n) ⟨h,[]⟩ s) :
    (∀ n p h', 1 ≤ n → malloc pm s.heap n = .ok (p,h') → Keeps s.heap h' s.live) ∧
    ∀ a ∈ s.live,
      (∀ h', free s.heap a.ptr = .ok h' → Keeps s.heap h' (s.live.erase a)) ∧
      ∀ n p h', 1 ≤ n → realloc pm s.heap a.ptr n = .ok (p,h') →
        Keeps s.heap h' (s.live.erase a) ∧
        (∀ i < min a.requested n, h'.mem (p+i) = s.heap.mem (a.ptr+i)) ∧
        GivenUp s.heap h' a p := by
  obtain ⟨bs,hs⟩ := session_ok hinit hrun
  exact ⟨fun n p h' hn hret => hs.malloc_keeps hn hret,fun a ha =>
    ⟨fun h' hret => hs.free_keeps ha hret,fun n p h' hn hret => hs.realloc_keeps ha hn hret⟩⟩

/-- Two allocations, of which the first is enlarged and has to move. -/
theorem heap_keeps_payloads_moved :
    ∃ h s p h', heapInit (fun _ => 0#8) = .ok h ∧
      Relation.ReflTransGen (Call richMapper fun n => 1 ≤ n) ⟨h,[]⟩ s ∧
      s.live = [⟨0xF7001076,50⟩,⟨0xF7001009,100⟩] ∧
      realloc richMapper s.heap 0xF7001009 200 = .ok (p,h') ∧ p ≠ 0xF7001009 ∧
      Keeps s.heap h' [⟨0xF7001076,50⟩] ∧
      (∀ i < 100, h'.mem (p+i) = s.heap.mem (0xF7001009+i)) ∧
      GivenUp s.heap h' ⟨0xF7001009,100⟩ p := by
  have heval : (do
      let h ← heapInit fun _ => 0#8
      let r ← malloc richMapper h 100
      let r' ← malloc richMapper r.2 50
      let q ← realloc richMapper r'.2 0xF7001009 200
      pure (r.1,r'.1,q.1) : Result (ℕ × ℕ × ℕ)) = .ok (0xF7001009,0xF7001076,0xF70010B1) := by
    decide +kernel
  obtain ⟨h,hinit,heval⟩ := Result.bind_eq_ok.mp heval
  obtain ⟨⟨p,h₁⟩,hret₁,heval⟩ := Result.bind_eq_ok.mp heval
  obtain ⟨⟨q,h₂⟩,hret₂,heval⟩ := Result.bind_eq_ok.mp heval
  obtain ⟨⟨r,h₃⟩,hret₃,heval⟩ := Result.bind_eq_ok.mp heval
  obtain ⟨rfl,hrest⟩ := Prod.mk.inj (Except.ok.inj heval)
  obtain ⟨rfl,rfl⟩ := Prod.mk.inj hrest
  have hrun : Relation.ReflTransGen (Call richMapper fun n => 1 ≤ n) ⟨h,[]⟩ _ :=
    (Relation.ReflTransGen.single (Call.malloc (n:=100) (by decide) (by decide) hret₁)).tail
      (Call.malloc (n:=50) (by decide) (by decide) hret₂)
  obtain ⟨hkeep,hbytes,hgone⟩ := ((heap_keeps_payloads richMapper _ hinit hrun).2
    ⟨0xF7001009,100⟩ (by simp)).2 200 _ _ (by decide) hret₃
  exact ⟨h,_,_,h₃,hinit,hrun,rfl,hret₃,by decide,hkeep,
    fun i hi => hbytes i (by simpa using hi),hgone⟩

end Heap
end ScalesOS
