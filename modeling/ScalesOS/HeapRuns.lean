import ScalesOS.HeapChain

/-!
# Runs of the kernel heap

Whole histories of `malloc`, `free` and `realloc`, with the allocations that are
live. Between the calls the owners of live allocations write to their payloads, and
anything may happen outside the heap.
-/

namespace ScalesOS
namespace Heap

open ByteMemory Block

/-- The blocks that a walk from `block` on reaches before the validity test stops it. -/
def reachable (h : Heap) : ℕ → ℕ → List Block
  | 0, _ => []
  | fuel+1, block =>
    if h.memHeapIsValidBlock block then
      ⟨block,h.size block,h.isFree block⟩::reachable h fuel (h.next block)
    else []

def chain (h : Heap) : List Block := reachable h (h.heapSize+1) HEAP_START

theorem reachable_linked {h : Heap} {bs : List Block} {next fuel : ℕ} (hlink : Linked h bs next)
    (hvalid : ∀ b ∈ bs, h.memHeapIsValidBlock b.addr = true)
    (hnext : h.memHeapIsValidBlock next = false) (hfuel : bs.length < fuel) :
    reachable h fuel (headAddr next bs) = bs := by
  induction bs generalizing fuel with
  | nil =>
    obtain ⟨fuel,rfl⟩ : ∃ k, fuel = k+1 := ⟨fuel-1,by simp at hfuel; omega⟩
    simp [reachable,headAddr,hnext]
  | cons b bs ih =>
    obtain ⟨fuel,rfl⟩ : ∃ k, fuel = k+1 := ⟨fuel-1,by simp at hfuel; omega⟩
    have hb := hlink.1
    rw [show headAddr next (b::bs) = b.addr from rfl]
    simp only [reachable,hvalid b (by simp),hb.size,hb.free,hb.next,if_true]
    rw [ih hlink.2 (fun c hc => hvalid c (by simp [hc])) (by simpa using hfuel)]

theorem chain_eq {h : Heap} {bs : List Block} (hok : HeapOk h bs) : h.chain = bs := by
  have hwalk :=
    reachable_linked hok.linked (fun b hb => hok.valid hb) (zero_invalid h) hok.length_lt
  rwa [hok.head] at hwalk

/-- A pointer that has been returned, and the size it was asked for. -/
structure Allocation where
  ptr : ℕ
  requested : ℕ
  deriving DecidableEq

/-- The end of the payload, by the length in the header. -/
def payloadEnd (h : Heap) (a : Allocation) : ℕ := a.ptr+h.size (M_HEADER a.ptr)

structure Session where
  heap : Heap
  live : List Allocation

/-- One call, where requests have a size in `sizes`, or one write outside the
allocator. -/
inductive Call (pm : PageMapper) (sizes : ℕ → Prop) : Session → Session → Prop
  | malloc {s : Session} {n p : ℕ} {h' : Heap} (hn : sizes n) (hlt : n < W32)
      (hret : malloc pm s.heap n = .ok (p,h')) : Call pm sizes s ⟨h',⟨p,n⟩::s.live⟩
  | free {s : Session} {a : Allocation} {h' : Heap} (ha : a ∈ s.live)
      (hret : free s.heap a.ptr = .ok h') : Call pm sizes s ⟨h',s.live.erase a⟩
  | realloc {s : Session} {a : Allocation} {n p : ℕ} {h' : Heap} (ha : a ∈ s.live) (hn : sizes n)
      (hlt : n < W32) (hret : realloc pm s.heap a.ptr n = .ok (p,h')) :
      Call pm sizes s ⟨h',⟨p,n⟩::s.live.erase a⟩
  | store {s : Session} {m : Mem}
      (hm : ∀ x, m x ≠ s.heap.mem x → (∃ a ∈ s.live, a.ptr ≤ x ∧ x < s.heap.payloadEnd a) ∨
        x < HEAP_START ∨ HEAP_START+s.heap.heapSize ≤ x) :
      Call pm sizes s ⟨{ s.heap with mem := m },s.live⟩

/-- Every live allocation is an allocated block of the chain, and no two of them are
the same block. -/
structure Session.Ok (s : Session) (bs : List Block) : Prop where
  heapOk : HeapOk s.heap bs
  owned : ∀ a ∈ s.live, ∃ b ∈ bs, b.free = false ∧ a.ptr = b.addr+HEADER ∧ a.requested ≤ b.size
  distinct : (s.live.map Allocation.ptr).Nodup

theorem Session.Ok.payloadEnd_eq {s : Session} {bs : List Block} (hs : s.Ok bs) {a : Allocation}
    {b : Block} (hb : b ∈ bs) (hptr : a.ptr = b.addr+HEADER) : s.heap.payloadEnd a = b.stop := by
  obtain ⟨pre,post,rfl⟩ := List.append_of_mem hb
  rw [payloadEnd,hptr,M_HEADER_addr hs.heapOk hb,hs.heapOk.at.size,stop]

theorem Session.Ok.erase {s : Session} {bs : List Block} (hs : s.Ok bs) {a : Allocation}
    (ha : a ∈ s.live) {b : Block} (hptr : a.ptr = b.addr+HEADER) :
    ((s.live.erase a).map Allocation.ptr).Nodup ∧ ∀ c ∈ s.live.erase a, c ∈ s.live ∧
      ∃ d ∈ bs, d ≠ b ∧ d.free = false ∧ c.ptr = d.addr+HEADER ∧ c.requested ≤ d.size := by
  refine ⟨hs.distinct.sublist (List.erase_sublist.map _),fun c hc => ?_⟩
  obtain ⟨hne,hc'⟩ := (hs.distinct.of_map _).mem_erase_iff.mp hc
  obtain ⟨d,hd,hdf,hdp,hdn⟩ := hs.owned c hc'
  refine ⟨hc',d,hd,fun he => hne ?_,hdf,hdp,hdn⟩
  exact List.inj_on_of_nodup_map hs.distinct hc' ha (by rw [hptr,hdp,he])

/-- The owners of live allocations and what lies outside the heap do not touch the chain. -/
theorem Session.Ok.store {s : Session} {bs : List Block} (hs : s.Ok bs) {m : Mem}
    (hm : ∀ x, m x ≠ s.heap.mem x → (∃ a ∈ s.live, a.ptr ≤ x ∧ x < s.heap.payloadEnd a) ∨
      x < HEAP_START ∨ HEAP_START+s.heap.heapSize ≤ x) : (⟨{ s.heap with mem := m },s.live⟩ :
      Session).Ok bs := by
  refine ⟨hs.heapOk.store fun x hx => ?_,hs.owned,hs.distinct⟩
  rcases hm x hx with ⟨a,ha,h1,h2⟩ | hout
  · obtain ⟨b,hb,-,hbp,-⟩ := hs.owned a ha
    rw [hs.payloadEnd_eq hb hbp] at h2
    exact .inl ⟨b,hb,by omega,h2⟩
  · exact .inr hout

theorem Session.Ok.released {s : Session} {bs : List Block} (hs : s.Ok bs) {a : Allocation}
    (ha : a ∈ s.live) {h' : Heap} (hret : s.heap.free a.ptr = .ok h') :
    ∃ bs', (⟨h',s.live.erase a⟩ : Session).Ok bs' := by
  obtain ⟨b,hb,hbf,hbp,-⟩ := hs.owned a ha
  obtain ⟨h₁,bs',hret₁,hok',-,hkeep⟩ := free_spec hs.heapOk hb hbf
  rw [hbp,hret₁] at hret
  obtain rfl := Except.ok.inj hret
  obtain ⟨hnd,hrest⟩ := hs.erase ha hbp
  refine ⟨bs',hok',fun c hc => ?_,hnd⟩
  obtain ⟨-,d,hd,hdb,hdf,hdp,hdn⟩ := hrest c hc
  exact ⟨d,(hkeep d hd hdf hdb).1,hdf,hdp,hdn⟩

theorem Call.ok {pm : PageMapper} {s s' : Session} {bs : List Block} (hs : s.Ok bs)
    (hcall : Call pm (fun n => 1 ≤ n) s s') : ∃ bs', s'.Ok bs' := by
  cases hcall with
  | malloc hn hlt hret =>
    obtain ⟨bs',b,hok',hb,hbf,rfl,hbn,hkeep⟩ := malloc_spec hs.heapOk hn hret
    refine ⟨bs',hok',?_,?_⟩
    · intro a ha
      rcases List.mem_cons.mp ha with rfl | ha
      · exact ⟨b,hb,hbf,rfl,hbn⟩
      · obtain ⟨c,hc,hcf,hcp,hcn⟩ := hs.owned a ha
        exact ⟨c,(hkeep c hc hcf).1,hcf,hcp,hcn⟩
    · refine List.nodup_cons.mpr ⟨fun hmem => ?_,hs.distinct⟩
      obtain ⟨a,ha,hap⟩ := List.mem_map.mp hmem
      obtain ⟨c,hc,hcf,hcp,-⟩ := hs.owned a ha
      obtain ⟨hc',hcb,-⟩ := hkeep c hc hcf
      have hapart := (hok'.tiles.eq_or_apart hc' hb).resolve_left hcb
      simp only [stop,HEADER] at *
      omega
  | free ha hret => exact hs.released ha hret
  | realloc ha hn hlt hret =>
    rename_i a n p h'
    obtain ⟨b,hb,hbf,hbp,-⟩ := hs.owned a ha
    rw [hbp] at hret
    obtain ⟨bs',d,hok',hd,hdf,rfl,hdn,-,-,hkeep⟩ := realloc_spec hs.heapOk hb hbf hn hret
    obtain ⟨hnd,hrest⟩ := hs.erase ha hbp
    refine ⟨bs',hok',?_,?_⟩
    · intro c hc
      rcases List.mem_cons.mp hc with rfl | hc
      · exact ⟨d,hd,hdf,rfl,hdn⟩
      · obtain ⟨-,e,he,heb,hef,hep,hen⟩ := hrest c hc
        exact ⟨e,(hkeep e he hef heb).1,hef,hep,hen⟩
    · refine List.nodup_cons.mpr ⟨fun hmem => ?_,hnd⟩
      obtain ⟨c,hc,hcp⟩ := List.mem_map.mp hmem
      obtain ⟨-,e,he,heb,hef,hep,-⟩ := hrest c hc
      obtain ⟨he',hed,-⟩ := hkeep e he hef heb
      have hapart := (hok'.tiles.eq_or_apart he' hd).resolve_left hed
      simp only [stop,HEADER] at *
      omega
  | store hm => exact ⟨bs,hs.store hm⟩

theorem memHeapInitBlock_ne_loop (h : Heap) (block size : ℕ) :
    memHeapInitBlock h block size ≠ .error .loop := by
  rw [memHeapInitBlock]
  split <;> simp

theorem memSplitBlock_ne_loop (h : Heap) (src size : ℕ) :
    memSplitBlock h src size ≠ .error .loop := by
  rw [memSplitBlock]
  split
  · simp
  · split
    · simp
    · split
      · simp
      · exact Result.bind_ne_loop (memHeapInitBlock_ne_loop _ _ _) fun _ _ => by simp

theorem mallocTake_ne_loop (h : Heap) (size block : ℕ) :
    mallocTake h size block ≠ .error .loop := by
  simp only [mallocTake]
  split
  · refine Result.bind_ne_loop (memSplitBlock_ne_loop _ _ _) fun r _ => ?_
    split
    · exact fun hc => by cases hc
    · simp
  · simp

theorem memGrowHeap_ne_loop (pm : PageMapper) (h : Heap) (pages : ℕ) :
    memGrowHeap pm h pages ≠ .error .loop := by
  simp only [memGrowHeap]
  split
  · simp
  · split
    · simp
    · split <;> simp

theorem mallocGrow_ne_loop (pm : PageMapper) (h : Heap) (size last : ℕ) :
    mallocGrow pm h size last ≠ .error .loop := by
  refine Result.bind_ne_loop (memGrowHeap_ne_loop _ _ _) fun block _ => ?_
  split
  · exact fun hc => by cases hc
  · exact Result.bind_ne_loop (memHeapInitBlock_ne_loop _ _ _) fun _ _ => by simp

theorem malloc_ne_loop {pm : PageMapper} {h : Heap} {bs : List Block} (hok : HeapOk h bs) (n : ℕ) :
    malloc pm h n ≠ .error .loop := by
  have hspec := mallocSearch_spec n HEAP_START [] hok hok.length_lt
  rw [hok.head] at hspec
  refine Result.bind_ne_loop ?_ fun found _ => ?_
  · rcases hspec with ⟨_,_,_,_,_,_,heq⟩ | heq <;> rw [heq] <;> simp
  · split
    · exact mallocTake_ne_loop _ _ _
    · exact Result.bind_ne_loop (mallocGrow_ne_loop _ _ _ _) fun r _ => mallocTake_ne_loop _ _ _

theorem realloc_ne_loop {pm : PageMapper} {h : Heap} {bs : List Block} (hok : HeapOk h bs)
    {b : Block} (hb : b ∈ bs) (halloc : b.free = false) {n : ℕ} (hn : 1 ≤ n) :
    realloc pm h (b.addr+HEADER) n ≠ .error .loop := by
  simp only [realloc]
  split
  · simp
  · refine Result.bind_ne_loop (malloc_ne_loop hok n) fun r hr => ?_
    obtain ⟨p,h₁⟩ := r
    obtain ⟨bs₁,d,hok₁,hd,hdf,rfl,hdn,hkeep⟩ := malloc_spec hok hn hr
    obtain ⟨hb₁,-,-⟩ := hkeep b hb halloc
    refine Result.bind_ne_loop ?_ fun _ _ => by simp
    have hok₂ := hok₁.store_copy hd (b.addr+HEADER)
      (if h₁.size (M_HEADER (b.addr+HEADER)) < n then h₁.size (M_HEADER (b.addr+HEADER)) else n)
      (by split <;> omega)
    obtain ⟨h₃,-,hret₃,-⟩ := free_spec hok₂ hb₁ halloc
    simp [hret₃]

theorem heapInit_ok {memory : Mem} {h : Heap} (hinit : heapInit memory = .ok h) :
    (⟨h,[]⟩ : Session).Ok [⟨HEAP_START,HEAP_INITIAL_SIZE-HEADER,true⟩] := by
  obtain ⟨-,rfl⟩ := memHeapInitBlock_eq hinit
  refine ⟨⟨⟨⟨?_,?_,?_⟩,trivial⟩,?_,?_,by simp⟩,by simp,by simp⟩
  · simp [HEAP_INITIAL_SIZE,HEADER]
  · simp [isFree,M_BLOCK_FREE]
  · simp [headAddr]
  · exact ⟨rfl,by decide,(by decide : HEAP_START+HEADER+(HEAP_INITIAL_SIZE-HEADER) =
      HEAP_START+HEAP_INITIAL_SIZE)⟩
  · exact (by decide : HEAP_START+HEAP_INITIAL_SIZE ≤ HEAP_END)

theorem session_ok {pm : PageMapper} {memory : Mem} {h : Heap} (hinit : heapInit memory = .ok h)
    {s : Session} (hrun : Relation.ReflTransGen (Call pm fun n => 1 ≤ n) ⟨h,[]⟩ s) :
    ∃ bs, s.Ok bs :=
  reach_invariant (I:=fun s => ∃ bs, Session.Ok s bs) (fun _ _ ⟨_,hs⟩ hc => hc.ok hs)
    ⟨_,heapInit_ok hinit⟩ hrun

theorem Session.Ok.apart {s : Session} {bs : List Block} (hs : s.Ok bs) {a c : Allocation}
    (ha : a ∈ s.live) (hc : c ∈ s.live) (hne : a.ptr ≠ c.ptr) : s.heap.payloadEnd a ≤ c.ptr ∨
    s.heap.payloadEnd c ≤ a.ptr := by
  obtain ⟨b,hb,-,hbp,-⟩ := hs.owned a ha
  obtain ⟨d,hd,-,hdp,-⟩ := hs.owned c hc
  rw [hs.payloadEnd_eq hb hbp,hs.payloadEnd_eq hd hdp]
  have hbd : b ≠ d := fun he => hne (by rw [hbp,hdp,he])
  have := (hs.heapOk.tiles.eq_or_apart hb hd).resolve_left hbd
  omega

theorem Session.Ok.disjoint {s : Session} {bs : List Block} (hs : s.Ok bs) :
    s.live.Pairwise fun a c => s.heap.payloadEnd a ≤ c.ptr ∨ s.heap.payloadEnd c ≤ a.ptr := by
  have hne : s.live.Pairwise fun a c => a.ptr ≠ c.ptr := List.pairwise_map.mp hs.distinct
  exact hne.imp_of_mem fun {a c} ha hc hac => hs.apart ha hc hac

/-- In every state of a run with requests of at least one byte, the chain of headers
is increasing, ends in 0 and tiles the heap; the payloads of live allocations are
disjoint, inside the heap and long enough; and the next call returns or panics. -/
theorem heap_chain_tiles (pm : PageMapper) (memory : Mem) {h : Heap}
    (hinit : heapInit memory = .ok h) {s : Session}
    (hrun : Relation.ReflTransGen (Call pm fun n => 1 ≤ n) ⟨h,[]⟩ s) :
    headAddr 0 s.heap.chain = HEAP_START ∧ Linked s.heap s.heap.chain 0 ∧
    (s.heap.chain.Pairwise fun b c => b.addr < c.addr) ∧
    Tiles HEAP_START s.heap.chain (HEAP_START+s.heap.heapSize) ∧
    (∀ a ∈ s.live, HEAP_START ≤ a.ptr ∧ s.heap.payloadEnd a ≤ HEAP_START+s.heap.heapSize ∧
      a.ptr+a.requested ≤ s.heap.payloadEnd a) ∧
    (s.live.Pairwise fun a c => s.heap.payloadEnd a ≤ c.ptr ∨ s.heap.payloadEnd c ≤ a.ptr) ∧
    (∀ n, malloc pm s.heap n ≠ .error .loop) ∧
    (∀ a ∈ s.live, (∃ h', free s.heap a.ptr = .ok h') ∧
      ∀ n, 1 ≤ n → realloc pm s.heap a.ptr n ≠ .error .loop) := by
  obtain ⟨bs,hs⟩ := session_ok hinit hrun
  rw [chain_eq hs.heapOk]
  refine ⟨hs.heapOk.head,hs.heapOk.linked,?_,hs.heapOk.tiles,fun a ha => ?_,hs.disjoint,
    malloc_ne_loop hs.heapOk,fun a ha => ?_⟩
  · refine hs.heapOk.tiles.pairwise.imp fun {b c} h => ?_
    simp only [stop,HEADER] at h
    omega
  · obtain ⟨b,hb,-,hbp,hbn⟩ := hs.owned a ha
    obtain ⟨hlow,-,hstop,-⟩ := hs.heapOk.bounds hb
    rw [hs.payloadEnd_eq hb hbp]
    refine ⟨by omega,hstop,?_⟩
    simp only [stop]
    omega
  · obtain ⟨b,hb,hbf,hbp,-⟩ := hs.owned a ha
    rw [hbp]
    obtain ⟨h',-,hret,-⟩ := free_spec hs.heapOk hb hbf
    exact ⟨⟨h',hret⟩,fun n hn => realloc_ne_loop hs.heapOk hb hbf hn⟩

def richMapper : PageMapper where
  mapRegion addr pages :=
    if addr+pages*0x1000 ≤ USABLE_MEMORY_END then .ok () else .error "Remapping"
  below addr pages h := by
    split at h
    · assumption
    · cases h

theorem heap_chain_tiles_grown :
    ∃ h s, heapInit (fun _ => 0#8) = .ok h ∧
      Relation.ReflTransGen (Call richMapper fun n => 1 ≤ n) ⟨h,[]⟩ s ∧
      s.live = [⟨0xF7005009,0x5000⟩,⟨0xF7001009,100⟩] ∧
      Tiles HEAP_START s.heap.chain (HEAP_START+s.heap.heapSize) := by
  have heval : (do
      let h ← heapInit fun _ => 0#8
      let r ← malloc richMapper h 100
      let r' ← malloc richMapper r.2 0x5000
      pure (r.1,r'.1) : Result (ℕ × ℕ)) = .ok (0xF7001009,0xF7005009) := by decide +kernel
  obtain ⟨h,hinit,heval⟩ := Result.bind_eq_ok.mp heval
  obtain ⟨⟨p,h₁⟩,hret₁,heval⟩ := Result.bind_eq_ok.mp heval
  obtain ⟨⟨q,h₂⟩,hret₂,heval⟩ := Result.bind_eq_ok.mp heval
  obtain ⟨rfl,rfl⟩ := Prod.mk.inj (Except.ok.inj heval)
  have hrun : Relation.ReflTransGen (Call richMapper fun n => 1 ≤ n) ⟨h,[]⟩ _ :=
    (Relation.ReflTransGen.single (Call.malloc (n:=100) (by decide) (by decide) hret₁)).tail
      (Call.malloc (n:=0x5000) (by decide) (by decide) hret₂)
  exact ⟨h,_,hinit,hrun,rfl,(heap_chain_tiles richMapper _ hinit hrun).2.2.2.1⟩

/-- No block is lost: the blocks that a walk reaches cover the heap, and those of the
live allocations are among them. -/
def Session.Covered (s : Session) : Prop :=
  Tiles HEAP_START s.heap.chain (HEAP_START+s.heap.heapSize) ∧
  ∀ a ∈ s.live, ∃ b ∈ s.heap.chain, b.free = false ∧ a.ptr = b.addr+HEADER

theorem Session.Ok.covered {s : Session} {bs : List Block} (hs : s.Ok bs) : s.Covered := by
  rw [Session.Covered,chain_eq hs.heapOk]
  refine ⟨hs.heapOk.tiles,fun a ha => ?_⟩
  obtain ⟨b,hb,hbf,hbp,-⟩ := hs.owned a ha
  exact ⟨b,hb,hbf,hbp⟩

theorem mallocTake_zero {h h' : Heap} {pre post : List Block} {b : Block} {p : ℕ}
    (hok : HeapOk h (pre++b::post)) (hroom : HEADER+1 ≤ b.size)
    (hret : mallocTake h 0 b.addr = .ok (p,h')) :
    h'.size b.addr = 0 ∧ h'.heapSize = h.heapSize ∧ ∀ x, x < b.addr → h'.mem x = h.mem x := by
  have hlt : HEAP_END < W32 := by decide
  obtain ⟨-,-,hstop,hend⟩ := hok.bounds (b:=b) (by simp)
  simp only [stop,HEADER,W32] at hstop hroom hlt
  have hsmall : ¬ b.size < (0+HEADER+1)%W32 := by simp only [HEADER,W32]; omega
  simp only [mallocTake,hok.at.size] at hret
  rw [if_pos (by omega)] at hret
  obtain ⟨⟨c,r⟩,hsplit,hret⟩ := Result.bind_eq_ok.mp hret
  simp only [memSplitBlock,hok.valid (b:=b) (by simp),hok.at.size,Bool.not_true,
    Bool.false_eq_true,if_false,Nat.not_lt_zero,hsmall] at hsplit
  obtain ⟨h₁,hinit,hsplit⟩ := Result.bind_eq_ok.mp hsplit
  obtain ⟨-,rfl⟩ := memHeapInitBlock_eq hinit
  obtain ⟨rfl,rfl⟩ := Prod.mk.inj (Except.ok.inj hsplit)
  obtain ⟨rfl,rfl⟩ := Prod.mk.inj (Except.ok.inj hret)
  have hq : (M_MEMORY b.addr+0)%W32 = b.addr+HEADER+0 := by
    rw [M_MEMORY,Nat.mod_eq_of_lt (a:=b.addr+HEADER) (by simp only [HEADER,W32]; omega)]
    exact Nat.mod_eq_of_lt (by simp only [HEADER,W32]; omega)
  rw [hq]
  obtain ⟨hlink,hmem⟩ := split_headers (n:=0) (d:=(b.size-0+W32-HEADER)%W32) hok.at rfl
    (by simp only [HEADER,W32]; omega) (Nat.mod_lt _ (by decide))
  refine ⟨?_,rfl,fun x hx => ?_⟩
  · exact (size_setFlags _ _ _).trans hlink.1.size
  · exact (mem_setFlags _ _ _ (.inl hx)).trans (hmem x (.inl hx))

/-- A request of zero bytes that returns cuts the chain at the block it took. -/
theorem malloc_zero_uncovered {pm : PageMapper} {s : Session} {bs : List Block} (hs : s.Ok bs)
    {p : ℕ} {h' : Heap} (hret : malloc pm s.heap 0 = .ok (p,h')) (live : List Allocation) :
    ¬ Session.Covered ⟨h',live⟩ := by
  obtain ⟨r,pre,b,post,hok,-,hroom,-,-,htake⟩ := malloc_choice hs.heapOk hret
  obtain ⟨hzero,hsize,hmem⟩ := mallocTake_zero hok (hroom rfl) htake
  obtain ⟨m,hpre,hb,hpos,hpost⟩ := tiles_append.mp hok.tiles
  obtain rfl := hb
  have hbelow : ∀ c ∈ pre, c.stop ≤ b.addr := fun c hc => (hpre.mem hc).2.2
  have hlink : Linked h' pre b.addr :=
    (linked_append.mp hok.linked).1.congr fun c hc x _ hx => hmem x (by
      have := hbelow c hc
      simp only [stop] at this
      omega)
  have hend := hpost.le
  have hchain : h'.chain = pre := by
    have hvalid : ∀ c ∈ pre, h'.memHeapIsValidBlock c.addr = true := by
      intro c hc
      obtain ⟨xs,ys,rfl⟩ := List.append_of_mem hc
      have hat := (linked_append.mp hlink).2.1
      obtain ⟨hlow,hcpos,hcstop⟩ := hpre.mem hc
      refine at_valid hat (hsize ▸ hok.fits) hlow hcpos (hcstop.trans ?_)
      simp only [stop] at hend
      omega
    have hinv : h'.memHeapIsValidBlock b.addr = false := by
      simp [memHeapIsValidBlock,hzero]
    have hfuel : pre.length < h'.heapSize+1 := by
      have := hok.length_lt
      simp at this
      omega
    have hwalk := reachable_linked hlink hvalid hinv hfuel
    have hstart : headAddr b.addr pre = HEAP_START := (headAddr_append 0 pre _).symm.trans hok.head
    rwa [hstart] at hwalk
  rintro ⟨htiles,-⟩
  simp only [hchain,hsize] at htiles
  have := hpre.end_unique htiles
  simp only [stop,HEADER] at hend
  omega

/-- As long as every request has at least one byte, no block is lost. The first
request of zero bytes that returns loses blocks. -/
theorem blocks_kept_until_zero_request (pm : PageMapper) (memory : Mem) {h : Heap}
    (hinit : heapInit memory = .ok h) {s : Session}
    (hrun : Relation.ReflTransGen (Call pm fun n => 1 ≤ n) ⟨h,[]⟩ s) :
    s.Covered ∧ ∀ p h', malloc pm s.heap 0 = .ok (p,h') → ¬ Session.Covered ⟨h',⟨p,0⟩::s.live⟩ := by
  obtain ⟨bs,hs⟩ := session_ok hinit hrun
  exact ⟨hs.covered,fun p h' hret => malloc_zero_uncovered hs hret _⟩

theorem blocks_kept_until_zero_request_hundred :
    ∃ h s, heapInit (fun _ => 0#8) = .ok h ∧
      Relation.ReflTransGen (Call richMapper fun n => 1 ≤ n) ⟨h,[]⟩ s ∧
      s.live = [⟨0xF7001009,100⟩] ∧ s.Covered := by
  have heval : (do
      let h ← heapInit fun _ => 0#8
      let r ← malloc richMapper h 100
      pure r.1 : Result ℕ) = .ok 0xF7001009 := by decide +kernel
  obtain ⟨h,hinit,heval⟩ := Result.bind_eq_ok.mp heval
  obtain ⟨⟨p,h₁⟩,hret,heval⟩ := Result.bind_eq_ok.mp heval
  obtain rfl := Except.ok.inj heval
  have hrun := Relation.ReflTransGen.single (r:=Call richMapper fun n => 1 ≤ n) (a:=⟨h,[]⟩)
    (Call.malloc (n:=100) (by decide) (by decide) hret)
  exact ⟨h,_,hinit,hrun,rfl,(blocks_kept_until_zero_request richMapper _ hinit hrun).1⟩

/-- The first call after boot asks for zero bytes. The walk then reaches no block at
all, neither the live one nor the rest of the heap. -/
theorem zero_request_loses_heap :
    ∃ h s, heapInit (fun _ => 0#8) = .ok h ∧ Call richMapper (fun _ => True) ⟨h,[]⟩ s ∧
      s.live = [⟨0xF7001009,0⟩] ∧ s.heap.chain = [] ∧ ¬ s.Covered := by
  have heval : (do
      let h ← heapInit fun _ => 0#8
      let r ← malloc richMapper h 0
      pure (r.1,r.2.chain) : Result (ℕ × List Block)) = .ok (0xF7001009,[]) := by decide +kernel
  obtain ⟨h,hinit,heval⟩ := Result.bind_eq_ok.mp heval
  obtain ⟨⟨p,h₁⟩,hret,heval⟩ := Result.bind_eq_ok.mp heval
  obtain ⟨rfl,hchain⟩ := Prod.mk.inj (Except.ok.inj heval)
  refine ⟨h,_,hinit,Call.malloc (n:=0) trivial (by decide) hret,rfl,hchain,?_⟩
  rintro ⟨-,hlive⟩
  obtain ⟨b,hb,-⟩ := hlive ⟨0xF7001009,0⟩ (by simp)
  simp only [hchain] at hb
  cases hb

end Heap
end ScalesOS
