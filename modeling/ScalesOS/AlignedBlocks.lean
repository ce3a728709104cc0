import ScalesOS.HeapPayloads

/-!
# Aligned allocations

`valloc` asks for more than it needs, goes up to the next aligned address behind a word of the
block, and keeps in that word where the block starts; `vfree` reads it from there.
-/

namespace ScalesOS
namespace Heap

open ByteMemory Block

/-- `(size_t)p & ~(alignment-1)` -/
def alignDown (p alignment : ℕ) : ℕ :=
  (BitVec.ofNat 32 p &&& ~~~(BitVec.ofNat 32 alignment-1#32)).toNat

def valloc (pm : PageMapper) (h : Heap) (size alignment : ℕ) : Result (ℕ × Heap) := do
  let offset := (alignment+W32-1+4)%W32
  let (p1,h) ← malloc pm h ((size+offset)%W32)
  let p2 := alignDown ((p1+offset)%W32) alignment
  pure (p2,{ h with mem := write32 h.mem ((p2+W32-4)%W32) p1 })

def vfree (h : Heap) (mem : ℕ) : Result Heap := free h (read32 h.mem ((mem+W32-4)%W32))

theorem alignDown_eq {p k : ℕ} (hk : k < 32) (hp : p < W32) : alignDown p (2^k) = p/2^k*2^k := by
  have hmask : BitVec.ofNat 32 (2^k)-1#32 = BitVec.ofNat 32 (2^k-1) := by
    have hpow : 2^k < 2^32 := Nat.pow_lt_pow_right (by decide) hk
    have hpos := Nat.two_pow_pos k
    apply BitVec.eq_of_toNat_eq
    rw [BitVec.toNat_sub,BitVec.toNat_ofNat,BitVec.toNat_ofNat,BitVec.toNat_ofNat]
    omega
  have hshift :
      BitVec.ofNat 32 p &&& ~~~(BitVec.ofNat 32 (2^k)-1#32) = BitVec.ofNat 32 p >>> k <<< k := by
    rw [hmask]
    apply BitVec.eq_of_getLsbD_eq
    intro i hi
    simp only [BitVec.getLsbD_and,BitVec.getLsbD_not,BitVec.getLsbD_ofNat,
      Nat.testBit_two_pow_sub_one,
      BitVec.getLsbD_shiftLeft,BitVec.getLsbD_ushiftRight,hi,decide_true,Bool.true_and]
    by_cases hik : i < k
    · simp [hik]
    · have hback : k+(i-k) = i := by omega
      simp [hik,hback,hi]
  have hle : p/2^k*2^k ≤ p := Nat.div_mul_le_self p (2^k)
  rw [alignDown,hshift,BitVec.toNat_shiftLeft,BitVec.toNat_ushiftRight,BitVec.toNat_ofNat,
    Nat.mod_eq_of_lt hp,Nat.shiftRight_eq_div_pow,Nat.shiftLeft_eq]
  exact Nat.mod_eq_of_lt (hle.trans_lt hp)

/-- An aligned allocation: the block of `malloc`, the address returned and what was asked for. -/
structure Aligned where
  block : Allocation
  ptr : ℕ
  size : ℕ
  alignment : ℕ
  deriving DecidableEq

/-- The aligned bytes and the word in front of them lie in the block, and the word holds its
start. -/
structure Aligned.Fits (v : Aligned) (h : Heap) : Prop where
  aligned : v.alignment ∣ v.ptr
  slot_inside : v.block.ptr+4 ≤ v.ptr
  inside : v.ptr+v.size ≤ v.block.ptr+v.block.requested
  slot : read32 h.mem (v.ptr-4) = v.block.ptr

/-- What `valloc` is asked for: an alignment of at least a word, and sizes that an `int` holds. -/
structure Request (size alignment : ℕ) : Prop where
  power : ∃ k, alignment = 2^k
  word : 4 ≤ alignment
  small : size+alignment+3 < 2^31

theorem Session.Ok.requested_le {s : Session} {bs : List Block} (hs : s.Ok bs) {a : Allocation}
    (ha : a ∈ s.live) :
    HEAP_START ≤ a.ptr ∧ a.ptr+a.requested ≤ s.heap.payloadEnd a ∧
      s.heap.payloadEnd a ≤ HEAP_START+s.heap.heapSize ∧ HEAP_START+s.heap.heapSize ≤ HEAP_END := by
  obtain ⟨b,hb,-,hptr,hreq⟩ := hs.owned a ha
  obtain ⟨hlow,-,hstop,hend⟩ := hs.heapOk.bounds hb
  rw [hs.payloadEnd_eq hb hptr]
  simp only [stop] at hstop ⊢
  omega

/-- The aligned address lies behind a word of the block, and the bytes asked for fit behind it. -/
theorem alignDown_spec {p size alignment : ℕ} (hreq : Request size alignment)
    (hp : p+alignment+3 < W32) :
    alignment ∣ alignDown (p+alignment+3) alignment ∧ p+4 ≤ alignDown (p+alignment+3) alignment ∧
      alignDown (p+alignment+3) alignment ≤ p+alignment+3 := by
  obtain ⟨k,rfl⟩ := hreq.power
  have hk : k < 32 := by
    have hlt : 2^k < 2^32 := by
      have := hreq.small
      omega
    exact (Nat.pow_lt_pow_iff_right (by decide)).mp hlt
  have hdiv := Nat.div_add_mod' (p+2^k+3) (2^k)
  have hmod := Nat.mod_lt (p+2^k+3) (Nat.two_pow_pos k)
  rw [alignDown_eq hk hp]
  exact ⟨Nat.dvd_mul_left _ _,by omega,by omega⟩

/-- `valloc` is `malloc` and then a store in the block that it returned. -/
theorem valloc_spec {pm : PageMapper} {s : Session} {bs : List Block} (hs : s.Ok bs)
    {size alignment p : ℕ} {h' : Heap} (hreq : Request size alignment)
    (hret : valloc pm s.heap size alignment = .ok (p,h')) :
    ∃ p₁ h₁, malloc pm s.heap (size+alignment+3) = .ok (p₁,h₁) ∧
      (⟨⟨p₁,size+alignment+3⟩,p,size,alignment⟩ : Aligned).Fits h' ∧
      h' = { h₁ with mem := write32 h₁.mem (p-4) p₁ } := by
  have hsmall := hreq.small
  have hword := hreq.word
  have hend : HEAP_END < W32 := by decide
  have hoffset : (alignment+W32-1+4)%W32 = alignment+3 := by
    simp only [W32]
    omega
  have hsize : (size+(alignment+3))%W32 = size+alignment+3 := by
    simp only [W32]
    omega
  obtain ⟨⟨p₁,h₁⟩,hmalloc,hret⟩ := Result.bind_eq_ok.mp hret
  rw [hoffset,hsize] at hmalloc
  obtain ⟨bs₁,hs₁⟩ := (Call.malloc (by omega) (by simp only [W32]; omega) hmalloc :
    Call pm (fun n => 1 ≤ n) s ⟨h₁,⟨p₁,size+alignment+3⟩::s.live⟩).ok hs
  obtain ⟨-,hpay,hbelow,hfit⟩ := hs₁.requested_le (a:=⟨p₁,size+alignment+3⟩) (by simp)
  have hsum : (p₁+(alignment+3))%W32 = p₁+alignment+3 := by
    rw [← Nat.add_assoc]
    exact Nat.mod_eq_of_lt (by simp only at hpay hbelow hfit; omega)
  obtain ⟨hdvd,hslot,hle⟩ := alignDown_spec (p:=p₁) hreq (by simp only at hpay hbelow hfit; omega)
  obtain ⟨hp,hheap⟩ := Prod.mk.inj (Except.ok.inj hret)
  rw [hoffset,hsum] at hp
  have hback : (p+W32-4)%W32 = p-4 := by
    simp only at hpay hbelow hfit
    simp only [W32] at hend ⊢
    omega
  rw [hoffset,hsum,hp,hback] at hheap
  rw [hp] at hdvd hslot hle
  refine ⟨p₁,h₁,hmalloc,⟨hdvd,hslot,?_,?_⟩,hheap.symm⟩
  · simp only
    omega
  · simp only [← hheap,read32_write32]
    exact Nat.mod_eq_of_lt (by simp only [W32] at hend; simp only at hpay hbelow hfit; omega)

/-- The allocations of a heap; those in `aligned` came from `valloc`. -/
structure Holdings where
  session : Session
  aligned : List Aligned

/-- The addresses that the owners may write: the whole block after `malloc`, and the bytes asked
for after `valloc`. -/
def Holdings.Writes (s : Holdings) (x : ℕ) : Prop :=
  (∃ a ∈ s.session.live, (∀ v ∈ s.aligned, v.block ≠ a) ∧ a.ptr ≤ x ∧
    x < s.session.heap.payloadEnd a) ∨ (∃ v ∈ s.aligned, v.ptr ≤ x ∧ x < v.ptr+v.size) ∨
    x < HEAP_START ∨ HEAP_START+s.session.heap.heapSize ≤ x

/-- One call or one write; a block of `valloc` is only given to `vfree`. -/
inductive Holdings.Step (pm : PageMapper) : Holdings → Holdings → Prop
  | malloc {s : Holdings} {n p : ℕ} {h' : Heap} (hn : 1 ≤ n) (hlt : n < W32)
      (hret : malloc pm s.session.heap n = .ok (p,h')) :
      Step pm s ⟨⟨h',⟨p,n⟩::s.session.live⟩,s.aligned⟩
  | free {s : Holdings} {a : Allocation} {h' : Heap} (ha : a ∈ s.session.live)
      (hplain : ∀ v ∈ s.aligned, v.block ≠ a)
      (hret : free s.session.heap a.ptr = .ok h') :
      Step pm s ⟨⟨h',s.session.live.erase a⟩,s.aligned⟩
  | realloc {s : Holdings} {a : Allocation} {n p : ℕ} {h' : Heap} (ha : a ∈ s.session.live)
      (hplain : ∀ v ∈ s.aligned, v.block ≠ a) (hn : 1 ≤ n) (hlt : n < W32)
      (hret : realloc pm s.session.heap a.ptr n = .ok (p,h')) :
      Step pm s ⟨⟨h',⟨p,n⟩::s.session.live.erase a⟩,s.aligned⟩
  | valloc {s : Holdings} {size alignment p p₁ : ℕ} {h₁ h' : Heap} (hreq : Request size alignment)
      (hmalloc : malloc pm s.session.heap (size+alignment+3) = .ok (p₁,h₁))
      (hret : valloc pm s.session.heap size alignment = .ok (p,h')) :
      Step pm s ⟨⟨h',⟨p₁,size+alignment+3⟩::s.session.live⟩,
        ⟨⟨p₁,size+alignment+3⟩,p,size,alignment⟩::s.aligned⟩
  | vfree {s : Holdings} {v : Aligned} {h' : Heap} (hv : v ∈ s.aligned)
      (hret : vfree s.session.heap v.ptr = .ok h') :
      Step pm s ⟨⟨h',s.session.live.erase v.block⟩,s.aligned.erase v⟩
  | store {s : Holdings} {m : Mem} (hm : ∀ x, m x ≠ s.session.heap.mem x → s.Writes x) :
      Step pm s ⟨⟨{ s.session.heap with mem := m },s.session.live⟩,s.aligned⟩

/-- Every aligned allocation is in a live block of its own, and its word is intact. -/
structure Holdings.Ok (s : Holdings) (bs : List Block) : Prop where
  session : s.session.Ok bs
  live : ∀ v ∈ s.aligned, v.block ∈ s.session.live
  fits : ∀ v ∈ s.aligned, v.Fits s.session.heap
  distinct : (s.aligned.map Aligned.block).Nodup

theorem Aligned.Fits.keep {h h' : Heap} {v : Aligned} {live : List Allocation} (hv : v.Fits h)
    (hkeep : Keeps h h' live) (hlive : v.block ∈ live)
    (hend : v.block.ptr+v.block.requested ≤ h.payloadEnd v.block) :
    v.Fits h' := by
  have hslot := hv.slot_inside
  have hinside := hv.inside
  refine ⟨hv.aligned,hslot,hinside,?_⟩
  rw [read32_congr fun x hlow hhigh => (hkeep v.block hlive).2 x (by omega) (by omega)]
  exact hv.slot

theorem Holdings.Ok.requested_le {s : Holdings} {bs : List Block} (hs : s.Ok bs) {v : Aligned}
    (hv : v ∈ s.aligned) :
    v.block.ptr+v.block.requested ≤ s.session.heap.payloadEnd v.block :=
  (hs.session.requested_le (hs.live v hv)).2.1

theorem Holdings.Ok.vfree_eq {s : Holdings} {bs : List Block} (hs : s.Ok bs) {v : Aligned}
    (hv : v ∈ s.aligned) :
    vfree s.session.heap v.ptr = free s.session.heap v.block.ptr := by
  obtain ⟨-,hslot,hinside,hword⟩ := hs.fits v hv
  obtain ⟨-,hpay,hbelow,hfit⟩ := hs.session.requested_le (hs.live v hv)
  have hend : HEAP_END < W32 := by decide
  have hback : (v.ptr+W32-4)%W32 = v.ptr-4 := by
    simp only [W32] at hend ⊢
    omega
  rw [vfree,hback,hword]

/-- The aligned allocations that stay keep their word if the payloads of the live ones are kept. -/
theorem Holdings.Ok.keep {s : Holdings} {bs bs' : List Block} (hs : s.Ok bs) {session : Session}
    {aligned : List Aligned} {live : List Allocation} (hsession : session.Ok bs')
    (hkeep : Keeps s.session.heap session.heap live) (hsub : aligned.Sublist s.aligned)
    (hlive : ∀ v ∈ aligned, v.block ∈ live ∧ v.block ∈ session.live) :
    (⟨session,aligned⟩ : Holdings).Ok bs' where
  session := hsession
  live v hv := (hlive v hv).2
  fits v hv := (hs.fits v (hsub.subset hv)).keep hkeep (hlive v hv).1
    (hs.requested_le (hsub.subset hv))
  distinct := hs.distinct.sublist (hsub.map _)

/-- A store where the owners write keeps the words of the aligned allocations. -/
theorem Holdings.Ok.store {s : Holdings} {bs : List Block} (hs : s.Ok bs) {m : Mem}
    (hm : ∀ x, m x ≠ s.session.heap.mem x → s.Writes x) :
    (⟨⟨{ s.session.heap with mem := m },s.session.live⟩,s.aligned⟩ : Holdings).Ok bs where
  session := hs.session.store fun x hx => by
    rcases hm x hx with ⟨a,ha,-,hax⟩ | ⟨v,hv,hlow,hhigh⟩ | hout
    · exact .inl ⟨a,ha,hax⟩
    · obtain ⟨-,hslot,hinside,-⟩ := hs.fits v hv
      have := hs.requested_le hv
      exact .inl ⟨v.block,hs.live v hv,by omega,by omega⟩
    · exact .inr hout
  live := hs.live
  fits v hv := by
    obtain ⟨haligned,hslot,hinside,hword⟩ := hs.fits v hv
    obtain ⟨hlow,hpay,hbelow,-⟩ := hs.session.requested_le (hs.live v hv)
    refine ⟨haligned,hslot,hinside,(read32_congr fun x hx hx' => ?_).trans hword⟩
    by_contra hne
    -- no owner writes the word in front of the aligned bytes
    rcases hm x hne with ⟨a,ha,hplain,hax⟩ | ⟨w,hw,hwx⟩ | hout
    · have hother : v.block.ptr ≠ a.ptr := fun he =>
        hplain v hv (List.inj_on_of_nodup_map hs.session.distinct (hs.live v hv) ha he)
      have := hs.session.apart (hs.live v hv) ha hother
      omega
    · obtain ⟨-,hwslot,hwinside,-⟩ := hs.fits w hw
      have hwpay := hs.requested_le hw
      by_cases hsame : w.block = v.block
      · rw [List.inj_on_of_nodup_map hs.distinct hw hv hsame] at hwx
        omega
      · have hother : w.block.ptr ≠ v.block.ptr := fun he =>
          hsame (List.inj_on_of_nodup_map hs.session.distinct (hs.live w hw) (hs.live v hv) he)
        have := hs.session.apart (hs.live w hw) (hs.live v hv) hother
        omega
    · omega
  distinct := hs.distinct

theorem Holdings.Ok.malloc {pm : PageMapper} {s : Holdings} {bs : List Block} (hs : s.Ok bs)
    {n p : ℕ} {h' : Heap}
    (hn : 1 ≤ n) (hlt : n < W32) (hret : Heap.malloc pm s.session.heap n = .ok (p,h')) :
    ∃ bs', (⟨⟨h',⟨p,n⟩::s.session.live⟩,s.aligned⟩ : Holdings).Ok bs' := by
  obtain ⟨bs',hs'⟩ := (Call.malloc hn hlt hret).ok hs.session
  exact ⟨bs',hs.keep hs' (hs.session.malloc_keeps hn hret) (.refl _)
    fun v hv => ⟨hs.live v hv,List.mem_cons_of_mem _ (hs.live v hv)⟩⟩

/-- The block is new, so that the store of its start reaches no other word. -/
theorem Holdings.Ok.valloc {pm : PageMapper} {s : Holdings} {bs : List Block} (hs : s.Ok bs)
    {size alignment p p₁ : ℕ} {h₁ h' : Heap} (hreq : Request size alignment)
    (hmalloc : Heap.malloc pm s.session.heap (size+alignment+3) = .ok (p₁,h₁))
    (hret : Heap.valloc pm s.session.heap size alignment = .ok (p,h')) :
    ∃ bs', (⟨⟨h',⟨p₁,size+alignment+3⟩::s.session.live⟩,
      ⟨⟨p₁,size+alignment+3⟩,p,size,alignment⟩::s.aligned⟩ : Holdings).Ok bs' := by
  have hsmall := hreq.small
  obtain ⟨q,h₂,hmalloc',hfits,rfl⟩ := valloc_spec hs.session hreq hret
  obtain ⟨rfl,rfl⟩ := Prod.mk.inj (Except.ok.inj (hmalloc.symm.trans hmalloc'))
  obtain ⟨bs',hs'⟩ := hs.malloc (by omega) (by simp only [W32]; omega) hmalloc
  have hnew : ∀ v ∈ s.aligned, v.block ≠ ⟨p₁,size+alignment+3⟩ := fun v hv he =>
    (List.nodup_cons.mp hs'.session.distinct).1 (List.mem_map.mpr ⟨v.block,hs.live v hv,by rw [he]⟩)
  have hstored := hs'.store (m:=write32 h₁.mem (p-4) p₁) fun x hx => by
    have hslot := hfits.slot_inside
    have hinside := hfits.inside
    have hpay := (hs'.session.requested_le List.mem_cons_self).2.1
    have hin : p-4 ≤ x ∧ x < p-4+4 := by
      by_contra hout
      exact hx (write32_outside _ (by omega))
    simp only at hslot hinside hpay
    exact .inl ⟨_,List.mem_cons_self,hnew,by simp only; omega,by simp only; omega⟩
  refine ⟨bs',hstored.session,fun v hv => ?_,fun v hv => ?_,?_⟩
  · rcases List.mem_cons.mp hv with rfl | hv
    · exact List.mem_cons_self
    · exact hstored.live v hv
  · rcases List.mem_cons.mp hv with rfl | hv
    · exact hfits
    · exact hstored.fits v hv
  · refine List.nodup_cons.mpr ⟨fun hmem => ?_,hs.distinct⟩
    obtain ⟨v,hv,he⟩ := List.mem_map.mp hmem
    exact hnew v hv he

theorem Holdings.Ok.step {pm : PageMapper} {s s' : Holdings} {bs : List Block} (hs : s.Ok bs)
    (hstep : Holdings.Step pm s s') : ∃ bs', s'.Ok bs' := by
  have hplain {a : Allocation} (hne : ∀ v ∈ s.aligned, v.block ≠ a) :
      ∀ v ∈ s.aligned, v.block ∈ s.session.live.erase a :=
    fun v hv => (List.mem_erase_of_ne (hne v hv)).mpr (hs.live v hv)
  cases hstep with
  | malloc hn hlt hret => exact hs.malloc hn hlt hret
  | free ha hne hret =>
    obtain ⟨bs',hs'⟩ := hs.session.released ha hret
    exact ⟨bs',hs.keep hs' (hs.session.free_keeps ha hret) (.refl _) fun v hv =>
      ⟨hplain hne v hv,hplain hne v hv⟩⟩
  | realloc ha hne hn hlt hret =>
    obtain ⟨bs',hs'⟩ := (Call.realloc ha hn hlt hret).ok hs.session
    exact ⟨bs',hs.keep hs' (hs.session.realloc_keeps ha hn hret).1 (.refl _)
      fun v hv => ⟨hplain hne v hv,List.mem_cons_of_mem _ (hplain hne v hv)⟩⟩
  | valloc hreq hmalloc hret => exact hs.valloc hreq hmalloc hret
  | vfree hv hret =>
    rename_i v h'
    rw [hs.vfree_eq hv] at hret
    obtain ⟨bs',hs'⟩ := hs.session.released (hs.live v hv) hret
    refine ⟨bs',hs.keep hs' (hs.session.free_keeps (hs.live v hv) hret)
      List.erase_sublist fun w hw => ?_⟩
    obtain ⟨hne,hw⟩ := (hs.distinct.of_map _).mem_erase_iff.mp hw
    have hlive :=
      (List.mem_erase_of_ne fun he =>
        hne (List.inj_on_of_nodup_map hs.distinct hw hv he)).mpr (hs.live w hw)
    exact ⟨hlive,hlive⟩
  | store hm => exact ⟨bs,hs.store hm⟩

/-- Of the allocated blocks exactly the one with this payload is gone; its bytes are part of a free
block. -/
def Releases (h h' : Heap) (a : Allocation) : Prop :=
  (∀ b, b ∈ h'.chain ∧ b.free = false ↔ (b ∈ h.chain ∧ b.free = false) ∧ b.addr ≠ M_HEADER a.ptr) ∧
    ∃ c ∈ h'.chain, c.free = true ∧ c.addr ≤ M_HEADER a.ptr ∧ h.payloadEnd a ≤ c.stop

theorem Session.Ok.releases {s : Session} {bs : List Block} (hs : s.Ok bs) {a : Allocation}
    (ha : a ∈ s.live) :
    ∃ h', free s.heap a.ptr = .ok h' ∧ Releases s.heap h' a := by
  obtain ⟨b,hb,hbf,hptr,-⟩ := hs.owned a ha
  have hend := hs.payloadEnd_eq hb hptr
  obtain ⟨h₁,bs₁,hret₁,hok₁,hcover,-⟩ := free_spec hs.heapOk hb hbf
  obtain ⟨pre,post,rfl⟩ := List.append_of_mem hb
  obtain ⟨h',hret,hok',-⟩ := free_chain hs.heapOk hbf
  obtain rfl := Except.ok.inj (hret.symm.trans hret₁)
  have hsame : mergePass (pre++{ b with free := true }::post) = bs₁ :=
    (chain_eq hok').symm.trans (chain_eq hok₁)
  refine ⟨h',hptr ▸ hret,fun c => ?_,?_⟩
  · rw [chain_eq hok',chain_eq hs.heapOk,hptr,M_HEADER_addr hs.heapOk hb,and_right_comm]
    refine and_congr_left fun hcf => (mem_mergePass hcf).trans ⟨fun hc => ?_,fun ⟨hc,haddr⟩ => ?_⟩
    · obtain ⟨m,hpre,rfl,hpos,hpost⟩ := tiles_append.mp hs.heapOk.tiles
      rcases List.mem_append.mp hc with hc | hc
      · have := (hpre.mem hc).2.2
        simp only [stop,HEADER] at this
        exact ⟨List.mem_append_left _ hc,by omega⟩
      · rcases List.mem_cons.mp hc with rfl | hc
        · cases hcf
        · have := (hpost.mem hc).1
          simp only [stop,HEADER] at this
          exact ⟨List.mem_append_right _ (List.mem_cons_of_mem _ hc),by omega⟩
    · have hcb : c ≠ b := fun he => haddr (by rw [he])
      simpa [hcb] using Or.imp_right Or.inr ((List.mem_append.mp hc).imp_right fun h =>
        (List.mem_cons.mp h).resolve_left hcb)
  · rw [chain_eq hok₁,hend,hptr,M_HEADER_addr hs.heapOk hb]
    exact hcover

/-- In every state of a run with aligned allocations: what `valloc` returns is aligned and lies,
with the word in front of it, in the block that `malloc` returned; and `vfree` of an aligned
allocation returns and releases its block and no other. -/
theorem valloc_aligned (pm : PageMapper) (memory : Mem) {h : Heap}
    (hinit : heapInit memory = .ok h) {s : Holdings}
    (hrun : Relation.ReflTransGen (Holdings.Step pm) ⟨⟨h,[]⟩,[]⟩ s) :
    (∀ size alignment p h', Request size alignment →
      valloc pm s.session.heap size alignment = .ok (p,h') →
      ∃ p₁ h₁, malloc pm s.session.heap (size+alignment+3) = .ok (p₁,h₁) ∧
      alignment ∣ p ∧ p₁+4 ≤ p ∧
        p+size ≤ h₁.payloadEnd ⟨p₁,size+alignment+3⟩ ∧ read32 h'.mem (p-4) = p₁) ∧
    ∀ v ∈ s.aligned, v.block ∈ s.session.live ∧ v.Fits s.session.heap ∧
      ∃ h', vfree s.session.heap v.ptr = .ok h' ∧ Releases s.session.heap h' v.block := by
  have hstart : ∃ bs, Holdings.Ok ⟨⟨h,[]⟩,[]⟩ bs :=
    ⟨_,heapInit_ok hinit,by simp,by simp,List.nodup_nil⟩
  obtain ⟨bs,hs⟩ :=
    reach_invariant (I:=fun s => ∃ bs, Holdings.Ok s bs) (fun _ _ ⟨_,hs⟩ hstep => hs.step hstep)
    hstart hrun
  refine ⟨fun size alignment p h' hreq hret => ?_,fun v hv => ?_⟩
  · have hsmall := hreq.small
    obtain ⟨p₁,h₁,hmalloc,⟨hdvd,hslot,hinside,hword⟩,-⟩ := valloc_spec hs.session hreq hret
    obtain ⟨bs',hs'⟩ := hs.malloc (by omega) (by simp only [W32]; omega) hmalloc
    have hpay := (hs'.session.requested_le List.mem_cons_self).2.1
    exact ⟨p₁,h₁,hmalloc,hdvd,hslot,hinside.trans hpay,hword⟩
  · obtain ⟨h',hret,hreleases⟩ := hs.session.releases (hs.live v hv)
    exact ⟨hs.live v hv,hs.fits v hv,h',(hs.vfree_eq hv).trans hret,hreleases⟩

/-- A page is taken, another block is taken behind it, and the page is given back. -/
theorem valloc_aligned_page :
    ∃ h s h', heapInit (fun _ => 0#8) = .ok h ∧
    Relation.ReflTransGen (Holdings.Step richMapper) ⟨⟨h,[]⟩,[]⟩ s ∧
      s.aligned = [⟨⟨0xF7001009,8195⟩,0xF7002000,4096,4096⟩] ∧
      vfree s.session.heap 0xF7002000 = .ok h' ∧ Releases s.session.heap h' ⟨0xF7001009,8195⟩ := by
  have heval : (do
      let h ← heapInit fun _ => 0#8
      let r ← malloc richMapper h 8195
      let v ← valloc richMapper h 4096 4096
      let r' ← malloc richMapper v.2 100
      pure (r.1,v.1,r'.1) : Result (ℕ × ℕ × ℕ)) = .ok (0xF7001009,0xF7002000,
        0xF7003015) := by decide +kernel
  obtain ⟨h,hinit,heval⟩ := Result.bind_eq_ok.mp heval
  obtain ⟨⟨p₁,h₁⟩,hret₁,heval⟩ := Result.bind_eq_ok.mp heval
  obtain ⟨⟨p,h₂⟩,hret₂,heval⟩ := Result.bind_eq_ok.mp heval
  obtain ⟨⟨q,h₃⟩,hret₃,heval⟩ := Result.bind_eq_ok.mp heval
  obtain ⟨rfl,hrest⟩ := Prod.mk.inj (Except.ok.inj heval)
  obtain ⟨rfl,rfl⟩ := Prod.mk.inj hrest
  have hreq : Request 4096 4096 := ⟨⟨12,rfl⟩,by decide,by decide⟩
  have hrun : Relation.ReflTransGen (Holdings.Step richMapper) ⟨⟨h,[]⟩,[]⟩ _ :=
    (Relation.ReflTransGen.single (Holdings.Step.valloc hreq hret₁ hret₂)).tail
      (Holdings.Step.malloc (n:=100) (by decide) (by decide) hret₃)
  obtain ⟨-,-,h',hfree,hreleases⟩ := (valloc_aligned richMapper _ hinit hrun).2 _ List.mem_cons_self
  exact ⟨h,_,h',hinit,hrun,rfl,hfree,hreleases⟩

end Heap
end ScalesOS
