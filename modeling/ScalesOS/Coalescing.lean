import ScalesOS.HeapRuns

/-!
# Coalescing of free blocks

`__mem_merge` goes over the chain once and leaves a block that it has just enlarged behind.
One pass is enough unless the block that was freed lies between two free blocks.
-/

namespace ScalesOS
namespace Heap

open ByteMemory Block

/-- No two free blocks touch. -/
def Coalesced (bs : List Block) : Prop :=
  ∀ b ∈ bs, ∀ c ∈ bs, b.free = true → c.free = true → b.stop ≠ c.addr

def Separate (b c : Block) : Prop := ¬ (b.free = true ∧ c.free = true)

/-- Among the blocks of the heap those that touch are neighbours in the chain. -/
theorem coalesced_iff {a e : ℕ} {bs : List Block} (ht : Tiles a bs e) : Coalesced bs ↔
    bs.IsChain Separate := by
  induction bs generalizing a with
  | nil => simp [Coalesced]
  | cons b bs ih =>
    obtain ⟨rfl,hpos,hrest⟩ := ht
    have hlow : ∀ c ∈ bs, b.stop ≤ c.addr := fun c hc => (hrest.mem hc).1
    have hsplit : Coalesced (b::bs) ↔ (∀ c ∈ bs, b.free = true → c.free = true → b.stop ≠ c.addr) ∧
        Coalesced bs := by
      constructor
      · intro h
        exact ⟨fun c hc => h b List.mem_cons_self c (List.mem_cons_of_mem _ hc),
          fun c hc d hd => h c (List.mem_cons_of_mem _ hc) d (List.mem_cons_of_mem _ hd)⟩
      · rintro ⟨hhead,htail⟩ c hc d hd hcf hdf htouch
        rcases List.mem_cons.mp hc with rfl | hc <;> rcases List.mem_cons.mp hd with rfl | hd
        · simp only [stop,HEADER] at htouch
          omega
        · exact hhead d hd hcf hdf htouch
        · have h := hlow c ‹_›
          simp only [stop,HEADER] at htouch h
          omega
        · exact htail c hc d hd hcf hdf htouch
    rw [hsplit,ih hrest]
    cases bs with
    | nil => simp
    | cons c bs =>
      obtain ⟨haddr,hcpos,hafter⟩ := hrest
      rw [List.isChain_cons_cons]
      refine and_congr_left fun _ =>
        ⟨fun h hboth => h c List.mem_cons_self hboth.1 hboth.2 haddr.symm,?_⟩
      intro h d hd hbf hdf htouch
      rcases List.mem_cons.mp hd with rfl | hd
      · exact h ⟨hbf,hdf⟩
      · have hd := (hafter.mem hd).1
        simp only [stop,HEADER] at hd htouch haddr
        omega

theorem mergePass_head_free (b : Block) (bs : List Block) :
    ∃ c cs, mergePass (b::bs) = c::cs ∧ c.free = b.free := by
  cases bs with
  | nil => exact ⟨b,[],rfl,rfl⟩
  | cons c bs =>
    rw [mergePass]
    split
    · rename_i h
      exact ⟨_,_,rfl,(Bool.and_eq_true_iff.mp h).1.symm⟩
    · exact ⟨b,_,rfl,rfl⟩

theorem mergePass_of_separate {bs : List Block} (h : bs.IsChain Separate) : mergePass bs = bs := by
  induction bs with
  | nil => rfl
  | cons b bs ih =>
    cases bs with
    | nil => rfl
    | cons c bs =>
      obtain ⟨hbc,hrest⟩ := List.isChain_cons_cons.mp h
      rw [mergePass,if_neg (by simpa [Separate] using hbc),ih hrest]

def Between (pre post : List Block) : Prop :=
  (∃ b ∈ pre.getLast?, b.free = true) ∧ ∃ c ∈ post.head?, c.free = true

theorem separate_of_not_free {b : Block} {bs : List Block} (hb : b.free = false)
    (h : bs.IsChain Separate) :
    (b::bs).IsChain Separate := by
  cases bs with
  | nil => exact List.isChain_singleton b
  | cons c bs => exact List.isChain_cons_cons.mpr ⟨fun hboth => by simp [hb] at hboth,h⟩

/-- What is free in front of a chain separates it if and only if the chain starts with no free
block. -/
theorem separate_cons_iff {b : Block} {bs : List Block} (hb : b.free = true)
    (h : bs.IsChain Separate) :
    (b::bs).IsChain Separate ↔ ¬ ∃ c ∈ bs.head?, c.free = true := by
  cases bs with
  | nil => simp
  | cons c bs => simp [List.isChain_cons_cons,Separate,hb,h]

/-- Nothing lies in front of the freed block: one merge is all there is to do. -/
theorem mergePass_front {b : Block} {post : List Block} (hpost : post.IsChain Separate)
    (hb : b.free = true) :
    (mergePass (b::post)).IsChain Separate := by
  cases post with
  | nil => exact List.isChain_singleton b
  | cons c post =>
    have htail := (List.isChain_cons.mp hpost).2
    rw [mergePass]
    cases hc : c.free with
    | false =>
      rw [if_neg (by simp),mergePass_of_separate hpost]
      exact List.isChain_cons_cons.mpr ⟨fun hboth => by simp [hc] at hboth,hpost⟩
    | true =>
      rw [if_pos (by simp [hb]),mergePass_of_separate htail]
      exact (separate_cons_iff rfl htail).mpr ((separate_cons_iff hc htail).mp hpost)

/-- One pass is enough if and only if the freed block does not lie between free ones. -/
theorem mergePass_separate_iff {pre post : List Block} {b : Block} (hpre : pre.IsChain Separate)
    (hpost : post.IsChain Separate) (hb : b.free = true) :
    (mergePass (pre++b::post)).IsChain Separate ↔ ¬ Between pre post := by
  induction pre with
  | nil => simpa [Between] using mergePass_front hpost hb
  | cons a pre ih =>
    cases pre with
    | nil =>
      rw [List.singleton_append,mergePass]
      cases ha : a.free with
      | false =>
        rw [if_neg (by simp)]
        simpa [Between,ha] using separate_of_not_free ha (mergePass_front hpost hb)
      | true =>
        rw [if_pos (by simp [hb]),mergePass_of_separate hpost,separate_cons_iff rfl hpost]
        simp [Between,ha]
    | cons c pre =>
      obtain ⟨hac,hrest⟩ := List.isChain_cons_cons.mp hpre
      have hlast : Between (a::c::pre) post ↔ Between (c::pre) post := by
        rw [Between,Between,List.getLast?_cons_cons]
      have hpass : mergePass (a::c::(pre++b::post)) = a::mergePass (c::(pre++b::post)) := by
        rw [mergePass,if_neg (by simpa [Separate] using hac)]
      obtain ⟨d,ds,hhead,hd⟩ := mergePass_head_free c (pre++b::post)
      rw [hlast,← ih hrest,List.cons_append,List.cons_append,hpass,hhead,List.isChain_cons_cons]
      exact and_iff_right (by rwa [Separate,hd])

theorem separate_replace {b c : Block} {bs : List Block} (hb : b.free = true)
    (h : (b::bs).IsChain Separate) :
    (c::bs).IsChain Separate := by
  have htail := (List.isChain_cons.mp h).2
  cases hc : c.free with
  | false => exact separate_of_not_free hc htail
  | true => exact (separate_cons_iff hc htail).mpr ((separate_cons_iff hb htail).mp h)

/-- `malloc` splits a free block or a fresh one, and puts no free block beside another. -/
theorem malloc_coalesced {pm : PageMapper} {h h' : Heap} {bs : List Block} {n p : ℕ}
    (hok : HeapOk h bs)
    (hn : 1 ≤ n) (hsep : bs.IsChain Separate) (hret : malloc pm h n = .ok (p,h')) :
    ∃ bs', HeapOk h' bs' ∧ bs'.IsChain Separate := by
  obtain ⟨r,pre,b,post,hok₁,hfree,-,hbs,-,htake⟩ := malloc_choice hok hret
  obtain ⟨-,s,rest,-,hrest,hok',-⟩ := mallocTake_spec hok₁ hn htake
  refine ⟨_,hok',?_⟩
  have hparts : pre.IsChain Separate ∧ (b::post).IsChain Separate := by
    rcases hbs with rfl | ⟨rfl,rfl⟩
    · exact ⟨hsep.left_of_append,hsep.right_of_append⟩
    · exact ⟨hsep,List.isChain_singleton b⟩
  have hbehind : (rest++post).IsChain Separate := by
    match rest, hrest with
    | [],_ => exact (List.isChain_cons.mp hparts.2).2
    | [c],_ => exact separate_replace hfree hparts.2
  refine hparts.1.append (separate_of_not_free rfl hbehind) fun x _ y hy hboth => ?_
  rw [List.head?_cons,Option.mem_some_iff] at hy
  simp [← hy] at hboth

/-- The block of the pointer lies between two free blocks of the chain. -/
def FreedBetween (h : Heap) (ptr : ℕ) : Prop :=
  ∃ pre b post, h.chain = pre++b::post ∧ b.addr = M_HEADER ptr ∧ Between pre post

theorem tiles_split_unique {a e : ℕ} {pre pre' post post' : List Block} {b b' : Block}
    (ht : Tiles a (pre++b::post) e) (hsplit : pre++b::post = pre'++b'::post')
    (haddr : b.addr = b'.addr) :
    pre = pre' ∧ post = post' := by
  induction pre generalizing a pre' with
  | nil =>
    cases pre' with
    | nil => exact ⟨rfl,(List.cons.inj hsplit).2⟩
    | cons c pre' =>
      obtain ⟨rfl,hrest⟩ := List.cons.inj hsplit
      obtain ⟨-,hpos,hafter⟩ := ht
      have hlow := (hafter.mem (show b' ∈ post by simp [hrest])).1
      simp only [stop,HEADER] at hlow
      omega
  | cons c pre ih =>
    cases pre' with
    | nil =>
      obtain ⟨rfl,hrest⟩ := List.cons.inj hsplit
      obtain ⟨-,hpos,hafter⟩ := ht
      have hlow := (hafter.mem (show b ∈ pre++b::post by simp)).1
      simp only [stop,HEADER] at hlow
      omega
    | cons d pre' =>
      obtain ⟨rfl,hrest⟩ := List.cons.inj hsplit
      obtain ⟨rfl,rfl⟩ := ih ht.2.2 hrest
      exact ⟨rfl,rfl⟩

/-- In a coalesced heap `free` leaves a coalesced one if and only if the block is not between free
ones. -/
theorem Session.Ok.free_coalesced_iff {s : Session} {bs : List Block} (hs : s.Ok bs)
    (hsep : bs.IsChain Separate) {a : Allocation} (ha : a ∈ s.live) {h' : Heap}
    (hret : free s.heap a.ptr = .ok h') : Coalesced h'.chain ↔ ¬ FreedBetween s.heap a.ptr := by
  obtain ⟨b,hb,hbf,hptr,-⟩ := hs.owned a ha
  obtain ⟨pre,post,rfl⟩ := List.append_of_mem hb
  obtain ⟨h₁,hret₁,hok',-⟩ := free_chain hs.heapOk hbf
  rw [hptr,hret₁] at hret
  obtain rfl := Except.ok.inj hret
  have hpost := (List.isChain_cons.mp hsep.right_of_append).2
  rw [chain_eq hok',coalesced_iff hok'.tiles,mergePass_separate_iff hsep.left_of_append hpost rfl,
    FreedBetween,chain_eq hs.heapOk,hptr,M_HEADER_addr hs.heapOk hb]
  refine not_congr ⟨fun h => ⟨pre,b,post,rfl,rfl,h⟩,?_⟩
  rintro ⟨pre',b',post',hsplit,haddr,h⟩
  obtain ⟨rfl,rfl⟩ := tiles_split_unique hs.heapOk.tiles hsplit haddr.symm
  exact h

/-- The calls of a run with `malloc` of at least one byte and with `free` of what meets a
condition, and the writes of the owners between them. -/
inductive Traffic (pm : PageMapper) (meets : Heap → ℕ → Prop) : Session → Session → Prop
  | malloc {s : Session} {n p : ℕ} {h' : Heap} (hn : 1 ≤ n) (hlt : n < W32)
      (hret : malloc pm s.heap n = .ok (p,h')) : Traffic pm meets s ⟨h',⟨p,n⟩::s.live⟩
  | free {s : Session} {a : Allocation} {h' : Heap} (ha : a ∈ s.live) (hmeets : meets s.heap a.ptr)
      (hret : free s.heap a.ptr = .ok h') : Traffic pm meets s ⟨h',s.live.erase a⟩
  | store {s : Session} {m : Mem}
      (hm : ∀ x, m x ≠ s.heap.mem x → (∃ a ∈ s.live, a.ptr ≤ x ∧ x < s.heap.payloadEnd a) ∨
        x < HEAP_START ∨ HEAP_START+s.heap.heapSize ≤ x) :
      Traffic pm meets s ⟨{ s.heap with mem := m },s.live⟩

theorem Traffic.call {pm : PageMapper} {meets : Heap → ℕ → Prop} {s s' : Session}
    (h : Traffic pm meets s s') :
    Call pm (fun n => 1 ≤ n) s s' := by
  cases h with
  | malloc hn hlt hret => exact .malloc hn hlt hret
  | free ha _ hret => exact .free ha hret
  | store hm => exact .store hm

def Tidy (s : Session) : Prop := ∃ bs, s.Ok bs ∧ bs.IsChain Separate

theorem Session.Ok.tidy {s : Session} {bs : List Block} (hs : s.Ok bs)
    (h : Coalesced s.heap.chain) : Tidy s := by
  rw [chain_eq hs.heapOk,coalesced_iff hs.heapOk.tiles] at h
  exact ⟨bs,hs,h⟩

theorem Tidy.coalesced {s : Session} (h : Tidy s) : Coalesced s.heap.chain := by
  obtain ⟨bs,hs,hsep⟩ := h
  rw [chain_eq hs.heapOk]
  exact (coalesced_iff hs.heapOk.tiles).mpr hsep

theorem Traffic.tidy {pm : PageMapper} {s s' : Session} (hs : Tidy s)
    (hstep : Traffic pm (fun h p => ¬ FreedBetween h p) s s') : Tidy s' := by
  obtain ⟨bs,hs,hsep⟩ := hs
  obtain ⟨bs',hs'⟩ := hstep.call.ok hs
  refine hs'.tidy ?_
  cases hstep with
  | malloc hn hlt hret =>
    obtain ⟨bs₁,hok₁,hsep₁⟩ := malloc_coalesced hs.heapOk hn hsep hret
    rw [chain_eq hok₁]
    exact (coalesced_iff hok₁.tiles).mpr hsep₁
  | free ha hmeets hret => exact (hs.free_coalesced_iff hsep ha hret).mpr hmeets
  | store hm =>
    rw [chain_eq (hs.store hm).heapOk]
    exact (coalesced_iff (hs.store hm).heapOk.tiles).mpr hsep

/-- As long as no block is freed that lies between free ones, no two free blocks touch; the first
such block that is freed leaves two that do. -/
theorem coalesced_until_between (pm : PageMapper) (memory : Mem) {h : Heap}
    (hinit : heapInit memory = .ok h)
    {s : Session} (hrun : Relation.ReflTransGen (Traffic pm fun h p => ¬ FreedBetween h p) ⟨h,
      []⟩ s) :
    Coalesced s.heap.chain ∧ ∀ a ∈ s.live, ∀ h', free s.heap a.ptr = .ok h' →
      (Coalesced h'.chain ↔ ¬ FreedBetween s.heap a.ptr) := by
  have hstart : Tidy ⟨h,[]⟩ := ⟨_,heapInit_ok hinit,List.isChain_singleton _⟩
  have htidy := reach_invariant (I:=Tidy) (fun _ _ hs hstep => hstep.tidy hs) hstart hrun
  refine ⟨htidy.coalesced,fun a ha h' hret => ?_⟩
  obtain ⟨bs,hs,hsep⟩ := htidy
  exact hs.free_coalesced_iff hsep ha hret

/-- Two blocks are taken and the first one is given back. -/
theorem coalesced_until_between_two :
    ∃ h s, heapInit (fun _ => 0#8) = .ok h ∧
      Relation.ReflTransGen (Traffic richMapper fun h p => ¬ FreedBetween h p) ⟨h,[]⟩ s ∧
      s.live = [⟨0xF7001022,16⟩] ∧ Coalesced s.heap.chain := by
  have heval : (do
      let h ← heapInit fun _ => 0#8
      let r ← malloc richMapper h 16
      let r' ← malloc richMapper r.2 16
      let f ← free r'.2 0xF7001009
      pure (r.1,r'.1,r'.2.chain) : Result (ℕ × ℕ × List Block)) = .ok (0xF7001009,0xF7001022,
        [⟨0xF7001000,16,false⟩,⟨0xF7001019,16,false⟩,⟨0xF7001032,16325,true⟩]) := by decide +kernel
  obtain ⟨h,hinit,heval⟩ := Result.bind_eq_ok.mp heval
  obtain ⟨⟨p,h₁⟩,hret₁,heval⟩ := Result.bind_eq_ok.mp heval
  obtain ⟨⟨q,h₂⟩,hret₂,heval⟩ := Result.bind_eq_ok.mp heval
  obtain ⟨h₃,hret₃,heval⟩ := Result.bind_eq_ok.mp heval
  obtain ⟨rfl,hrest⟩ := Prod.mk.inj (Except.ok.inj heval)
  obtain ⟨rfl,hchain⟩ := Prod.mk.inj hrest
  -- the first block of the chain is behind no other
  have hfirst : ¬ FreedBetween h₂ 0xF7001009 := by
    rintro ⟨pre,b,post,hsplit,haddr,⟨c,hc,-⟩,-⟩
    rw [hchain] at hsplit
    cases pre with
    | nil => simp at hc
    | cons d pre =>
      have hb : b ∈ [(⟨0xF7001019,16,false⟩ : Block),⟨0xF7001032,16325,true⟩] := by
        rw [(List.cons.inj hsplit).2]
        simp
      rcases List.mem_cons.mp hb with rfl | hb
      · exact absurd haddr (by decide)
      · obtain rfl := List.mem_singleton.mp hb
        exact absurd haddr (by decide)
  have hrun : Relation.ReflTransGen (Traffic richMapper fun h p => ¬ FreedBetween h p) ⟨h,[]⟩ _ :=
    ((Relation.ReflTransGen.single (Traffic.malloc (n:=16) (by decide) (by decide) hret₁)).tail
      (Traffic.malloc (n:=16) (by decide) (by decide) hret₂)).tail
      (Traffic.free (a:=⟨0xF7001009,16⟩) (by simp) hfirst hret₃)
  exact ⟨h,_,hinit,hrun,by simp,(coalesced_until_between richMapper _ hinit hrun).1⟩

/-- Two blocks are taken, the first one is given back and then the second one: it lies between
the first one and the rest of the heap, with which it is not joined. -/
theorem free_between_remains :
    ∃ h s h', heapInit (fun _ => 0#8) = .ok h ∧
      Relation.ReflTransGen (Traffic richMapper fun _ _ => True) ⟨h,[]⟩ s ∧
      s.live = [⟨0xF7001022,16⟩] ∧ free s.heap 0xF7001022 = .ok h' ∧
      h'.chain = [⟨0xF7001000,41,true⟩,⟨0xF7001032,16325,true⟩] ∧ ¬ Coalesced h'.chain := by
  have heval : (do
      let h ← heapInit fun _ => 0#8
      let r ← malloc richMapper h 16
      let r' ← malloc richMapper r.2 16
      let f ← free r'.2 0xF7001009
      let g ← free f 0xF7001022
      pure (r.1,r'.1,g.chain) : Result (ℕ × ℕ × List Block)) = .ok (0xF7001009,0xF7001022,
        [⟨0xF7001000,41,true⟩,⟨0xF7001032,16325,true⟩]) := by decide +kernel
  obtain ⟨h,hinit,heval⟩ := Result.bind_eq_ok.mp heval
  obtain ⟨⟨p,h₁⟩,hret₁,heval⟩ := Result.bind_eq_ok.mp heval
  obtain ⟨⟨q,h₂⟩,hret₂,heval⟩ := Result.bind_eq_ok.mp heval
  obtain ⟨h₃,hret₃,heval⟩ := Result.bind_eq_ok.mp heval
  obtain ⟨h₄,hret₄,heval⟩ := Result.bind_eq_ok.mp heval
  obtain ⟨rfl,hrest⟩ := Prod.mk.inj (Except.ok.inj heval)
  obtain ⟨rfl,hchain⟩ := Prod.mk.inj hrest
  have hrun : Relation.ReflTransGen (Traffic richMapper fun _ _ => True) ⟨h,[]⟩ _ :=
    ((Relation.ReflTransGen.single (Traffic.malloc (n:=16) (by decide) (by decide) hret₁)).tail
      (Traffic.malloc (n:=16) (by decide) (by decide) hret₂)).tail
      (Traffic.free (a:=⟨0xF7001009,16⟩) (by simp) trivial hret₃)
  refine ⟨h,_,h₄,hinit,hrun,by simp,hret₄,hchain,fun hsep => ?_⟩
  rw [hchain] at hsep
  exact hsep ⟨0xF7001000,41,true⟩ (by simp) ⟨0xF7001032,16325,true⟩ (by simp) rfl rfl rfl

end Heap
end ScalesOS
