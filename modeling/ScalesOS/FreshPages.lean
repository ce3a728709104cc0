import ScalesOS.HeapGrowth
import ScalesOS.PageRanges

/-! Pages that get a frame each. A call that maps a range of them returns exactly if none of them is
mapped and the free frames suffice for the pages and for the page tables that are missing. -/
namespace ScalesOS

open Entry

namespace Pmm

variable {p q : Pmm} {b k : ℕ}

/-- The free frames of a machine below 4 GiB. -/
@[irreducible] def frames (p : Pmm) : Finset ℕ := (Finset.range 0x100000).filter fun k => p.IsFree k

theorem mem_frames : k ∈ p.frames ↔ k < 0x100000 ∧ p.IsFree k := by
  rw [frames,Finset.mem_filter,Finset.mem_range]

/-- The search of the allocator meets every free frame, and none of them is frame 0. -/
structure Sound (p : Pmm) : Prop where
  first_ok : p.FirstFreeOk
  zero_used : ¬p.IsFree 0
  small : p.bitmapSize ≤ 0x8000

/-- The allocator has given away frame `k`. -/
structure Gives (p q : Pmm) (k : ℕ) : Prop where
  low : k < 0x100000
  ne_zero : k ≠ 0
  was_free : p.IsFree k
  free_iff : ∀ l, q.IsFree l ↔ p.IsFree l ∧ l ≠ k
  size_eq : q.bitmapSize = p.bitmapSize
  sound : q.Sound

theorem Gives.card_eq (h : p.Gives q k) : q.frames.card+1 = p.frames.card := by
  have he : q.frames = p.frames.erase k := by
    ext l
    rw [Finset.mem_erase,mem_frames,mem_frames,h.free_iff]
    tauto
  rw [he]
  exact Finset.card_erase_add_one (mem_frames.mpr ⟨h.low,h.was_free⟩)

theorem Sound.alloc_gives (hp : p.Sound) (h : kMemPmmAllocFrames p 1 = .ok (b,q)) :
    ∃ k, b = 0x1000*k ∧ p.Gives q k := by
  obtain ⟨k,hb,hk,hwas,hafter,hsize,hok⟩ := allocFrames_spec_small hp.small h
  have hfree : p.IsFree k := hwas 0 (by decide)
  have hiff : ∀ l, q.IsFree l ↔ p.IsFree l ∧ l ≠ k := fun l => by
    rw [hafter l]
    exact and_congr_right fun _ => by omega
  refine ⟨k,hb,by omega,fun hzero => hp.zero_used (hzero ▸ hfree),hfree,hiff,hsize,hok hp.first_ok,
    fun hzero => ?_,hsize ▸ hp.small⟩
  exact hp.zero_used ((hiff 0).mp hzero).1

theorem Sound.alloc_iff (hp : p.Sound) : (∃ r, kMemPmmAllocFrames p 1 = .ok r) ↔
    0 < p.frames.card := by
  constructor
  · rintro ⟨⟨b,q⟩,h⟩
    obtain ⟨k,-,hgives⟩ := hp.alloc_gives h
    have hcard := hgives.card_eq
    omega
  · intro h
    obtain ⟨k,hk⟩ := Finset.card_pos.mp h
    obtain ⟨hlow,hfree⟩ := mem_frames.mp hk
    have hword := hp.first_ok k hfree
    obtain ⟨l,q,halloc,-⟩ := allocFrame_spec (by omega) hfree hlow
    exact ⟨_,halloc⟩

end Pmm

namespace Vm

open Pmm

variable {s t t' : Vm} {i v n flags : ℕ} {M P Q : Finset ℕ}

/-- An address space with a working allocator. -/
structure Ready (s : Vm) : Prop where
  paged : s.Paged
  sound : s.pmm.Sound

/-- The frames that the table of slot `i` costs. -/
def tableCost (s : Vm) (i : ℕ) : ℕ := if present (s.pde i) then 0 else 1

theorem installTable_pmm (h : s.installTable i flags = .ok t) :
    ∃ b, kMemPmmAllocFrames s.pmm 1 = .ok (b,t.pmm) := by
  obtain ⟨⟨b,q⟩,halloc,h⟩ := Result.bind_eq_ok.mp h
  dsimp only at h
  split at h
  · cases h
  obtain rfl := Except.ok.inj h
  exact ⟨b,halloc⟩

theorem Ready.installTable_iff (hs : s.Ready) : (∃ t, s.installTable i flags = .ok t) ↔
    0 < s.pmm.frames.card := by
  rw [← hs.sound.alloc_iff]
  constructor
  · rintro ⟨t,h⟩
    obtain ⟨b,halloc⟩ := installTable_pmm h
    exact ⟨_,halloc⟩
  · rintro ⟨⟨b,q⟩,halloc⟩
    obtain ⟨k,rfl,hgives⟩ := hs.sound.alloc_gives halloc
    have hframe : ¬0x1000*k = 0 := by have := hgives.ne_zero; omega
    rw [installTable,halloc]
    simp only [bind,Except.bind,if_neg hframe]
    exact ⟨_,rfl⟩

/-- The state in which the table of slot `i` is there. -/
structure Tabled (s t : Vm) (i : ℕ) : Prop where
  ready : t.Ready
  remaps : s.Remaps t fun _ => False
  isTable : t.IsTable s.directory i
  present_iff : ∀ j, present (t.pde j) = true ↔ present (s.pde j) = true ∨ j = i
  card_eq : t.pmm.frames.card+s.tableCost i = s.pmm.frames.card

theorem Ready.table_iff (hs : s.Ready) (i flags : ℕ) :
    (∃ t, (if present (s.pde i) then pure s else s.installTable i flags : Result Vm) = .ok t) ↔
    s.tableCost i ≤ s.pmm.frames.card := by
  rw [tableCost]
  split
  · exact iff_of_true ⟨s,rfl⟩ (Nat.zero_le _)
  · exact hs.installTable_iff

theorem Ready.tabled (hs : s.Ready) (hi : i < KERNEL_PD)
    (h : (if present (s.pde i) then pure s else s.installTable i flags : Result Vm) = .ok t) :
    s.Tabled t i := by
  by_cases hp : present (s.pde i) = true
  · rw [if_pos hp] at h
    obtain rfl := Except.ok.inj h
    refine ⟨hs,.refl hs.paged _,hs.paged.isTable (.inl hi) hp,fun j => ⟨.inl,?_⟩,?_⟩
    · rintro (hj | rfl)
      · exact hj
      · exact hp
    · rw [tableCost,if_pos hp,Nat.add_zero]
  · rw [if_neg hp] at h
    have habsent := Bool.eq_false_of_not_eq_true hp
    obtain ⟨hremaps,htable⟩ := hs.paged.installTable (.inl hi) habsent h
    obtain ⟨b,halloc⟩ := installTable_pmm h
    obtain ⟨k,-,hgives⟩ := hs.sound.alloc_gives halloc
    have hfirst := hs.sound.first_ok k hgives.was_free
    obtain ⟨l,hins⟩ :=
      installTable_spec hs.paged.windowsOk.dirOk (SmallSlot.lt (.inl hi)) (by
        omega) hgives.was_free hgives.low h
    refine ⟨⟨hremaps.paged,hgives.sound⟩,hremaps,htable,fun j => ?_,?_⟩
    · by_cases hj : j = i
      · refine iff_of_true ?_ (.inr hj)
        rw [hj,pde,hremaps.directory_eq]
        exact htable.2.1
      · rw [pde,hremaps.directory_eq,hins.entries j hj,or_iff_left hj]
        rfl
    · rw [tableCost,if_neg hp]
      exact hgives.card_eq

/-- One round of the loop of `k_mem_paging_map_region`, with a frame of its own for the page. -/
def mapFresh (s : Vm) (v flags : ℕ) : Result Vm := do
  let r ← kMemPmmAllocFrames s.pmm 1
  kMemPagingMap (claimFrame { s with pmm := r.2 } (r.1%W32)) v (r.1%W32) flags

/-- State `t` after page `n` of state `s` has got a frame. -/
structure Fresh (s t : Vm) (n : ℕ) : Prop where
  ready : t.Ready
  remaps : s.Remaps t (· = n)
  mapped : t.lookup s.directory n ≠ none
  present_iff : ∀ j, present (t.pde j) = true ↔ present (s.pde j) = true ∨ j = n/1024
  card_eq : t.pmm.frames.card+(s.tableCost (n/1024)+1) = s.pmm.frames.card

theorem enterPage_frame {p : ℕ} (hp : p ≠ 0) : enterPage v p flags s =
    if present (s.pte (PDE v) (PTE v)) then .error (.panic ("Remapping 0x" ++ fmtX8 v))
    else .ok (s.setWord (s.ptFrame (PDE v)) (PTE v) (p%W32 ||| flags)) := by
  rw [enterPage,if_neg hp]
  rfl

theorem DirOk.pte_iff (hd : s.DirOk s.directory) (ht : s.IsTable s.directory (PDE v)) :
    present (s.pte (PDE v) (PTE v)) = true ↔ s.lookup s.directory (v/0x1000) ≠ none := by
  rw [pte,hd.ptFrame_eq,← page_number,lookup_of_isTable ht (PTE_lt v)]
  split <;> simp [*]

theorem Tabled.enterPage_iff (h : s.Tabled t (PDE v)) {p : ℕ} (hp : p ≠ 0)
    (hv : v/0x1000 < 1023*1024) :
    (∃ t', enterPage v p flags t = .ok t') ↔ s.lookup s.directory (v/0x1000) = none := by
  have hsame := h.remaps.lookup_eq (v/0x1000) hv id
  have htable := h.isTable
  rw [← h.remaps.directory_eq] at htable hsame
  have hpte := h.ready.paged.windowsOk.dirOk.pte_iff htable
  rw [hsame,h.remaps.directory_eq] at hpte
  rw [enterPage_frame hp]
  split
  · rename_i hpresent
    refine iff_of_false ?_ (hpte.mp hpresent)
    rintro ⟨t',ht'⟩
    cases ht'
  · rename_i habsent
    exact iff_of_true ⟨_,rfl⟩ (not_not.mp fun hne => habsent (hpte.mpr hne))

theorem Tabled.fresh (h : s.Tabled t (PDE v)) {p : ℕ} (hp : p ≠ 0) (hv : v/0x1000 < 1023*1024)
    (hodd : flags%2 = 1)
    (hret : enterPage v p flags t = .ok t') : t'.Ready ∧ s.Remaps t' (· = v/0x1000) ∧
    t'.lookup s.directory (v/0x1000) ≠ none ∧
      (∀ j, present (t'.pde j) = true ↔ present (s.pde j) = true ∨ j = PDE v) ∧ t'.pmm = t.pmm := by
  have hd := h.ready.paged.windowsOk.dirOk
  have hdir := h.remaps.directory_eq
  have htable := h.isTable
  rw [← hdir] at htable
  rw [enterPage_frame hp,hd.ptFrame_eq] at hret
  split at hret
  · cases hret
  obtain rfl := Except.ok.inj hret
  have hentry := h.ready.paged.setEntry htable (p%W32 ||| flags)
  have hrewrites := hd.rewrites_setEntry htable (p%W32 ||| flags)
  refine ⟨⟨hentry.paged,h.ready.sound⟩,(h.remaps.mono fun _ => False.elim).trans hentry,?_,
    fun j => ?_,rfl⟩
  · have hin : PDE v*1024+PTE v < 1023*1024 := by rwa [page_number]
    have hpage := hd.lookup_setEntry htable (PTE_lt v) (p%W32 ||| flags) hin
    rw [page_number,if_pos rfl,present_or_odd hodd,if_pos rfl] at hpage
    rw [← hdir,hpage]
    exact Option.some_ne_none _
  · rw [← h.present_iff,pde,hrewrites.directory_eq,hrewrites.dir_eq]
    rfl

theorem Ready.mapFresh_eq (hs : s.Ready) (v flags : ℕ) {r : ℕ × Pmm}
    (h : kMemPmmAllocFrames s.pmm 1 = .ok r) :
    r.1 ≠ 0 ∧ Vm.Ready { s with pmm := r.2 } ∧ s.Remaps { s with pmm := r.2 } (fun _ => False) ∧
      r.2.frames.card+1 = s.pmm.frames.card ∧
      s.mapFresh v flags = kMemPagingMap { s with pmm := r.2 } v r.1 flags := by
  obtain ⟨b,q⟩ := r
  obtain ⟨k,rfl,hgives⟩ := hs.sound.alloc_gives h
  have hlow := hgives.low
  have hne := hgives.ne_zero
  have hword : 0x1000*k%W32 = 0x1000*k := Nat.mod_eq_of_lt (by simp only [W32]; omega)
  have hremaps := hs.paged.withPmm (allocFrames_takes h) fun _ => False
  refine ⟨by dsimp only; omega,⟨hremaps.paged,hgives.sound⟩,hremaps,hgives.card_eq,?_⟩
  rw [mapFresh,h]
  change kMemPagingMap (claimFrame { s with pmm := q } (0x1000*k%W32)) v (0x1000*k%W32) flags = _
  rw [hword,claimFrame_taken hlow hgives.was_free hgives.free_iff hgives.size_eq]

theorem Ready.mapFresh_iff (hs : s.Ready) (hv : v/0x1000 < 1023*1024) (hi : PDE v < KERNEL_PD) :
    (∃ t, s.mapFresh v flags = .ok t) ↔ s.lookup s.directory (v/0x1000) = none ∧
    s.tableCost (PDE v)+1 ≤ s.pmm.frames.card := by
  by_cases halloc : ∃ r, kMemPmmAllocFrames s.pmm 1 = .ok r
  · obtain ⟨r,halloc⟩ := halloc
    obtain ⟨hframe,hready,hremaps,hcard,heq⟩ := hs.mapFresh_eq v flags halloc
    have hcost : Vm.tableCost { s with pmm := r.2 } (PDE v) = s.tableCost (PDE v) := rfl
    have htable := hready.table_iff (PDE v) (mapFlags flags)
    have henter :
      ∀ t, (if present (Vm.pde { s with pmm := r.2 } (PDE v)) then pure { s with pmm := r.2 }
        else Vm.installTable { s with pmm := r.2 } (PDE v) (mapFlags flags) : Result Vm) = .ok t →
        ((∃ t', enterPage v r.1 (mapFlags flags) t = .ok t') ↔
          s.lookup s.directory (v/0x1000) = none) :=
      fun t ht => (hready.tabled hi ht).enterPage_iff hframe hv
    rw [heq,map_eq]
    dsimp only at hcard htable
    constructor
    · rintro ⟨t',h⟩
      obtain ⟨t,ht,ht'⟩ := Result.bind_eq_ok.mp h
      have hle := htable.mp ⟨t,ht⟩
      exact ⟨(henter t ht).mp ⟨t',ht'⟩,by omega⟩
    · rintro ⟨hnone,hle⟩
      obtain ⟨t,ht⟩ := htable.mpr (by omega)
      obtain ⟨t',ht'⟩ := (henter t ht).mpr hnone
      exact ⟨t',Result.bind_eq_ok.mpr ⟨t,ht,ht'⟩⟩
  · refine iff_of_false ?_ ?_
    · rintro ⟨t,h⟩
      obtain ⟨r,hr,-⟩ := Result.bind_eq_ok.mp h
      exact halloc ⟨r,hr⟩
    · rw [hs.sound.alloc_iff] at halloc
      rintro ⟨-,hle⟩
      omega

theorem Ready.mapFresh (hs : s.Ready) (hv : v/0x1000 < 1023*1024) (hi : PDE v < KERNEL_PD)
    (hodd : mapFlags flags%2 = 1) (h : s.mapFresh v flags = .ok t') : s.Fresh t' (v/0x1000) := by
  have hslot : v/0x1000/1024 = PDE v := by rw [PDE]; omega
  obtain ⟨r,halloc,-⟩ := Result.bind_eq_ok.mp h
  obtain ⟨hframe,hready,hremaps,hcard,heq⟩ := hs.mapFresh_eq v flags halloc
  rw [heq,map_eq] at h
  obtain ⟨t,ht,h⟩ := Result.bind_eq_ok.mp h
  have htabled := hready.tabled hi ht
  obtain ⟨hready',hremaps',hmapped,hpresent,hpmm⟩ := htabled.fresh hframe hv hodd h
  refine ⟨hready',(hremaps.mono fun _ => False.elim).trans hremaps',hmapped,fun j => ?_,?_⟩
  · rw [hslot]
    exact hpresent j
  · have htable := htabled.card_eq
    have hcost : Vm.tableCost { s with pmm := r.2 } (PDE v) = s.tableCost (PDE v) := rfl
    rw [hslot,hpmm]
    dsimp only at htable hcard
    omega

theorem mapScattered_succ (n i v : ℕ) (s : Vm) :
    mapScattered 0 flags (n+1) i v s = s.mapFresh v flags >>=
    mapScattered 0 flags n (i+1) ((v+0x1000)%W32) := by
  rw [mapScattered,if_pos rfl,mapFresh]
  cases kMemPmmAllocFrames s.pmm 1 <;> rfl

def cost (s : Vm) (M : Finset ℕ) : ℕ :=
  M.card+((M.image (·/1024)).filter fun i => present (s.pde i) = false).card

theorem cost_mono (h : M ⊆ P) : s.cost M ≤ s.cost P :=
  Nat.add_le_add (Finset.card_le_card h)
    (Finset.card_le_card (Finset.filter_subset_filter _ (Finset.image_subset_image h)))

theorem cost_le (s : Vm) (M : Finset ℕ) : s.cost M ≤ 2*M.card := by
  have himage :=
    (Finset.card_filter_le (M.image (·/1024)) fun i =>
      present (s.pde i) = false).trans Finset.card_image_le
  rw [cost]
  omega

theorem cost_insert (hn : n ∉ M) :
    s.cost (insert n M) = s.cost M+(if present (s.pde (n/1024)) = true ∨
      n/1024 ∈ M.image (·/1024) then 0 else 1)+1 := by
  rw [cost,cost,Finset.card_insert_of_notMem hn,Finset.image_insert,Finset.filter_insert]
  by_cases hp : present (s.pde (n/1024)) = true
  · rw [if_neg (by simp [hp]),if_pos (.inl hp)]
    omega
  · rw [if_pos (Bool.eq_false_of_not_eq_true hp)]
    by_cases hin : n/1024 ∈ M.image (·/1024)
    · have hold : n/1024 ∈ (M.image (·/1024)).filter fun i => present (s.pde i) = false :=
        Finset.mem_filter.mpr ⟨hin,Bool.eq_false_of_not_eq_true hp⟩
      rw [Finset.insert_eq_of_mem hold,if_pos (.inr hin)]
      omega
    · have hnew : n/1024 ∉ (M.image (·/1024)).filter fun i => present (s.pde i) = false :=
        fun hc => hin (Finset.mem_filter.mp hc).1
      rw [Finset.card_insert_of_notMem hnew,if_neg (not_or.mpr ⟨hp,hin⟩)]
      omega

/-- Where the pages of `M` have frames, those of `P` can get them as well. -/
structure Mappable (s : Vm) (M P : Finset ℕ) : Prop where
  disjoint : Disjoint M P
  unmapped : ∀ n ∈ P, s.lookup s.directory n = none
  enough : s.cost (M ∪ P) ≤ s.pmm.frames.card

theorem mappable_union_iff (h : Disjoint P Q) : s.Mappable M (P ∪ Q) ↔
    s.Mappable M P ∧ s.Mappable (M ∪ P) Q := by
  constructor
  · rintro ⟨hdisjoint,hnone,henough⟩
    obtain ⟨hP,hQ⟩ := Finset.disjoint_union_right.mp hdisjoint
    rw [← Finset.union_assoc] at henough
    exact ⟨⟨hP,fun n hn => hnone n (Finset.mem_union_left _ hn),
      (cost_mono Finset.subset_union_left).trans henough⟩,Finset.disjoint_union_left.mpr ⟨hQ,h⟩,
      fun n hn => hnone n (Finset.mem_union_right _ hn),henough⟩
  · rintro ⟨hP,hQ⟩
    refine ⟨Finset.disjoint_union_right.mpr ⟨hP.disjoint,
      (Finset.disjoint_union_left.mp hQ.disjoint).1⟩,fun n hn => ?_,?_⟩
    · exact (Finset.mem_union.mp hn).elim (hP.unmapped n) (hQ.unmapped n)
    · rw [← Finset.union_assoc]
      exact hQ.enough

/-- State `t` after the pages of `M` have got frames. -/
structure Backed (s t : Vm) (M : Finset ℕ) : Prop where
  ready : t.Ready
  remaps : s.Remaps t (· ∈ M)
  low : ∀ n ∈ M, n < 1023*1024
  mapped : ∀ n ∈ M, t.lookup s.directory n ≠ none
  present_iff : ∀ j, present (t.pde j) = true ↔ present (s.pde j) = true ∨ j ∈ M.image (·/1024)
  card_eq : t.pmm.frames.card+s.cost M = s.pmm.frames.card

theorem Ready.backed (hs : s.Ready) : s.Backed s ∅ :=
  ⟨hs,.refl hs.paged _,fun n hn => absurd hn (Finset.notMem_empty n),
    fun n hn => absurd hn (Finset.notMem_empty n),fun j => by simp,by simp [cost]⟩

theorem Backed.lookup_iff (h : s.Backed t M) (hn : n < 1023*1024) :
    t.lookup t.directory n = none ↔ s.lookup s.directory n = none ∧ n ∉ M := by
  rw [h.remaps.directory_eq]
  by_cases hin : n ∈ M
  · exact iff_of_false (h.mapped n hin) fun hc => hc.2 hin
  · rw [h.remaps.lookup_eq n hn hin,and_iff_left hin]

theorem Backed.tableCost_eq (h : s.Backed t M) (i : ℕ) :
    t.tableCost i = if present (s.pde i) = true ∨ i ∈ M.image (·/1024) then 0 else 1 := by
  simp only [tableCost,h.present_iff]

theorem Backed.mapFresh_iff (h : s.Backed t M) (hv : v/0x1000 < 1023*1024)
    (hi : PDE v < KERNEL_PD) :
    (∃ t', t.mapFresh v flags = .ok t') ↔ s.Mappable M {v/0x1000} := by
  have hslot : v/0x1000/1024 = PDE v := by rw [PDE]; omega
  rw [h.ready.mapFresh_iff hv hi,h.lookup_iff hv,h.tableCost_eq,← hslot,and_assoc]
  have hcard := h.card_eq
  constructor
  · rintro ⟨hnone,hout,hle⟩
    refine ⟨Finset.disjoint_singleton_right.mpr hout,
      fun n hn => Finset.mem_singleton.mp hn ▸ hnone,?_⟩
    rw [Finset.union_comm,Finset.singleton_union,cost_insert hout]
    omega
  · rintro ⟨hout,hnone,hle⟩
    have hout := Finset.disjoint_singleton_right.mp hout
    rw [Finset.union_comm,Finset.singleton_union,cost_insert hout] at hle
    exact ⟨hnone _ (Finset.mem_singleton_self _),hout,by omega⟩

theorem Backed.mapFresh (h : s.Backed t M) (hv : v/0x1000 < 1023*1024) (hi : PDE v < KERNEL_PD)
    (hodd : mapFlags flags%2 = 1)
    (hret : t.mapFresh v flags = .ok t') : s.Backed t' (M ∪ {v/0x1000}) := by
  have hout : v/0x1000 ∉ M :=
    Finset.disjoint_singleton_right.mp ((h.mapFresh_iff hv hi).mp ⟨t',hret⟩).disjoint
  have hfresh := h.ready.mapFresh hv hi hodd hret
  have hremaps := hfresh.remaps
  have hcost := hfresh.card_eq
  have hcard := h.card_eq
  rw [h.tableCost_eq] at hcost
  rw [Finset.union_comm,Finset.singleton_union]
  refine ⟨hfresh.ready,(h.remaps.mono fun _ =>
    Finset.mem_insert_of_mem).trans (hremaps.mono fun n hn => hn ▸ Finset.mem_insert_self _ _),
    fun n hn => (Finset.mem_insert.mp hn).elim (fun heq => heq ▸ hv) (h.low n),
    fun n hn => ?_,fun j => ?_,?_⟩
  · by_cases heq : n = v/0x1000
    · rw [← h.remaps.directory_eq,heq]
      exact hfresh.mapped
    · have hold := (Finset.mem_insert.mp hn).resolve_left heq
      have hsame := hremaps.lookup_eq n (h.low n hold) heq
      rw [h.remaps.directory_eq] at hsame
      rw [hsame]
      exact h.mapped n hold
  · rw [hfresh.present_iff,h.present_iff,Finset.image_insert,Finset.mem_insert,or_assoc,
      @or_comm (j ∈ M.image (·/1024))]
  · rw [cost_insert hout]
    omega

theorem Backed.mapScattered (hodd : mapFlags flags%2 = 1) (n : ℕ) : ∀ {i v : ℕ} {t : Vm}
    {M : Finset ℕ}, s.Backed t M → v+n*0x1000 ≤ VIRTUAL_BASE →
      ((∃ t', mapScattered 0 flags n i v t = .ok t') ↔
        s.Mappable M (.Ico (v/0x1000) (v/0x1000+n))) ∧ ∀ t', mapScattered 0 flags n i v t = .ok t' →
        s.Backed t' (M ∪ .Ico (v/0x1000) (v/0x1000+n)) := by
  induction n with
  | zero =>
    intro i v t M h _
    rw [Nat.add_zero,Finset.Ico_self,Finset.union_empty]
    have hcard := h.card_eq
    refine ⟨iff_of_true ⟨t,rfl⟩ ⟨Finset.disjoint_empty_right M,
      fun n hn => absurd hn (Finset.notMem_empty n),?_⟩,fun t' h' => ?_⟩
    · rw [Finset.union_empty]
      omega
    · obtain rfl := Except.ok.inj h'
      exact h
  | succ n ih =>
    intro i v t M h hv
    have hbase : VIRTUAL_BASE = 0xC0000000 := rfl
    have hhalf : KERNEL_PD = 768 := rfl
    have hpage : v/0x1000 < 1023*1024 := by omega
    have hslot : PDE v < KERNEL_PD := by rw [PDE]; omega
    have hword : (v+0x1000)%W32 = v+0x1000 := Nat.mod_eq_of_lt (by simp only [W32]; omega)
    have hnext : (v+0x1000)/0x1000 = v/0x1000+1 := by omega
    have hsplit : Finset.Ico (v/0x1000) (v/0x1000+(n+1)) = {v/0x1000} ∪
        Finset.Ico (v/0x1000+1) (v/0x1000+1+n) := by
      ext m
      simp only [Finset.mem_union,Finset.mem_singleton,Finset.mem_Ico]
      omega
    have hapart : Disjoint {v/0x1000} (Finset.Ico (v/0x1000+1) (v/0x1000+1+n)) :=
      Finset.disjoint_singleton_left.mpr fun hc => by have := (Finset.mem_Ico.mp hc).1; omega
    have hrest : ∀ t₁, t.mapFresh v flags = .ok t₁ → s.Backed t₁ (M ∪ {v/0x1000}) :=
      fun t₁ h₁ => h.mapFresh hpage hslot hodd h₁
    rw [mapScattered_succ,hword,hsplit,mappable_union_iff hapart,← Finset.union_assoc,← hnext]
    refine ⟨⟨?_,?_⟩,fun t' h' => ?_⟩
    · rintro ⟨t',h'⟩
      obtain ⟨t₁,h₁,h'⟩ := Result.bind_eq_ok.mp h'
      exact ⟨(h.mapFresh_iff hpage hslot).mp ⟨t₁,h₁⟩,(ih (hrest t₁ h₁) (by omega)).1.mp ⟨t',h'⟩⟩
    · rintro ⟨hfirst,hlater⟩
      obtain ⟨t₁,h₁⟩ := (h.mapFresh_iff hpage hslot).mpr hfirst
      obtain ⟨t',h'⟩ := (ih (hrest t₁ h₁) (by omega)).1.mpr hlater
      exact ⟨t',Result.bind_eq_ok.mpr ⟨t₁,h₁,h'⟩⟩
    · obtain ⟨t₁,h₁,h'⟩ := Result.bind_eq_ok.mp h'
      exact (ih (hrest t₁ h₁) (by omega)).2 t' h'

def pagesOf (ranges : List (Finset ℕ)) : Finset ℕ := ranges.foldr (·∪·) ∅

theorem mem_pagesOf {ranges : List (Finset ℕ)} : n ∈ pagesOf ranges ↔ ∃ P ∈ ranges, n ∈ P := by
  induction ranges with
  | nil => simp [pagesOf]
  | cons P ranges ih => simp [pagesOf,← ih]

theorem disjoint_pagesOf {ranges : List (Finset ℕ)} : Disjoint P (pagesOf ranges) ↔
    ∀ Q ∈ ranges, Disjoint P Q := by
  induction ranges with
  | nil => simp [pagesOf]
  | cons Q ranges ih =>
    rw [List.forall_mem_cons,← ih]
    exact Finset.disjoint_union_right

def MapAll (s : Vm) (M : Finset ℕ) : List (Finset ℕ) → Prop
  | [] => True
  | P::ranges => s.Mappable M P ∧ MapAll s (M ∪ P) ranges

theorem mapAll_append {ranges later : List (Finset ℕ)} :
    MapAll s M (ranges++later) ↔ MapAll s M ranges ∧ MapAll s (M ∪ pagesOf ranges) later := by
  induction ranges generalizing M with
  | nil =>
    rw [pagesOf,List.foldr_nil,Finset.union_empty]
    exact (and_iff_right trivial).symm
  | cons P ranges ih =>
    rw [List.cons_append,MapAll,MapAll,ih,Finset.union_assoc,and_assoc]
    rfl

theorem mapAll_iff {ranges : List (Finset ℕ)} (hM : s.cost M ≤ s.pmm.frames.card) :
    MapAll s M ranges ↔ ranges.Pairwise Disjoint ∧ s.Mappable M (pagesOf ranges) := by
  induction ranges generalizing M with
  | nil =>
    refine iff_of_true trivial ⟨.nil,Finset.disjoint_empty_right M,
      fun n hn => absurd hn (Finset.notMem_empty n),?_⟩
    rwa [pagesOf,List.foldr_nil,Finset.union_empty]
  | cons P ranges ih =>
    rw [MapAll,List.pairwise_cons,← disjoint_pagesOf]
    constructor
    · rintro ⟨hfirst,hrest⟩
      obtain ⟨hpairs,hunion⟩ := (ih hfirst.enough).mp hrest
      have hapart := (Finset.disjoint_union_left.mp hunion.disjoint).2
      exact ⟨⟨hapart,hpairs⟩,(mappable_union_iff hapart).mpr ⟨hfirst,hunion⟩⟩
    · rintro ⟨⟨hapart,hpairs⟩,hunion⟩
      obtain ⟨hfirst,hrest⟩ := (mappable_union_iff hapart).mp hunion
      exact ⟨hfirst,(ih hfirst.enough).mpr ⟨hpairs,hrest⟩⟩

end Vm
end ScalesOS
