import ScalesOS.FrameAccounts
import ScalesOS.Descriptors

/-!
# The life of a forked process

A child is forked, exits and is destroyed. The fork takes one frame for every user table
and page of the parent. The exit gives back the pages of blocks that are not shared
memory, the release of the directory what is still mapped then, if it is below 2 GiB.
-/

namespace ScalesOS
namespace Vm

open Entry Pmm

section Growth

variable {s s₁ : Vm} {d n : ℕ}

theorem CloneReady.grow (hr : s.CloneReady d) (hend : s.heapEnd+n*0x1000 ≤ HEAP_END)
    (hlow : s.pmm.bitmapSize ≤ 0x8000 ∨ n ≤ s.pmm.lowFree.card) (hgrow : s.growHeap n = .ok s₁) :
    Grown s s₁ s.directory n ∧ s₁.heapEnd = s.heapEnd+n*0x1000 ∧ s₁.CloneReady d := by
  obtain ⟨m,hheap,hm⟩ := hr.heap
  obtain ⟨hg,hend₁⟩ := growHeap_grown hr.current hr.zero_used hr.first_ok hheap hm hend hlow hgrow
  have hself := hg.spaceOk hr.current fun _ _ _ => rfl
  refine ⟨hg,hend₁,⟨by rw [hg.directory_eq]; exact hself,
    hg.spaceOk hr.source hr.shared,?_,hg.first_ok,
    fun h => hr.zero_used (hg.free_sub 0 h),?_,m+n,?_,by omega⟩⟩
  · rw [hg.directory_eq]
    exact hr.shared.congr (hg.dir_eq hr.current) (hg.userSame hr.source hr.shared).dir
  · obtain ⟨a,ha⟩ := hr.window_start
    exact ⟨a,by rw [WindowStart,hg.window_eq]; exact ha⟩
  · rw [hend₁,hheap,Nat.add_mul]

/-- All that has happened since `s` is that the heap has grown by `n` pages. -/
structure HeapOnly (s s₁ : Vm) (d n : ℕ) : Prop where
  user : UserSame s s₁ d
  accounts : Accounts s s₁ d fun _ => False
  card_eq : s₁.pmm.lowFree.card = s.pmm.lowFree.card-n
  heapEnd_eq : s₁.heapEnd = s.heapEnd+n*0x1000
  freed_eq : s₁.pmm.freed = s.pmm.freed
  size_eq : s₁.pmm.bitmapSize = s.pmm.bitmapSize
  directory_eq : s₁.directory = s.directory
  window_eq : s₁.firstFreeAddress = s.firstFreeAddress
  lookup_eq : ∀ m, WINDOW_START ≤ m → m ≤ WINDOW_END → s₁.lookup d m = s.lookup d m

theorem CloneReady.heap_start (hr : s.CloneReady d) : HEAP_START ≤ s.heapEnd := by
  obtain ⟨m,h1,h2⟩ := hr.heap
  have h3 : HEAP_START = HEAP_PAGE*0x1000 := by decide
  rw [h1,h3]
  exact Nat.mul_le_mul_right _ h2

theorem HeapOnly.refl (hr : s.CloneReady d) (hend : s.heapEnd ≤ HEAP_END) : HeapOnly s s d 0 :=
  ⟨⟨rfl,fun _ _ _ => rfl⟩,Accounts.refl d hr.heap_start hend,(Nat.sub_zero _).symm,
    (Nat.add_zero _).symm,rfl,rfl,rfl,rfl,fun _ _ _ => rfl⟩

theorem HeapOnly.grow {s₂ : Vm} {m : ℕ} (h : HeapOnly s s₁ d n) (hr : s₁.CloneReady d)
    (hend : s.heapEnd+(n+m)*0x1000 ≤ HEAP_END)
    (hlow : s.pmm.bitmapSize ≤ 0x8000 ∨ n+m ≤ s.pmm.lowFree.card) (hgrow : s₁.growHeap m = .ok s₂) :
    HeapOnly s s₂ d (n+m) ∧ s₂.CloneReady d := by
  have hsum : s₁.heapEnd+m*0x1000 = s.heapEnd+(n+m)*0x1000 := by
    rw [h.heapEnd_eq,Nat.add_mul,Nat.add_assoc]
  obtain ⟨hg,hheap,hr₂⟩ := hr.grow (by rw [hsum]; exact hend)
    (by rw [h.size_eq,h.card_eq]; exact hlow.imp id fun h => by omega) hgrow
  refine ⟨⟨h.user.trans (hg.userSame hr.source hr.shared),
    h.accounts.grow hg hheap (by rw [hheap,hsum]; exact hend) hr.current hr.source hr.shared,?_,
    hheap.trans hsum,hg.freed_eq.trans h.freed_eq,hg.size_eq.trans h.size_eq,
    hg.directory_eq.trans h.directory_eq,hg.window_eq.trans h.window_eq,fun i h1 h2 => ?_⟩,hr₂⟩
  · rw [hg.card_eq,h.card_eq,Nat.sub_sub]
  · rw [hg.lookup_eq hr.source hr.shared h1 h2,h.lookup_eq i h1 h2]

theorem HeapOnly.twoWindows (h : HeapOnly s s₁ d n) (hr : s.CloneReady d) (htwo : s.TwoWindows d) :
    s₁.TwoWindows d := by
  obtain ⟨a,h1,h2,-⟩ := hr.window_start
  obtain ⟨x,y,h3,h4,h5,h6,h7⟩ := htwo
  have hx : WINDOW_START ≤ x := by
    rw [h1] at h3
    omega
  refine ⟨x,y,by rw [h.window_eq]; exact h3,h4,h5,?_,?_⟩
  · rw [h.lookup_eq x hx (by omega)]
    exact h6
  · rw [h.lookup_eq y (by omega) (by omega)]
    exact h7

end Growth

/-- `c` is a copy of the user half of `d` in frames of its own, all taken since `s`, the
first one after the heap had grown by `g` pages. By now it has grown by `n`. -/
structure Forked (s u : Vm) (d c g n : ℕ) : Prop where
  copy : u.SpaceOk c
  parent : u.SpaceOk d
  shared : u.SharedKernel d c
  separate : u.Separate c d
  noStale : u.NoStale c
  used_iff : ∀ a, u.UsedSlot c a ↔ s.UsedSlot d a
  inj : ∀ a a', s.UsedSlot d a → s.UsedSlot d a' → u.slotFrame c a = u.slotFrame c a' → a = a'
  nonzero : ∀ a, s.UsedSlot d a → u.slotFrame c a ≠ 0
  low_iff : ∀ a, s.UsedSlot d a →
    (u.slotFrame c a < 0x80000 ↔ g+s.slotRank d a ≤ s.pmm.lowFree.card)
  accounts : Accounts s u d (u.UserFrame c)
  freed_eq : u.pmm.freed = s.pmm.freed
  zero_used : ¬ u.pmm.IsFree 0
  first_ok : u.pmm.FirstFreeOk
  heap : ∃ m, u.heapEnd = m*0x1000 ∧ HEAP_PAGE ≤ m
  heapEnd_eq : u.heapEnd = s.heapEnd+n*0x1000
  size_eq : u.pmm.bitmapSize = s.pmm.bitmapSize
  low_left : s.pmm.lowFree.card ≤ u.pmm.lowFree.card+n+(s.usedSlots d).card

section Fork

variable {s s₁ s' u u' : Vm} {d c g n m L : ℕ}

theorem slotRank_congr (h : UserSame s s₁ d) (a : Slot) : s₁.slotRank d a = s.slotRank d a := by
  rw [slotRank,slotRank,h.usedSlots_eq]

theorem slotRank_pos {a : Slot} (ha : s.UsedSlot d a) : 0 < s.slotRank d a :=
  Finset.card_pos.mpr ⟨a,Finset.mem_filter.mpr ⟨mem_usedSlots.mpr ha,le_rfl⟩⟩

theorem Cloned.low_left (hc : Cloned s s' d c L) :
    s.pmm.lowFree.card ≤ s'.pmm.lowFree.card+(s.usedSlots d).card := by
  have hsub : s.pmm.lowFree ⊆ s'.pmm.lowFree ∪ (s.usedSlots d).image (s'.slotFrame c) := by
    intro l hl
    obtain ⟨h1,h2⟩ := mem_lowFree.mp hl
    by_cases hex : ∃ a, s.UsedSlot d a ∧ s'.slotFrame c a = l
    · obtain ⟨a,ha,rfl⟩ := hex
      exact Finset.mem_union_right _ (Finset.mem_image_of_mem _ (mem_usedSlots.mpr ha))
    · exact Finset.mem_union_left _ (mem_lowFree.mpr ⟨h1,(hc.free_iff l).mpr ⟨h2,hex⟩⟩)
  have h1 := Finset.card_le_card hsub
  have h2 := Finset.card_union_le s'.pmm.lowFree ((s.usedSlots d).image (s'.slotFrame c))
  have h3 := Finset.card_image_le (s := s.usedSlots d) (f := s'.slotFrame c)
  omega

/-- The copy right after the clone, as seen from the state before the heap has grown. -/
theorem HeapOnly.forked (h : HeapOnly s s₁ d g) (hr : s₁.CloneReady d) (hp : s₁.HeapPage d c)
    (hc : Cloned s₁ s' d c L) : Forked s s' d c g g := by
  have huser : ∀ l, s'.UserFrame c l ↔ ∃ a, s₁.UsedSlot d a ∧ s'.slotFrame c a = l := fun l =>
    exists_congr fun a => and_congr_left fun _ => hc.used_iff a
  refine ⟨hc.spaceOk_copy hr.source hp,hc.spaceOk_source hr.source,hc.shared,
    hc.separate_copy hr.source (fun _ _ _ => rfl) hp,hc.noStale,
    fun a => (hc.used_iff a).trans (h.user.used_iff a),fun a a' ha ha' => ?_,
    fun a ha h0 => ?_,fun a ha => ?_,?_,hc.freed_eq.trans h.freed_eq,fun h0 => ?_,hc.first_ok,?_,?_,
    hc.size_eq.trans h.size_eq,?_⟩
  · exact hc.inj a a' ((h.user.used_iff a).mpr ha) ((h.user.used_iff a').mpr ha')
  · have := (hc.fresh a ((h.user.used_iff a).mpr ha)).1
    exact hr.zero_used (h0 ▸ this)
  · have hpos := slotRank_pos ha
    rw [hc.low_iff ((h.user.used_iff a).mpr ha),h.card_eq,slotRank_congr h.user]
    omega
  · refine h.accounts.take hc.heapEnd_eq hc.view (fun l hl => ?_) fun l => ?_
    · obtain ⟨a,ha,rfl⟩ := (huser l).mp hl
      exact (hc.fresh a ha).1
    · rw [hc.free_iff l,huser l]
  · exact hr.zero_used ((hc.free_iff 0).mp h0).1
  · obtain ⟨m,h1,h2⟩ := hr.heap
    exact ⟨m,hc.heapEnd_eq.trans h1,h2⟩
  · rw [hc.heapEnd_eq,h.heapEnd_eq]
  · have h1 := hc.low_left
    rw [h.card_eq,h.user.usedSlots_eq] at h1
    omega

theorem Accounts.congr_own {own own' : ℕ → Prop} (h : Accounts s u d own)
    (hown : ∀ l, own' l ↔ own l) :
    Accounts s u d own' := by
  rwa [show own' = own from funext fun l => propext (hown l)]

theorem UserSame.noStale (h : UserSame u u' c) (hn : u.NoStale c) : u'.NoStale c := by
  intro i j hi hj hp
  have hi' := (h.used_iff _).mp hi
  rw [h.table_eq,h.tables i hi'.1 hi'.2] at hp ⊢
  exact hn i j hi' hj hp

theorem Forked.grow (h : Forked s u d c g n) (hdir : u.directory = d)
    (hend : s.heapEnd+(n+m)*0x1000 ≤ HEAP_END)
    (hlow : s.pmm.bitmapSize ≤ 0x8000 ∨ n+m+(s.usedSlots d).card ≤ s.pmm.lowFree.card)
    (hgrow : u.growHeap m = .ok u') : Forked s u' d c g (n+m) ∧ u'.directory = d := by
  have hsum : u.heapEnd+m*0x1000 = s.heapEnd+(n+m)*0x1000 := by
    rw [h.heapEnd_eq,Nat.add_mul,Nat.add_assoc]
  have hcur : u.SpaceOk u.directory := hdir ▸ h.parent
  have hsd : u.SharedKernel u.directory d := hdir ▸ fun _ _ _ => rfl
  have hsc : u.SharedKernel u.directory c := hdir ▸ h.shared
  have hleft := h.low_left
  obtain ⟨k,hk,hk'⟩ := h.heap
  obtain ⟨hg,hheap⟩ := growHeap_grown hcur h.zero_used h.first_ok hk hk' (by rw [hsum]; exact hend)
    (by rw [h.size_eq]; exact hlow.imp id fun h => by omega) hgrow
  have hd := hg.userSame h.parent hsd
  have hc := hg.userSame h.copy hsc
  have hframe : ∀ a, s.UsedSlot d a → u'.slotFrame c a = u.slotFrame c a := fun a ha =>
    hc.slotFrame_eq ((h.used_iff a).mpr ha)
  refine ⟨⟨hg.spaceOk h.copy hsc,hg.spaceOk h.parent hsd,h.shared.congr hd.dir hc.dir,
    h.separate.of_userSame hc hd,hc.noStale h.noStale,fun a => (hc.used_iff a).trans (h.used_iff a),
    fun a a' ha ha' he => ?_,fun a ha => ?_,fun a ha => ?_,?_,hg.freed_eq.trans h.freed_eq,
    fun h0 => h.zero_used (hg.free_sub 0 h0),hg.first_ok,⟨k+m,?_,by omega⟩,hheap.trans hsum,
    hg.size_eq.trans h.size_eq,?_⟩,hg.directory_eq.trans hdir⟩
  · rw [hframe a ha,hframe a' ha'] at he
    exact h.inj a a' ha ha' he
  · rw [hframe a ha]
    exact h.nonzero a ha
  · rw [hframe a ha]
    exact h.low_iff a ha
  · exact (h.accounts.grow hg hheap (by rw [hheap,hsum]; exact hend) hcur h.parent hsd).congr_own
      hc.userFrame_iff
  · rw [hheap,hk,Nat.add_mul]
  · rw [hg.card_eq]
    omega

end Fork

def Gone (blocks : List MmapBlock) : Slot → Prop
  | (_,none) => False
  | (i,some j) => (popped blocks (i*1024+j)).isSome

def GivenBack (blocks : List MmapBlock) : Slot → Prop
  | (_,none) => False
  | (i,some j) => ∃ block, popped blocks (i*1024+j) = some block ∧ ¬ block.Shm

theorem gone_pageSlot (blocks : List MmapBlock) (n : ℕ) :
    Gone blocks (pageSlot n) ↔ (popped blocks n).isSome := by
  rw [pageSlot,Gone,show n/1024*1024+n%1024 = n by omega]

theorem givenBack_pageSlot (blocks : List MmapBlock) (n : ℕ) :
    GivenBack blocks (pageSlot n) ↔ ∃ block, popped blocks n = some block ∧ ¬ block.Shm := by
  rw [pageSlot,GivenBack,show n/1024*1024+n%1024 = n by omega]

theorem GivenBack.gone {blocks : List MmapBlock} {a : Slot} (h : GivenBack blocks a) :
    Gone blocks a := by
  obtain ⟨i,_ | j⟩ := a
  · exact h
  · obtain ⟨block,hb,-⟩ := h
    rw [Gone,hb]
    rfl

/-- The child has exited: `frame` says which frame each slot had been copied to, and the
frames of the slots in `blocks` are free again unless these are shared memory. -/
structure Exited (s t : Vm) (d c g : ℕ) (frame : Slot → ℕ) (blocks : List MmapBlock) : Prop where
  copy : t.SpaceOk c
  parent : t.SpaceOk d
  shared : t.SharedKernel d c
  used_iff : ∀ a, t.UsedSlot c a ↔ s.UsedSlot d a ∧ ¬ Gone blocks a
  frame_eq : ∀ a, t.UsedSlot c a → t.slotFrame c a = frame a
  inj : ∀ a a', s.UsedSlot d a → s.UsedSlot d a' → frame a = frame a' → a = a'
  frame_lt : ∀ a, frame a < 0x100000
  low_iff : ∀ a, s.UsedSlot d a → (frame a < 0x80000 ↔ g+s.slotRank d a ≤ s.pmm.lowFree.card)
  accounts : Accounts s t d fun l => ∃ a, s.UsedSlot d a ∧ ¬ GivenBack blocks a ∧ frame a = l
  count : ∃ back : Finset Slot, (∀ a, a ∈ back ↔ s.UsedSlot d a ∧ GivenBack blocks a) ∧
    t.pmm.freed%W32 = (s.pmm.freed+back.card)%W32

section Exit

variable {s u t t' : Vm} {d c g n m : ℕ} {blocks : List MmapBlock}

theorem Forked.cleanPages (h : Forked s u d c g n) : u.CleanPages c where
  nonzero _ ha := h.nonzero _ ((h.used_iff _).mp ha)
  used _ ha := h.copy.pages_used _ _ ha
  inj _ _ hx hy he := pageSlot_inj (h.inj _ _ ((h.used_iff _).mp hx) ((h.used_iff _).mp hy) he)

theorem Forked.own_inj (h : Forked s u d c g n) {a a' : Slot} (ha : u.UsedSlot c a)
    (ha' : u.UsedSlot c a') (he : u.slotFrame c a = u.slotFrame c a') : a = a' :=
  h.inj a a' ((h.used_iff a).mp ha) ((h.used_iff a').mp ha') he

theorem Forked.exited (h : Forked s u d c g n)
    (hm : Unmapping u t c (fun x => (popped blocks x).isSome)
      fun x => ∃ block, popped blocks x = some block ∧ ¬ block.Shm) :
    Exited s t d c g (u.slotFrame c) blocks := by
  have hsub : ∀ x, (∃ block, popped blocks x = some block ∧ ¬ block.Shm) →
      (popped blocks x).isSome :=
    fun x ⟨block,hb,_⟩ => by rw [hb]; rfl
  refine ⟨hm.own_space h.copy hsub fun _ _ ha _ => h.own_inj ha,hm.other_space h.parent h.separate,
    h.shared.congr (hm.other h.parent h.separate).dir (hm.dir_eq h.copy),fun a => ?_,
    fun a ha => hm.slotFrame_eq h.copy ha,h.inj,fun a => page_lt _,h.low_iff,?_,?_⟩
  · obtain ⟨i,_ | j⟩ := a
    · rw [hm.used_table h.copy,h.used_iff]
      exact ⟨fun ha => ⟨ha,id⟩,fun ha => ha.1⟩
    · constructor
      · intro ha
        have hs := pageSlot_of_used ha
        rw [← hs] at ha ⊢
        obtain ⟨h1,h2⟩ := (hm.used_page h.copy _).mp ha
        exact ⟨(h.used_iff _).mp h1,fun hc => h2 ((gone_pageSlot _ _).mp hc)⟩
      · rintro ⟨ha,hg⟩
        have hs := pageSlot_of_used ha
        rw [← hs] at ha hg ⊢
        exact (hm.used_page h.copy _).mpr ⟨(h.used_iff _).mpr ha,fun hc =>
          hg ((gone_pageSlot _ _).mpr hc)⟩
  · refine h.accounts.giveBack hm.window_eq.2 (fun x _ hx => hm.other_lookup h.parent h.separate hx)
      (fun l ⟨a,ha,_,he⟩ => ⟨a,(h.used_iff a).mpr ha,he⟩) fun l => ?_
    rw [hm.free_iff l]
    refine or_congr Iff.rfl ⟨?_,?_⟩
    · rintro ⟨x,ha,hback,-,rfl⟩
      refine ⟨⟨_,ha,rfl⟩,fun ⟨a,ha',hno,he⟩ => hno ?_⟩
      rw [h.inj a _ ha' ((h.used_iff _).mp ha) he,givenBack_pageSlot]
      exact hback
    · rintro ⟨⟨a,ha,rfl⟩,hno⟩
      have ha' := (h.used_iff a).mp ha
      have hback : GivenBack blocks a := by
        by_contra hc
        exact hno ⟨a,ha',hc,rfl⟩
      obtain ⟨i,_ | j⟩ := a
      · exact hback.elim
      · have hs := pageSlot_of_used ha
        rw [← hs] at ha hback ha' ⊢
        exact ⟨_,ha,(givenBack_pageSlot _ _).mp hback,h.nonzero _ ha',rfl⟩
  · obtain ⟨pages,hnodup,hmem,hfreed⟩ := hm.count h.cleanPages
    refine ⟨pages.toFinset.image pageSlot,fun a => ?_,?_⟩
    · rw [Finset.mem_image]
      constructor
      · rintro ⟨x,hx,rfl⟩
        obtain ⟨h1,h2⟩ := (hmem x).mp (List.mem_toFinset.mp hx)
        exact ⟨(h.used_iff _).mp h1,(givenBack_pageSlot _ _).mpr h2⟩
      · rintro ⟨ha,hback⟩
        obtain ⟨i,_ | j⟩ := a
        · exact hback.elim
        · have hs := pageSlot_of_used ha
          rw [← hs] at ha hback
          exact ⟨_,List.mem_toFinset.mpr ((hmem _).mpr
            ⟨(h.used_iff _).mpr ha,(givenBack_pageSlot _ _).mp hback⟩),hs⟩
    · rw [Finset.card_image_of_injective _ fun x y => pageSlot_inj,
        List.toFinset_card_of_nodup hnodup,hfreed,h.freed_eq]

theorem Exited.grow {frame : Slot → ℕ} (h : Exited s t d c g frame blocks) (hg : Grown t t' c m)
    (hdir : t.directory = c) (hheap : t'.heapEnd = t.heapEnd+m*0x1000)
    (hend : t'.heapEnd ≤ HEAP_END) :
    Exited s t' d c g frame blocks := by
  subst hdir
  have hself : t.SharedKernel t.directory t.directory := fun _ _ _ => rfl
  have hc := hg.userSame h.copy hself
  have hd := hg.userSame h.parent h.shared.symm
  refine ⟨hg.spaceOk h.copy hself,hg.spaceOk h.parent h.shared.symm,h.shared.congr hd.dir hc.dir,
    fun a => (hc.used_iff a).trans (h.used_iff a),fun a ha => ?_,h.inj,h.frame_lt,h.low_iff,
    h.accounts.grow hg hheap hend h.copy h.parent h.shared.symm,?_⟩
  · have ha' := (hc.used_iff a).mp ha
    rw [hc.slotFrame_eq ha']
    exact h.frame_eq a ha'
  · rw [hg.freed_eq]
    exact h.count

theorem Forked.switch (h : Forked s u d c g n) (e : ℕ) :
    Forked s (u.kMemPagingSetPageDirectory e) d c g n :=
  { h with
    copy := h.copy.switch e
    parent := h.parent.switch e
    separate := ⟨h.separate.foreign,h.separate.pages⟩
    accounts := h.accounts.switch e }

theorem Exited.switch {frame : Slot → ℕ} (h : Exited s t d c g frame blocks) (e : ℕ) :
    Exited s (t.kMemPagingSetPageDirectory e) d c g frame blocks :=
  { h with
    copy := h.copy.switch e
    parent := h.parent.switch e
    accounts := h.accounts.switch e }

theorem Forked.pop (h : Forked s u d c g n) (hdir : u.directory = c)
    (huser : ∀ block ∈ blocks, block.InUser) (info : MmapInfo) :
    Unmapping u (u.popBlocks info blocks).1 c (fun x => (popped blocks x).isSome)
      fun x => ∃ block, popped blocks x = some block ∧ ¬ block.Shm :=
  (popBlocks_user h.copy h.noStale blocks u info _ _ (Unmapping.refl hdir h.first_ok) (fun _ h =>
    h) huser).congr
    (fun x => by simp) fun x => by simp

theorem Forked.exit_ready (h : Forked s u d c g n)
    (hm : Unmapping u t c (fun x => (popped blocks x).isSome)
      fun x => ∃ block, popped blocks x = some block ∧ ¬ block.Shm) :
    ¬ t.pmm.IsFree 0 ∧ (∃ k, t.heapEnd = k*0x1000 ∧ HEAP_PAGE ≤ k) ∧
      (s.pmm.bitmapSize ≤ 0x8000 → t.pmm.bitmapSize ≤ 0x8000) ∧
      s.pmm.lowFree.card ≤ t.pmm.lowFree.card+n+(s.usedSlots d).card := by
  refine ⟨fun h0 => ?_,?_,fun hsize => ?_,?_⟩
  · rcases (hm.free_iff 0).mp h0 with h0 | ⟨x,-,-,hne,he⟩
    · exact h.zero_used h0
    · exact hne he
  · rw [hm.window_eq.2]
    exact h.heap
  · have := hm.size_le
    rw [h.size_eq,max_eq_right hsize] at this
    exact this
  · have hsub : u.pmm.lowFree ⊆ t.pmm.lowFree := fun l hl =>
      mem_lowFree.mpr ⟨(mem_lowFree.mp hl).1,(hm.free_iff l).mpr (.inl (mem_lowFree.mp hl).2)⟩
    have h1 := Finset.card_le_card hsub
    have h2 := h.low_left
    omega

theorem Forked.exit_grown (h : Forked s u d c g n)
    (hm : Unmapping u t c (fun x => (popped blocks x).isSome)
      fun x => ∃ block, popped blocks x = some block ∧ ¬ block.Shm)
    (hend : s.heapEnd+(n+m)*0x1000 ≤ HEAP_END)
    (hlow : s.pmm.bitmapSize ≤ 0x8000 ∨ n+m+(s.usedSlots d).card ≤ s.pmm.lowFree.card)
    (hgrow : t.growHeap m = .ok t') : Exited s t' d c g (u.slotFrame c) blocks := by
  obtain ⟨hzero,⟨k,hk,hk'⟩,hsize,hleft⟩ := h.exit_ready hm
  have he := h.exited hm
  have hsum : t.heapEnd+m*0x1000 = s.heapEnd+(n+m)*0x1000 := by
    rw [hm.window_eq.2,h.heapEnd_eq,Nat.add_mul,Nat.add_assoc]
  obtain ⟨hg,hheap⟩ :=
    growHeap_grown (by rw [hm.directory_eq]; exact he.copy) hzero hm.first_ok hk hk'
    (by rw [hsum]; exact hend) (hlow.imp hsize fun h => by omega) hgrow
  rw [hm.directory_eq] at hg
  exact he.grow hg hm.directory_eq hheap (by rw [hheap,hsum]; exact hend)

theorem Forked.exit_returns (h : Forked s u d c g n)
    (hm : Unmapping u t c (fun x => (popped blocks x).isSome)
      fun x => ∃ block, popped blocks x = some block ∧ ¬ block.Shm)
    (hend : s.heapEnd+(n+m)*0x1000 ≤ HEAP_END)
    (hcard : n+m+(s.usedSlots d).card ≤ s.pmm.lowFree.card) (hroom : s.HeapRoom d) :
    ∃ t', t.growHeap m = .ok t' := by
  obtain ⟨hzero,hheap,-,hleft⟩ := h.exit_ready hm
  have he := h.exited hm
  have hroom' : t.HeapRoom t.directory := fun x h1 h2 => by
    have h3 := he.accounts.heap_start
    have h4 := he.accounts.heap_le
    obtain ⟨h5,h6⟩ := heap_page (m:=x) (by omega) h2
    obtain ⟨h7,h8⟩ := window_page h5 h6
    rw [hm.directory_eq,he.shared.lookup_eq h7 h8]
    exact he.accounts.room hroom x h1 h2
  refine hroom'.grow_returns (by
    rw [hm.directory_eq]; exact he.copy) hzero hm.first_ok hheap ?_ (by omega)
  rw [hm.window_eq.2,h.heapEnd_eq,Nat.add_assoc,← Nat.add_mul]
  exact hend

end Exit

/-- Compared with `s`, the frames taken for the child are free again, each has been freed
once, and only the pages of the kernel heap have been kept. -/
structure Conserved (s v : Vm) (d : ℕ) : Prop where
  free_iff : ∀ l, v.pmm.IsFree l ↔ s.pmm.IsFree l ∧ ¬ HeapFrame s v d l
  freed_once : v.pmm.freed%W32 = (s.pmm.freed+(s.usedSlots d).card)%W32

/-- The copy of slot `a` will be given back: by the exit, as a page of a block that is
not shared memory, or by the release, as a slot in no block whose copy is below 2 GiB.
The latter is a matter of the free frames there, which the slots get in their order. -/
def Returned (s : Vm) (d g : ℕ) (blocks : List MmapBlock) (a : Slot) : Prop :=
  GivenBack blocks a ∨ (¬ Gone blocks a ∧ g+s.slotRank d a ≤ s.pmm.lowFree.card)

section Release

variable {s t v : Vm} {d c g : ℕ} {frame : Slot → ℕ} {blocks : List MmapBlock}

theorem SpaceOk.slot_used (h : t.SpaceOk c) {a : Slot} (ha : t.UsedSlot c a) :
    ¬ t.pmm.IsFree (t.slotFrame c a) := h.userFrame_used ⟨a,ha,rfl⟩

theorem heapFrame_eq (hphys : v.phys = t.phys) (hheap : v.heapEnd = t.heapEnd) (l : ℕ) :
    HeapFrame s v d l ↔ HeapFrame s t d l := by
  have hlook : v.lookup d = t.lookup d := by
    funext m
    rw [lookup,lookup,table,table,hphys]
  rw [HeapFrame,HeapFrame,hlook,hheap]

theorem Exited.cleanSlots (h : Exited s t d c g frame blocks)
    (hback : ∀ a, s.UsedSlot d a → Returned s d g blocks a) : t.CleanSlots c where
  low a ha := by
    obtain ⟨hs,hgone⟩ := (h.used_iff a).mp ha
    rw [h.frame_eq a ha,h.low_iff a hs]
    exact ((hback a hs).resolve_left fun hc => hgone hc.gone).2
  used _ ha := h.copy.slot_used ha
  inj a a' ha ha' he := by
    rw [h.frame_eq a ha,h.frame_eq a' ha'] at he
    exact h.inj a a' ((h.used_iff a).mp ha).1 ((h.used_iff a').mp ha').1 he

/-- The slots given back by the exit and those left for the release make up all slots. -/
theorem Exited.card_slots (h : Exited s t d c g frame blocks)
    (hback : ∀ a, s.UsedSlot d a → Returned s d g blocks a) {back : Finset Slot}
    (hmem : ∀ a, a ∈ back ↔ s.UsedSlot d a ∧ GivenBack blocks a) :
    back.card+(t.usedSlots c).card = (s.usedSlots d).card := by
  rw [← Finset.card_union_of_disjoint]
  · congr 1
    ext a
    rw [Finset.mem_union,hmem,mem_usedSlots,mem_usedSlots,h.used_iff]
    constructor
    · rintro (ha | ha)
      · exact ha.1
      · exact ha.1
    · intro ha
      rcases hback a ha with hg | ⟨hg,-⟩
      · exact .inl ⟨ha,hg⟩
      · exact .inr ⟨ha,hg⟩
  · rw [Finset.disjoint_left]
    intro a ha ha'
    exact ((h.used_iff a).mp (mem_usedSlots.mp ha')).2 ((hmem a).mp ha).2.gone

theorem Exited.conserved_iff (h : Exited s t d c g frame blocks)
    (hrel : t.kMemPagingReleaseDirectory c = .ok v) :
    Conserved s v d ↔ ∀ a, s.UsedSlot d a → Returned s d g blocks a := by
  obtain ⟨v',hrel',hphys,-,-,hheap,hfree,hcount,-⟩ := release_spec h.copy.dirOk.self
  rw [hrel] at hrel'
  obtain rfl := Except.ok.inj hrel'
  have hkept := heapFrame_eq (s:=s) (d:=d) hphys hheap
  constructor
  · intro hcons a ha
    by_contra hno
    rw [Returned,not_or] at hno
    -- the frame of the copy stays allocated
    obtain ⟨h1,h2⟩ := h.accounts.own_taken (frame a) ⟨a,ha,hno.1,rfl⟩
    have hv := (hcons.free_iff (frame a)).mpr ⟨h1,fun hc => h2 ((hkept _).mp hc)⟩
    rcases (hfree _ (.inl (h.frame_lt a))).mp hv with hv | ⟨a',ha',hlow,he⟩
    · exact ((h.accounts.free_iff _).mp hv).2.2 ⟨a,ha,hno.1,rfl⟩
    · rw [h.frame_eq a' ha'] at hlow he
      obtain ⟨hs,hgone⟩ := (h.used_iff a').mp ha'
      obtain rfl := h.inj a' a hs ha he
      exact hno.2 ⟨hgone,(h.low_iff a' hs).mp hlow⟩
  · intro hback
    have hclean := h.cleanSlots hback
    refine ⟨fun l => ?_,?_⟩
    · rw [hfree l (.inr hclean.low),h.accounts.free_iff l,hkept l]
      constructor
      · rintro (⟨h1,h2,-⟩ | ⟨a,ha,-,rfl⟩)
        · exact ⟨h1,h2⟩
        · obtain ⟨hs,hgone⟩ := (h.used_iff a).mp ha
          rw [h.frame_eq a ha]
          exact h.accounts.own_taken _ ⟨a,hs,fun hc => hgone hc.gone,rfl⟩
      · rintro ⟨h1,h2⟩
        by_cases hown : ∃ a, s.UsedSlot d a ∧ ¬ GivenBack blocks a ∧ frame a = l
        · obtain ⟨a,hs,hno,rfl⟩ := hown
          have ha := (h.used_iff a).mpr ⟨hs,((hback a hs).resolve_left hno).1⟩
          exact .inr ⟨a,ha,hclean.low a ha,h.frame_eq a ha⟩
        · exact .inl ⟨h1,h2,hown⟩
    · obtain ⟨back,hmem,hfreed⟩ := h.count
      rw [hcount hclean,Nat.add_mod,hfreed,← h.card_slots hback hmem]
      simp only [W32]
      omega

end Release

end Vm
end ScalesOS
