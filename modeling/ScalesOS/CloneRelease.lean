import ScalesOS.HeapGrowth

/-!
# A clone and its release

What `k_mem_paging_clone_page_directory` leaves behind, slot by slot, and that
`k_mem_paging_release_directory` gives all of it back as long as the frames are below
2 GiB.
-/

namespace ScalesOS
namespace Vm

open Entry Pmm

instance (s : Vm) (d : ℕ) : DecidablePred (s.UsedSlot d)
  | (_,none) => inferInstanceAs (Decidable (_ ∧ _))
  | (_,some _) => inferInstanceAs (Decidable (_ ∧ _))

/-- The slots of the user half that are in use: one frame each is what a clone needs. -/
@[irreducible] def usedSlots (s : Vm) (d : ℕ) : Finset Slot :=
  ((Finset.range KERNEL_PD) ×ˢ insert none ((Finset.range 1024).image some)).filter (s.UsedSlot d)

theorem mem_usedSlots {s : Vm} {d : ℕ} {a : Slot} : a ∈ s.usedSlots d ↔ s.UsedSlot d a := by
  unfold usedSlots
  simp only [Finset.mem_filter,Finset.mem_product,Finset.mem_range,Finset.mem_insert,
    Finset.mem_image]
  refine ⟨fun h => h.2,fun h => ⟨?_,h⟩⟩
  obtain ⟨i,_ | j⟩ := a
  · exact ⟨h.1,.inl rfl⟩
  · exact ⟨h.1,.inr ⟨j,h.2.1,rfl⟩⟩

/-- The copy `c` of directory `d`, made since state `s`, in frames below `L`. -/
structure Cloned (s s' : Vm) (d c L : ℕ) : Prop where
  used_iff : ∀ a, s'.UsedSlot c a ↔ s.UsedSlot d a
  flags : ∀ a, s.UsedSlot d a → s'.slotWord c a%0x1000 = s.slotWord d a%0x1000
  fresh : ∀ a, s.UsedSlot d a → s.pmm.IsFree (s'.slotFrame c a) ∧ s'.slotFrame c a < L
  inj : ∀ a a', s.UsedSlot d a → s.UsedSlot d a' → s'.slotFrame c a = s'.slotFrame c a' → a = a'
  contents : ∀ i j, s.UsedSlot d (i,some j) →
    s'.phys (s'.slotFrame c (i,some j)) = s.phys (s.slotFrame d (i,some j))
  source : UserSame s s' d
  source_pages : ∀ i j, s.UsedSlot d (i,some j) →
    s'.phys (s.slotFrame d (i,some j)) = s.phys (s.slotFrame d (i,some j))
  empty : ∀ i j, s.UsedSlot d (i,none) → ¬ s.UsedSlot d (i,some j) → j < 1024 →
    s'.phys (s'.table c i) j = 0
  kernel : ∀ i, KERNEL_PD ≤ i → i < 1023 → s'.phys c i = s.phys d i
  others : ∀ f, f ≠ c → (∀ a, s.UsedSlot d a → s'.slotFrame c a ≠ f) → ¬ s.KernelTable d f →
    s'.phys f = s.phys f
  view : ∀ n, WINDOW_START ≤ n → n < 1023*1024 → s'.lookup d n = s.lookup d n
  free_iff : ∀ l, s'.pmm.IsFree l ↔ s.pmm.IsFree l ∧ ¬ ∃ a, s.UsedSlot d a ∧ s'.slotFrame c a = l
  lowest : ∀ a, s.UsedSlot d a → ∀ l, s'.pmm.IsFree l → s'.slotFrame c a < l
  ordered : ∀ a a', s.UsedSlot d a → s.UsedSlot d a' → slotIndex a < slotIndex a' →
    s'.slotFrame c a < s'.slotFrame c a'
  self : page (s'.phys c 1023) = c
  directory_eq : s'.directory = s.directory
  heapEnd_eq : s'.heapEnd = s.heapEnd
  freed_eq : s'.pmm.freed = s.pmm.freed
  size_eq : s'.pmm.bitmapSize = s.pmm.bitmapSize
  first_ok : s'.pmm.FirstFreeOk
  window_start : ∃ a, s'.WindowStart a

def cloneStart (s : Vm) (d c : ℕ) : Vm :=
  Vm.kMemPagingSetPageDirectory ((s.setPage c (s.phys d)).setWord c 1023
    (c*0x1000 ||| (PAGE_PRESENT ||| PAGE_WRITABLE))) d

/-- A page of the kernel heap that nothing else refers to. -/
structure HeapPage (s : Vm) (d c : ℕ) : Prop where
  low : c < 0x100000
  foreign : s.Foreign d c
  used : ¬ s.pmm.IsFree c
  pages : ∀ i j, s.UsedSlot d (i,some j) → s.slotFrame d (i,some j) ≠ c

section Start

variable {s : Vm} {d c : ℕ}

theorem cloneStart_phys (s : Vm) (d : ℕ) {c f : ℕ} (hf : f ≠ c) :
    (s.cloneStart d c).phys f = s.phys f := by
  rw [cloneStart,kMemPagingSetPageDirectory]
  show (Vm.setWord _ c 1023 _).phys f = _
  rw [phys_setWord_frame _ _ _ _ hf,phys_setPage_frame _ _ _ hf]

theorem cloneStart_copy (s : Vm) (d c : ℕ) {i : ℕ} (hi : i ≠ 1023) :
    (s.cloneStart d c).phys c i = s.phys d i := by
  rw [cloneStart,kMemPagingSetPageDirectory]
  show (Vm.setWord _ c 1023 _).phys c i = _
  rw [phys_setWord_index _ _ _ _ hi,phys_setPage_self]

theorem cloneStart_self (s : Vm) (d : ℕ) {c : ℕ} (hc : c < 0x100000) :
    page ((s.cloneStart d c).phys c 1023) = c := by
  rw [cloneStart,kMemPagingSetPageDirectory]
  show page ((Vm.setWord _ c 1023 _).phys c 1023) = _
  rw [phys_setWord_self,Nat.mul_comm,page_or hc (by decide)]

theorem cloneStart_userSame (hs : s.SpaceOk d) (hp : s.HeapPage d c) :
    UserSame s (s.cloneStart d c) d where
  dir := cloneStart_phys s d hp.foreign.1.symm
  tables i hi hpi := cloneStart_phys s d (hp.foreign.2 i (hs.user_table hi hpi)).symm

theorem cloneStart_lookup (hp : s.HeapPage d c) {n : ℕ} (hn : n < 1023*1024) :
    (s.cloneStart d c).lookup d n = s.lookup d n :=
  lookup_congr hn (cloneStart_phys s d hp.foreign.1.symm)
    fun ht => cloneStart_phys s d (hp.foreign.2 _ ht).symm

theorem cloneStart_base (hs : s.SpaceOk d) (hzero : ¬ s.pmm.IsFree 0) (hp : s.HeapPage d c) :
    CloneBase (s.cloneStart d c) d c := by
  have hu := cloneStart_userSame hs hp
  refine ⟨hs.transfer hu (fun k hk => hk) ?_ ?_,⟨hp.foreign.1,fun i hi => ?_⟩,hp.used,
    fun i j ha => ?_,hzero⟩
  · rw [cloneStart_lookup hp (by decide)]
    exact hs.guard
  · intro n h1 h2
    rw [cloneStart_lookup hp (lt_trans h2 (by decide))]
    exact hs.windows n h1 h2
  · rw [hu.table_eq]
    exact hp.foreign.2 i ((isTable_congr hu.dir i).mp hi)
  · have ha' := (hu.used_iff _).mp ha
    rw [hu.slotFrame_eq ha']
    exact hp.pages i j ha'

theorem cloneStart_cloning {L : ℕ} (hok : s.pmm.FirstFreeOk) (hwin : ∃ a, s.WindowStart a) :
    Cloning (s.cloneStart d c) (s.cloneStart d c) d c L (fun _ => none) (fun a => a.1 < 0) [] := by
  refine ⟨⟨by simp,by simp,by simp,by simp,fun _ h => (by cases h),fun _ h => by cases h⟩,
    ⟨rfl,rfl,fun _ _ _ _ => rfl,fun _ _ _ => rfl,fun _ _ h => (by cases h),by simp,by simp,
      rfl,rfl,hok,hwin⟩,by simp,by simp,by simp,by simp,fun _ _ => rfl⟩

theorem copied_flags {k w : ℕ} :
    (0x1000*k ||| (w &&& 0xFFF))%0x1000 = w%0x1000 ∧
      present (0x1000*k ||| (w &&& 0xFFF)) = present w := by
  have hand : w &&& 0xFFF = w%0x1000 := Nat.and_two_pow_sub_one_eq_mod w 12
  have hmod : (0x1000*k ||| (w &&& 0xFFF))%0x1000 = w%0x1000 := by
    rw [or_flags (flags_lt w),hand]
    omega
  refine ⟨hmod,?_⟩
  rw [present_or (flags_lt w),hand,present,present]
  congr 1
  omega

theorem UsedSlot.index_lt {a : Slot} (h : s.UsedSlot d a) : a.1 < KERNEL_PD := by
  obtain ⟨i,_ | j⟩ := a
  · exact h.1
  · exact h.1

theorem UsedSlot.present {a : Slot} (h : s.UsedSlot d a) : present (s.slotWord d a) = true := by
  obtain ⟨i,_ | j⟩ := a
  · exact h.2
  · exact h.2.2.2

variable {t : Vm} {L : ℕ} {got : List (Slot × ℕ)}

theorem Cloning.cloned (hs : s.SpaceOk d) (hp : s.HeapPage d c) (hzero : ¬ s.pmm.IsFree 0)
    (hL : L ≤ 0x100000)
    (h : Cloning (s.cloneStart d c) t d c L (fun _ => none) (fun a => a.1 < KERNEL_PD) got) :
    Cloned s (t.kMemPagingSetPageDirectory s.directory) d c L := by
  have hb := cloneStart_base hs hzero hp
  have hu := cloneStart_userSame hs hp
  have hmem : ∀ a, s.UsedSlot d a → ∃ k, (a,k) ∈ got := fun a ha =>
    exists_of_mem_fst ((h.slots a).mpr ⟨ha.index_lt,(hu.used_iff a).mpr ha⟩)
  have hused : ∀ a k, (a,k) ∈ got → s.UsedSlot d a := fun a k ha =>
    (hu.used_iff a).mp ((h.slots a).mp (mem_fst ha)).2
  have hword : ∀ a k, (a,k) ∈ got → t.slotWord c a = 0x1000*k ||| (s.slotWord d a &&& 0xFFF) := by
    intro a k ha
    rw [h.word a k ha,hu.slotWord_eq (hused a k ha)]
  have hframe : ∀ a k, (a,k) ∈ got → t.slotFrame c a = k := by
    intro a k ha
    rw [slotFrame,hword a k ha]
    exact page_or (lt_of_lt_of_le (h.low _ ha) hL) (flags_lt _)
  have husedc : ∀ a, t.UsedSlot c a ↔ s.UsedSlot d a := by
    have htable : ∀ i, i < KERNEL_PD → (present (t.phys c i) = true ↔ s.UsedSlot d (i,none)) := by
      intro i hi
      by_cases hg : (i,none) ∈ got.map Prod.fst
      · obtain ⟨k,hk⟩ := exists_of_mem_fst hg
        have hw := hword _ k hk
        have hpres := (hused _ k hk).present
        rw [show t.phys c i = t.slotWord c (i,none) from rfl,hw,copied_flags.2]
        exact ⟨fun _ => hused _ k hk,fun _ => hpres⟩
      · have hne : i ≠ 1023 := by have : KERNEL_PD < 1023 := by decide
                                  omega
        rw [h.rest i hg,cloneStart_copy s d c hne]
        exact ⟨fun hpi => ⟨hi,hpi⟩,fun hsl => hsl.2⟩
    rintro ⟨i,_ | j⟩
    · refine ⟨fun hsl => (htable i hsl.1).mp hsl.2,fun hsl => ⟨hsl.1,(htable i hsl.1).mpr hsl⟩⟩
    · constructor
      · rintro ⟨hi,hj,hpi,hpj⟩
        obtain ⟨k,hk⟩ := hmem _ ((htable i hi).mp hpi)
        by_contra hno
        have hg : (i,some j) ∉ got.map Prod.fst := fun hg => by
          obtain ⟨k',hk'⟩ := exists_of_mem_fst hg
          exact hno (hused _ k' hk')
        rw [h.table_eq hL hk,h.empty i j k hk hg] at hpj
        cases hpj
      · intro hsl
        obtain ⟨k,hk⟩ := hmem _ hsl
        have hw := hword _ k hk
        refine ⟨hsl.1,hsl.2.1,(htable i hsl.1).mpr ⟨hsl.1,hsl.2.2.1⟩,?_⟩
        rw [show t.phys (t.table c i) j = t.slotWord c (i,some j) from rfl,hw,copied_flags.2]
        exact hsl.present
  have hsame : UserSame s t d := by
    have hu' := h.env.userSame hb
    refine ⟨hu'.dir.trans hu.dir,fun i hi hpi => ?_⟩
    have hpi' : present ((s.cloneStart d c).phys d i) = true := by rw [hu.dir]; exact hpi
    rw [← hu.table_eq,hu'.tables i hi hpi',hu.table_eq]
    exact hu.tables i hi hpi
  refine ⟨husedc,fun a ha => ?_,fun a ha => ?_,fun a a' ha ha' he => ?_,fun i j ha => ?_,
    ⟨hsame.dir,hsame.tables⟩,fun i j ha => ?_,fun i j hi hj hlt => ?_,fun i h1 h2 => ?_,
    fun f hfc hf hk => ?_,fun n h1 h2 => ?_,fun l => ?_,fun a ha l hl => ?_,
    fun a a' ha ha' hlt => ?_,
    ?_,rfl,h.env.heapEnd_eq,h.env.freed_eq,h.env.size_eq,h.env.first_ok,h.env.window_start⟩
  · obtain ⟨k,hk⟩ := hmem a ha
    show t.slotWord c a%0x1000 = _
    rw [hword a k hk,copied_flags.1]
  · obtain ⟨k,hk⟩ := hmem a ha
    show s.pmm.IsFree (t.slotFrame c a) ∧ t.slotFrame c a < L
    rw [hframe a k hk]
    exact ⟨h.env.taken_free k (mem_snd hk),h.low _ hk⟩
  · obtain ⟨k,hk⟩ := hmem a ha
    obtain ⟨k',hk'⟩ := hmem a' ha'
    have he : t.slotFrame c a = t.slotFrame c a' := he
    rw [hframe a k hk,hframe a' k' hk'] at he
    exact h.slot_unique hk (he ▸ hk')
  · obtain ⟨k,hk⟩ := hmem _ ha
    have ha' := (hu.used_iff _).mpr ha
    show t.phys (t.slotFrame c (i,some j)) = _
    rw [hframe _ k hk,h.contents i j k hk,hu.slotFrame_eq ha,cloneStart_phys s d (hp.pages i j ha)]
  · have ha' := (hu.used_iff _).mpr ha
    have hpg := h.env.page_eq hb ha'
    rw [hu.slotFrame_eq ha,cloneStart_phys s d (hp.pages i j ha)] at hpg
    exact hpg
  · obtain ⟨k,hk⟩ := hmem _ hi
    have hno : (i,some j) ∉ got.map Prod.fst := fun hg => by
      obtain ⟨k',hk'⟩ := exists_of_mem_fst hg
      exact hj (hused _ k' hk')
    show t.phys (t.table c i) j = 0
    rw [h.table_eq hL hk]
    exact h.empty i j k hk hno
  · have hno : (i,none) ∉ got.map Prod.fst := fun hg =>
      absurd ((h.slots _).mp hg).1 (by simp only; omega)
    show t.phys c i = _
    rw [h.rest i hno,cloneStart_copy s d c (by omega)]
  · show t.phys f = _
    rw [h.env.frames f hfc (fun hg => ?_) fun hkt => hk ?_,cloneStart_phys s d hfc]
    · obtain ⟨⟨a,k⟩,hmem',rfl⟩ := List.mem_map.mp hg
      exact hf a (hused a k hmem') (hframe a k hmem')
    · obtain ⟨i,h1,h2,he⟩ := hkt
      exact ⟨i,h1,h2,by rw [he,hu.table_eq]⟩
  · show t.lookup d n = _
    rw [h.env.view n h1 h2,cloneStart_lookup hp h2]
    rfl
  · show t.pmm.IsFree l ↔ _
    rw [h.env.free_iff l]
    refine and_congr Iff.rfl (not_congr ⟨fun hl => ?_,?_⟩)
    · obtain ⟨⟨a,k⟩,hk,rfl⟩ := List.mem_map.mp hl
      exact ⟨a,hused a k hk,hframe a k hk⟩
    · rintro ⟨a,ha,hf⟩
      obtain ⟨k,hk⟩ := hmem a ha
      have hf : t.slotFrame c a = l := hf
      rw [← hf,hframe a k hk]
      exact mem_snd hk
  · obtain ⟨k,hk⟩ := hmem a ha
    show t.slotFrame c a < l
    rw [hframe a k hk]
    exact h.lowest _ hk l hl
  · obtain ⟨k,hk⟩ := hmem a ha
    obtain ⟨k',hk'⟩ := hmem a' ha'
    show t.slotFrame c a < t.slotFrame c a'
    rw [hframe a k hk,hframe a' k' hk']
    exact h.ordered _ hk _ hk' hlt
  · show page (t.phys c 1023) = c
    have hno : (1023,none) ∉ got.map Prod.fst := fun hg =>
      absurd ((h.slots _).mp hg).1 (by decide)
    rw [h.rest 1023 hno]
    exact cloneStart_self s d hp.low

end Start

/-! ## Frames enough -/

section Supply

variable {s : Vm} {d c : ℕ}

theorem plenty_of_card (hs : s.SpaceOk d) (hp : s.HeapPage d c)
    (hcard : (s.usedSlots d).card ≤ s.pmm.lowFree.card) :
    Plenty (s.cloneStart d c) d c 0x80000 := by
  intro t opened done got a h ha hnew
  have hu := cloneStart_userSame hs hp
  have hslots : (got.map Prod.fst).toFinset ⊆ (s.usedSlots d).erase a := by
    intro a' ha'
    obtain ⟨hd',hu'⟩ := (h.slots a').mp (List.mem_toFinset.mp ha')
    refine Finset.mem_erase.mpr ⟨?_,mem_usedSlots.mpr ((hu.used_iff a').mp hu')⟩
    rintro rfl
    exact hnew hd'
  have hlen : got.length+1 ≤ (s.usedSlots d).card := by
    have h1 := Finset.card_le_card hslots
    have ha' : a ∈ s.usedSlots d := mem_usedSlots.mpr ((hu.used_iff a).mp ha)
    have hpos := Finset.card_pos.mpr ⟨a,ha'⟩
    rw [List.toFinset_card_of_nodup h.slots_nodup,List.length_map,
      Finset.card_erase_of_mem ha'] at h1
    omega
  have hlt : (got.map Prod.snd).toFinset.card < s.pmm.lowFree.card := by
    have h1 := List.toFinset_card_le (got.map Prod.snd)
    rw [List.length_map] at h1
    omega
  obtain ⟨l,hl,hno⟩ := Finset.exists_mem_notMem_of_card_lt_card hlt
  obtain ⟨hl1,hl2⟩ := mem_lowFree.mp hl
  exact ⟨l,(h.env.free_iff l).mpr ⟨hl2,fun hc => hno (List.mem_toFinset.mpr hc)⟩,hl1⟩

theorem supply_of_small (hsize : s.pmm.bitmapSize ≤ 0x8000) :
    Supply (s.cloneStart d c) d c 0x100000 := by
  rintro t opened done got a h ha hnew ⟨f,p'⟩ halloc
  obtain ⟨k,-,hk,hwas,-⟩ := allocFrames_spec_small (by rw [h.env.size_eq]; exact hsize) halloc
  exact ⟨k,hwas 0 (by omega),by omega⟩

/-- The frames of a clone are all below 2 GiB only if there were enough of them. -/
theorem Cloned.card_le {s' : Vm} {L : ℕ} (h : Cloned s s' d c L)
    (hlow : ∀ a, s.UsedSlot d a → s'.slotFrame c a < 0x80000) :
    (s.usedSlots d).card ≤ s.pmm.lowFree.card := by
  refine Finset.card_le_card_of_injOn (s'.slotFrame c) (fun a ha => ?_) fun a ha a' ha' he => ?_
  · have ha := mem_usedSlots.mp ha
    exact mem_lowFree.mpr ⟨hlow a ha,(h.fresh a ha).1⟩
  · exact h.inj a a' (mem_usedSlots.mp ha) (mem_usedSlots.mp ha') he

end Supply

/-! ## Release -/

section Release

variable {u : Vm} {c : ℕ}

/-- The release of the frame of one entry, for the frames that `Q` is about. -/
theorem isFree_entryFrame (p : Pmm) (w l : ℕ) (hl : l < 0x100000 ∨ page w < 0x80000) :
    (kMemPmmFree p (entryFrame w) 1).IsFree l ↔ p.IsFree l ∨ (page w < 0x80000 ∧ l = page w) := by
  have hlt := page_lt w
  by_cases hw : page w < 0x80000
  · rw [entryFrame,if_pos (by omega),Nat.mul_comm,isFree_free_one p hlt]
    simp [hw]
  · rw [entryFrame,if_neg (by omega),Nat.mul_comm,isFree_free_high p hlt (hl.resolve_right hw)]
    simp [hw]

/-- Every slot of `c` has a frame of its own, in use and below 2 GiB. -/
structure CleanSlots (u : Vm) (c : ℕ) : Prop where
  low : ∀ a, u.UsedSlot c a → u.slotFrame c a < 0x80000
  used : ∀ a, u.UsedSlot c a → ¬ u.pmm.IsFree (u.slotFrame c a)
  inj : ∀ a a', u.UsedSlot c a → u.UsedSlot c a' → u.slotFrame c a = u.slotFrame c a' → a = a'

/-- In the middle of a release: the frames of the slots in `done` are free again, and
each has been freed once. -/
structure Releasing (u t : Vm) (c : ℕ) (done : Slot → Prop) : Prop where
  phys_eq : t.phys = u.phys
  directory_eq : t.directory = c
  window_eq : t.firstFreeAddress = u.firstFreeAddress ∧ t.heapEnd = u.heapEnd
  free_iff : ∀ l, (l < 0x100000 ∨ ∀ a, u.UsedSlot c a → u.slotFrame c a < 0x80000) →
    (t.pmm.IsFree l ↔ u.pmm.IsFree l ∨
      ∃ a, u.UsedSlot c a ∧ done a ∧ u.slotFrame c a < 0x80000 ∧ u.slotFrame c a = l)
  count : u.CleanSlots c → ∃ slots : List Slot, slots.Nodup ∧
    (∀ a, a ∈ slots ↔ u.UsedSlot c a ∧ done a) ∧
    t.pmm.freed%W32 = (u.pmm.freed+slots.length)%W32
  first_ok : (∀ a, u.UsedSlot c a → u.slotFrame c a < 0x80000) → u.pmm.FirstFreeOk →
    t.pmm.FirstFreeOk
  size_le : (∀ a, u.UsedSlot c a → u.slotFrame c a < 0x80000) →
    t.pmm.bitmapSize ≤ max u.pmm.bitmapSize 0x8000

theorem Releasing.free {t : Vm} {done done' : Slot → Prop} {a : Slot}
    (h : Releasing u t c done) (ha : u.UsedSlot c a) (hnew : ¬ done a)
    (hdone : ∀ a', done' a' ↔ done a' ∨ a' = a) :
    Releasing u { t with pmm := kMemPmmFree t.pmm (entryFrame (u.slotWord c a)) 1 } c done' := by
  refine ⟨h.phys_eq,h.directory_eq,h.window_eq,fun l hl => ?_,fun hclean => ?_,fun hlow hok => ?_,
    fun hlow => ?_⟩
  · show (kMemPmmFree t.pmm (entryFrame (u.slotWord c a)) 1).IsFree l ↔ _
    rw [isFree_entryFrame _ _ _ (hl.imp id fun h => h a ha),h.free_iff l hl,or_assoc]
    refine or_congr Iff.rfl ⟨?_,?_⟩
    · rintro (⟨a',h1,h2,h3,h4⟩ | ⟨h1,h2⟩)
      · exact ⟨a',h1,(hdone a').mpr (.inl h2),h3,h4⟩
      · exact ⟨a,ha,(hdone a).mpr (.inr rfl),h1,h2.symm⟩
    · rintro ⟨a',h1,h2,h3,h4⟩
      rcases (hdone a').mp h2 with h2 | rfl
      · exact .inl ⟨a',h1,h2,h3,h4⟩
      · exact .inr ⟨h3,h4.symm⟩
  · obtain ⟨slots,hnodup,hmem,hfreed⟩ := h.count hclean
    have hlow : page (u.slotWord c a) < 0x80000 := hclean.low a ha
    have hused : ¬ t.pmm.IsFree (page (u.slotWord c a)) := by
      rw [h.free_iff _ (.inr hclean.low),not_or]
      refine ⟨hclean.used a ha,?_⟩
      rintro ⟨a',h1,h2,-,h4⟩
      obtain rfl := hclean.inj a' a h1 ha h4
      exact hnew h2
    refine ⟨a::slots,List.nodup_cons.mpr ⟨fun hc => hnew ((hmem a).mp hc).2,hnodup⟩,fun a' => ?_,?_⟩
    · rw [List.mem_cons,hmem,hdone]
      constructor
      · rintro (rfl | ⟨h1,h2⟩)
        · exact ⟨ha,.inr rfl⟩
        · exact ⟨h1,.inl h2⟩
      · rintro ⟨h1,h2 | rfl⟩
        · exact .inr ⟨h1,h2⟩
        · exact .inl rfl
    · show (kMemPmmFree t.pmm (entryFrame (u.slotWord c a)) 1).freed%W32 = _
      rw [entryFrame,if_pos (by omega),Nat.mul_comm,freed_free_one _ (page_lt _) hused,
        List.length_cons,Nat.add_mod,hfreed]
      simp only [W32]
      omega
  · have hpage : page (u.slotWord c a) < 0x80000 := hlow a ha
    obtain ⟨m,-,hrel,-⟩ := free_spec t.pmm (page (u.slotWord c a)) 1 (by omega)
    show (kMemPmmFree t.pmm (entryFrame (u.slotWord c a)) 1).FirstFreeOk
    rw [entryFrame,if_pos (by omega),Nat.mul_comm]
    exact hrel.first_ok (h.first_ok hlow hok)
  · have hpage : page (u.slotWord c a) < 0x80000 := hlow a ha
    obtain ⟨m,-,hrel,-⟩ := free_spec t.pmm (page (u.slotWord c a)) 1 (by omega)
    have h1 := hrel.size_le
    have h2 := h.size_le hlow
    show (kMemPmmFree t.pmm (entryFrame (u.slotWord c a)) 1).bitmapSize ≤ _
    rw [entryFrame,if_pos (by omega),Nat.mul_comm]
    omega

theorem Releasing.congr_done {t : Vm} {done done' : Slot → Prop} (h : Releasing u t c done)
    (hdone : ∀ a, u.UsedSlot c a → (done' a ↔ done a)) : Releasing u t c done' := by
  refine ⟨h.phys_eq,h.directory_eq,h.window_eq,fun l hl => ?_,fun hclean => ?_,h.first_ok,h.size_le⟩
  · rw [h.free_iff l hl]
    refine or_congr Iff.rfl ⟨?_,?_⟩
    · rintro ⟨a,h1,h2,h3⟩; exact ⟨a,h1,(hdone a h1).mpr h2,h3⟩
    · rintro ⟨a,h1,h2,h3⟩; exact ⟨a,h1,(hdone a h1).mp h2,h3⟩
  · obtain ⟨slots,hnodup,hmem,hfreed⟩ := h.count hclean
    refine ⟨slots,hnodup,fun a => ?_,hfreed⟩
    rw [hmem]
    exact and_congr_right fun ha => (hdone a ha).symm

/-- The tables before `i` and the first `j` pages of table `i`. -/
def FreedUpTo (i j : ℕ) (a : Slot) : Prop := a.1 < i ∨ a.1 = i ∧ ∃ j' < j, a.2 = some j'

theorem releasePage_step (hself : page (u.phys c 1023) = c) {t : Vm} {i j : ℕ}
    (hi : u.UsedSlot c (i,none)) (hj : j < 1024) (h : Releasing u t c (FreedUpTo i j)) :
    ∃ t', t.releasePage i j = .ok t' ∧ Releasing u t' c (FreedUpTo i (j+1)) := by
  have hsucc : ∀ a, FreedUpTo i (j+1) a ↔ FreedUpTo i j a ∨ a = (i,some j) := by
    rintro ⟨i',_ | j'⟩
    · simp [FreedUpTo]
    · simp only [FreedUpTo,Option.some.injEq,exists_eq_right',Prod.mk.injEq]
      omega
  have hpte : t.pte i j = u.slotWord c (i,some j) := by
    rw [pte,ptFrame,h.directory_eq,h.phys_eq,hself]
    rfl
  cases hp : present (t.pte i j) with
  | true =>
    have ha : u.UsedSlot c (i,some j) := ⟨hi.1,hj,hi.2,by rw [hpte] at hp; exact hp⟩
    refine ⟨_,by rw [releasePage,hp]; rfl,?_⟩
    rw [hpte]
    exact h.free ha (by simp [FreedUpTo]) hsucc
  | false =>
    refine ⟨t,by rw [releasePage,hp]; rfl,h.congr_done fun a ha => ?_⟩
    rw [hsucc]
    refine ⟨fun h => h.resolve_right ?_,.inl⟩
    rintro rfl
    have := ha.present
    rw [← hpte,hp] at this
    cases this

theorem releaseTable_step (hself : page (u.phys c 1023) = c) {t : Vm} {i : ℕ} (hi : i < KERNEL_PD)
    (h : Releasing u t c fun a => a.1 < i) :
    ∃ t', t.releaseTable c i = .ok t' ∧ Releasing u t' c fun a => a.1 < i+1 := by
  cases hp : present (t.phys c i) with
  | true =>
    have ha : u.UsedSlot c (i,none) := ⟨hi,by rw [← h.phys_eq]; exact hp⟩
    have hstart : Releasing u t c (FreedUpTo i 0) := h.congr_done fun a _ => by simp [FreedUpTo]
    obtain ⟨t₁,hloop,h₁⟩ :=
      forLoop_returns (I:=fun j t => Releasing u t c (FreedUpTo i j)) (n:=1024)
      (fun j hj t ht => releasePage_step hself ha hj ht) hstart
    have h₂ : Releasing u _ c fun a => a.1 < i+1 :=
        (h₁.free ha (by simp [FreedUpTo]) (fun a' => Iff.rfl)).congr_done fun a hused => by
      obtain ⟨i',_ | j'⟩ := a
      · simp only [FreedUpTo,reduceCtorEq,and_false,exists_false,or_false,Prod.mk.injEq,and_true]
        omega
      · have := hused.2.1
        simp only [FreedUpTo,Option.some.injEq,exists_eq_right',Prod.mk.injEq,
          reduceCtorEq,and_false,or_false]
        omega
    refine ⟨_,?_,h₂⟩
    rw [releaseTable,if_pos hp,hloop]
    show Except.ok { t₁ with pmm := kMemPmmFree t₁.pmm (entryFrame (t₁.phys c i)) 1 } = _
    rw [h₁.phys_eq]
    rfl
  | false =>
    refine ⟨t,by rw [releaseTable,hp]; rfl,h.congr_done fun a ha => ?_⟩
    have hne : a.1 ≠ i := by
      obtain ⟨i',_ | j'⟩ := a
      · rintro rfl
        have := ha.2
        rw [← h.phys_eq,hp] at this
        cases this
      · rintro rfl
        have := ha.2.2.1
        rw [← h.phys_eq,hp] at this
        cases this
    omega

/-- A release returns, touches no memory and gives back the frames below 2 GiB. -/
theorem release_spec (hself : page (u.phys c 1023) = c) :
    ∃ u', u.kMemPagingReleaseDirectory c = .ok u' ∧ u'.phys = u.phys ∧
      u'.directory = u.directory ∧ u'.firstFreeAddress = u.firstFreeAddress ∧
      u'.heapEnd = u.heapEnd ∧
      (∀ l, (l < 0x100000 ∨ ∀ a, u.UsedSlot c a → u.slotFrame c a < 0x80000) →
        (u'.pmm.IsFree l ↔ u.pmm.IsFree l ∨
          ∃ a, u.UsedSlot c a ∧ u.slotFrame c a < 0x80000 ∧ u.slotFrame c a = l)) ∧
      (u.CleanSlots c → u'.pmm.freed%W32 = (u.pmm.freed+(u.usedSlots c).card)%W32) ∧
      ((∀ a, u.UsedSlot c a → u.slotFrame c a < 0x80000) → u.pmm.FirstFreeOk → u'.pmm.FirstFreeOk) ∧
      ((∀ a, u.UsedSlot c a → u.slotFrame c a < 0x80000) →
        u'.pmm.bitmapSize ≤ max u.pmm.bitmapSize 0x8000) := by
  have hstart : Releasing u (u.kMemPagingSetPageDirectory c) c fun a => a.1 < 0 :=
    ⟨rfl,rfl,⟨rfl,rfl⟩,fun l _ => by simp [kMemPagingSetPageDirectory],
      fun _ => ⟨[],by simp,by simp,rfl⟩,fun _ => id,fun _ => le_max_left _ _⟩
  obtain ⟨t,hloop,h⟩ :=
    forLoop_returns (I:=fun i t => Releasing u t c fun a => a.1 < i) (n:=KERNEL_PD)
    (fun i hi t ht => releaseTable_step hself hi ht) hstart
  refine ⟨t.kMemPagingSetPageDirectory u.directory,?_,h.phys_eq,rfl,h.window_eq.1,h.window_eq.2,
    fun l hl => ?_,fun hclean => ?_,h.first_ok,h.size_le⟩
  · rw [kMemPagingReleaseDirectory,hloop]
    rfl
  · show t.pmm.IsFree l ↔ _
    rw [h.free_iff l hl]
    refine or_congr Iff.rfl ⟨?_,?_⟩
    · rintro ⟨a,h1,-,h3⟩; exact ⟨a,h1,h3⟩
    · rintro ⟨a,h1,h3⟩; exact ⟨a,h1,h1.index_lt,h3⟩
  · obtain ⟨slots,hnodup,hmem,hfreed⟩ := h.count hclean
    have hslots : slots.toFinset = u.usedSlots c := by
      ext a
      rw [List.mem_toFinset,hmem,mem_usedSlots]
      exact ⟨fun h => h.1,fun h => ⟨h,h.index_lt⟩⟩
    rw [← hslots,List.toFinset_card_of_nodup hnodup]
    exact hfreed

end Release

/-! ## Clone and release together -/

/-- A kernel state in which directory `src` can be cloned: both the current directory
and `src` are well formed and share their kernel half. -/
structure CloneReady (s : Vm) (src : ℕ) : Prop where
  current : s.SpaceOk s.directory
  source : s.SpaceOk src
  shared : s.SharedKernel s.directory src
  first_ok : s.pmm.FirstFreeOk
  zero_used : ¬ s.pmm.IsFree 0
  window_start : ∃ a, s.WindowStart a
  heap : ∃ m, s.heapEnd = m*0x1000 ∧ HEAP_PAGE ≤ m

/-- The copy `c` in state `s'` is faithful, made of frames of its own, and state `u` after
its release has the free frames of `s₁`, the state in which only the heap had grown. -/
structure CloneCorrect (s s₁ s' u : Vm) (src c : ℕ) : Prop where
  present_iff : ∀ a, s'.UsedSlot c a ↔ s.UsedSlot src a
  flags : ∀ a, s.UsedSlot src a → s'.slotWord c a%0x1000 = s.slotWord src a%0x1000
  contents : ∀ i j, s.UsedSlot src (i,some j) →
    s'.phys (s'.slotFrame c (i,some j)) = s.phys (s.slotFrame src (i,some j))
  fresh : ∀ a, s.UsedSlot src a → s.pmm.IsFree (s'.slotFrame c a)
  exclusive : ∀ a a', s.UsedSlot src a → s.UsedSlot src a' →
    s'.slotFrame c a = s'.slotFrame c a' → a = a'
  source : UserSame s s' src
  source_pages : ∀ i j, s.UsedSlot src (i,some j) →
    s'.phys (s.slotFrame src (i,some j)) = s.phys (s.slotFrame src (i,some j))
  released : ∀ l, u.pmm.IsFree l ↔ s₁.pmm.IsFree l

/-- Every clone that returns is correct, and so is its release. -/
def CloneWorks (s s₁ : Vm) (src : ℕ) (reply : HeapReply) : Prop :=
  ∀ c s', s.kMemPagingClonePageDirectory src reply = .ok (c,s') →
    ∃ u, s'.kMemPagingReleaseDirectory c = .ok u ∧ CloneCorrect s s₁ s' u src c

/-- There are enough free frames below 2 GiB for the growth of the heap and for every
user table and page of `src`, or there are none to copy on a machine below 4 GiB. -/
def EnoughLowFrames (s : Vm) (src growth : ℕ) : Prop :=
  growth+(s.usedSlots src).card ≤ s.pmm.lowFree.card ∨
    (s.pmm.bitmapSize ≤ 0x8000 ∧ s.usedSlots src = ∅)

section Together

variable {s s₁ : Vm} {src : ℕ} {reply : HeapReply}

theorem clone_eq (hgrow : s.growHeap reply.growth = .ok s₁) :
    s.kMemPagingClonePageDirectory src reply = (do
      let t ← forLoop (copyTable src reply.page) KERNEL_PD (s₁.cloneStart src reply.page)
      pure (reply.page,t.kMemPagingSetPageDirectory s₁.directory)) := by
  rw [kMemPagingClonePageDirectory,hgrow]
  simp only [bind,Except.bind,cloneStart,directory_setWord,directory_setPage]

theorem clone_back (hgrow : s.growHeap reply.growth = .ok s₁) {c : ℕ} {s' : Vm}
    (hret : s.kMemPagingClonePageDirectory src reply = .ok (c,s')) :
    c = reply.page ∧ s'.directory = s₁.directory := by
  rw [clone_eq hgrow] at hret
  obtain ⟨t,-,hret⟩ := Result.bind_eq_ok.mp hret
  obtain ⟨rfl,rfl⟩ := Prod.mk.inj (Except.ok.inj hret)
  exact ⟨rfl,rfl⟩

theorem UserSame.usedSlots_eq {s s' : Vm} {d : ℕ} (h : UserSame s s' d) :
    s'.usedSlots d = s.usedSlots d := by
  ext a
  rw [mem_usedSlots,mem_usedSlots,h.used_iff]

theorem CloneReady.grown (hr : s.CloneReady src) (hend : s.heapEnd+reply.growth*0x1000 ≤ HEAP_END)
    (hlow : s.pmm.bitmapSize ≤ 0x8000 ∨ reply.growth ≤ s.pmm.lowFree.card)
    (hgrow : s.growHeap reply.growth = .ok s₁) :
    Grown s s₁ s.directory reply.growth ∧ s₁.SpaceOk src ∧ UserSame s s₁ src ∧
      ¬ s₁.pmm.IsFree 0 ∧ ∃ a, s₁.WindowStart a := by
  obtain ⟨m,hheap,hm⟩ := hr.heap
  obtain ⟨hg,-⟩ := growHeap_grown hr.current hr.zero_used hr.first_ok hheap hm hend hlow hgrow
  obtain ⟨a,ha⟩ := hr.window_start
  exact ⟨hg,hg.spaceOk hr.source hr.shared,hg.userSame hr.source hr.shared,
    fun h => hr.zero_used (hg.free_sub 0 h),a,by rw [WindowStart,hg.window_eq]; exact ha⟩

theorem clone_cloned {L : ℕ} (hL : L ≤ 0x100000) (hs : s₁.SpaceOk src) (hzero : ¬ s₁.pmm.IsFree 0)
    (hok : s₁.pmm.FirstFreeOk) (hwin : ∃ a, s₁.WindowStart a) (hpage : s₁.HeapPage src reply.page)
    (hgrow : s.growHeap reply.growth = .ok s₁) (hsup : Supply (s₁.cloneStart src reply.page) src
      reply.page L) {c : ℕ} {s' : Vm}
    (hret : s.kMemPagingClonePageDirectory src reply = .ok (c,s')) :
    c = reply.page ∧ Cloned s₁ s' src reply.page L := by
  rw [clone_eq hgrow] at hret
  obtain ⟨t,hloop,hret⟩ := Result.bind_eq_ok.mp hret
  obtain ⟨rfl,rfl⟩ := Prod.mk.inj (Except.ok.inj hret)
  have hb := cloneStart_base hs hzero hpage
  obtain ⟨got,hc⟩ := forLoop_spec (fun i hi t t' => copyTable_step hb hL hsup hi)
    ⟨[],cloneStart_cloning hok hwin⟩ hloop
  exact ⟨rfl,hc.cloned hs hpage hzero hL⟩

theorem clone_returns (hs : s₁.SpaceOk src) (hzero : ¬ s₁.pmm.IsFree 0) (hok : s₁.pmm.FirstFreeOk)
    (hwin : ∃ a, s₁.WindowStart a) (hpage : s₁.HeapPage src reply.page)
    (hgrow : s.growHeap reply.growth = .ok s₁)
    (hpl : Plenty (s₁.cloneStart src reply.page) src reply.page 0x80000)
    (htwo : s₁.TwoWindows src) :
    ∃ s', s.kMemPagingClonePageDirectory src reply = .ok (reply.page,s') := by
  have hb := cloneStart_base hs hzero hpage
  have htwo' : (s₁.cloneStart src reply.page).TwoWindows src := by
    have hend : WINDOW_END < 1023*1024 := by decide
    obtain ⟨n,n',h1,h2,h3,h4,h5⟩ := htwo
    refine ⟨n,n',h1,h2,h3,?_,?_⟩
    · rw [cloneStart_lookup hpage (by omega)]
      exact h4
    · rw [cloneStart_lookup hpage (by omega)]
      exact h5
  obtain ⟨t,hloop,-,-⟩ := forLoop_returns
    (I:=fun i t => BetweenTables (s₁.cloneStart src reply.page) src reply.page 0x80000 (fun _ =>
      none) i t ∧ t.TwoWindows src) (n:=KERNEL_PD)
    (fun i hi t ⟨hin,htw⟩ => by
      obtain ⟨t',hret,htw'⟩ := copyTable_returns hb (by decide) hpl hi hin htw
      exact ⟨t',hret,copyTable_step hb (by decide) hpl.supply hi hin hret,htw'⟩)
    ⟨⟨[],cloneStart_cloning hok hwin⟩,htwo'⟩
  exact ⟨_,by rw [clone_eq hgrow]; exact Result.bind_eq_ok.mpr ⟨t,hloop,rfl⟩⟩

theorem Cloned.correct {s' u : Vm} {L : ℕ} (hr : s.CloneReady src)
    (hg : Grown s s₁ s.directory reply.growth) (hc : Cloned s₁ s' src reply.page L)
    (hfree : ∀ l, u.pmm.IsFree l ↔ s₁.pmm.IsFree l) :
    CloneCorrect s s₁ s' u src reply.page := by
  have hu := hg.userSame hr.source hr.shared
  have hpage : ∀ i j, s.UsedSlot src (i,some j) →
      s₁.phys (s.slotFrame src (i,some j)) = s.phys (s.slotFrame src (i,some j)) :=
    fun i j ha => hg.phys_eq hr.shared (hr.source.not_kernel_page ha)
  refine ⟨fun a => (hc.used_iff a).trans (hu.used_iff a),fun a ha => ?_,fun i j ha => ?_,
    fun a ha => hg.free_sub _ (hc.fresh a ((hu.used_iff a).mpr ha)).1,
    fun a a' ha ha' => hc.inj a a' ((hu.used_iff a).mpr ha) ((hu.used_iff a').mpr ha'),
    ⟨hc.source.dir.trans hu.dir,fun i hi hp => ?_⟩,fun i j ha => ?_,hfree⟩
  · rw [hc.flags a ((hu.used_iff a).mpr ha),hu.slotWord_eq ha]
  · rw [hc.contents i j ((hu.used_iff _).mpr ha),hu.slotFrame_eq ha,hpage i j ha]
  · rw [← hu.table_eq,hc.source.tables i hi (by rw [hu.dir]; exact hp),hu.table_eq,
      hu.tables i hi hp]
  · have := hc.source_pages i j ((hu.used_iff _).mpr ha)
    rw [hu.slotFrame_eq ha] at this
    rw [this,hpage i j ha]

theorem cloneWorks_of_enough (hr : s.CloneReady src)
    (hend : s.heapEnd+reply.growth*0x1000 ≤ HEAP_END) (hgrow : s.growHeap reply.growth = .ok s₁)
    (hpage : s₁.HeapPage src reply.page) (hcond : s.EnoughLowFrames src reply.growth) :
    CloneWorks s s₁ src reply ∧
      (s₁.TwoWindows src → ∃ s', s.kMemPagingClonePageDirectory src reply =
        .ok (reply.page,s')) := by
  have hlow : s.pmm.bitmapSize ≤ 0x8000 ∨ reply.growth ≤ s.pmm.lowFree.card :=
    hcond.elim (fun h => .inr (by omega)) fun h => .inl h.1
  obtain ⟨hg,hs₁,hu,hzero,hwin⟩ := hr.grown hend hlow hgrow
  have hcard : (s₁.usedSlots src).card ≤ s₁.pmm.lowFree.card := by
    rw [hu.usedSlots_eq,hg.card_eq]
    rcases hcond with h | ⟨-,h⟩
    · omega
    · rw [h]
      simp
  have hpl := plenty_of_card hs₁ hpage hcard
  refine ⟨fun c s' hret => ?_,fun htwo =>
    clone_returns hs₁ hzero hg.first_ok hwin hpage hgrow hpl htwo⟩
  obtain ⟨rfl,hc⟩ := clone_cloned (by decide) hs₁ hzero hg.first_ok hwin hpage hgrow hpl.supply hret
  obtain ⟨u,hrel,-,-,-,-,hfree,-⟩ := release_spec hc.self
  have hlow : ∀ a, s'.UsedSlot reply.page a → s'.slotFrame reply.page a < 0x80000 := fun a ha =>
    (hc.fresh a ((hc.used_iff a).mp ha)).2
  refine ⟨u,hrel,hc.correct hr hg fun l => ?_⟩
  rw [hfree l (.inr hlow),hc.free_iff l]
  constructor
  · rintro (h | ⟨a,ha,-,rfl⟩)
    · exact h.1
    · exact (hc.fresh a ((hc.used_iff a).mp ha)).1
  · intro hl
    by_cases hex : ∃ a, s₁.UsedSlot src a ∧ s'.slotFrame reply.page a = l
    · obtain ⟨a,ha,rfl⟩ := hex
      have ha' := (hc.used_iff a).mpr ha
      exact .inr ⟨a,ha',hlow a ha',rfl⟩
    · exact .inl ⟨hl,hex⟩

/-- On a machine below 4 GiB a clone that works has taken frames below 2 GiB only: the
release does not give back any other. -/
theorem enough_of_cloneWorks (hr : s.CloneReady src)
    (hend : s.heapEnd+reply.growth*0x1000 ≤ HEAP_END) (hgrow : s.growHeap reply.growth = .ok s₁)
    (hpage : s₁.HeapPage src reply.page) (hsize : s.pmm.bitmapSize ≤ 0x8000) {s' : Vm}
    (hret : s.kMemPagingClonePageDirectory src reply = .ok (reply.page,s'))
    (hworks : CloneWorks s s₁ src reply) : s.EnoughLowFrames src reply.growth := by
  obtain ⟨hg,hs₁,hu,hzero,hwin⟩ := hr.grown hend (.inl hsize) hgrow
  obtain ⟨-,hc⟩ := clone_cloned le_rfl hs₁ hzero hg.first_ok hwin hpage hgrow
    (supply_of_small (by rw [hg.size_eq]; exact hsize)) hret
  obtain ⟨u,hrel,hcorrect⟩ := hworks _ s' hret
  obtain ⟨u',hrel',-,-,-,-,hfree,-⟩ := release_spec hc.self
  rw [hrel] at hrel'
  obtain rfl := Except.ok.inj hrel'
  have hlow : ∀ a, s₁.UsedSlot src a → s'.slotFrame reply.page a < 0x80000 := by
    intro a ha
    obtain ⟨hfr,hlt⟩ := hc.fresh a ha
    have hback := (hcorrect.released _).mpr hfr
    rcases (hfree _ (.inl hlt)).mp hback with h | ⟨a',-,h1,h2⟩
    · exact absurd ⟨a,ha,rfl⟩ ((hc.free_iff _).mp h).2
    · rwa [h2] at h1
  have hcard := hc.card_le hlow
  rw [hu.usedSlots_eq,hg.card_eq] at hcard
  rcases Finset.eq_empty_or_nonempty (s.usedSlots src) with he | hne
  · exact .inr ⟨hsize,he⟩
  · have := Finset.card_pos.mpr hne
    exact .inl (by omega)

/-- With enough free frames below 2 GiB a clone and its release work, and the clone
returns if there are two windows left. On a machine below 4 GiB they work only then. -/
theorem clone_release_iff (hr : s.CloneReady src)
    (hend : s.heapEnd+reply.growth*0x1000 ≤ HEAP_END) (hgrow : s.growHeap reply.growth = .ok s₁)
    (hpage : s₁.HeapPage src reply.page) :
    (s.EnoughLowFrames src reply.growth → CloneWorks s s₁ src reply ∧
      (s₁.TwoWindows src → ∃ s', s.kMemPagingClonePageDirectory src reply = .ok (reply.page,s'))) ∧
    (s.pmm.bitmapSize ≤ 0x8000 →
      (∃ s', s.kMemPagingClonePageDirectory src reply = .ok (reply.page,s')) →
      (CloneWorks s s₁ src reply ↔ s.EnoughLowFrames src reply.growth)) := by
  refine ⟨cloneWorks_of_enough hr hend hgrow hpage,fun hsize ⟨s',hret⟩ => ⟨?_,fun h => ?_⟩⟩
  · exact enough_of_cloneWorks hr hend hgrow hpage hsize hret
  · exact (cloneWorks_of_enough hr hend hgrow hpage h).1

end Together

/-! ## A machine with one user page -/

/-- The directory is frame 1, the user table frame 2, its page frame 3, and the heap can
hand out frame 4. The kernel tables are empty. -/
def onePageMachine (pmm : Pmm) : Vm where
  pmm := pmm
  phys f i :=
    if f = 1 then
      if i = 0 then 0x2007 else if i = 1023 then 0x1003
      else if 772 ≤ i ∧ i < 1023 then 0x1000*(0x2000+i)+3 else 0
    else if f = 2 then if i = 0 then 0x3007 else 0
    else if f = 3 then if i = 5 then 42 else 0
    else 0
  directory := 1
  firstFreeAddress := LOWMEM_START
  heapEnd := HEAP_START

def pageMachine (e : ℕ) (pmm : Pmm) : Vm :=
  { onePageMachine pmm with
    phys := fun f i =>
      if f = 1 then
        if i = e then 0x2007 else if i = 1023 then 0x1003
        else if 772 ≤ i ∧ i < 1023 then 0x1000*(0x2000+i)+3 else 0
      else (onePageMachine pmm).phys f i }

theorem pageMachine_zero (pmm : Pmm) : pageMachine 0 pmm = onePageMachine pmm := by
  have hphys : (pageMachine 0 pmm).phys = (onePageMachine pmm).phys := by
    funext f i
    by_cases hf : f = 1
    · simp only [pageMachine,onePageMachine,hf,if_true]
    · exact if_neg hf
  exact congrArg (fun phys => { onePageMachine pmm with phys := phys }) hphys

def OnePageFrames (pmm : Pmm) : Prop := ∀ k, pmm.IsFree k → (5 ≤ k ∧ k < 0x2000) ∨ 0x3000 ≤ k

section Example

variable (pmm : Pmm) {e : ℕ}

theorem pageMachine_pde {i : ℕ} (hi : i < 1023) :
    (pageMachine e pmm).phys 1 i = if i = e then 0x2007
      else if 772 ≤ i then 0x1000*(0x2000+i)+3 else 0 := by
  simp only [pageMachine,if_true,hi,and_true]
  rw [if_neg (show ¬ i = 1023 by omega)]

theorem pageMachine_phys {f : ℕ} (hf : f ≠ 1) :
    (pageMachine e pmm).phys f = (onePageMachine pmm).phys f := by
  funext i
  exact if_neg hf

theorem pageMachine_kernel (he : e < KERNEL_PD) {i : ℕ} (h1 : 772 ≤ i) (h2 : i < 1023) :
    (pageMachine e pmm).IsTable 1 i ∧ (pageMachine e pmm).table 1 i = 0x2000+i := by
  have hK : KERNEL_PD = 768 := rfl
  have hw : (pageMachine e pmm).phys 1 i = 0x1000*(0x2000+i)+3 := by
    rw [pageMachine_pde pmm h2,if_neg (by omega),if_pos h1]
  refine ⟨⟨h2,?_,?_⟩,?_⟩
  · rw [hw,present,beq_iff_eq]; omega
  · rw [hw,large,beq_eq_false_iff_ne]; omega
  · rw [table,hw,page]; omega

theorem pageMachine_table (he : e < KERNEL_PD) : (pageMachine e pmm).table 1 e = 2 := by
  have hK : KERNEL_PD = 768 := rfl
  rw [table,pageMachine_pde pmm (by omega),if_pos rfl]
  decide

theorem pageMachine_isTable (he : e < KERNEL_PD) {i : ℕ} (hi : (pageMachine e pmm).IsTable 1 i) :
    (i = e ∧ (pageMachine e pmm).table 1 i = 2) ∨
      (772 ≤ i ∧ i < 1023 ∧ (pageMachine e pmm).table 1 i = 0x2000+i) := by
  obtain ⟨h1,h2,-⟩ := hi
  by_cases hie : i = e
  · subst hie
    exact .inl ⟨rfl,pageMachine_table pmm he⟩
  · right
    have h772 : 772 ≤ i := by
      by_contra hc
      rw [pageMachine_pde pmm h1,if_neg hie,if_neg hc] at h2
      cases h2
    exact ⟨h772,h1,(pageMachine_kernel pmm he h772 h1).2⟩

theorem pageMachine_used_table {i : ℕ} (hi : i < KERNEL_PD)
    (hp : present ((pageMachine e pmm).phys 1 i) = true) : i = e := by
  have hK : KERNEL_PD = 768 := rfl
  by_contra hc
  rw [pageMachine_pde pmm (by omega),if_neg hc,if_neg (by omega)] at hp
  cases hp

theorem pageMachine_used_page {i j : ℕ} (ha : (pageMachine e pmm).UsedSlot 1 (i,some j)) :
    i = e ∧ j = 0 ∧ (pageMachine e pmm).slotFrame 1 (i,some j) = 3 := by
  obtain ⟨hi,hj,hp,hq⟩ := ha
  obtain rfl := pageMachine_used_table pmm hi hp
  have ht := pageMachine_table pmm hi
  have hw : (pageMachine i pmm).phys 2 j = if j = 0 then 0x3007 else 0 := by
    rw [pageMachine_phys pmm (by decide)]
    simp [onePageMachine]
  rw [ht,hw] at hq
  rw [slotFrame,slotWord,ht,hw]
  split at hq
  · rename_i hj0
    rw [if_pos hj0]
    exact ⟨rfl,hj0,by decide⟩
  · cases hq

theorem pageMachine_slot {i j : ℕ} (ha : (pageMachine e pmm).UsedSlot 1 (i,some j)) :
    (pageMachine e pmm).slotFrame 1 (i,some j) = 3 := (pageMachine_used_page pmm ha).2.2

theorem pageMachine_used {a : Slot} (ha : (pageMachine e pmm).UsedSlot 1 a) :
    a = (e,none) ∨ a = (e,some 0) := by
  obtain ⟨i,_ | j⟩ := a
  · rw [pageMachine_used_table pmm ha.1 ha.2]
    exact .inl rfl
  · obtain ⟨rfl,rfl,-⟩ := pageMachine_used_page pmm ha
    exact .inr rfl

theorem pageMachine_unmapped (he : e < KERNEL_PD) {n : ℕ} (h1 : WINDOW_START ≤ n)
    (h2 : n < 1023*1024) :
    (pageMachine e pmm).lookup 1 n = none := by
  have hs : WINDOW_START = 0xC1000 := by decide
  obtain ⟨hit,ht⟩ := pageMachine_kernel pmm he (i:=n/1024) (by omega) (by omega)
  have hl := lookup_of_isTable hit (Nat.mod_lt n (by decide : 0 < 1024))
  have hempty : (pageMachine e pmm).phys (0x2000+n/1024) (n%1024) = 0 := by
    rw [pageMachine_phys pmm (by omega)]
    simp only [onePageMachine]
    rw [if_neg (by omega),if_neg (by omega),if_neg (by omega)]
  rw [show n/1024*1024+n%1024 = n by omega,ht,hempty] at hl
  exact hl

theorem pageMachine_space (he : e < KERNEL_PD) (hfree : OnePageFrames pmm) :
    (pageMachine e pmm).SpaceOk 1 := by
  have hK : KERNEL_PD = 768 := rfl
  have hL : PDE LOWMEM_START = 772 := by decide
  refine ⟨⟨?_,fun i j hi hj he' => ?_,fun i hi => ?_,fun i hi hc => ?_,fun hc => ?_⟩,
    fun i hi hp => ?_,
    fun i h1 h2 => ?_,?_,fun n h1 h2 => ?_,fun i j ha hc => ?_,fun i j ha => ⟨?_,fun i' hi' => ?_⟩⟩
  · have hself : (pageMachine e pmm).phys 1 1023 = 0x1003 := by
      simp only [pageMachine,if_true]
      rw [if_neg (by omega)]
    rw [hself]
    decide
  · rcases pageMachine_isTable pmm he hi with ⟨h1,h2⟩ | ⟨h1,h2,h3⟩ <;>
      rcases pageMachine_isTable pmm he hj with ⟨g1,g2⟩ | ⟨g1,g2,g3⟩ <;> omega
  · rcases pageMachine_isTable pmm he hi with ⟨h1,h2⟩ | ⟨h1,h2,h3⟩ <;> omega
  · have := hfree _ hc
    rcases pageMachine_isTable pmm he hi with ⟨h1,h2⟩ | ⟨h1,h2,h3⟩ <;> omega
  · have := hfree _ hc
    omega
  · rw [pageMachine_pde pmm (by omega),if_pos (pageMachine_used_table pmm hi hp)]
    decide
  · exact (pageMachine_kernel pmm he (by omega) h2).1
  · exact pageMachine_unmapped pmm he (by decide) (by decide)
  · rw [pageMachine_unmapped pmm he h1 (window_lt h2.le)]
    simp
  · rw [pageMachine_slot pmm ha] at hc
    have := hfree _ hc
    omega
  · rw [pageMachine_slot pmm ha]
    decide
  · rw [pageMachine_slot pmm ha]
    rcases pageMachine_isTable pmm he hi' with ⟨h1,h2⟩ | ⟨h1,h2,h3⟩ <;> omega

theorem pageMachine_ready (he : e < KERNEL_PD) (hfree : OnePageFrames pmm) (hok : pmm.FirstFreeOk) :
    (pageMachine e pmm).CloneReady 1 ∧ (pageMachine e pmm).HeapPage 1 4 ∧
      (pageMachine e pmm).growHeap 0 = .ok (pageMachine e pmm) := by
  have hK : KERNEL_PD = 768 := rfl
  have hs := pageMachine_space pmm he hfree
  refine ⟨⟨hs,hs,fun _ _ _ => rfl,hok,fun hc => ?_,
    ⟨WINDOW_START,(by decide : LOWMEM_START = WINDOW_START*0x1000),le_rfl,by decide⟩,HEAP_PAGE,
    (by decide : HEAP_START = HEAP_PAGE*0x1000),le_rfl⟩,⟨by
    decide,⟨by decide,fun i hi => ?_⟩,fun hc => ?_,fun i j ha => ?_⟩,rfl⟩
  · have := hfree _ hc
    omega
  · rcases pageMachine_isTable pmm he hi with ⟨h1,h2⟩ | ⟨h1,h2,h3⟩ <;> omega
  · have := hfree _ hc
    omega
  · rw [pageMachine_slot pmm ha]
    decide

theorem pageMachine_windows (he : e < KERNEL_PD) : (pageMachine e pmm).TwoWindows 1 :=
  ⟨WINDOW_START,WINDOW_START+1,(by decide : LOWMEM_START ≤ WINDOW_START*0x1000),by decide,by decide,
    pageMachine_unmapped pmm he le_rfl (by decide),
    pageMachine_unmapped pmm he (by decide) (by decide)⟩

theorem pageMachine_slots_le : ((pageMachine e pmm).usedSlots 1).card ≤ 2 := by
  have hsub : (pageMachine e pmm).usedSlots 1 ⊆ {(e,none),(e,some 0)} := fun a ha => by
    rcases pageMachine_used pmm (mem_usedSlots.mp ha) with rfl | rfl <;> simp
  exact (Finset.card_le_card hsub).trans (Finset.card_le_two)

theorem onePageMachine_ready (hfree : OnePageFrames pmm) (hok : pmm.FirstFreeOk) :
    (onePageMachine pmm).CloneReady 1 ∧ (onePageMachine pmm).HeapPage 1 4 ∧
      (onePageMachine pmm).growHeap 0 = .ok (onePageMachine pmm) := by
  rw [← pageMachine_zero]
  exact pageMachine_ready pmm (by decide) hfree hok

end Example

def lowWord : Pmm := ⟨fun i => if i = 1 then 0xFFFFFFFF#32 else 0#32,2,1,0,0,32⟩

def highWord : Pmm := ⟨fun i => if i = 0x4000 then 0xF#32 else 0#32,0x4001,0x4000,0,0,4⟩

theorem lowWord_free {k : ℕ} (h : lowWord.IsFree k) : k/32 = 1 := by
  have hw := isFree_word h
  by_contra hc
  exact hw (if_neg hc)

theorem highWord_free {k : ℕ} (h : highWord.IsFree k) : k/32 = 0x4000 := by
  have hw := isFree_word h
  by_contra hc
  exact hw (if_neg hc)

theorem lowWord_frames : OnePageFrames lowWord := fun k hk => by
  have := lowWord_free hk
  omega

theorem lowWord_firstFree : lowWord.FirstFreeOk := fun _ hk => (lowWord_free hk).ge

theorem lowWord_card : 2 ≤ lowWord.lowFree.card := by
  have hlow : ({32,33} : Finset ℕ) ⊆ lowWord.lowFree := by
    intro k hk
    rw [mem_lowFree]
    rcases Finset.mem_insert.mp hk with rfl | hk
    · decide
    · rw [Finset.mem_singleton] at hk
      subst hk
      decide
  exact Finset.card_le_card hlow

theorem lowWord_enough (e : ℕ) : (pageMachine e lowWord).EnoughLowFrames 1 0 := by
  left
  have h1 := pageMachine_slots_le lowWord (e:=e)
  have h2 := lowWord_card
  show 0+_ ≤ lowWord.lowFree.card
  omega

theorem clone_release_iff_low :
    ∃ c s' u, (onePageMachine lowWord).kMemPagingClonePageDirectory 1 ⟨0,4⟩ = .ok (c,s') ∧
      s'.kMemPagingReleaseDirectory c = .ok u ∧
      CloneCorrect (onePageMachine lowWord) (onePageMachine lowWord) s' u 1 c := by
  obtain ⟨hready,hpage,hgrow⟩ := onePageMachine_ready lowWord lowWord_frames lowWord_firstFree
  have henough : (onePageMachine lowWord).EnoughLowFrames 1 0 := by
    rw [← pageMachine_zero]
    exact lowWord_enough 0
  have htwo : (onePageMachine lowWord).TwoWindows 1 := by
    rw [← pageMachine_zero]
    exact pageMachine_windows lowWord (by decide)
  obtain ⟨hworks,hreturns⟩ :=
    (@clone_release_iff _ _ 1 ⟨0,4⟩ hready (by decide) hgrow hpage).1 henough
  obtain ⟨s',hret⟩ := hreturns htwo
  obtain ⟨u,hrel,hc⟩ := hworks _ s' hret
  exact ⟨_,s',u,hret,hrel,hc⟩

/-- The two frames of the copy come from 2 GiB and above. The release does not give them
back: it computes the frame address of an entry as a signed 32-bit number. -/
theorem release_loses_high_frames :
    ∃ s s' : Vm, s.CloneReady 1 ∧ s.growHeap 0 = .ok s ∧ s.HeapPage 1 4 ∧
      s.kMemPagingClonePageDirectory 1 ⟨0,4⟩ = .ok (4,s') ∧ ¬ CloneWorks s s 1 ⟨0,4⟩ := by
  have hframes : OnePageFrames highWord := fun k hk => by
    have := highWord_free hk
    omega
  have hok : highWord.FirstFreeOk := fun k hk => (highWord_free hk).ge
  obtain ⟨hready,hpage,hgrow⟩ := onePageMachine_ready highWord hframes hok
  have heval : ((onePageMachine highWord).kMemPagingClonePageDirectory 1 ⟨0,4⟩).map
      (fun r => r.1) = .ok 4 := by decide +kernel
  cases hret : (onePageMachine highWord).kMemPagingClonePageDirectory 1 ⟨0,4⟩ with
  | error e => rw [hret] at heval; cases heval
  | ok r =>
    obtain ⟨c,s'⟩ := r
    rw [hret] at heval
    obtain rfl : c = 4 := Except.ok.inj heval
    have hused : ((0,none) : Slot) ∈ (onePageMachine highWord).usedSlots 1 :=
      mem_usedSlots.mpr (by decide)
    have hnone : (onePageMachine highWord).pmm.lowFree = ∅ := by
      ext k
      simp only [mem_lowFree,Finset.notMem_empty,iff_false]
      rintro ⟨hk,hkf⟩
      have := highWord_free hkf
      omega
    refine ⟨onePageMachine highWord,s',hready,hgrow,hpage,hret,fun hworks => ?_⟩
    rcases enough_of_cloneWorks hready (by decide) hgrow hpage (by decide) hret hworks with
      h | ⟨-,h⟩
    · have hpos := Finset.card_pos.mpr ⟨_,hused⟩
      rw [hnone,Finset.card_empty] at h
      omega
    · rw [h] at hused
      exact absurd hused (Finset.notMem_empty _)

end Vm
end ScalesOS
