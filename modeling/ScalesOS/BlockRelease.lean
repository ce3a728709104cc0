import ScalesOS.Mmap
import ScalesOS.AddressSpace

/-!
# Giving back the pages of blocks

The effect of unmapping user pages of the current directory, with and without freeing
their frames, page by page, region by region and for a whole list of blocks.
-/

namespace ScalesOS

namespace MmapBlock

/-- Page `n` is among the pages that the release of the block goes over. -/
def HasPage (block : MmapBlock) (n : ℕ) : Prop :=
  block.start/0x1000 ≤ n ∧ n < block.start/0x1000+block.size/0x1000

instance (block : MmapBlock) (n : ℕ) : Decidable (block.HasPage n) :=
  inferInstanceAs (Decidable (_ ∧ _))

def Shm (block : MmapBlock) : Prop := block.flags &&& MMAP_FLAG_SHM ≠ 0

instance (block : MmapBlock) : Decidable block.Shm := inferInstanceAs (Decidable (_ ≠ _))

def InUser (block : MmapBlock) : Prop :=
  block.start%0x1000 = 0 ∧ block.start+block.size ≤ VIRTUAL_BASE

end MmapBlock

namespace Vm

open Entry Pmm

def NoStale (s : Vm) (d : ℕ) : Prop :=
  ∀ i j, s.UsedSlot d (i,none) → j < 1024 → present (s.phys (s.table d i) j) = false →
    s.phys (s.table d i) j = 0

def pageSlot (n : ℕ) : Slot := (n/1024,some (n%1024))

theorem pageSlot_eq {i j : ℕ} (hj : j < 1024) : pageSlot (i*1024+j) = (i,some j) := by
  simp only [pageSlot,Prod.mk.injEq,Option.some.injEq]
  omega

theorem pageSlot_inj {n m : ℕ} (h : pageSlot n = pageSlot m) : n = m := by
  simp only [pageSlot,Prod.mk.injEq,Option.some.injEq] at h
  omega

/-- Every page of `c` has a frame of its own, which is in use and not frame 0. -/
structure CleanPages (u : Vm) (c : ℕ) : Prop where
  nonzero : ∀ n, u.UsedSlot c (pageSlot n) → u.slotFrame c (pageSlot n) ≠ 0
  used : ∀ n, u.UsedSlot c (pageSlot n) → ¬ u.pmm.IsFree (u.slotFrame c (pageSlot n))
  inj : ∀ n m, u.UsedSlot c (pageSlot n) → u.UsedSlot c (pageSlot m) →
    u.slotFrame c (pageSlot n) = u.slotFrame c (pageSlot m) → n = m

/-- The pages in `gone` have been unmapped since `u`, and the frames of those in `freed`
have been given back, once each. -/
structure Unmapping (u t : Vm) (c : ℕ) (gone freed : ℕ → Prop) : Prop where
  directory_eq : t.directory = c
  window_eq : t.firstFreeAddress = u.firstFreeAddress ∧ t.heapEnd = u.heapEnd
  erased : ∀ i j, u.UsedSlot c (i,none) → j < 1024 → gone (i*1024+j) → t.phys (u.table c i) j = 0
  kept : ∀ i j, u.UsedSlot c (i,none) → j < 1024 → ¬ gone (i*1024+j) →
    t.phys (u.table c i) j = u.phys (u.table c i) j
  frames : ∀ f, (∀ i, u.UsedSlot c (i,none) → f ≠ u.table c i) → t.phys f = u.phys f
  free_iff : ∀ l, t.pmm.IsFree l ↔ u.pmm.IsFree l ∨ ∃ n, u.UsedSlot c (pageSlot n) ∧ freed n ∧
    u.slotFrame c (pageSlot n) ≠ 0 ∧ u.slotFrame c (pageSlot n) = l
  count : u.CleanPages c → ∃ pages : List ℕ, pages.Nodup ∧
    (∀ n, n ∈ pages ↔ u.UsedSlot c (pageSlot n) ∧ freed n) ∧
    t.pmm.freed%W32 = (u.pmm.freed+pages.length)%W32
  size_le : t.pmm.bitmapSize ≤ max u.pmm.bitmapSize 0x8000
  first_ok : t.pmm.FirstFreeOk

section Page

variable {u t : Vm} {c : ℕ} {gone freed gone' freed' : ℕ → Prop}

theorem Unmapping.refl (hdir : u.directory = c) (hok : u.pmm.FirstFreeOk) :
    Unmapping u u c (fun _ => False) (fun _ => False) :=
  ⟨hdir,⟨rfl,rfl⟩,fun _ _ _ _ h => h.elim,fun _ _ _ _ _ => rfl,fun _ _ => rfl,by simp,
    fun _ => ⟨[],by simp,by simp,rfl⟩,le_max_left _ _,hok⟩

theorem Unmapping.congr_freed (h : Unmapping u t c gone freed)
    (hfreed : ∀ n, u.UsedSlot c (pageSlot n) → u.slotFrame c (pageSlot n) ≠ 0 →
      (freed' n ↔ freed n)) :
    Unmapping u t c gone freed' := by
  refine ⟨h.directory_eq,h.window_eq,h.erased,h.kept,h.frames,fun l => ?_,
    fun hclean => ?_,h.size_le,h.first_ok⟩
  · rw [h.free_iff l]
    refine or_congr Iff.rfl (exists_congr fun n => and_congr_right fun ha => ?_)
    constructor
    · rintro ⟨h1,h2,h3⟩; exact ⟨(hfreed n ha h2).mpr h1,h2,h3⟩
    · rintro ⟨h1,h2,h3⟩; exact ⟨(hfreed n ha h2).mp h1,h2,h3⟩
  · obtain ⟨pages,hnodup,hmem,hcount⟩ := h.count hclean
    refine ⟨pages,hnodup,fun n => ?_,hcount⟩
    rw [hmem]
    exact and_congr_right fun ha => (hfreed n ha (hclean.nonzero n ha)).symm

theorem Unmapping.dir_eq (hu : u.SpaceOk c) (h : Unmapping u t c gone freed) :
    t.phys c = u.phys c :=
  h.frames c fun _ hi => (hu.dirOk.apart _ (hu.user_table hi.1 hi.2)).symm

theorem Unmapping.table_eq (hu : u.SpaceOk c) (h : Unmapping u t c gone freed) (i : ℕ) :
    t.table c i = u.table c i := by
  rw [table,table,h.dir_eq hu]

theorem Unmapping.ptFrame_eq (hu : u.SpaceOk c) (h : Unmapping u t c gone freed) (i : ℕ) :
    t.ptFrame i = u.table c i := by
  rw [ptFrame,h.directory_eq,h.dir_eq hu,hu.dirOk.self,h.dir_eq hu,table]

theorem Unmapping.pde_eq (hu : u.SpaceOk c) (h : Unmapping u t c gone freed) (i : ℕ) :
    t.pde i = u.phys c i := by
  rw [pde,h.directory_eq,h.dir_eq hu]

theorem Unmapping.erase (hu : u.SpaceOk c) (h : Unmapping u t c gone freed) {i j : ℕ}
    (hi : u.UsedSlot c (i,none)) (hj : j < 1024)
    (hgone : ∀ n, gone' n ↔ gone n ∨ n = i*1024+j) :
    Unmapping u (t.setWord (u.table c i) j 0) c gone' freed := by
  refine ⟨h.directory_eq,h.window_eq,fun i' j' hi' hj' hg => ?_,fun i' j' hi' hj' hg => ?_,
    fun f hf => ?_,h.free_iff,h.count,h.size_le,h.first_ok⟩
  · by_cases he : i' = i ∧ j' = j
    · obtain ⟨rfl,rfl⟩ := he
      exact phys_setWord_self _ _ _ _
    · have hold : gone (i'*1024+j') := ((hgone _).mp hg).resolve_right (by omega)
      by_cases hj'' : j' = j
      · have hne : u.table c i' ≠ u.table c i := fun heq => he
          ⟨hu.dirOk.distinct _ _ (hu.user_table hi'.1 hi'.2) (hu.user_table hi.1 hi.2) heq,hj''⟩
        rw [phys_setWord_frame _ _ _ _ hne]
        exact h.erased i' j' hi' hj' hold
      · rw [phys_setWord_index _ _ _ _ hj'']
        exact h.erased i' j' hi' hj' hold
  · rw [hgone,not_or] at hg
    have hold := h.kept i' j' hi' hj' hg.1
    by_cases hj'' : j' = j
    · have hne : u.table c i' ≠ u.table c i := fun heq => by
        have := hu.dirOk.distinct _ _ (hu.user_table hi'.1 hi'.2) (hu.user_table hi.1 hi.2) heq
        omega
      rw [phys_setWord_frame _ _ _ _ hne,hold]
    · rw [phys_setWord_index _ _ _ _ hj'',hold]
  · rw [phys_setWord_frame _ _ _ _ (hf i hi)]
    exact h.frames f hf

theorem Unmapping.absent (h : Unmapping u t c gone freed) {n : ℕ}
    (hp : present (u.phys c (n/1024)) = false) (hgone : ∀ m, gone' m ↔ gone m ∨ m = n) :
    Unmapping u t c gone' freed := by
  have hne : ∀ i j, u.UsedSlot c (i,none) → j < 1024 → i*1024+j ≠ n := by
    rintro i j hi hj rfl
    have := hi.2
    rw [show (i*1024+j)/1024 = i by omega] at hp
    rw [hp] at this
    cases this
  refine ⟨h.directory_eq,h.window_eq,fun i j hi hj hg => ?_,fun i j hi hj hg => ?_,h.frames,
    h.free_iff,h.count,h.size_le,h.first_ok⟩
  · exact h.erased i j hi hj (((hgone _).mp hg).resolve_right (hne i j hi hj))
  · exact h.kept i j hi hj fun hc => hg ((hgone _).mpr (.inl hc))

theorem unmap_user (hu : u.SpaceOk c) (h : Unmapping u t c gone freed) {n : ℕ}
    (hn : n < KERNEL_PD*1024) :
    Unmapping u (t.kMemPagingUnmap (n*0x1000)) c (fun m => gone m ∨ m = n) freed := by
  have hpd : PDE (n*0x1000) = n/1024 := by rw [PDE]; omega
  have hpt : PTE (n*0x1000) = n%1024 := by rw [PTE]; omega
  have hi : n/1024 < KERNEL_PD := by omega
  have hsplit : n = n/1024*1024+n%1024 := by omega
  rw [kMemPagingUnmap,hpd,hpt,h.pde_eq hu,h.ptFrame_eq hu]
  cases hp : present (u.phys c (n/1024)) with
  | false => exact h.absent hp fun _ => Iff.rfl
  | true => exact h.erase hu ⟨hi,hp⟩ (Nat.mod_lt n (by decide)) (by
      rw [← hsplit]; exact fun _ => Iff.rfl)

/-- The frame of page `n`, which has just been unmapped, is given back. -/
theorem Unmapping.free (h : Unmapping u t c gone freed) {n : ℕ} (ha : u.UsedSlot c (pageSlot n))
    (hnew : ¬ freed n) (h0 : u.slotFrame c (pageSlot n) ≠ 0)
    (hfreed : ∀ m, freed' m ↔ freed m ∨ m = n) :
    Unmapping u { t with pmm := kMemPmmFree t.pmm (u.slotFrame c (pageSlot n)*0x1000) 1 } c
        gone freed' := by
  have hlt : u.slotFrame c (pageSlot n) < 0x100000 := page_lt _
  rw [Nat.mul_comm]
  obtain ⟨m,-,hrel,-⟩ := free_spec t.pmm (u.slotFrame c (pageSlot n)) 1 (by omega)
  refine ⟨h.directory_eq,h.window_eq,h.erased,h.kept,h.frames,fun l => ?_,fun hclean => ?_,?_,
    hrel.first_ok h.first_ok⟩
  · show (kMemPmmFree t.pmm _ 1).IsFree l ↔ _
    rw [isFree_free_one _ hlt,h.free_iff l,or_assoc]
    refine or_congr Iff.rfl ⟨?_,?_⟩
    · rintro (⟨m,h1,h2,h3⟩ | rfl)
      · exact ⟨m,h1,(hfreed m).mpr (.inl h2),h3⟩
      · exact ⟨n,ha,(hfreed n).mpr (.inr rfl),h0,rfl⟩
    · rintro ⟨m,h1,h2,h3,h4⟩
      rcases (hfreed m).mp h2 with h2 | rfl
      · exact .inl ⟨m,h1,h2,h3,h4⟩
      · exact .inr h4.symm
  · obtain ⟨pages,hnodup,hmem,hcount⟩ := h.count hclean
    have hused : ¬ t.pmm.IsFree (u.slotFrame c (pageSlot n)) := by
      rw [h.free_iff,not_or]
      refine ⟨hclean.used n ha,?_⟩
      rintro ⟨m,h1,h2,-,h4⟩
      obtain rfl := hclean.inj m n h1 ha h4
      exact hnew h2
    refine ⟨n::pages,List.nodup_cons.mpr ⟨fun hc => hnew ((hmem n).mp hc).2,hnodup⟩,fun m => ?_,?_⟩
    · rw [List.mem_cons,hmem,hfreed]
      constructor
      · rintro (rfl | ⟨h1,h2⟩)
        · exact ⟨ha,.inr rfl⟩
        · exact ⟨h1,.inl h2⟩
      · rintro ⟨h1,h2 | rfl⟩
        · exact .inr ⟨h1,h2⟩
        · exact .inl rfl
    · show (kMemPmmFree t.pmm _ 1).freed%W32 = _
      rw [freed_free_one _ hlt hused,List.length_cons,Nat.add_mod,hcount]
      simp only [W32]
      omega
  · have h1 := hrel.size_le
    have h2 := h.size_le
    show (kMemPmmFree t.pmm _ 1).bitmapSize ≤ _
    omega

theorem unmapAndFree_user (hu : u.SpaceOk c) (hstale : u.NoStale c) (h : Unmapping u t c gone freed)
    (hsub : ∀ m, freed m → gone m) {n : ℕ} (hn : n < KERNEL_PD*1024) :
    Unmapping u (t.kMemPagingUnmapAndFree (n*0x1000)) c (fun m => gone m ∨ m = n)
      (fun m => freed m ∨ (m = n ∧ ¬ gone n)) := by
  have hpd : PDE (n*0x1000) = n/1024 := by rw [PDE]; omega
  have hpt : PTE (n*0x1000) = n%1024 := by rw [PTE]; omega
  have hi : n/1024 < KERNEL_PD := by omega
  have hj : n%1024 < 1024 := Nat.mod_lt n (by decide)
  have hsplit : n = n/1024*1024+n%1024 := by omega
  have hword : t.pte (n/1024) (n%1024) = t.phys (u.table c (n/1024)) (n%1024) := by
    rw [pte,h.ptFrame_eq hu]
  rw [kMemPagingUnmapAndFree,hpd,hpt,h.pde_eq hu,h.ptFrame_eq hu,hword]
  cases hp : present (u.phys c (n/1024)) with
  | false =>
    refine (h.absent hp fun _ => Iff.rfl).congr_freed fun m ha _ => or_iff_left ?_
    rintro ⟨rfl,-⟩
    have := ha.2.2.1
    rw [hp] at this
    cases this
  | true =>
    have hslot : u.UsedSlot c (n/1024,none) := ⟨hi,hp⟩
    have hgone : ∀ m, (gone m ∨ m = n) ↔ gone m ∨ m = n/1024*1024+n%1024 := by
      intro m
      rw [← hsplit]
    have herase := h.erase hu hslot hj hgone
    by_cases hg : gone n
    · have h0 : t.phys (u.table c (n/1024)) (n%1024) = 0 :=
        h.erased _ _ hslot hj (by rw [← hsplit]; exact hg)
      rw [h0]
      exact herase.congr_freed fun m _ _ => or_iff_left fun hc => hc.2 hg
    · have hkept : t.phys (u.table c (n/1024)) (n%1024) = u.phys (u.table c (n/1024)) (n%1024) :=
        h.kept _ _ hslot hj (by rw [← hsplit]; exact hg)
      rw [hkept]
      by_cases hq : present (u.phys (u.table c (n/1024)) (n%1024)) = true
      · have ha : u.UsedSlot c (pageSlot n) := ⟨hi,hj,hp,hq⟩
        rw [if_neg (by simp),show page (u.phys (u.table c (n/1024)) (n%1024)) =
          u.slotFrame c (pageSlot n) from rfl]
        by_cases h0 : u.slotFrame c (pageSlot n) = 0
        · rw [h0]
          refine herase.congr_freed fun m _ hm => or_iff_left ?_
          rintro ⟨rfl,-⟩
          exact hm h0
        · have hpos : u.slotFrame c (pageSlot n)*0x1000 ≠ 0 := by omega
          simp only [hpos,if_false]
          exact herase.free ha (fun hc => hg (hsub n hc)) h0 fun m => by simp [hg]
      · rw [Bool.not_eq_true] at hq
        rw [hstale _ _ hslot hj hq]
        refine herase.congr_freed fun m ha _ => or_iff_left ?_
        rintro ⟨rfl,-⟩
        have := ha.2.2.2
        rw [hq] at this
        cases this

end Page

section Region

variable {u t : Vm} {c : ℕ} {gone freed : ℕ → Prop}

theorem Unmapping.congr {gone' freed' : ℕ → Prop} (h : Unmapping u t c gone freed)
    (hgone : ∀ n, gone' n ↔ gone n) (hfreed : ∀ n, freed' n ↔ freed n) :
    Unmapping u t c gone' freed' := by
  obtain rfl : gone' = gone := funext fun n => propext (hgone n)
  exact h.congr_freed fun n _ _ => hfreed n

theorem page_address {m n : ℕ} (h : m+n < KERNEL_PD*1024) :
    (m*0x1000+n*0x1000)%W32 = (m+n)*0x1000 := by
  have hK : KERNEL_PD = 768 := rfl
  rw [← Nat.add_mul]
  exact Nat.mod_eq_of_lt (by simp only [W32]; omega)

theorem unmapRegion_user (hu : u.SpaceOk c) (h : Unmapping u t c gone freed) {m : ℕ} (n : ℕ)
    (hn : m+n ≤ KERNEL_PD*1024) :
    Unmapping u (t.kMemPagingUnmapRegion (m*0x1000) n) c (fun x =>
        gone x ∨ (m ≤ x ∧ x < m+n)) freed := by
  induction n with
  | zero => exact h.congr (fun x => or_iff_left fun hx => by omega) fun _ => Iff.rfl
  | succ n ih =>
    rw [kMemPagingUnmapRegion,page_address (by omega)]
    refine (unmap_user hu (ih (by omega)) (by omega)).congr (fun x => ?_) fun _ => Iff.rfl
    rw [or_assoc]
    refine or_congr Iff.rfl ⟨fun hx => ?_,fun hx => ?_⟩
    · omega
    · omega

theorem unmapAndFreeRegion_user (hu : u.SpaceOk c) (hstale : u.NoStale c)
    (h : Unmapping u t c gone freed) (hsub : ∀ x, freed x → gone x) {m : ℕ} (n : ℕ)
    (hn : m+n ≤ KERNEL_PD*1024) :
    Unmapping u (t.kMemPagingUnmapAndFreeRegion (m*0x1000) n) c
      (fun x => gone x ∨ (m ≤ x ∧ x < m+n)) (fun x => freed x ∨ (¬ gone x ∧ m ≤ x ∧ x < m+n)) := by
  induction n with
  | zero =>
    exact h.congr (fun x => or_iff_left fun hx => by omega) fun x => or_iff_left fun hx => by omega
  | succ n ih =>
    rw [kMemPagingUnmapAndFreeRegion,page_address (by omega)]
    refine (unmapAndFree_user hu hstale (ih (by omega)) (fun x hx => ?_) (by
      omega)).congr (fun x => ?_)
      fun x => ?_
    · exact hx.imp (hsub x) fun hx => hx.2
    · rw [or_assoc]
      refine or_congr Iff.rfl ⟨fun hx => ?_,fun hx => ?_⟩
      · omega
      · omega
    · rw [or_assoc]
      refine or_congr Iff.rfl ⟨fun ⟨hg,h1,h2⟩ => ?_,?_⟩
      · by_cases hx : x = m+n
        · subst hx
          exact .inr ⟨rfl,fun hc => hc.elim hg fun hc => by omega⟩
        · exact .inl ⟨hg,h1,by omega⟩
      · rintro (⟨hg,h1,h2⟩ | ⟨rfl,hg⟩)
        · exact ⟨hg,h1,by omega⟩
        · exact ⟨fun hc => hg (.inl hc),by omega,by omega⟩

/-- One block: its pages are gone, and unless it is shared memory their frames are free. -/
theorem unmapBlock_user (hu : u.SpaceOk c) (hstale : u.NoStale c) (h : Unmapping u t c gone freed)
    (hsub : ∀ x, freed x → gone x) {block : MmapBlock} (hblock : block.InUser) :
    Unmapping u (t.unmapBlock block) c (fun x => gone x ∨ block.HasPage x)
      (fun x => freed x ∨ (¬ gone x ∧ block.HasPage x ∧ ¬ block.Shm)) := by
  obtain ⟨hal,hend⟩ := hblock
  have hV : VIRTUAL_BASE = 768*1024*0x1000 := by decide
  have hK : KERNEL_PD = 768 := rfl
  have hstart : block.start = block.start/0x1000*0x1000 := by omega
  have hn : block.start/0x1000+block.size/0x1000 ≤ KERNEL_PD*1024 := by omega
  rw [unmapBlock,hstart]
  by_cases hshm : block.flags &&& MMAP_FLAG_SHM ≠ 0
  · rw [if_pos hshm]
    exact (unmapRegion_user hu h _ hn).congr (fun _ => Iff.rfl) fun x =>
      or_iff_left fun hx => hx.2.2 hshm
  · rw [if_neg hshm]
    refine (unmapAndFreeRegion_user hu hstale h hsub _ hn).congr (fun _ => Iff.rfl) fun x => ?_
    exact or_congr Iff.rfl (and_congr_right fun _ => and_iff_left hshm)

/-- The block that decides what happens to page `n`: the first one popped that has it. -/
def popped (blocks : List MmapBlock) (n : ℕ) : Option MmapBlock :=
  blocks.find? fun block => block.HasPage n

theorem popped_cons (block : MmapBlock) (rest : List MmapBlock) (n : ℕ) :
    popped (block::rest) n = if block.HasPage n then some block else popped rest n := by
  rw [popped,List.find?_cons]
  by_cases h : block.HasPage n
  · simp [h]
  · simp [h,popped]

theorem popBlocks_user (hu : u.SpaceOk c) (hstale : u.NoStale c) (blocks : List MmapBlock) :
    ∀ t info gone freed, Unmapping u t c gone freed → (∀ x, freed x → gone x) →
    (∀ block ∈ blocks, block.InUser) →
    Unmapping u (t.popBlocks info blocks).1 c (fun x => gone x ∨ (popped blocks x).isSome)
      (fun x => freed x ∨ (¬ gone x ∧ ∃ block, popped blocks x = some block ∧ ¬ block.Shm)) := by
  induction blocks with
  | nil =>
    intro t info gone freed h _ _
    exact h.congr (fun x => or_iff_left (by simp [popped])) fun x => or_iff_left (by simp [popped])
  | cons block rest ih =>
    intro t info gone freed h hsub huser
    have hblock := unmapBlock_user hu hstale h hsub (huser block (by simp))
    have hrest := ih (t.unmapBlock block) ⟨block.start,rest.reverse⟩ _ _ hblock
      (fun x hx => hx.imp (hsub x) fun hx => hx.2.1) fun b hb => huser b (List.mem_cons_of_mem _ hb)
    refine hrest.congr (fun x => ?_) fun x => ?_
    · rw [popped_cons]
      by_cases hx : block.HasPage x
      · simp [hx]
      · simp [hx]
    · rw [popped_cons]
      by_cases hx : block.HasPage x
      · simp [hx]
      · simp [hx]

end Region

end Vm
end ScalesOS
