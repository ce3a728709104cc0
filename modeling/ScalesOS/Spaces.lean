import ScalesOS.ForkExit
import ScalesOS.FreshPages

/-!
# The address spaces of several processes

Directories with one kernel half and nothing else in common. The heap grows for all of
them, a clone adds one, the current one gets pages and loses them, and a release takes one
away: each of these leaves the memory of all others as it is.
-/

namespace ScalesOS
namespace Vm

open Entry Pmm

/-- The directory, its user tables and its user pages hold what they held. -/
def SameSpace (s s' : Vm) (d : ℕ) : Prop := ∀ f, f = d ∨ s.UserFrame d f → s'.phys f = s.phys f

section Same

variable {s s' s'' : Vm} {d f : ℕ}

theorem SameSpace.userSame (h : SameSpace s s' d) : UserSame s s' d :=
  ⟨h d (.inl rfl),fun i hi hp => h _ (.inr ⟨(i,none),⟨hi,hp⟩,rfl⟩)⟩

theorem SameSpace.refl (s : Vm) (d : ℕ) : SameSpace s s d := fun _ _ => rfl

theorem SameSpace.trans (h : SameSpace s s' d) (h' : SameSpace s' s'' d) :
    SameSpace s s'' d := fun f hf =>
  (h' f (hf.imp id (h.userSame.userFrame_iff f).mpr)).trans (h f hf)

theorem SameSpace.lookup_eq (h : SameSpace s s' d) {n : ℕ} (hn : n < KERNEL_PD*1024) :
    s'.lookup d n = s.lookup d n := by
  have hi : n/1024 < KERNEL_PD := by omega
  exact lookup_congr (lt_trans hn (by decide)) h.userSame.dir fun ht =>
    h.userSame.tables _ hi ht.2.1

theorem SpaceOk.uses (hs : s.SpaceOk d) (hf : f = d ∨ s.UserFrame d f) : s.Uses d f := by
  rcases hf with rfl | ⟨⟨i,_ | j⟩,ha,rfl⟩
  · exact .inl rfl
  · exact .inr (.inl ⟨i,hs.user_table ha.1 ha.2,rfl⟩)
  · exact .inr (.inr ⟨i,j,ha,rfl⟩)

theorem SpaceOk.not_kernel (hs : s.SpaceOk d) (hf : f = d ∨ s.UserFrame d f) :
    ¬ s.KernelTable d f := by
  rcases hf with rfl | ⟨⟨i,_ | j⟩,ha,rfl⟩
  · exact hs.not_kernel_dir
  · exact hs.not_kernel_table ha.1 ha.2
  · exact hs.not_kernel_page ha

theorem HeapPage.not_user {c : ℕ} (hp : s.HeapPage d c) (hs : s.SpaceOk d)
    (hf : f = d ∨ s.UserFrame d f) :
    f ≠ c := by
  rcases hf with rfl | ⟨⟨i,_ | j⟩,ha,rfl⟩
  · exact hp.foreign.1.symm
  · exact (hp.foreign.2 i (hs.user_table ha.1 ha.2)).symm
  · exact hp.pages i j ha

theorem SharedKernel.trans {e g : ℕ} (h : s.SharedKernel d e) (h' : s.SharedKernel e g) :
    s.SharedKernel d g := fun i h1 h2 => (h i h1 h2).trans (h' i h1 h2)

end Same

/-- The user slots of `d` have a frame each, below 2 GiB and not frame 0. -/
structure OwnFrames (s : Vm) (d : ℕ) : Prop where
  inj : ∀ a a', s.UsedSlot d a → s.UsedSlot d a' → s.slotFrame d a = s.slotFrame d a' → a = a'
  nonzero : ¬ s.UserFrame d 0
  low : ∀ f, s.UserFrame d f → f < 0x80000

/-- The directories in `live` are spaces of their own with one kernel half, and the current
directory is one of them. The machine has no more than 2 GiB. -/
structure Spaces (s : Vm) (live : ℕ → Prop) : Prop where
  current : live s.directory
  space : ∀ d, live d → s.SpaceOk d
  shared : ∀ d e, live d → live e → s.SharedKernel d e
  separate : ∀ d e, live d → live e → d ≠ e → s.Separate d e
  noStale : ∀ d, live d → s.NoStale d
  own : ∀ d, live d → s.OwnFrames d
  sound : s.pmm.Sound
  low : ∀ k, s.pmm.IsFree k → k < 0x80000
  window_start : ∃ a, s.WindowStart a
  heap : ∃ m, s.heapEnd = m*0x1000 ∧ HEAP_PAGE ≤ m

section Steps

variable {s s' : Vm} {live : ℕ → Prop} {d n k : ℕ} {new : ℕ → Prop}

theorem UserSame.ownFrames (h : UserSame s s' d) (ho : s.OwnFrames d) : s'.OwnFrames d where
  inj a a' ha ha' he := by
    have hb := (h.used_iff a).mp ha
    have hb' := (h.used_iff a').mp ha'
    rw [h.slotFrame_eq hb,h.slotFrame_eq hb'] at he
    exact ho.inj a a' hb hb' he
  nonzero hf := ho.nonzero ((h.userFrame_iff 0).mp hf)
  low f hf := ho.low f ((h.userFrame_iff f).mp hf)

/-- A change that leaves all directories and their user halves as they are. -/
theorem Spaces.keep (h : s.Spaces live) (hsame : ∀ d, live d → SameSpace s s' d)
    (hspace : ∀ d, live d → s'.SpaceOk d) (hdir : live s'.directory) (hsound : s'.pmm.Sound)
    (hlow : ∀ k, s'.pmm.IsFree k → k < 0x80000) (hwin : ∃ a, s'.WindowStart a)
    (hheap : ∃ m, s'.heapEnd = m*0x1000 ∧ HEAP_PAGE ≤ m) : s'.Spaces live where
  current := hdir
  space := hspace
  shared d e hd he := (h.shared d e hd he).congr (hsame d hd).userSame.dir (hsame e he).userSame.dir
  separate d e hd he hne :=
    (h.separate d e hd he hne).of_userSame (hsame d hd).userSame (hsame e he).userSame
  noStale d hd := (hsame d hd).userSame.noStale (h.noStale d hd)
  own d hd := (hsame d hd).userSame.ownFrames (h.own d hd)
  sound := hsound
  low := hlow
  window_start := hwin
  heap := hheap

theorem Spaces.switch (h : s.Spaces live) (hd : live d) :
    (s.kMemPagingSetPageDirectory d).Spaces live :=
  h.keep (fun _ _ _ _ => rfl) (fun _ he =>
    (h.space _ he).switch d) hd h.sound h.low h.window_start h.heap

theorem Spaces.grow (h : s.Spaces live) (hend : s.heapEnd+n*0x1000 ≤ HEAP_END)
    (hgrow : s.growHeap n = .ok s') :
    s'.Spaces live ∧ (∀ d, live d → SameSpace s s' d) ∧ s'.heapEnd = s.heapEnd+n*0x1000 := by
  obtain ⟨m,hheap,hm⟩ := h.heap
  obtain ⟨a,ha⟩ := h.window_start
  obtain ⟨hg,hend'⟩ :=
    growHeap_grown (h.space _ h.current) h.sound.zero_used h.sound.first_ok hheap hm hend
    (.inl h.sound.small) hgrow
  have hsame : ∀ d, live d → SameSpace s s' d := fun d hd f hf =>
    hg.phys_eq (h.shared _ d h.current hd) ((h.space d hd).not_kernel hf)
  refine ⟨h.keep hsame (fun d hd => hg.spaceOk (h.space d hd) (h.shared _ d h.current hd)) ?_
    ⟨hg.first_ok,fun h0 => h.sound.zero_used (hg.free_sub 0 h0),?_⟩ (fun k hk =>
      h.low k (hg.free_sub k hk))
    ⟨a,?_⟩ ⟨m+n,?_,by omega⟩,hsame,hend'⟩
  · rw [hg.directory_eq]
    exact h.current
  · rw [hg.size_eq]
    exact h.sound.small
  · rw [WindowStart,hg.window_eq]
    exact ha
  · rw [hend',hheap,Nat.add_mul]

/-- One more space, made of frames that were free and of a page that nobody used. -/
theorem Spaces.clone {heap : HeapReply} {c : ℕ} (h : s.Spaces live) (hd : live d)
    (hend : s.heapEnd+heap.growth*0x1000 ≤ HEAP_END)
    (hpage : ∀ s₁, s.growHeap heap.growth = .ok s₁ → ∀ e, live e → s₁.HeapPage e heap.page)
    (hret : s.kMemPagingClonePageDirectory d heap = .ok (c,s')) :
    s'.Spaces (fun e => live e ∨ e = c) ∧ (∀ e, live e → SameSpace s s' e) ∧ ¬ live c ∧
      s'.heapEnd = s.heapEnd+heap.growth*0x1000 := by
  obtain ⟨s₁,hgrow,-⟩ := Result.bind_eq_ok.mp hret
  obtain ⟨h₁,hsame₁,hend₁⟩ := h.grow hend hgrow
  have hpage := hpage s₁ hgrow
  obtain ⟨rfl,hc⟩ :=
    clone_cloned le_rfl (h₁.space d hd) h₁.sound.zero_used h₁.sound.first_ok h₁.window_start
    (hpage d hd) hgrow (supply_of_small h₁.sound.small) hret
  have hshare : ∀ e, live e → s₁.SharedKernel d e := fun e he => h₁.shared d e hd he
  have hnew : ¬ live heap.page := fun hl => (hpage _ hl).foreign.1 rfl
  have hsame : ∀ e, live e → SameSpace s₁ s' e := fun e he f hf =>
    hc.others f ((hpage e he).not_user (h₁.space e he) hf)
      (fun a ha => hc.ne_used ha ((h₁.space e he).uses_used ((h₁.space e he).uses hf)))
      ((not_congr ((hshare e he).kernelTable_iff f)).mpr ((h₁.space e he).not_kernel hf))
  have hcopy : ∀ e, live e → s'.SharedKernel heap.page e := fun e he =>
    hc.shared.symm.trans (hc.shared_other (h₁.space e he) (hshare e he) (hpage e he))
  have hfree : ∀ a, s'.UsedSlot heap.page a →
      s₁.pmm.IsFree (s'.slotFrame heap.page a) := fun a ha =>
    (hc.fresh a ((hc.used_iff a).mp ha)).1
  refine ⟨⟨?_,?_,?_,?_,?_,?_,⟨hc.first_ok,fun h0 => h₁.sound.zero_used ((hc.free_iff 0).mp h0).1,
    ?_⟩,fun k hk => h₁.low k ((hc.free_iff k).mp hk).1,hc.window_start,?_⟩,
    fun e he => (hsame₁ e he).trans (hsame e he),hnew,hc.heapEnd_eq.trans hend₁⟩
  · rw [hc.directory_eq]
    exact .inl h₁.current
  · rintro e (he | rfl)
    · exact hc.space_other (h₁.space e he) (hshare e he) (hpage e he)
    · exact hc.spaceOk_copy (h₁.space d hd) (hpage d hd)
  · rintro e e' (he | rfl) (he' | rfl)
    · exact (h₁.shared e e' he he').congr (hsame e he).userSame.dir (hsame e' he').userSame.dir
    · exact (hcopy e he).symm
    · exact hcopy e' he'
    · exact fun _ _ _ => rfl
  · rintro e e' (he | rfl) (he' | rfl) hne
    · exact (h₁.separate e e' he he' hne).of_userSame (hsame e he).userSame (hsame e' he').userSame
    · exact hc.separate_other (h₁.space e he) (hshare e he) (hpage e he)
    · exact hc.separate_copy (h₁.space e' he') (hshare e' he') (hpage e' he')
    · exact absurd rfl hne
  · rintro e (he | rfl)
    · exact (hsame e he).userSame.noStale (h₁.noStale e he)
    · exact hc.noStale
  · rintro e (he | rfl)
    · exact (hsame e he).userSame.ownFrames (h₁.own e he)
    · refine ⟨fun a a' ha ha' => hc.inj a a' ((hc.used_iff a).mp ha) ((hc.used_iff a').mp ha'),?_,
        ?_⟩
      · rintro ⟨a,ha,h0⟩
        exact h₁.sound.zero_used (h0 ▸ hfree a ha)
      · rintro f ⟨a,ha,rfl⟩
        exact h₁.low _ (hfree a ha)
  · rw [hc.size_eq]
    exact h₁.sound.small
  · obtain ⟨m,hm⟩ := h₁.heap
    exact ⟨m,by rw [hc.heapEnd_eq]; exact hm⟩

theorem Spaces.pop {blocks : List MmapBlock} (h : s.Spaces live)
    (huser : ∀ block ∈ blocks, block.InUser)
    (info : MmapInfo) : (s.popBlocks info blocks).1.Spaces live ∧
      ∀ e, live e → e ≠ s.directory → SameSpace s (s.popBlocks info blocks).1 e := by
  have hc := h.space _ h.current
  have hm :=
    (popBlocks_user hc (h.noStale _ h.current) blocks s info _ _
      (Unmapping.refl rfl h.sound.first_ok)
    (fun _ h => h) huser)
  have hm := @Unmapping.congr _ _ _ _ _ (fun x => (popped blocks x).isSome)
    (fun x => ∃ block, popped blocks x = some block ∧
      ¬ block.Shm) hm (fun x => by simp) fun x => by simp
  generalize (s.popBlocks info blocks).1 = t at hm ⊢
  have hsub : ∀ x, (∃ block, popped blocks x = some block ∧ ¬ block.Shm) →
      (popped blocks x).isSome :=
    fun x ⟨block,hb,_⟩ => by rw [hb]; rfl
  have hdir := hm.dir_eq hc
  have hsame : ∀ e, live e → e ≠ s.directory → SameSpace s t e := fun e he hne f hf =>
      hm.phys_eq fun i hi => by
    rcases hf with rfl | hf
    · exact ((h.separate _ _ h.current he hne.symm).table_ne hi).1
    · exact (((h.separate _ _ he h.current hne).foreign f hf).2 i (hc.user_table hi.1 hi.2)).symm
  have hphys : ∀ e, live e → t.phys e = s.phys e := fun e he => by
    by_cases hne : e = s.directory
    · rw [hne]
      exact hdir
    · exact hsame e he hne e (.inl rfl)
  have hframe : ∀ e f, live e → t.UserFrame e f → s.UserFrame e f := fun e f he hf => by
    by_cases hne : e = s.directory
    · rw [hne] at hf ⊢
      exact hm.userFrame_sub hc hf
    · exact ((hsame e he hne).userSame.userFrame_iff f).mp hf
  refine ⟨⟨?_,fun e he => ?_,fun e e' he he' => (h.shared e e' he he').congr
    (hphys e he) (hphys e' he'),
    fun e e' he he' hne => ?_,fun e he => ?_,fun e he => ?_,⟨hm.first_ok,fun h0 => ?_,?_⟩,
    fun k hk => ?_,?_,?_⟩,hsame⟩
  · rw [hm.directory_eq]
    exact h.current
  · by_cases hne : e = s.directory
    · rw [hne]
      exact hm.own_space hc hsub fun n a hn _ => (h.own _ h.current).inj _ a hn
    · exact hm.other_space (h.space e he) (h.separate _ _ h.current he (Ne.symm hne))
  · have hsep := h.separate e e' he he' hne
    by_cases hne' : e' = s.directory
    · -- the tables of the current directory are the same, and it has no new pages
      subst hne'
      refine ⟨fun f hf => ?_,fun f hf i j ha => ?_⟩
      · obtain ⟨h1,h2⟩ := hsep.foreign f (hframe e f he hf)
        refine ⟨h1,fun i hi => ?_⟩
        rw [hm.table_eq hc]
        exact h2 i ((isTable_congr hdir i).mp hi)
      · rw [hm.slotFrame_eq hc ha]
        exact hsep.pages f (hframe e f he hf) i j (hm.used_sub hc ha)
    · exact hsep.transfer (fun f => hframe e f he) (hsame e' he' hne').userSame
  · by_cases hne : e = s.directory
    · rw [hne]
      exact hm.noStale hc (h.noStale _ h.current)
    · exact (hsame e he hne).userSame.noStale (h.noStale e he)
  · by_cases hne : e = s.directory
    · rw [hne] at he ⊢
      refine ⟨fun a a' ha ha' heq => ?_,fun hf => (h.own _ he).nonzero (hframe _ 0 he hf),
        fun f hf => (h.own _ he).low f (hframe _ f he hf)⟩
      rw [hm.slotFrame_eq hc ha,hm.slotFrame_eq hc ha'] at heq
      exact (h.own _ he).inj a a' (hm.used_sub hc ha) (hm.used_sub hc ha') heq
    · exact (hsame e he hne).userSame.ownFrames (h.own e he)
  · rcases (hm.free_iff 0).mp h0 with h0 | ⟨x,-,-,hne,he⟩
    · exact h.sound.zero_used h0
    · exact hne he
  · have := hm.size_le
    have := h.sound.small
    omega
  · rcases (hm.free_iff k).mp hk with hk | ⟨x,ha,-,-,rfl⟩
    · exact h.low k hk
    · exact (h.own _ h.current).low _ ⟨_,ha,rfl⟩
  · obtain ⟨a,ha⟩ := h.window_start
    exact ⟨a,by rw [WindowStart,hm.window_eq.1]; exact ha⟩
  · obtain ⟨m,hm'⟩ := h.heap
    exact ⟨m,by rw [hm.window_eq.2]; exact hm'⟩

theorem Spaces.release {c : ℕ} (h : s.Spaces live) (hc : live c) (hcur : c ≠ s.directory)
    (hret : s.kMemPagingReleaseDirectory c = .ok s') : s'.Spaces (fun e => live e ∧ e ≠ c) ∧
    s'.phys = s.phys := by
  have hlow : ∀ a, s.UsedSlot c a → s.slotFrame c a < 0x80000 := fun a ha =>
    (h.own c hc).low _ ⟨a,ha,rfl⟩
  obtain ⟨v,hrel,hphys,hdir,hwin,hheap,hfree,-,hok,hsize⟩ := release_spec (h.space c hc).dirOk.self
  obtain rfl := Except.ok.inj (hret.symm.trans hrel)
  have hsame : ∀ e, SameSpace s s' e := fun e f _ => by rw [hphys]
  have hlook : ∀ e, s'.lookup e = s.lookup e := fun e => by
    funext n
    rw [lookup,lookup,table,table,hphys]
  have hleft : s.Spaces fun e => live e ∧ e ≠ c :=
    ⟨⟨h.current,hcur.symm⟩,fun e he => h.space e he.1,
    fun e e' he he' => h.shared e e' he.1 he'.1,fun e e' he he' => h.separate e e' he.1 he'.1,
    fun e he => h.noStale e he.1,fun e he => h.own e he.1,h.sound,h.low,h.window_start,h.heap⟩
  refine ⟨hleft.keep (fun e _ => hsame e) (fun e he => ?_) ?_ ⟨hok hlow h.sound.first_ok,
    fun h0 => ?_,?_⟩
    (fun k hk => ?_) ?_ ?_,hphys⟩
  · have hs := h.space e he.1
    refine hs.keep (hsame e).userSame (fun f hf hfr => ?_) ?_ fun n h1 h2 => ?_
    · -- what `e` uses is no frame of `c`
      rcases (hfree f (.inr hlow)).mp hfr with hfr | ⟨a,ha,-,he'⟩
      · exact hs.uses_used hf hfr
      · exact (h.separate c e hc he.1 he.2.symm).not_uses ⟨a,ha,he'⟩ hf
    · rw [hlook]
      exact hs.guard
    · rw [hlook]
      exact hs.windows n h1 h2
  · rw [hdir]
    exact ⟨h.current,hcur.symm⟩
  · rcases (hfree 0 (.inr hlow)).mp h0 with h0 | ⟨a,ha,-,he⟩
    · exact h.sound.zero_used h0
    · exact (h.own c hc).nonzero ⟨a,ha,he⟩
  · have := hsize hlow
    have := h.sound.small
    omega
  · rcases (hfree k (.inr hlow)).mp hk with hk | ⟨a,-,ha,rfl⟩
    · exact h.low k hk
    · exact ha
  · obtain ⟨a,ha⟩ := h.window_start
    exact ⟨a,by rw [WindowStart,hwin]; exact ha⟩
  · rw [hheap]
    exact h.heap

end Steps

end Vm
end ScalesOS
