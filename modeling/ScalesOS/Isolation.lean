import Mathlib.Logic.Relation
import ScalesOS.Spaces

/-!
# Isolation

What a process and the kernel on its behalf do to the current address space, over whole runs: new
pages, stores, blocks that are unmapped, together with the heap, clones, switches and releases. A
directory that is not the current one keeps its memory.
-/

namespace ScalesOS
namespace Vm

open Entry Pmm

/-- A change of the current directory, with the frames in `new` as new ones. -/
structure OwnChange (s s' : Vm) (new : ℕ → Prop) : Prop where
  directory_eq : s'.directory = s.directory
  window_eq : s'.firstFreeAddress = s.firstFreeAddress ∧ s'.heapEnd = s.heapEnd
  frames : ∀ f, f ≠ s.directory → ¬ s.UserFrame s.directory f → ¬ new f → s'.phys f = s.phys f
  kernel : ∀ i, KERNEL_PD ≤ i → i < 1023 → s'.phys s.directory i = s.phys s.directory i
  user : ∀ f, s'.UserFrame s.directory f → s.UserFrame s.directory f ∨ new f
  free_sub : ∀ l, s'.pmm.IsFree l → s.pmm.IsFree l
  space : s'.SpaceOk s.directory
  noStale : s'.NoStale s.directory
  own : s'.OwnFrames s.directory
  sound : s'.pmm.Sound

/-- No live directory uses frame `k`. -/
def Loose (s : Vm) (live : ℕ → Prop) (k : ℕ) : Prop := ∀ e, live e → ¬ s.Uses e k

section Change

variable {s s' : Vm} {live new : ℕ → Prop} {e f i k : ℕ}

theorem Spaces.table_ne_current (h : s.Spaces live) (he : live e) (hne : e ≠ s.directory)
    (hi : s.IsTable e i) :
    s.table e i ≠ s.directory := by
  have hd := h.space _ h.current
  by_cases hlow : i < KERNEL_PD
  · exact ((h.separate e _ he h.current hne).foreign _ ⟨(i,none),⟨hlow,hi.2.1⟩,rfl⟩).1
  · -- a table of the kernel half is one of the current directory
    have hentry := h.shared _ e h.current he i (not_lt.mp hlow) hi.1
    have ht : s.IsTable s.directory i :=
      ⟨hi.1,by rw [hentry]; exact hi.2.1,by rw [hentry]; exact hi.2.2⟩
    have htable : s.table e i = s.table s.directory i := by rw [table,table,hentry]
    rw [htable]
    exact hd.dirOk.apart i ht

theorem OwnChange.phys_eq (hc : OwnChange s s' new) (h : s.Spaces live)
    (hnew : ∀ k, new k → s.Loose live k)
    (he : live e) (hne : e ≠ s.directory) (hf : s.Uses e f) (hd : f ≠ s.directory) :
    s'.phys f = s.phys f :=
  hc.frames f hd (fun hu => (h.separate _ e h.current he hne.symm).not_uses hu hf) fun hn =>
    hnew f hn e he hf

theorem OwnChange.same (hc : OwnChange s s' new) (h : s.Spaces live)
    (hnew : ∀ k, new k → s.Loose live k)
    (he : live e) (hne : e ≠ s.directory) : SameSpace s s' e := fun f hf => by
  refine hc.phys_eq h hnew he hne ((h.space e he).uses hf) ?_
  rcases hf with rfl | hf
  · exact hne
  · exact ((h.separate e _ he h.current hne).foreign f hf).1

theorem OwnChange.other_space (hc : OwnChange s s' new) (h : s.Spaces live)
    (hnew : ∀ k, new k → s.Loose live k) (he : live e) (hne : e ≠ s.directory) : s'.SpaceOk e := by
  have hs := h.space e he
  have hsame := hc.same h hnew he hne
  have hlook : ∀ n < 1023*1024, s'.lookup e n = s.lookup e n := fun n hn =>
    lookup_congr hn hsame.userSame.dir fun ht =>
      hc.phys_eq h hnew he hne (.inr (.inl ⟨_,ht,rfl⟩)) (h.table_ne_current he hne ht)
  refine hs.transfer hsame.userSame hc.free_sub ?_ fun n h1 h2 => ?_
  · rw [hlook _ (by decide)]
    exact hs.guard
  · rw [hlook n (window_lt h2.le)]
    exact hs.windows n h1 h2

theorem OwnChange.spaces (hc : OwnChange s s' new) (h : s.Spaces live)
    (hnew : ∀ k, new k → s.Loose live k) :
    s'.Spaces live := by
  have hd := h.space _ h.current
  have hkernel : ∀ e, live e → ∀ i, KERNEL_PD ≤ i → i < 1023 →
      s'.phys e i = s.phys e i := fun e he i h1 h2 => by
    by_cases hne : e = s.directory
    · rw [hne]
      exact hc.kernel i h1 h2
    · rw [(hc.same h hnew he hne).userSame.dir]
  refine ⟨?_,fun e he => ?_,fun e e' he he' i h1 h2 => ?_,fun e e' he he' hne => ?_,fun e he => ?_,
    fun e he => ?_,hc.sound,fun k hk => h.low k (hc.free_sub k hk),?_,?_⟩
  · rw [hc.directory_eq]
    exact h.current
  · by_cases hne : e = s.directory
    · rw [hne]
      exact hc.space
    · exact hc.other_space h hnew he hne
  · rw [hkernel e he i h1 h2,hkernel e' he' i h1 h2,h.shared e e' he he' i h1 h2]
  · have hsep := h.separate e e' he he' hne
    by_cases hcur : e = s.directory
    · subst hcur
      have hsame := (hc.same h hnew he' hne.symm).userSame
      have hfresh : ∀ f, s'.UserFrame s.directory f → ¬ s.Uses e' f := fun f hf => by
        rcases hc.user f hf with hf | hf
        · exact hsep.not_uses hf
        · exact hnew f hf e' he'
      refine ⟨fun f hf => ⟨fun heq => hfresh f hf (.inl heq),fun i hi heq => ?_⟩,
        fun f hf i j ha heq => ?_⟩
      · rw [hsame.table_eq] at heq
        exact hfresh f hf (.inr (.inl ⟨i,(isTable_congr hsame.dir i).mp hi,heq.symm⟩))
      · have ha' := (hsame.used_iff _).mp ha
        rw [hsame.slotFrame_eq ha'] at heq
        exact hfresh f hf (.inr (.inr ⟨i,j,ha',heq⟩))
    · by_cases hcur' : e' = s.directory
      · subst hcur'
        have hsame := hc.same h hnew he hcur
        have hback := h.separate _ e h.current he (Ne.symm hcur)
        -- what `e` uses is neither an old nor a new frame of the current directory
        have hfresh : ∀ f, s.UserFrame e f → ¬ s'.UserFrame s.directory f := fun f hf hf' => by
          rcases hc.user f hf' with hf' | hf'
          · exact hback.not_uses hf' ((h.space e he).uses (.inr hf))
          · exact hnew f hf' e he ((h.space e he).uses (.inr hf))
        refine ⟨fun f hf => ?_,fun f hf i j ha heq => ?_⟩
        · have hf := (hsame.userSame.userFrame_iff f).mp hf
          refine ⟨(hsep.foreign f hf).1,fun i hi heq => ?_⟩
          by_cases hlow : i < KERNEL_PD
          · exact hfresh f hf ⟨(i,none),⟨hlow,hi.2.1⟩,heq.symm⟩
          · have hentry := hc.kernel i (not_lt.mp hlow) hi.1
            have ht : s.IsTable s.directory i :=
              ⟨hi.1,by rw [← hentry]; exact hi.2.1,by rw [← hentry]; exact hi.2.2⟩
            rw [table,hentry] at heq
            exact (hsep.foreign f hf).2 i ht heq
        · exact hfresh f ((hsame.userSame.userFrame_iff f).mp hf) ⟨_,ha,heq⟩
      · exact hsep.of_userSame (hc.same h hnew he hcur).userSame (hc.same h hnew he' hcur').userSame
  · by_cases hne : e = s.directory
    · rw [hne]
      exact hc.noStale
    · exact (hc.same h hnew he hne).userSame.noStale (h.noStale e he)
  · by_cases hne : e = s.directory
    · rw [hne]
      exact hc.own
    · exact (hc.same h hnew he hne).userSame.ownFrames (h.own e he)
  · obtain ⟨a,ha⟩ := h.window_start
    exact ⟨a,by rw [WindowStart,hc.window_eq.1]; exact ha⟩
  · obtain ⟨m,hm⟩ := h.heap
    exact ⟨m,by rw [hc.window_eq.2]; exact hm⟩

end Change

section Page

variable {s s' : Vm} {live : ℕ → Prop} {d e f i j k t v w flags : ℕ} {q : Pmm} {b : ℕ}

theorem Spaces.alloc (h : s.Spaces live) (halloc : kMemPmmAllocFrames s.pmm 1 = .ok (b,q)) :
    ∃ k, b = 0x1000*k ∧ s.pmm.Gives q k ∧ Spaces { s with pmm := q } live ∧
    Loose { s with pmm := q } live k := by
  obtain ⟨k,rfl,hg⟩ := h.sound.alloc_gives halloc
  have hsub : ∀ l, q.IsFree l → s.pmm.IsFree l := fun l hl => ((hg.free_iff l).mp hl).1
  refine ⟨k,rfl,hg,h.keep (fun _ _ _ _ => rfl) (fun e he => ?_) h.current hg.sound (fun l hl =>
    h.low l (hsub l hl))
    h.window_start h.heap,fun e he hk => (h.space e he).uses_used hk hg.was_free⟩
  exact (h.space e he).transfer ⟨rfl,fun _ _ _ =>
    rfl⟩ hsub (h.space e he).guard (h.space e he).windows

/-- The only new slot of the current directory is `a`, with frame `k`. -/
def Gains (s s' : Vm) (a : Slot) (k : ℕ) : Prop := ∀ b, s'.UsedSlot s.directory b →
  (b = a ∧ s'.slotFrame s.directory b = k) ∨
    (s.UsedSlot s.directory b ∧ s'.slotFrame s.directory b = s.slotFrame s.directory b)

theorem Gains.user {a : Slot} (h : Gains s s' a k) (hf : s'.UserFrame s.directory f) :
    s.UserFrame s.directory f ∨ f = k := by
  obtain ⟨b,hb,rfl⟩ := hf
  rcases h b hb with ⟨-,hk⟩ | ⟨hb',he⟩
  · exact .inr hk
  · exact .inl ⟨b,hb',he.symm⟩

theorem Gains.ownFrames {a : Slot} (h : Gains s s' a k) (hown : s.OwnFrames s.directory)
    (hold : ¬ s.UserFrame s.directory k) (hzero : k ≠ 0) (hlow : k < 0x80000) :
    s'.OwnFrames s.directory := by
  refine ⟨fun b b' hb hb' heq => ?_,fun h0 => ?_,fun f hf => ?_⟩
  · rcases h b hb with ⟨rfl,hk⟩ | ⟨hc,he⟩ <;> rcases h b' hb' with ⟨rfl,hk'⟩ | ⟨hc',he'⟩
    · rfl
    · rw [hk,he'] at heq
      exact absurd ⟨b',hc',heq.symm⟩ hold
    · rw [hk',he] at heq
      exact absurd ⟨b,hc,heq⟩ hold
    · rw [he,he'] at heq
      exact hown.inj b b' hc hc' heq
  · rcases h.user h0 with h0 | h0
    · exact hown.nonzero h0
    · exact hzero h0.symm
  · rcases h.user hf with hf | rfl
    · exact hown.low f hf
    · exact hlow

theorem Installed.gains (h : Installed s s' i t) (hs : s.SpaceOk s.directory) :
    Gains s s' (i,none) t := by
  rintro ⟨i',_ | j⟩ ha
  · by_cases hi' : i' = i
    · subst hi'
      exact .inl ⟨rfl,h.table_eq⟩
    · refine .inr ⟨⟨ha.1,?_⟩,?_⟩
      · rw [← h.entries i' hi']
        exact ha.2
      · rw [slotFrame,slotFrame,slotWord,slotWord,h.entries i' hi']
  · obtain ⟨h1,h2,h3,h4⟩ := ha
    by_cases hi' : i' = i
    · -- the new table is empty
      rw [hi',h.table_eq,h.cleared] at h4
      cases h4
    · rw [h.entries i' hi'] at h3
      have ht := hs.user_table h1 h3
      have hne : s.table s.directory i' ≠ t := fun he => hs.dirOk.used i' ht (he ▸ h.was_free)
      have htable := (h.isTable_iff hi').2
      rw [htable,h.frames _ hne (hs.dirOk.apart i' ht)] at h4
      refine .inr ⟨⟨h1,h2,h3,h4⟩,?_⟩
      rw [slotFrame,slotFrame,slotWord,slotWord,htable,h.frames _ hne (hs.dirOk.apart i' ht)]

theorem Installed.ownChange (h : Installed s s' i t) (hsp : s.Spaces live) (hi : i < KERNEL_PD)
    (hempty : present (s.pde i) = false) (hzero : t ≠ 0) (hsound : s'.pmm.Sound) :
    OwnChange s s' (· = t) := by
  have hs := hsp.space _ hsp.current
  have hown := hsp.own _ hsp.current
  have hlook : ∀ n < 1023*1024, s'.lookup s.directory n = s.lookup s.directory n := fun n hn =>
    h.lookup_eq hs.dirOk hempty hn
  have hfree : ∀ l, s'.pmm.IsFree l → s.pmm.IsFree l := fun l hl => ((h.free_iff l).mp hl).1
  have hold : ∀ f, s.UserFrame s.directory f → f ≠ t := fun f hf he =>
    hs.userFrame_used hf (he ▸ h.was_free)
  have hgains := h.gains hs
  have hentry : ∀ i', KERNEL_PD ≤ i' →
      s'.phys s.directory i' = s.phys s.directory i' := fun i' h1 =>
    h.entries i' (by omega)
  refine ⟨h.directory_eq,h.windows,fun f hd _ hne => h.frames f hne hd,fun i' h1 _ => hentry i' h1,
    fun f hf => hgains.user hf,hfree,?_,?_,
    hgains.ownFrames hown (fun hf => hold t hf rfl) hzero (hsp.low t h.was_free),hsound⟩
  · refine ⟨h.dirOk hs.dirOk,fun i' h1 h2 => ?_,fun i' h1 h2 => ?_,?_,fun n h1 h2 => ?_,
      fun i' j ha hc => ?_,fun i' j ha => ?_⟩
    · by_cases hi' : i' = i
      · rw [hi']
        exact h.isTable.2.2
      · rw [h.entries i' hi'] at h2 ⊢
        exact hs.user_small i' h1 h2
    · have hK : KERNEL_PD < PDE LOWMEM_START := by decide
      exact (h.isTable_iff (by omega)).1.mpr (hs.kernel_tables i' h1 h2)
    · rw [hlook _ (by decide)]
      exact hs.guard
    · rw [hlook n (window_lt h2.le)]
      exact hs.windows n h1 h2
    · rcases hgains _ ha with ⟨he,-⟩ | ⟨ha',he⟩
      · cases he
      · rw [he] at hc
        exact hs.pages_used i' j ha' (hfree _ hc)
    · rcases hgains _ ha with ⟨he,-⟩ | ⟨ha',he⟩
      · cases he
      · rw [he]
        refine ⟨(hs.pages_apart i' j ha').1,fun i'' hi'' => ?_⟩
        by_cases hnew : i'' = i
        · rw [hnew,h.table_eq]
          exact hold _ ⟨_,ha',rfl⟩
        · obtain ⟨hiff,htable⟩ := h.isTable_iff hnew
          rw [htable]
          exact (hs.pages_apart i' j ha').2 i'' (hiff.mp hi'')
  · intro i' j hi' hj hp
    by_cases hnew : i' = i
    · rw [hnew,h.table_eq,h.cleared]
    · have hp' := hi'.2
      rw [h.entries i' hnew] at hp'
      have ht := hs.user_table hi'.1 hp'
      have hne : s.table s.directory i' ≠ t := fun he => hs.dirOk.used i' ht (he ▸ h.was_free)
      rw [(h.isTable_iff hnew).2,h.frames _ hne (hs.dirOk.apart i' ht)] at hp ⊢
      exact hsp.noStale _ hsp.current i' j ⟨hi'.1,hp'⟩ hj hp

theorem OwnChange.loose {new : ℕ → Prop} (hc : OwnChange s s' new) (h : s.Spaces live)
    (hnew : ∀ k, new k → s.Loose live k) (hk : s.Loose live k) (hne : ¬ new k) :
    s'.Loose live k := by
  intro e he hu
  by_cases hcur : e = s.directory
  · subst hcur
    have hframe : ¬ s'.UserFrame s.directory k := fun hf => by
      rcases hc.user k hf with hf | hf
      · exact hk _ he ((h.space _ he).uses (.inr hf))
      · exact hne hf
    rcases hu with hu | ⟨i,hi,htable⟩ | ⟨i,j,ha,hframe'⟩
    · exact hk _ he (.inl hu)
    · by_cases hlow : i < KERNEL_PD
      · exact hframe ⟨(i,none),⟨hlow,hi.2.1⟩,htable⟩
      · have hentry := hc.kernel i (not_lt.mp hlow) hi.1
        refine hk _ he (.inr (.inl ⟨i,
          ⟨hi.1,by rw [← hentry]; exact hi.2.1,by rw [← hentry]; exact hi.2.2⟩,?_⟩))
        rw [← htable,table,table,hentry]
    · exact hframe ⟨_,ha,hframe'⟩
  · have hsame := (hc.same h hnew he hcur).userSame
    rcases hu with hu | ⟨i,hi,htable⟩ | ⟨i,j,ha,hframe⟩
    · exact hk e he (.inl hu)
    · rw [hsame.table_eq] at htable
      exact hk e he (.inr (.inl ⟨i,(isTable_congr hsame.dir i).mp hi,htable⟩))
    · have ha' := (hsame.used_iff _).mp ha
      rw [hsame.slotFrame_eq ha'] at hframe
      exact hk e he (.inr (.inr ⟨i,j,ha',hframe⟩))

structure Entered (s s' : Vm) (i j w : ℕ) : Prop where
  state_eq : s' = s.setWord (s.table s.directory i) j w
  table_used : s.UsedSlot s.directory (i,none)
  index : j < 1024
  empty : present (s.phys (s.table s.directory i) j) = false
  present : present w = true

theorem Entered.dir_eq (h : Entered s s' i j w) (hs : s.SpaceOk s.directory) :
    s'.phys s.directory = s.phys s.directory := by
  rw [h.state_eq]
  exact phys_setWord_frame _ _ _ _
    (hs.dirOk.apart i (hs.user_table h.table_used.1 h.table_used.2)).symm

theorem Entered.table_eq (h : Entered s s' i j w) (hs : s.SpaceOk s.directory) (i' : ℕ) :
    s'.table s.directory i' = s.table s.directory i' := by rw [table,table,h.dir_eq hs]

theorem Entered.entry_eq (h : Entered s s' i j w) (hs : s.SpaceOk s.directory) {i' j' : ℕ}
    (hi' : s.UsedSlot s.directory (i',none)) (hne : ¬ (i' = i ∧ j' = j)) :
    s'.phys (s.table s.directory i') j' = s.phys (s.table s.directory i') j' := by
  rw [h.state_eq]
  by_cases hj : j' = j
  · have hframe : s.table s.directory i' ≠ s.table s.directory i := fun he =>
      hne ⟨hs.dirOk.distinct _ _
      (hs.user_table hi'.1 hi'.2) (hs.user_table h.table_used.1 h.table_used.2) he,hj⟩
    rw [phys_setWord_frame _ _ _ _ hframe]
  · exact phys_setWord_index _ _ _ _ hj

theorem Entered.new_entry (h : Entered s s' i j w) : s'.phys (s.table s.directory i) j = w := by
  rw [h.state_eq]
  exact phys_setWord_self _ _ _ _

theorem Entered.gains (h : Entered s s' i j w) (hs : s.SpaceOk s.directory) :
    Gains s s' (i,some j) (page w) := by
  have hdir := h.dir_eq hs
  rintro ⟨i',_ | j'⟩ ha
  · simp only [UsedSlot,hdir] at ha
    exact .inr ⟨ha,by rw [slotFrame,slotFrame,slotWord,slotWord,hdir]⟩
  · simp only [UsedSlot,hdir,h.table_eq hs] at ha
    obtain ⟨h1,h2,h3,h4⟩ := ha
    by_cases heq : i' = i ∧ j' = j
    · obtain ⟨rfl,rfl⟩ := heq
      exact .inl ⟨rfl,by rw [slotFrame,slotWord,h.table_eq hs,h.new_entry]⟩
    · rw [h.entry_eq hs ⟨h1,h3⟩ heq] at h4
      refine .inr ⟨⟨h1,h2,h3,h4⟩,?_⟩
      rw [slotFrame,slotFrame,slotWord,slotWord,h.table_eq hs,h.entry_eq hs ⟨h1,h3⟩ heq]

theorem Entered.ownChange (h : Entered s s' i j w) (hsp : s.Spaces live)
    (hk : s.Loose live (page w))
    (hused : ¬ s.pmm.IsFree (page w)) (hzero : page w ≠ 0) (hlow : page w < 0x80000) :
    OwnChange s s' (· = page w) := by
  have hs := hsp.space _ hsp.current
  have hown := hsp.own _ hsp.current
  have hi := hs.user_table h.table_used.1 h.table_used.2
  have hdir := h.dir_eq hs
  have hgains := h.gains hs
  have hstate := h.state_eq
  have hlook : ∀ n, WINDOW_START ≤ n → n < 1023*1024 →
      s'.lookup s.directory n = s.lookup s.directory n := fun n h1 h2 => by
    have hK : KERNEL_PD < PDE LOWMEM_START := by decide
    have hout := (window_page h1 h2).1
    have huser := h.table_used.1
    have hindex := h.index
    rw [hstate,hs.dirOk.lookup_setEntry hi hindex w h2,if_neg (by omega)]
  have hold : ¬ s.UserFrame s.directory (page w) := fun hf => hk _ hsp.current (hs.uses (.inr hf))
  refine ⟨by rw [hstate]; rfl,by rw [hstate]; exact ⟨rfl,rfl⟩,fun f _ hu _ => ?_,
    fun i' _ _ => by rw [hdir],fun f hf => hgains.user hf,fun l hl => by
      rwa [hstate] at hl,?_,?_,hgains.ownFrames hown hold hzero hlow,
    by rw [hstate]; exact hsp.sound⟩
  · have hf : f ≠ s.table s.directory i := fun he => hu ⟨(i,none),h.table_used,he.symm⟩
    rw [hstate]
    exact phys_setWord_frame _ _ _ _ hf
  · refine ⟨?_,by rw [hdir]; exact hs.user_small,
      fun i' h1 h2 => (isTable_congr hdir i').mpr (hs.kernel_tables i' h1 h2),?_,
      fun n h1 h2 => ?_,fun i' j' ha hc => ?_,fun i' j' ha => ?_⟩
    · rw [hstate]
      exact hs.dirOk.setEntry hi j w
    · rw [hlook _ (by decide) (by decide)]
      exact hs.guard
    · rw [hlook n h1 (window_lt h2.le)]
      exact hs.windows n h1 h2
    · have hpmm : s'.pmm = s.pmm := by rw [hstate]; rfl
      rw [hpmm] at hc
      rcases hgains _ ha with ⟨-,ht⟩ | ⟨ha',he⟩
      · rw [ht] at hc
        exact hused hc
      · rw [he] at hc
        exact hs.pages_used i' j' ha' hc
    · rcases hgains _ ha with ⟨-,ht⟩ | ⟨ha',he⟩
      · rw [ht]
        refine ⟨fun heq => hk _ hsp.current (.inl heq),fun i'' hi'' heq => ?_⟩
        rw [h.table_eq hs] at heq
        exact hk _ hsp.current (.inr (.inl ⟨i'',(isTable_congr hdir i'').mp hi'',heq.symm⟩))
      · rw [he]
        refine ⟨(hs.pages_apart i' j' ha').1,fun i'' hi'' => ?_⟩
        rw [h.table_eq hs]
        exact (hs.pages_apart i' j' ha').2 i'' ((isTable_congr hdir i'').mp hi'')
  · intro i' j' hi' hj' hp
    have hi'' : s.UsedSlot s.directory (i',none) := by
      simp only [UsedSlot,hdir] at hi'
      exact hi'
    rw [h.table_eq hs] at hp ⊢
    by_cases heq : i' = i ∧ j' = j
    · obtain ⟨rfl,rfl⟩ := heq
      rw [h.new_entry,h.present] at hp
      cases hp
    · rw [h.entry_eq hs hi'' heq] at hp ⊢
      exact hsp.noStale _ hsp.current i' j' hi'' hj' hp

def Kept (s s' : Vm) (live : ℕ → Prop) : Prop :=
  s'.Spaces live ∧ s'.directory = s.directory ∧ ∀ e, live e → e ≠ s.directory → SameSpace s s' e

theorem Kept.trans {s'' : Vm} (h : s.Kept s' live) (h' : s'.Kept s'' live) : s.Kept s'' live := by
  obtain ⟨-,hdir,hsame⟩ := h
  obtain ⟨hs,hdir',hsame'⟩ := h'
  refine ⟨hs,hdir'.trans hdir,fun e he hne => (hsame e he hne).trans (hsame' e he ?_)⟩
  rwa [hdir]

theorem OwnChange.kept {new : ℕ → Prop} (hc : OwnChange s s' new) (h : s.Spaces live)
    (hnew : ∀ k, new k → s.Loose live k) :
    s.Kept s' live :=
  ⟨hc.spaces h hnew,hc.directory_eq,fun _ he hne => hc.same h hnew he hne⟩

theorem Spaces.installTable (h : s.Spaces live) (hi : i < KERNEL_PD)
    (hempty : present (s.pde i) = false)
    (hk : s.Loose live k) (hused : ¬ s.pmm.IsFree k) (hret : s.installTable i flags = .ok s') :
    s.Kept s' live ∧ s'.Loose live k ∧ ¬ s'.pmm.IsFree k ∧ s'.UsedSlot s'.directory (i,none) := by
  have hs := h.space _ h.current
  obtain ⟨b,halloc⟩ := installTable_pmm hret
  obtain ⟨t₀,-,hg⟩ := h.sound.alloc_gives halloc
  have hfirst := h.sound.first_ok _ hg.was_free
  obtain ⟨t,ht⟩ :=
    installTable_spec hs.dirOk (lt_trans hi (by decide)) (by omega) hg.was_free hg.low hret
  have hfree : ∀ k, k = t → s.Loose live k := fun k hk e he hu =>
    (h.space e he).uses_used hu (hk ▸ ht.was_free)
  have hc := ht.ownChange h hi hempty (fun h0 => h.sound.zero_used (h0 ▸ ht.was_free)) hg.sound
  refine ⟨hc.kept h hfree,hc.loose h hfree hk fun he => hused (he ▸ ht.was_free),
    fun hf => hused (hc.free_sub k hf),hi,?_⟩
  rw [ht.directory_eq]
  exact ht.isTable.2.1

theorem Spaces.enterPage (h : s.Spaces live) (ht : s.UsedSlot s.directory (PDE v,none))
    (hk : s.Loose live k)
    (hused : ¬ s.pmm.IsFree k) (hzero : k ≠ 0) (hlow : k < 0x80000) (hlt : flags < 0x1000)
    (hodd : flags%2 = 1) (hret : enterPage v (0x1000*k) flags s = .ok s') : s.Kept s' live := by
  have hs := h.space _ h.current
  have hword : 0x1000*k%W32 = 0x1000*k := Nat.mod_eq_of_lt (by simp only [W32]; omega)
  have hpage : page (0x1000*k ||| flags) = k := page_or (by omega) hlt
  rw [enterPage_frame (by omega),hword] at hret
  split at hret
  · cases hret
  · rename_i hempty
    rw [pte,hs.dirOk.ptFrame_eq] at hempty
    have he : Entered s s' (PDE v) (PTE v) (0x1000*k ||| flags) := by
      refine ⟨?_,ht,PTE_lt v,Bool.eq_false_of_not_eq_true hempty,present_or_odd hodd⟩
      rw [← hs.dirOk.ptFrame_eq]
      exact (Except.ok.inj hret).symm
    have hc := he.ownChange h (by rwa [hpage]) (by rwa [hpage]) (by rwa [hpage]) (by rwa [hpage])
    exact hc.kept h fun l hl => by rwa [hl,hpage]

theorem Spaces.mapFresh (h : s.Spaces live) (hi : PDE v < KERNEL_PD) (hlt : mapFlags flags < 0x1000)
    (hodd : mapFlags flags%2 = 1) (hret : s.mapFresh v flags = .ok s') : s.Kept s' live := by
  obtain ⟨⟨b,q⟩,halloc,hret⟩ := Result.bind_eq_ok.mp hret
  obtain ⟨k,rfl,hg,h₀,hk₀⟩ := h.alloc halloc
  have hused : ¬ q.IsFree k := fun hf => ((hg.free_iff k).mp hf).2 rfl
  have hlow := h.low k hg.was_free
  have hword : 0x1000*k%W32 = 0x1000*k := Nat.mod_eq_of_lt (by simp only [W32]; omega)
  dsimp only at hret
  rw [hword,claimFrame_taken hg.low hg.was_free hg.free_iff hg.size_eq,map_eq] at hret
  obtain ⟨s₁,htable,hret⟩ := Result.bind_eq_ok.mp hret
  have hkept : s.Kept { s with pmm := q } live := ⟨h₀,rfl,fun _ _ _ _ _ => rfl⟩
  by_cases hp : present (Vm.pde { s with pmm := q } (PDE v)) = true
  · rw [if_pos hp] at htable
    obtain rfl := Except.ok.inj htable
    exact hkept.trans (h₀.enterPage ⟨hi,hp⟩ hk₀ hused hg.ne_zero hlow hlt hodd hret)
  · rw [if_neg hp] at htable
    obtain ⟨hkept₁,hk₁,hused₁,htable₁⟩ :=
      h₀.installTable hi (Bool.eq_false_of_not_eq_true hp) hk₀ hused htable
    exact hkept.trans (hkept₁.trans
      (hkept₁.1.enterPage htable₁ hk₁ hused₁ hg.ne_zero hlow hlt hodd hret))

theorem Spaces.kept (h : s.Spaces live) : s.Kept s live := ⟨h,rfl,fun _ _ _ _ _ => rfl⟩

theorem Spaces.mapScattered (hlt : mapFlags flags < 0x1000) (hodd : mapFlags flags%2 = 1) (n : ℕ) :
    ∀ {s : Vm} {m j : ℕ}, s.Spaces live → m+n ≤ KERNEL_PD*1024 →
    mapScattered 0 flags n j (m*0x1000) s = .ok s' → s.Kept s' live := by
  have hK : KERNEL_PD = 768 := rfl
  induction n with
  | zero =>
    intro s m j h _ hret
    obtain rfl := Except.ok.inj hret
    exact h.kept
  | succ n ih =>
    intro s m j h hm hret
    rw [mapScattered_succ] at hret
    obtain ⟨s₁,hpage,hret⟩ := Result.bind_eq_ok.mp hret
    have hslot : PDE (m*0x1000) < KERNEL_PD := by
      rw [PDE]
      omega
    have hkept := h.mapFresh hslot hlt hodd hpage
    by_cases hn : n = 0
    · subst hn
      obtain rfl := Except.ok.inj hret
      exact hkept
    · have hnext : (m*0x1000+0x1000)%W32 = (m+1)*0x1000 := by
        simp only [W32]
        omega
      rw [hnext] at hret
      exact hkept.trans (ih hkept.1 (by omega) hret)

theorem Spaces.store (h : s.Spaces live) (ha : s.UsedSlot s.directory (i,some j)) (k w : ℕ) :
    s.Kept (s.setWord (s.slotFrame s.directory (i,some j)) k w) live := by
  have hs := h.space _ h.current
  obtain ⟨hdir,htable⟩ := hs.pages_apart i j ha
  have huser : UserSame s (s.setWord (s.slotFrame s.directory (i,some j)) k w) s.directory :=
    ⟨phys_setWord_frame _ _ _ _ hdir.symm,fun i' h1 h2 =>
      phys_setWord_frame _ _ _ _ (htable i' (hs.user_table h1 h2)).symm⟩
  have hlook :
    ∀ n < 1023*1024, (s.setWord (s.slotFrame s.directory (i,some j)) k w).lookup s.directory n =
      s.lookup s.directory n := fun n hn =>
    lookup_congr hn huser.dir fun ht => phys_setWord_frame _ _ _ _ (htable _ ht).symm
  have hc : OwnChange s (s.setWord (s.slotFrame s.directory (i,some j)) k w) fun _ => False := by
    refine ⟨rfl,⟨rfl,rfl⟩,fun f _ hu _ => phys_setWord_frame _ _ _ _ fun he => hu ⟨_,ha,he.symm⟩,
      fun i' _ _ => by rw [huser.dir],fun f hf => .inl ((huser.userFrame_iff f).mp
        hf),fun _ hl => hl,
      hs.transfer huser (fun _ hl => hl) ?_ fun n h1 h2 => ?_,huser.noStale (h.noStale _ h.current),
      huser.ownFrames (h.own _ h.current),h.sound⟩
    · rw [hlook _ (by decide)]
      exact hs.guard
    · rw [hlook n (window_lt h2.le)]
      exact hs.windows n h1 h2
  exact hc.kept h fun _ hf => hf.elim

end Page

/-- The kernel, and the directories that it keeps for its processes. -/
structure Machine where
  vm : Vm
  live : ℕ → Prop

/-- A step of the kernel or of the running process; the steps with `own` change the current
directory. -/
inductive Machine.Step : Bool → Machine → Machine → Prop
  | grow {s s' live n} : s.heapEnd+n*0x1000 ≤ HEAP_END → s.growHeap n = .ok s' →
      Step false ⟨s,live⟩ ⟨s',live⟩
  | clone {s s' live d c} {heap : HeapReply} : live d → s.heapEnd+heap.growth*0x1000 ≤ HEAP_END →
      (∀ s₁, s.growHeap heap.growth = .ok s₁ → ∀ e, live e → s₁.HeapPage e heap.page) →
      s.kMemPagingClonePageDirectory d heap = .ok (c,s') →
      Step false ⟨s,live⟩ ⟨s',fun e => live e ∨ e = c⟩
  | switch {s live d} : live d → Step false ⟨s,live⟩ ⟨s.kMemPagingSetPageDirectory d,live⟩
  | release {s s' live c} : live c → c ≠ s.directory → s.kMemPagingReleaseDirectory c = .ok s' →
      Step false ⟨s,live⟩ ⟨s',fun e => live e ∧ e ≠ c⟩
  | map {s s' live m n flags} : m+n ≤ KERNEL_PD*1024 → mapFlags flags < 0x1000 →
      mapFlags flags%2 = 1 →
      s.kMemPagingMapRegion (m*0x1000) 0 n flags false = .ok s' → Step true ⟨s,live⟩ ⟨s',live⟩
  | unmap {s live info} {blocks : List MmapBlock} : (∀ block ∈ blocks, block.InUser) →
      Step true ⟨s,live⟩ ⟨(s.popBlocks info blocks).1,live⟩
  | store {s live i j k w} : s.UsedSlot s.directory (i,some j) →
      Step true ⟨s,live⟩ ⟨s.setWord (s.slotFrame s.directory (i,some j)) k w,live⟩

def Machine.Ok (m : Machine) : Prop := m.vm.Spaces m.live

/-- The steps in which directory `d` is not changed as the current one and not released. -/
def Machine.Outside (d : ℕ) (m m' : Machine) : Prop :=
  ∃ own, m.Step own m' ∧ m'.live d ∧ (own = true → m.vm.directory ≠ d)

section Runs

variable {m m' : Machine} {own : Bool} {d : ℕ}

theorem Machine.Step.ok (hstep : m.Step own m') (h : m.Ok) : m'.Ok ∧
    ∀ d, m.live d → (own = true → m.vm.directory ≠ d) → SameSpace m.vm m'.vm d := by
  cases hstep with
  | grow hend hgrow =>
    obtain ⟨hs,hsame,-⟩ := Spaces.grow h hend hgrow
    exact ⟨hs,fun d hd _ => hsame d hd⟩
  | clone hd hend hpage hret =>
    obtain ⟨hs,hsame,-⟩ := Spaces.clone h hd hend hpage hret
    exact ⟨hs,fun d hd _ => hsame d hd⟩
  | switch hd => exact ⟨Spaces.switch h hd,fun _ _ _ _ _ => rfl⟩
  | release hc hcur hret =>
    obtain ⟨hs,hphys⟩ := Spaces.release h hc hcur hret
    exact ⟨hs,fun d _ _ f _ => by rw [hphys]⟩
  | map hm hlt hodd hret =>
    obtain ⟨hs,-,hsame⟩ := Spaces.mapScattered hlt hodd _ h hm hret
    exact ⟨hs,fun d hd hne => hsame d hd (hne rfl).symm⟩
  | unmap huser =>
    obtain ⟨hs,hsame⟩ := Spaces.pop h huser _
    exact ⟨hs,fun d hd hne => hsame d hd (hne rfl).symm⟩
  | store ha =>
    obtain ⟨hs,-,hsame⟩ := Spaces.store h ha _ _
    exact ⟨hs,fun d hd hne => hsame d hd (hne rfl).symm⟩

theorem Machine.Outside.same (hstep : m.Outside d m') (h : m.Ok) (hd : m.live d) :
    m'.Ok ∧ m'.live d ∧ SameSpace m.vm m'.vm d := by
  obtain ⟨own,hstep,hlive,hne⟩ := hstep
  obtain ⟨hok,hsame⟩ := hstep.ok h
  exact ⟨hok,hlive,hsame d hd hne⟩

/-- The directories stay spaces of their own in every run, and one keeps its tables and its pages
until its own process changes them. -/
theorem runs_isolated (h : m.Ok) :
    (Relation.ReflTransGen (fun m m' => ∃ own, Machine.Step own m m') m m' → m'.Ok) ∧
      ∀ d, m.live d → Relation.ReflTransGen (Machine.Outside d) m m' → SameSpace m.vm m'.vm d := by
  refine ⟨fun hrun => ?_,fun d hd hrun => ?_⟩
  · induction hrun with
    | refl => exact h
    | tail _ hstep ih =>
      obtain ⟨own,hstep⟩ := hstep
      exact (hstep.ok ih).1
  · have hall : m'.Ok ∧ m'.live d ∧ SameSpace m.vm m'.vm d := by
      induction hrun with
      | refl => exact ⟨h,hd,.refl _ _⟩
      | tail _ hstep ih =>
        obtain ⟨hok,hlive,hsame⟩ := ih
        obtain ⟨hok',hlive',hsame'⟩ := hstep.same hok hlive
        exact ⟨hok',hlive',hsame.trans hsame'⟩
    exact hall.2.2

end Runs

theorem pageMachine_spaces : (pageMachine 0 lowWord).Spaces (· = 1) := by
  have hs := pageMachine_space lowWord (e:=0) (by decide) lowWord_frames
  have hr := (pageMachine_ready lowWord (e:=0) (by decide) lowWord_frames lowWord_firstFree).1
  have hframe : ∀ {a}, (pageMachine 0 lowWord).UsedSlot 1 a →
    (a = (0,none) ∧ (pageMachine 0 lowWord).slotFrame 1 a = 2) ∨
      (a = (0,some 0) ∧ (pageMachine 0 lowWord).slotFrame 1 a = 3) := fun {a} ha => by
    rcases pageMachine_used lowWord ha with rfl | rfl
    · exact .inl ⟨rfl,pageMachine_table lowWord (by decide)⟩
    · exact .inr ⟨rfl,pageMachine_slot lowWord ha⟩
  have hlow : ∀ k, lowWord.IsFree k → k < 0x80000 := fun k hk => by
    have := lowWord_free hk
    omega
  refine ⟨rfl,fun d hd => hd ▸ hs,?_,?_,?_,?_,⟨lowWord_firstFree,hr.zero_used,by decide⟩,hlow,
    hr.window_start,hr.heap⟩
  · rintro d e rfl rfl i _ _
    rfl
  · rintro d e rfl rfl hne
    exact absurd rfl hne
  · rintro d rfl i j hi hj hp
    obtain rfl := pageMachine_used_table lowWord hi.1 hi.2
    rw [pageMachine_table lowWord hi.1,pageMachine_phys lowWord (by decide)] at hp ⊢
    by_cases hj0 : j = 0
    · subst hj0
      cases hp
    · simp [onePageMachine,hj0]
  · rintro d rfl
    refine ⟨fun a a' ha ha' he => ?_,?_,?_⟩
    · rcases hframe ha with ⟨rfl,h⟩ | ⟨rfl,h⟩ <;> rcases hframe ha' with ⟨rfl,h'⟩ | ⟨rfl,h'⟩ <;>
        first | rfl | (rw [h,h'] at he; cases he)
    · rintro ⟨a,ha,h0⟩
      rcases hframe ha with ⟨-,h⟩ | ⟨-,h⟩ <;> rw [h] at h0 <;> cases h0
    · rintro f ⟨a,ha,rfl⟩
      rcases hframe ha with ⟨-,h⟩ | ⟨-,h⟩ <;> rw [h] <;> decide

theorem runs_isolated_copy : ∃ s',
    (pageMachine 0 lowWord).kMemPagingClonePageDirectory 1 ⟨0,4⟩ = .ok (4,s') ∧
    SameSpace s' (s'.setWord (s'.slotFrame s'.directory (0,some 0)) 5 7) 4 := by
  have hok : Machine.Ok ⟨pageMachine 0 lowWord,(· = 1)⟩ := pageMachine_spaces
  obtain ⟨hready,hpage,hgrow⟩ :=
    pageMachine_ready lowWord (e:=0) (by decide) lowWord_frames lowWord_firstFree
  obtain ⟨s',hret⟩ := (@cloneWorks_of_enough _ _ 1 ⟨0,4⟩ hready (by decide) hgrow hpage
    (lowWord_enough 0)).2 (pageMachine_windows lowWord (by decide))
  have hdir : s'.directory = 1 := (@clone_back _ _ _ ⟨0,4⟩ hgrow _ _ hret).2
  have hclone :
      Machine.Step false ⟨pageMachine 0 lowWord,(· = 1)⟩ ⟨s',fun e => e = 1 ∨ e = 4⟩ := by
    refine .clone rfl (by decide) (fun s₁ hs₁ e he => ?_) hret
    obtain rfl := Except.ok.inj (hgrow.symm.trans hs₁)
    rw [he]
    exact hpage
  obtain ⟨hok',hsame⟩ := hclone.ok hok
  have hused : s'.UsedSlot s'.directory (0,some 0) := by
    rw [show s'.directory = 1 from hdir,(hsame 1 rfl (fun h => by cases h)).userSame.used_iff]
    exact ⟨by decide,by decide,by decide,by decide⟩
  refine ⟨s',hret,(runs_isolated hok').2 4 (.inr rfl)
    (.single ⟨true,.store hused,.inr rfl,fun _ => ?_⟩)⟩
  rw [show s'.directory = 1 from hdir]
  decide

end Vm
end ScalesOS
