import Mathlib.Data.List.GetD
import ScalesOS.FrameTaking
import ScalesOS.PmmRuns
import ScalesOS.SharedMemory

/-!
# Mapped frames over whole runs

Frames belong to the object, and the blocks that map them do not count as links of it. What
the blocks map stays allocated exactly as long as no close and no truncation gives back a
frame that a block still maps.
-/

namespace ScalesOS

namespace Pmm

/-- `f` is the address of a frame below 4 GiB that is in use. -/
def Used (p : Pmm) (f : ℕ) : Prop := ∃ k, f = 0x1000*k ∧ k < 0x100000 ∧ ¬ p.IsFree k

theorem Used.takes {p p' : Pmm} {f : ℕ} (h : p.Used f) (ht : p.Takes p') : p'.Used f := by
  obtain ⟨k,hf,hk,hused⟩ := h
  exact ⟨k,hf,hk,fun hfree => hused (ht.free k hfree)⟩

theorem Used.lt {p : Pmm} {f : ℕ} (h : p.Used f) : f < W32 := by
  obtain ⟨k,rfl,hk,-⟩ := h
  simp only [W32]
  omega

/-- The release of one 32-bit address frees nothing but the frame that starts there. -/
theorem isFree_free_address (p : Pmm) {f : ℕ} (hf : f < W32) (l : ℕ) :
    (kMemPmmFree p f 1).IsFree l ↔ p.IsFree l ∨ f = 0x1000*l := by
  by_cases hal : f%0x1000 = 0
  · obtain ⟨k,rfl⟩ : ∃ k, f = 0x1000*k := ⟨f/0x1000,by omega⟩
    rw [isFree_free_one p (by simp only [W32] at hf; omega)]
    exact or_congr Iff.rfl ⟨fun h => by rw [h],fun h => by omega⟩
  · rw [kMemPmmFree,if_pos hal]
    exact ⟨Or.inl,fun h => h.resolve_right fun he => hal (by omega)⟩

theorem free_address_small {p : Pmm} {f : ℕ} (hf : f < W32) (hp : p.bitmapSize ≤ 0x8000) :
    (kMemPmmFree p f 1).bitmapSize ≤ 0x8000 := by
  by_cases hal : f%0x1000 = 0
  · have hsize := (free_in_range p (show f+0x1000*1 ≤ W32 by simp only [W32] at hf ⊢; omega)).1
    omega
  · rw [kMemPmmFree,if_pos hal]
    exact hp

end Pmm

namespace SharedMemory

open Pmm

theorem pmmFrame_low {f : ℕ} (hf : f < 0x80000000) : pmmFrame f = f := if_pos hf

theorem isFree_freeFrames (frames : List ℕ) : ∀ (p : Pmm), (∀ f ∈ frames, f < 0x80000000) → ∀ l,
    (freeFrames p frames).IsFree l ↔ p.IsFree l ∨ 0x1000*l ∈ frames := by
  induction frames with
  | nil => simp [freeFrames]
  | cons f frames ih =>
    intro p hlow l
    have hf := hlow f List.mem_cons_self
    change (freeFrames (kMemPmmFree p (pmmFrame f) 1) frames).IsFree l ↔ _
    rw [ih _ (fun g hg => hlow g (List.mem_cons_of_mem _ hg)),pmmFrame_low hf,
      isFree_free_address p (by simp only [W32]; omega),List.mem_cons,or_assoc,@eq_comm _ f]

theorem isFree_freeFrames_high (frames : List ℕ) : ∀ (p : Pmm), (∀ f ∈ frames, f < W32) →
    ∀ l, l < 0x100000 → 0x80000000 ≤ 0x1000*l → ((freeFrames p frames).IsFree l ↔ p.IsFree l) := by
  induction frames with
  | nil => exact fun _ _ _ _ _ => Iff.rfl
  | cons f frames ih =>
    intro p hlt l hl hhigh
    have hf := hlt f List.mem_cons_self
    change (freeFrames (kMemPmmFree p (pmmFrame f) 1) frames).IsFree l ↔ _
    rw [ih _ (fun g hg => hlt g (List.mem_cons_of_mem _ hg)) l hl hhigh]
    by_cases hlow : f < 0x80000000
    · rw [pmmFrame_low hlow,isFree_free_address p hf]
      exact or_iff_left (by omega)
    rw [pmmFrame,if_neg hlow]
    by_cases hal : f%0x1000 = 0
    · obtain ⟨k,rfl⟩ : ∃ k, f = 0x1000*k := ⟨f/0x1000,by omega⟩
      exact isFree_free_high p (by simp only [W32] at hf; omega) hl
    · rw [kMemPmmFree,if_pos (by simp only [W64,W32]; omega)]

theorem freeFrames_small (frames : List ℕ) : ∀ {p : Pmm}, (∀ f ∈ frames, f < 0x80000000) →
    p.bitmapSize ≤ 0x8000 → (freeFrames p frames).bitmapSize ≤ 0x8000 := by
  induction frames with
  | nil => exact fun _ hp => hp
  | cons f frames ih =>
    intro p hlow hp
    have hf := hlow f List.mem_cons_self
    refine ih (fun g hg => hlow g (List.mem_cons_of_mem _ hg)) ?_
    change (kMemPmmFree p (pmmFrame f) 1).bitmapSize ≤ 0x8000
    rw [pmmFrame_low hf]
    exact free_address_small (by simp only [W32]; omega) hp

def shrinkFreed (beyond : ℕ → BitVec 32) : ℕ → List ℕ → List ℕ
  | 0, _ => []
  | i+1, frames =>
    let frame := frames.getD i (beyond i).toNat
    frame::shrinkFreed beyond i (frames.erase frame)

variable {beyond : ℕ → BitVec 32}

theorem shrinkFrames_pmm (n : ℕ) : ∀ (p : Pmm) (frames : List ℕ),
    (shrinkFrames beyond n p frames).1 = freeFrames p (shrinkFreed beyond n frames) := by
  induction n with
  | zero => exact fun _ _ => rfl
  | succ n ih => exact fun p frames => ih _ _

theorem shrink_inside (n : ℕ) : ∀ {p : Pmm} {frames : List ℕ}, frames.Nodup → n ≤ frames.length →
    shrinkFreed beyond n frames = (frames.take n).reverse ∧ (shrinkFrames beyond n p frames).2 =
    frames.drop n := by
  induction n with
  | zero => exact fun _ _ => ⟨rfl,rfl⟩
  | succ n ih =>
    intro p frames hnodup hn
    have hget : frames.getD n (beyond n).toNat = frames[n] := List.getD_eq_getElem _ _ hn
    have herase : frames.erase frames[n] = frames.take n++frames.drop (n+1) := by
      rw [hnodup.erase_getElem,List.eraseIdx_eq_take_drop_succ]
    have hlen : (frames.take n).length = n := by
      rw [List.length_take]
      omega
    obtain ⟨hfreed,hleft⟩ := @ih (kMemPmmFree p (pmmFrame frames[n]) 1) (frames.erase frames[n])
      (hnodup.erase _) (by rw [herase,List.length_append,hlen]; omega)
    rw [shrinkFreed,shrinkFrames,hget]
    rw [hfreed,hleft,herase,List.take_left' hlen,List.drop_left' hlen]
    refine ⟨?_,rfl⟩
    rw [List.take_succ_eq_append_getElem hn,List.reverse_append]
    rfl

/-- New frames were free, are in use afterwards and differ from each other. -/
theorem growFrames_spec {growth : ℕ → ℕ} (n : ℕ) : ∀ {vm : Vm} {frames : List ℕ} {r : Vm × List ℕ},
    vm.pmm.bitmapSize ≤ 0x8000 → growFrames growth n vm frames = .ok r →
    vm.Takes r.1 ∧ ∃ new, r.2 = frames++new ∧ new.Nodup ∧
      ∀ f ∈ new, r.1.pmm.Used f ∧ ¬ vm.pmm.Used f := by
  induction n with
  | zero =>
    intro vm frames r _ h
    obtain rfl := Except.ok.inj h
    exact ⟨.refl _,[],(List.append_nil _).symm,List.nodup_nil,fun f hf => by cases hf⟩
  | succ n ih =>
    intro vm frames r hsmall h
    obtain ⟨⟨b,p⟩,halloc,h⟩ := Result.bind_eq_ok.mp h
    obtain ⟨vm₁,hgrow,h⟩ := Result.bind_eq_ok.mp h
    obtain ⟨k,rfl,hk,hwas,hafter,-⟩ := allocFrames_spec_small hsmall halloc
    have htakes : vm.Takes vm₁ := Pmm.Takes.trans (allocFrames_takes halloc)
      (Vm.growHeap_takes (s := { vm with pmm := p }) hgrow)
    have hmod : 0x1000*k%W32 = 0x1000*k := Nat.mod_eq_of_lt (by simp only [W32]; omega)
    have hused : p.Used (0x1000*k) :=
      ⟨k,rfl,by omega,fun hc => ((hafter k).mp hc).2 ⟨le_rfl,by omega⟩⟩
    have hfree : ¬ vm.pmm.Used (0x1000*k) := by
      rintro ⟨k',he,-,hused⟩
      exact hused (by rw [show k' = k+0 by omega]; exact hwas 0 (by omega))
    have hused₁ : vm₁.pmm.Used (0x1000*k) :=
      hused.takes (Vm.growHeap_takes (s := { vm with pmm := p }) hgrow)
    dsimp only at h
    rw [hmod] at h
    obtain ⟨hrest,new,hr,hnodup,hnew⟩ := ih (by rw [htakes.size_eq]; exact hsmall) h
    refine ⟨htakes.trans hrest,0x1000*k::new,?_,
      List.nodup_cons.mpr ⟨fun hm => (hnew _ hm).2 hused₁,hnodup⟩,?_⟩
    · rw [hr,List.append_assoc]
      rfl
    · intro f hf
      rcases List.mem_cons.mp hf with rfl | hf
      · exact ⟨hused₁.takes hrest,hfree⟩
      · exact ⟨(hnew f hf).1,fun hc => (hnew f hf).2 (hc.takes htakes)⟩

/-- An object has the frame. -/
def Holds (s : SharedMemory) (f : ℕ) : Prop := ∃ d frames, s.framesAt d = some frames ∧ f ∈ frames

/-- A block of shared memory of some process maps the frame. -/
def Mapped (s : SharedMemory) (f : ℕ) : Prop := ∃ p, ∃ b ∈ s.blocks p, b.1.Shm ∧ f ∈ b.2

/-- No frame that is mapped is free. -/
def Sound (s : SharedMemory) : Prop := ∀ f, s.Mapped f → ¬ s.vm.pmm.IsFree (f/0x1000)

structure Ok (s : SharedMemory) : Prop where
  small : s.vm.pmm.bitmapSize ≤ 0x8000
  used : ∀ f, s.Holds f → s.vm.pmm.Used f
  mapped : ∀ f, s.Mapped f → s.vm.pmm.Used f
  nodup : ∀ d frames, s.framesAt d = some frames → frames.Nodup
  apart : ∀ d d' frames frames', d ≠ d' → s.framesAt d = some frames →
    s.framesAt d' = some frames' → frames.Disjoint frames'

theorem Ok.sound {s : SharedMemory} (h : s.Ok) : s.Sound := fun f hf => by
  obtain ⟨k,rfl,-,hused⟩ := h.mapped f hf
  rwa [show 0x1000*k/0x1000 = k by omega]

section Steps

variable {s t : SharedMemory} {d : ℕ} {freed : List ℕ}

@[simp] theorem framesAt_setNode_self (s : SharedMemory) (d : ℕ) (node : Option ShmNode) :
    (s.setNode d node).framesAt d = node.map ShmNode.frames := by
  simp only [framesAt,setNode,Function.update_self]

theorem framesAt_setNode_other (s : SharedMemory) {d d' : ℕ} (node : Option ShmNode) (h : d' ≠ d) :
    (s.setNode d node).framesAt d' = s.framesAt d' := by
  simp only [framesAt,setNode,Function.update_of_ne h]

/-- No frame is given back, and what is mapped now belongs to an object or was mapped before. -/
structure Keeping (s t : SharedMemory) : Prop where
  takes : s.vm.Takes t.vm
  frames : ∀ d frames, t.framesAt d = some frames → s.framesAt d = some frames ∨ frames = []
  mapped : ∀ f, t.Mapped f → s.Mapped f ∨ s.Holds f

theorem Keeping.of_eq (htakes : s.vm.Takes t.vm) (hframes : t.framesAt = s.framesAt)
    (hblocks : t.blocks = s.blocks) : Keeping s t where
  takes := htakes
  frames d frames h := Or.inl (hframes ▸ h)
  mapped f h := Or.inl (by rwa [Mapped,hblocks] at h)

structure Extending (s t : SharedMemory) (d : ℕ) : Prop where
  takes : s.vm.Takes t.vm
  blocks_eq : t.blocks = s.blocks
  other : ∀ d', d' ≠ d → t.framesAt d' = s.framesAt d'
  own : ∃ frames new, s.framesAt d = some frames ∧ t.framesAt d = some (frames++new) ∧ new.Nodup ∧
    ∀ f ∈ new, t.vm.pmm.Used f ∧ ¬ s.vm.pmm.Used f

/-- The frames in `freed` have been given back on behalf of an object. -/
structure Giving (s t : SharedMemory) (d : ℕ) (freed : List ℕ) : Prop where
  pmm_eq : t.vm.pmm = freeFrames s.vm.pmm freed
  blocks_eq : t.blocks = s.blocks
  other : ∀ d', d' ≠ d → t.framesAt d' = s.framesAt d'

theorem Ok.keeping (hs : s.Ok) (h : Keeping s t) : t.Ok where
  small := by
    rw [h.takes.size_eq]
    exact hs.small
  used := by
    rintro f ⟨d,frames,hd,hf⟩
    rcases h.frames d frames hd with hd | rfl
    · exact (hs.used f ⟨d,frames,hd,hf⟩).takes h.takes
    · cases hf
  mapped f hf := by
    rcases h.mapped f hf with hf | hf
    · exact (hs.mapped f hf).takes h.takes
    · exact (hs.used f hf).takes h.takes
  nodup d frames hd := by
    rcases h.frames d frames hd with hd | rfl
    · exact hs.nodup d frames hd
    · exact List.nodup_nil
  apart d d' frames frames' hne hd hd' := by
    rcases h.frames d frames hd with hd | rfl
    · rcases h.frames d' frames' hd' with hd' | rfl
      · exact hs.apart d d' frames frames' hne hd hd'
      · exact fun f _ hf => by cases hf
    · exact fun f hf => by cases hf

theorem Ok.extending (hs : s.Ok) (h : Extending s t d) : t.Ok := by
  obtain ⟨frames,new,hd,hd',hnodup,hnew⟩ := h.own
  -- the frames that an object had before are in use, the new ones were not
  have hold : ∀ f, s.Holds f → f ∉ new := fun f hf hm => (hnew f hm).2 (hs.used f hf)
  have hcases : ∀ e fs, t.framesAt e = some fs → (e ≠ d ∧ s.framesAt e = some fs) ∨
      (e = d ∧ fs = frames++new) := by
    intro e fs he
    by_cases hed : e = d
    · rw [hed,hd'] at he
      exact Or.inr ⟨hed,(Option.some.inj he).symm⟩
    · exact Or.inl ⟨hed,h.other e hed ▸ he⟩
  have hfar : ∀ e fs, e ≠ d → s.framesAt e = some fs → fs.Disjoint (frames++new) := by
    intro e fs hed he f hf hm
    rcases List.mem_append.mp hm with hm | hm
    · exact hs.apart e d fs frames hed he hd hf hm
    · exact hold f ⟨e,fs,he,hf⟩ hm
  refine ⟨by rw [h.takes.size_eq]; exact hs.small,?_,fun f hf => ?_,fun e fs he => ?_,
    fun e e' fs fs' hne he he' => ?_⟩
  · rintro f ⟨e,fs,he,hf⟩
    rcases hcases e fs he with ⟨-,he⟩ | ⟨-,rfl⟩
    · exact (hs.used f ⟨e,fs,he,hf⟩).takes h.takes
    · rcases List.mem_append.mp hf with hf | hf
      · exact (hs.used f ⟨d,frames,hd,hf⟩).takes h.takes
      · exact (hnew f hf).1
  · rw [Mapped,h.blocks_eq] at hf
    exact (hs.mapped f hf).takes h.takes
  · rcases hcases e fs he with ⟨-,he⟩ | ⟨-,rfl⟩
    · exact hs.nodup e fs he
    · exact List.nodup_append'.mpr ⟨hs.nodup d frames hd,hnodup,fun f hf hm =>
        hold f ⟨d,frames,hd,hf⟩ hm⟩
  · rcases hcases e fs he with ⟨hed,he⟩ | ⟨rfl,rfl⟩
    · rcases hcases e' fs' he' with ⟨-,he'⟩ | ⟨rfl,rfl⟩
      · exact hs.apart e e' fs fs' hne he he'
      · exact hfar e fs hed he
    · rcases hcases e' fs' he' with ⟨hed',he'⟩ | ⟨rfl,rfl⟩
      · exact (hfar e' fs' hed' he').symm
      · exact absurd rfl hne

/-- Frames of the object that lie below 2 GiB and that nobody maps can be given back. -/
theorem Ok.giving (hs : s.Ok) (h : Giving s t d freed) {frames : List ℕ}
    (hd : s.framesAt d = some frames)
    (hfreed : ∀ f ∈ freed, f ∈ frames) (hlow : ∀ f ∈ freed, f < 0x80000000)
    (hspared : ∀ f ∈ freed, ¬ s.Mapped f)
    (hleft : ∀ fs, t.framesAt d = some fs → fs.Sublist frames ∧ fs.Disjoint freed) : t.Ok := by
  have hstill : ∀ f, s.vm.pmm.Used f → f ∉ freed → t.vm.pmm.Used f := by
    rintro f ⟨k,rfl,hk,hused⟩ hm
    refine ⟨k,rfl,hk,fun hc => ?_⟩
    rw [h.pmm_eq,isFree_freeFrames _ _ hlow] at hc
    exact hc.elim hused hm
  have hcases : ∀ e fs, t.framesAt e = some fs → ∃ fs', s.framesAt e = some fs' ∧ fs.Sublist fs' ∧
      fs.Disjoint freed := by
    intro e fs he
    by_cases hed : e = d
    · subst hed
      exact ⟨frames,hd,hleft fs he⟩
    · rw [h.other e hed] at he
      exact ⟨fs,he,List.Sublist.refl fs,fun f hf hm =>
        hs.apart e d fs frames hed he hd hf (hfreed f hm)⟩
  refine ⟨by rw [h.pmm_eq]; exact freeFrames_small _ hlow hs.small,?_,fun f hf => ?_,
    fun e fs he => ?_,fun e e' fs fs' hne he he' => ?_⟩
  · rintro f ⟨e,fs,he,hf⟩
    obtain ⟨fs',he',hsub,hout⟩ := hcases e fs he
    exact hstill f (hs.used f ⟨e,fs',he',hsub.subset hf⟩) fun hm => hout hf hm
  · rw [Mapped,h.blocks_eq] at hf
    exact hstill f (hs.mapped f hf) fun hm => hspared f hm hf
  · obtain ⟨fs',he',hsub,-⟩ := hcases e fs he
    exact (hs.nodup e fs' he').sublist hsub
  · obtain ⟨gs,hg,hsub,-⟩ := hcases e fs he
    obtain ⟨gs',hg',hsub',-⟩ := hcases e' fs' he'
    exact fun f hf hf' => hs.apart e e' gs gs' hne hg hg' (hsub.subset hf) (hsub'.subset hf')

/-- After frames have been given back, the blocks are sound if none of them was mapped. -/
theorem Giving.sound_iff (h : Giving s t d freed) (hs : s.Ok) (hlow : ∀ f ∈ freed, f < 0x80000000) :
    t.Sound ↔ ∀ f ∈ freed, ¬ s.Mapped f := by
  have hmapped : ∀ f, t.Mapped f ↔ s.Mapped f := fun f => by rw [Mapped,h.blocks_eq,Mapped]
  constructor
  · intro hsound f hf hm
    obtain ⟨k,rfl,-⟩ := hs.mapped f hm
    refine hsound _ ((hmapped _).mpr hm) ?_
    rw [h.pmm_eq,isFree_freeFrames _ _ hlow,show 0x1000*k/0x1000 = k by omega]
    exact Or.inr hf
  · intro hspared f hf
    have hm := (hmapped f).mp hf
    obtain ⟨k,rfl,-,hused⟩ := hs.mapped f hm
    rw [h.pmm_eq,isFree_freeFrames _ _ hlow,show 0x1000*k/0x1000 = k by omega]
    exact fun hc => hc.elim hused fun hmem => hspared _ hmem hm

theorem setNode_links (s : SharedMemory) {d : ℕ} {node : ShmNode}
    (hd : s.nodes d = some node) (links : ℤ) :
    (s.setNode d (some { node with links := links })).framesAt = s.framesAt := by
  funext d'
  by_cases h : d' = d
  · rw [h,framesAt_setNode_self,framesAt,hd]
    rfl
  · exact framesAt_setNode_other s _ h

theorem addFile_framesAt (s : SharedMemory) (p : ℕ) (fd : ℤ) (device mode : ℕ) :
    (s.addFile p fd device mode).framesAt = s.framesAt := by
  change (s.kMemShmOpen device).framesAt = s.framesAt
  rw [kMemShmOpen]
  cases hd : s.nodes device with
  | none => rfl
  | some node => exact setNode_links s hd _

theorem addFile_same (s : SharedMemory) (p : ℕ) (fd : ℤ) (device mode : ℕ) :
    (s.addFile p fd device mode).vm = s.vm ∧ (s.addFile p fd device mode).blocks = s.blocks := by
  change (s.kMemShmOpen device).vm = s.vm ∧ (s.kMemShmOpen device).blocks = s.blocks
  rw [kMemShmOpen]
  cases s.nodes device <;> exact ⟨rfl,rfl⟩

theorem open_keeping {p mode growth : ℕ} {fd : ℤ} {path : String}
    (h : s.kFsVfsOpen p fd path mode growth = .ok t) : Keeping s t := by
  obtain ⟨vm,hgrow,h⟩ := Result.bind_eq_ok.mp h
  have htakes := Vm.growHeap_takes hgrow
  dsimp only at h
  split at h
  · rename_i device _
    obtain rfl := Except.ok.inj h
    obtain ⟨hvm,hblocks⟩ := addFile_same (s.setVm vm) p fd device mode
    exact .of_eq (hvm ▸ htakes) (addFile_framesAt _ _ _ _ _) hblocks
  · obtain rfl := Except.ok.inj h
    split
    · set u := (s.setVm vm).kMemShmCreate path
      obtain ⟨hvm,hblocks⟩ := addFile_same u p fd s.nextNode mode
      refine ⟨hvm ▸ htakes,fun d frames hd => ?_,fun f hf => Or.inl ?_⟩
      · change (u.addFile p fd s.nextNode mode).framesAt d = some frames at hd
        rw [addFile_framesAt] at hd
        by_cases hnew : d = s.nextNode
        · have hself : u.framesAt s.nextNode = some [] := framesAt_setNode_self (s.setVm vm) _ _
          rw [hnew,hself] at hd
          exact Or.inr (Option.some.inj hd).symm
        · have hother : u.framesAt d = s.framesAt d := framesAt_setNode_other (s.setVm vm) _ hnew
          exact Or.inl (hother ▸ hd)
      · change (u.addFile p fd s.nextNode mode).Mapped f at hf
        rw [Mapped,hblocks] at hf
        exact hf
    · exact .of_eq htakes rfl rfl

def closeFreed (s : SharedMemory) (p : ℕ) (fd : ℤ) : List ℕ :=
  ((s.findFile p fd).bind fun file => s.nodes file.device).elim [] fun node =>
    if node.links-1 ≤ 0 then node.frames else []

theorem close_cases (s : SharedMemory) (p : ℕ) (fd : ℤ) :
    (s.closeFreed p fd = [] ∧ Keeping s (s.kFsVfsClose p fd)) ∨
      ∃ d frames, s.framesAt d = some frames ∧ s.closeFreed p fd = frames ∧
        (s.kFsVfsClose p fd).framesAt d = none ∧ Giving s (s.kFsVfsClose p fd) d frames := by
  cases hfile : s.findFile p fd with
  | none =>
    refine Or.inl ⟨by rw [closeFreed,hfile]; rfl,?_⟩
    rw [kFsVfsClose,hfile]
    exact .of_eq (.refl _) rfl rfl
  | some file =>
    have hfreed : s.closeFreed p fd = (s.nodes file.device).elim [] fun node =>
        if node.links-1 ≤ 0 then node.frames else [] := by
      rw [closeFreed,hfile]
      rfl
    rw [hfreed,kFsVfsClose,hfile]
    dsimp only
    cases hd : s.nodes file.device with
    | none =>
      have hclose : s.kMemShmClose file.device = s := by rw [kMemShmClose,hd]
      rw [hclose]
      exact Or.inl ⟨rfl,.of_eq (.refl _) rfl rfl⟩
    | some node =>
      by_cases hlast : node.links-1 ≤ 0
      · have hclose :
            s.kMemShmClose file.device =
                s.kMemShmRemove file.device { node with links := node.links-1 } := by
          rw [kMemShmClose,hd]
          exact if_pos hlast
        rw [hclose,Option.elim_some,if_pos hlast]
        refine Or.inr ⟨file.device,node.frames,by rw [framesAt,hd]; rfl,rfl,?_,rfl,rfl,
          fun d' hne => ?_⟩
        · exact framesAt_setNode_self (s.setVm _) _ _
        · exact framesAt_setNode_other (s.setVm _) _ hne
      · have hclose :
            s.kMemShmClose file.device =
                s.setNode file.device (some { node with links := node.links-1 }) := by
          rw [kMemShmClose,hd]
          exact if_neg hlast
        rw [hclose,Option.elim_some,if_neg hlast]
        exact Or.inl ⟨rfl,.of_eq (.refl _) (setNode_links s hd _) rfl⟩

def truncateFreed (s : SharedMemory) (p : ℕ) (fd : ℤ) (sz : BitVec 32)
    (beyond : ℕ → BitVec 32) : List ℕ :=
  (s.findFile p fd).elim [] fun file =>
    if grows file.size sz then []
    else (s.framesAt file.device).elim [] (shrinkFreed beyond (shrinkCount file.size sz))

/-- A truncation that shrinks stays within the list. -/
def Within (s : SharedMemory) (p : ℕ) (fd : ℤ) (sz : BitVec 32) : Bool :=
  (s.findFile p fd).all fun file => grows file.size sz ||
    (s.framesAt file.device).all fun frames => shrinkCount file.size sz ≤ frames.length

theorem truncate_cases {p : ℕ} {fd : ℤ} {sz : BitVec 32} {growth : ℕ → ℕ} (hs : s.Ok)
    (h : s.kMemShmTruncate p fd sz growth beyond = .ok t) :
    (s.truncateFreed p fd sz beyond = [] ∧ (Keeping s t ∨ ∃ d, Extending s t d)) ∨
      ∃ d frames n, s.framesAt d = some frames ∧
      s.truncateFreed p fd sz beyond = shrinkFreed beyond n frames ∧
        t.framesAt d = some (shrinkFrames beyond n s.vm.pmm frames).2 ∧
        (s.Within p fd sz → n ≤ frames.length) ∧ Giving s t d (shrinkFreed beyond n frames) := by
  rw [kMemShmTruncate] at h
  rw [truncateFreed,Within]
  cases hfile : s.findFile p fd with
  | none =>
    rw [hfile] at h
    obtain rfl := Except.ok.inj h
    exact Or.inl ⟨rfl,Or.inl (.of_eq (.refl _) rfl rfl)⟩
  | some file =>
    rw [hfile] at h
    dsimp only at h
    rw [Option.elim_some]
    cases hd : s.nodes file.device with
    | none =>
      rw [hd] at h
      obtain rfl := Except.ok.inj h
      have hnone : s.framesAt file.device = none := by rw [framesAt,hd]; rfl
      rw [hnone]
      refine Or.inl ⟨?_,Or.inl (.of_eq (.refl _) rfl rfl)⟩
      split <;> rfl
    | some node =>
      rw [hd] at h
      have hframes : s.framesAt file.device = some node.frames := by rw [framesAt,hd]; rfl
      rw [hframes,Option.elim_some]
      by_cases hgrows : grows file.size sz
      · simp only [hgrows,if_true] at h ⊢
        obtain ⟨⟨vm,frames⟩,hgrow,h⟩ := Result.bind_eq_ok.mp h
        obtain rfl := Except.ok.inj h
        obtain ⟨htakes,new,hnew,hnodup,hused⟩ := growFrames_spec _ hs.small hgrow
        obtain rfl : frames = node.frames++new := hnew
        refine Or.inl ⟨trivial,
          Or.inr ⟨file.device,htakes,rfl,fun d' hne => ?_,node.frames,new,hframes,?_,hnodup,hused⟩⟩
        · exact framesAt_setNode_other ((s.resize p fd sz).setVm vm) _ hne
        · exact framesAt_setNode_self ((s.resize p fd sz).setVm vm) _ _
      · simp only [hgrows] at h ⊢
        obtain rfl := Except.ok.inj h
        refine Or.inr ⟨file.device,node.frames,shrinkCount file.size sz,hframes,rfl,?_,
          fun hin => ?_,?_,rfl,fun d' hne => ?_⟩
        · exact framesAt_setNode_self ((s.resize p fd sz).setVm _) _ _
        · simpa [hgrows,hframes] using hin
        · exact shrinkFrames_pmm _ _ _
        · exact framesAt_setNode_other ((s.resize p fd sz).setVm _) _ hne

theorem unmapRegion_pmm (vm : Vm) (vaddr n : ℕ) :
    (vm.kMemPagingUnmapRegion vaddr n).pmm = vm.pmm := by
  induction n with
  | zero => rfl
  | succ n ih =>
    rw [Vm.kMemPagingUnmapRegion,Vm.kMemPagingUnmap]
    split <;> exact ih

theorem mapped_update {p : ℕ} {blocks : List (MmapBlock × List ℕ)}
    (hblocks : t.blocks = Function.update s.blocks p blocks)
    {f : ℕ} (hf : t.Mapped f) : s.Mapped f ∨ ∃ b ∈ blocks, b.1.Shm ∧ f ∈ b.2 := by
  obtain ⟨p',b,hb,hshm,hm⟩ := hf
  rw [hblocks] at hb
  by_cases hp : p' = p
  · subst hp
    rw [Function.update_self] at hb
    exact Or.inr ⟨b,hb,hshm,hm⟩
  · rw [Function.update_of_ne hp] at hb
    exact Or.inl ⟨p',b,hb,hshm,hm⟩

theorem holds_of_framesOf {p : ℕ} {fd : ℤ} {f : ℕ} (h : f ∈ s.framesOf p fd) : s.Holds f := by
  rw [framesOf,openFile] at h
  cases hfile : s.findFile p fd with
  | none => simp [hfile] at h
  | some file =>
    cases hd : s.framesAt file.device with
    | none => simp [hfile,hd] at h
    | some frames =>
      simp only [hfile,hd,Option.map_some,Option.bind_some,Option.getD_some] at h
      exact ⟨file.device,frames,hd,h⟩

theorem mmap_keeping {p start length prot flags growth : ℕ} {arg : FileArg}
    (h : s.sysMmap p start length prot flags arg growth = .ok t) : Keeping s t := by
  obtain ⟨⟨n,vm,info⟩,hmap,h⟩ := Result.bind_eq_ok.mp h
  obtain rfl := Except.ok.inj h
  refine ⟨Vm.sysMmap_takes hmap,fun d frames hd => Or.inl hd,fun f hf => ?_⟩
  rcases mapped_update (s := s) rfl hf with hold | ⟨b,hb,hshm,hm⟩
  · exact Or.inl hold
  rcases List.mem_append.mp hb with hb | hb
  · exact Or.inl ⟨p,b,hb,hshm,hm⟩
  · obtain ⟨block,-,rfl⟩ := List.mem_map.mp hb
    have hshm : block.Shm := hshm
    simp only [mapped,if_pos hshm] at hm
    exact Or.inr (holds_of_framesOf (List.mem_of_mem_take hm))

theorem munmap_keeping {p start : ℕ} (hshm : (s.blockAt p start).all fun block => block.Shm) :
    Keeping s (s.sysMunmap p start) := by
  refine ⟨?_,fun d frames hd => Or.inl hd,fun f hf => Or.inl ?_⟩
  · have hpmm : (s.sysMunmap p start).vm.pmm = s.vm.pmm := by
      change (s.vm.sysMunmap (s.mmapInfo p) start).2.1.pmm = s.vm.pmm
      rw [blockAt] at hshm
      rw [Vm.sysMunmap]
      cases hblock : Vm.kMemMmapGetMapping (s.mmapInfo p) start with
      | none => rfl
      | some block =>
        rw [hblock] at hshm
        have hshm : block.flags &&& MMAP_FLAG_SHM ≠ 0 := of_decide_eq_true hshm
        change (s.vm.unmapBlock block).pmm = s.vm.pmm
        rw [Vm.unmapBlock,if_pos hshm]
        exact unmapRegion_pmm _ _ _
    rw [Vm.Takes,hpmm]
    exact .refl _
  · rcases mapped_update (s := s) rfl hf with hold | ⟨b,hb,hm⟩
    · exact hold
    · exact ⟨p,b,List.mem_of_mem_eraseP hb,hm⟩

def freedBy (s : SharedMemory) : Event → List ℕ
  | .close p fd => s.closeFreed p fd
  | .truncate p fd sz _ beyond => s.truncateFreed p fd sz beyond
  | _ => []

/-- The step gives back no frame that is mapped. -/
def FreesUnmapped (s : SharedMemory) (e : Event) : Prop := ∀ f ∈ s.freedBy e, ¬ s.Mapped f

def StaysInside (s : SharedMemory) : Event → Bool
  | .truncate p fd sz _ _ => s.Within p fd sz
  | _ => true

/-- The frames that the step gives back lie below 2 GiB. -/
def GivesLow (s : SharedMemory) (e : Event) : Prop := ∀ f ∈ s.freedBy e, f < 0x80000000

def Spares (s : SharedMemory) (e : Event) : Prop :=
  s.FreesUnmapped e ∧ s.StaysInside e ∧ s.GivesLow e

/-- The steps that give back only what nobody maps. -/
def SparingStep (s t : SharedMemory) : Prop := ∃ e, s.Enabled e ∧ s.Spares e ∧ s.step e = .ok t

theorem Ok.enter (hs : s.Ok) (p : ℕ) : (s.enter p).Ok :=
  ⟨hs.small,hs.used,hs.mapped,hs.nodup,hs.apart⟩

theorem Keeping.of_enter {p : ℕ} (h : Keeping (s.enter p) t) : Keeping s t :=
  ⟨h.takes,h.frames,h.mapped⟩

theorem Extending.of_enter {p : ℕ} (h : Extending (s.enter p) t d) : Extending s t d :=
  ⟨h.takes,h.blocks_eq,h.other,h.own⟩

theorem Giving.of_enter {p : ℕ} (h : Giving (s.enter p) t d freed) : Giving s t d freed :=
  ⟨h.pmm_eq,h.blocks_eq,h.other⟩

/-- What a step does to frames: none is given back, or all that are come from one object. -/
theorem step_cases {e : Event} (hs : s.Ok) (hen : s.Enabled e) (h : s.step e = .ok t) :
    (s.freedBy e = [] ∧ (Keeping s t ∨ ∃ d, Extending s t d)) ∨
      ∃ d frames, s.framesAt d = some frames ∧ Giving s t d (s.freedBy e) ∧
        (s.StaysInside e → (∀ f ∈ s.freedBy e, f ∈ frames) ∧
          ∀ fs, t.framesAt d = some fs → fs.Sublist frames ∧ fs.Disjoint (s.freedBy e)) := by
  cases e with
  | openFile p fd path mode growth => exact Or.inl ⟨rfl,Or.inl (open_keeping h).of_enter⟩
  | mmap p start length prot flags arg growth => exact Or.inl ⟨rfl,Or.inl (mmap_keeping h).of_enter⟩
  | munmap p start =>
    obtain rfl := Except.ok.inj h
    exact Or.inl ⟨rfl,Or.inl (munmap_keeping (s := s.enter p) hen).of_enter⟩
  | close p fd =>
    obtain rfl := Except.ok.inj h
    rcases close_cases (s.enter p) p fd with ⟨hfreed,hkeep⟩ | ⟨d,frames,hd,hfreed,hnone,hgive⟩
    · exact Or.inl ⟨hfreed,Or.inl hkeep.of_enter⟩
    · have hfreed : s.freedBy (.close p fd) = frames := hfreed
      rw [hfreed]
      refine Or.inr ⟨d,frames,hd,hgive.of_enter,fun _ => ⟨fun f hf => hf,fun fs hfs => ?_⟩⟩
      rw [hnone] at hfs
      cases hfs
  | truncate p fd sz growth beyond =>
    rcases truncate_cases (hs.enter p) h with
      ⟨hfreed,hcases⟩ | ⟨d,frames,n,hd,hfreed,hleft,hin,hgive⟩
    · exact Or.inl ⟨hfreed,hcases.imp Keeping.of_enter fun ⟨d,hext⟩ => ⟨d,hext.of_enter⟩⟩
    · have hfreed : s.freedBy (.truncate p fd sz growth beyond) = shrinkFreed beyond n frames :=
        hfreed
      rw [hfreed]
      refine Or.inr ⟨d,frames,hd,hgive.of_enter,fun hstay => ?_⟩
      have hnodup := hs.nodup d frames hd
      obtain ⟨htaken,hrest⟩ := shrink_inside n (p := (s.enter p).vm.pmm) hnodup (hin hstay)
      rw [htaken]
      refine ⟨fun f hf => List.mem_of_mem_take (List.mem_reverse.mp hf),fun fs hfs => ?_⟩
      rw [hleft,hrest] at hfs
      obtain rfl := Option.some.inj hfs
      refine ⟨List.drop_sublist _ _,fun f hf hm => ?_⟩
      have happend := List.take_append_drop n frames ▸ hnodup
      exact (List.nodup_append'.mp happend).2.2 (List.mem_reverse.mp hm) hf

theorem SparingStep.ok (hs : s.Ok) (h : SparingStep s t) : t.Ok := by
  obtain ⟨e,hen,⟨hspared,hstay,hlow⟩,h⟩ := h
  rcases step_cases hs hen h with ⟨-,hkeep | ⟨d,hext⟩⟩ | ⟨d,frames,hd,hgive,hin⟩
  · exact hs.keeping hkeep
  · exact hs.extending hext
  · exact hs.giving hgive hd (hin hstay).1 hlow hspared (hin hstay).2

/-- A step leads to a sound state exactly if it gives back no frame that is mapped. -/
theorem step_sound_iff {e : Event} (hs : s.Ok) (hen : s.Enabled e) (hlow : s.GivesLow e)
    (h : s.step e = .ok t) : t.Sound ↔ s.FreesUnmapped e := by
  rcases step_cases hs hen h with ⟨hfreed,hcases⟩ | ⟨d,frames,-,hgive,-⟩
  · have ht : t.Ok := by
      rcases hcases with hkeep | ⟨d,hext⟩
      · exact hs.keeping hkeep
      · exact hs.extending hext
    refine ⟨fun _ f hf => ?_,fun _ => ht.sound⟩
    rw [hfreed] at hf
    cases hf
  · exact hgive.sound_iff hs hlow

/-- A machine of at most 4 GiB on which shared memory has not been used. -/
structure Started (s : SharedMemory) : Prop where
  small : s.vm.pmm.bitmapSize ≤ 0x8000
  nodes : ∀ d, s.nodes d = none
  blocks : ∀ p, ∀ b ∈ s.blocks p, ¬ b.1.Shm

theorem Started.ok (h : s.Started) : s.Ok where
  small := h.small
  used := by
    rintro f ⟨d,frames,hd,-⟩
    rw [framesAt,h.nodes] at hd
    cases hd
  mapped := by
    rintro f ⟨p,b,hb,hshm,-⟩
    exact absurd hshm (h.blocks p b hb)
  nodup d frames hd := by
    rw [framesAt,h.nodes] at hd
    cases hd
  apart d d' frames frames' _ hd := by
    rw [framesAt,h.nodes] at hd
    cases hd

/-- In every run whose steps give back only frames below 2 GiB that no block maps, from inside the
list of their object: what a block of shared memory maps is never free and is not handed out again.
The next step on frames below 2 GiB keeps this exactly if it gives back no mapped one either. -/
theorem mapped_stay_allocated {s₀ s : SharedMemory} (h₀ : s₀.Started)
    (hrun : Relation.ReflTransGen SparingStep s₀ s) :
    s.Sound ∧
    (∀ n base p', kMemPmmAllocFrames s.vm.pmm n = .ok (base,p') → ∀ f, s.Mapped f →
      f ∉ frameRange base n) ∧
    ∀ e t, s.Enabled e → s.GivesLow e → s.step e = .ok t → (t.Sound ↔ s.FreesUnmapped e) := by
  have hok : s.Ok := reach_invariant (I := Ok) (fun _ _ hs h => h.ok hs) h₀.ok hrun
  refine ⟨hok.sound,fun n base p' halloc f hf hm => ?_,
    fun e t hen hlow h => step_sound_iff hok hen hlow h⟩
  obtain ⟨k,rfl,-,hwas,-⟩ := allocFrames_spec_small hok.small halloc
  obtain ⟨i,hi,rfl⟩ := mem_frameRange.mp hm
  refine hok.sound _ hf ?_
  rw [show (0x1000*k+i*0x1000)/0x1000 = k+i by omega]
  exact hwas i hi

end Steps

/-- Processes with one page of their own each, page 0, on a machine with two free frames. -/
def twoFrames : SharedMemory where
  vm := Vm.onePage Vm.lowFrames
  directories := fun _ => 1
  mmapStart := fun _ => 0x40000000
  blocks := fun _ => []
  nodes := fun _ => none
  root := []
  files := []
  nextNode := 0

theorem twoFrames_started : twoFrames.Started where
  small := by decide
  nodes _ := rfl
  blocks _ b hb := by cases hb

def createAndMap : List Event :=
  [.openFile 0 3 "a" 7 0,.truncate 0 3 0x1000 (fun _ => 0) (fun _ => 0),
  .mmap 0 0 0x1000 3 1 ⟨8,3,0⟩ 0]

theorem mapped_stay_allocated_created :
    ∃ s, Relation.ReflTransGen SparingStep twoFrames s ∧ s.Mapped 0x6000 ∧ s.Sound := by
  obtain ⟨s,hrun,hmapped⟩ :=
    exists_of_runAll (fun s : SharedMemory => (s.blocks 0).any fun b => b.1.Shm && b.2.elem 0x6000)
    (show (runAll (fun s e => s.Enabled e ∧ s.freedBy e = [] ∧
      s.StaysInside e) step createAndMap twoFrames).any _ =
      true by decide +kernel)
  have hsub : ∀ s t :
    SharedMemory, (∃ e, (s.Enabled e ∧ s.freedBy e = [] ∧ s.StaysInside e) ∧ s.step e = .ok t) →
      SparingStep s t := by
    rintro s t ⟨e,⟨hen,hfreed,hstay⟩,h⟩
    have hnone : ∀ f, f ∉ s.freedBy e := fun f hf => by
      rw [hfreed] at hf
      cases hf
    exact ⟨e,hen,⟨fun f hf => absurd hf (hnone f),hstay,fun f hf => absurd hf (hnone f)⟩,h⟩
  have hrun := Relation.ReflTransGen.mono hsub _ _ hrun
  obtain ⟨b,hb,hm⟩ := List.any_eq_true.mp hmapped
  obtain ⟨hshm,hf⟩ := (Bool.and_eq_true _ _).mp hm
  exact ⟨s,hrun,⟨0,b,hb,of_decide_eq_true hshm,List.elem_iff.mp hf⟩,
    (mapped_stay_allocated twoFrames_started hrun).1⟩

/-- The descriptor is closed after the mapping, which is what `shm_open`, `mmap` and `close` do
in this order: the frame is free, still mapped, and the next one to be handed out. -/
theorem freed_while_mapped : ∃ s₀ s : SharedMemory, s₀.Started ∧ Relation.ReflTransGen Step s₀ s ∧
    ∃ f p', s.Mapped f ∧ s.vm.pmm.IsFree (f/0x1000) ∧
    kMemPmmAllocFrames s.vm.pmm 1 = .ok (f,p') := by
  obtain ⟨s,hrun,hend⟩ :=
    exists_of_runAll (fun s : SharedMemory =>
      ((s.blocks 0).any fun b => b.1.Shm && b.2.elem 0x6000) &&
      decide (s.vm.pmm.IsFree 6) && (kMemPmmAllocFrames s.vm.pmm 1).toOption.any fun r =>
        r.1 == 0x6000)
    (show (runAll Enabled step (createAndMap++[.close 0 3]) twoFrames).any _ =
      true by decide +kernel)
  obtain ⟨hm,halloc⟩ := (Bool.and_eq_true _ _).mp hend
  obtain ⟨hm,hfree⟩ := (Bool.and_eq_true _ _).mp hm
  obtain ⟨b,hb,hm⟩ := List.any_eq_true.mp hm
  obtain ⟨hshm,hf⟩ := (Bool.and_eq_true _ _).mp hm
  obtain ⟨⟨f,p'⟩,hret,hfirst⟩ := (Option.any_eq_true _ _).mp halloc
  obtain rfl : f = 0x6000 := eq_of_beq hfirst
  exact ⟨twoFrames,s,twoFrames_started,hrun,0x6000,p',
    ⟨0,b,hb,of_decide_eq_true hshm,List.elem_iff.mp hf⟩,
    of_decide_eq_true hfree,Result.eq_ok_of_toOption hret⟩

end SharedMemory
end ScalesOS
