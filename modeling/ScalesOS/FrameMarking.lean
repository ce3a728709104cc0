import ScalesOS.FrameTaking

/-! The words of the frame bitmap that `k_mem_paging_map_region` touches while it marks the
frames it maps. `k_mem_pmm_is_allocated` compares the index with the size of the bitmap,
`k_mem_pmm_set_allocated` does not. -/
namespace ScalesOS
namespace Pmm

/-- The frame has a bit in the bitmap. -/
def InBitmap (p : Pmm) (frame : ℕ) : Prop := BITMAP_INDEX frame < p.bitmapSize

instance (p : Pmm) (frame : ℕ) : Decidable (p.InBitmap frame) := inferInstanceAs (Decidable (_ < _))

/-- The words read or written in
`if(!k_mem_pmm_is_allocated(frame)) k_mem_pmm_set_allocated(frame)`. -/
def claimWords (p : Pmm) (frame : ℕ) : List ℕ :=
  (if p.bitmapSize ≤ BITMAP_INDEX frame%W32 then [] else [BITMAP_INDEX frame%W32]) ++
    if kMemPmmIsAllocated p frame then [] else [BITMAP_INDEX frame]

structure KeepsOutside (p p' : Pmm) : Prop where
  size_eq : p'.bitmapSize = p.bitmapSize
  words : ∀ w, p.bitmapSize ≤ w → p'.bitmap w = p.bitmap w

variable {p p' q : Pmm} {frame : ℕ}

theorem KeepsOutside.refl (p : Pmm) : p.KeepsOutside p := ⟨rfl,fun _ _ => rfl⟩

theorem KeepsOutside.trans (h : p.KeepsOutside q) (h' : q.KeepsOutside p') : p.KeepsOutside p' :=
  ⟨h'.size_eq.trans h.size_eq,fun w hw => (h'.words w (h.size_eq ▸ hw)).trans (h.words w hw)⟩

theorem index_mod (h : frame < W32) : BITMAP_INDEX frame%W32 = BITMAP_INDEX frame := by
  refine Nat.mod_eq_of_lt ?_
  simp only [BITMAP_INDEX,W32] at h ⊢
  omega

/-- Marking a frame stays inside the bitmap exactly if the frame has a bit there. -/
theorem claimWords_inside_iff (h : frame < W32) : (∀ w ∈ p.claimWords frame, w < p.bitmapSize) ↔
    p.InBitmap frame := by
  rw [claimWords,index_mod h]
  constructor
  · intro hwords
    by_contra hout
    have hfree : kMemPmmIsAllocated p frame = false := by
      rw [kMemPmmIsAllocated,index_mod h]
      exact if_pos (not_lt.mp hout)
    exact hout (hwords _ (by simp [hfree]))
  · intro hin w hw
    rcases List.mem_append.mp hw with hw | hw
    · split at hw
      · cases hw
      · rwa [List.mem_singleton.mp hw]
    · split at hw
      · cases hw
      · rwa [List.mem_singleton.mp hw]

theorem clearFrame_keepsOutside (h : p.InBitmap frame) : p.KeepsOutside (p.clearFrame frame) := by
  refine ⟨rfl,fun w hw => Function.update_of_ne (fun he => ?_) _ _⟩
  exact absurd (he ▸ h) hw.not_gt

theorem allocFrames_inside {n b : ℕ} (h : kMemPmmAllocFrames p n = .ok (b,p')) :
    b < W32 ∧ (∀ i < n, p.InBitmap ((b+0x1000*i)%W32)) ∧ p.KeepsOutside p' := by
  obtain ⟨k,-,rfl,-,hend,-,-,hbitmap,hsize,-⟩ := allocFrames_ok h
  have hin : ∀ i < n, p.InBitmap ((0x1000*k%W32+0x1000*i)%W32) := by
    intro i hi
    simp only [InBitmap,BITMAP_INDEX,W32]
    omega
  have hmark : ∀ m ≤ n, p.KeepsOutside (p.markFrames (0x1000*k%W32) m) := by
    intro m
    induction m with
    | zero => exact fun _ => .refl p
    | succ m ih =>
      intro hm
      have hbefore := ih (by omega)
      refine hbefore.trans (clearFrame_keepsOutside ?_)
      rw [InBitmap,hbefore.size_eq,Nat.mul_comm m]
      exact hin m (by omega)
  exact ⟨Nat.mod_lt _ (by decide),hin,hsize,fun w hw => hbitmap ▸ (hmark n le_rfl).words w hw⟩

end Pmm

namespace Vm

open Entry Pmm

/-- The bitmap words that the loop of a contiguous `k_mem_paging_map_region` touches, up to
its end or to the page at which it panics. -/
def contiguousWords (flags : ℕ) : ℕ → ℕ → ℕ → Vm → List ℕ
  | 0, _, _, _ => []
  | n+1, vaddr, frame, s =>
    s.pmm.claimWords frame ++
      match kMemPagingMap (s.claimFrame frame) vaddr frame flags with
      | .ok s => contiguousWords flags n ((vaddr+0x1000)%W32) ((frame+0x1000)%W32) s
      | .error _ => []

def scatteredWords (paddr flags : ℕ) : ℕ → ℕ → ℕ → Vm → List ℕ
  | 0, _, _, _ => []
  | n+1, i, vaddr, s =>
    match (if paddr = 0 then kMemPmmAllocFrames s.pmm 1 else pure ((paddr+0x1000*i)%W32,s.pmm)) with
    | .ok r =>
      r.2.claimWords (r.1%W32) ++
        match kMemPagingMap (claimFrame { s with pmm := r.2 } (r.1%W32)) vaddr (r.1%W32) flags with
        | .ok s => scatteredWords paddr flags n (i+1) ((vaddr+0x1000)%W32) s
        | .error _ => []
    | .error _ => []

def regionWords (s : Vm) (vaddr paddr size flags : ℕ) (contigous : Bool) : List ℕ :=
  if contigous then
    match (if paddr = 0 then kMemPmmAllocFrames s.pmm size else pure (paddr,s.pmm)) with
    | .ok r => contiguousWords flags size vaddr (r.1%W32) { s with pmm := r.2 }
    | .error _ => []
  else scatteredWords paddr flags size 0 vaddr s

/-- The call touches no word behind the bitmap while it marks frames, and changes none. -/
structure MarksInside (s : Vm) (vaddr paddr size flags : ℕ) (contigous : Bool) : Prop where
  inside : ∀ w ∈ s.regionWords vaddr paddr size flags contigous, w < s.pmm.bitmapSize
  unchanged : ∀ s', s.kMemPagingMapRegion vaddr paddr size flags contigous = .ok s' →
    s.pmm.KeepsOutside s'.pmm

/-- The loop comes to page `i` of the range: the pages before it are mapped without a panic. -/
def ComesTo (s : Vm) (vaddr paddr flags : ℕ) (contigous : Bool) (i : ℕ) : Prop :=
  ∃ s', s.kMemPagingMapRegion vaddr paddr i flags contigous = .ok s'

variable {s s' : Vm} {vaddr paddr flags frame : ℕ}

theorem claimFrame_keepsOutside (h : s.pmm.InBitmap frame) :
    s.pmm.KeepsOutside (s.claimFrame frame).pmm := by
  rw [claimFrame]
  split
  · exact .refl _
  · exact clearFrame_keepsOutside h

theorem installTable_keepsOutside {i : ℕ} (h : s.installTable i flags = .ok s') :
    s.pmm.KeepsOutside s'.pmm := by
  obtain ⟨⟨b,p⟩,halloc,h⟩ := Result.bind_eq_ok.mp h
  dsimp only at h
  split at h
  · cases h
  · obtain rfl := Except.ok.inj h
    exact (allocFrames_inside halloc).2.2

theorem enterPage_keepsOutside (h : enterPage vaddr paddr flags s = .ok s') :
    s.pmm.KeepsOutside s'.pmm := by
  rw [enterPage] at h
  split at h
  · cases h
  obtain ⟨⟨b,p⟩,halloc,h⟩ := Result.bind_eq_ok.mp h
  obtain rfl := Except.ok.inj h
  split at halloc
  · exact (allocFrames_inside halloc).2.2
  · obtain ⟨rfl,rfl⟩ := Prod.mk.inj (Except.ok.inj halloc)
    exact .refl _

/-- The allocator is all that `k_mem_paging_map` uses of the bitmap. -/
theorem map_keepsOutside (h : s.kMemPagingMap vaddr paddr flags = .ok s') :
    s.pmm.KeepsOutside s'.pmm := by
  rw [map_eq] at h
  obtain ⟨s₁,htable,h⟩ := Result.bind_eq_ok.mp h
  refine KeepsOutside.trans ?_ (enterPage_keepsOutside h)
  split at htable
  · obtain rfl := Except.ok.inj htable
    exact .refl _
  · exact installTable_keepsOutside htable

theorem frame_succ (frame i : ℕ) :
    ((frame+0x1000)%W32+0x1000*i)%W32 = (frame+0x1000*(i+1))%W32 := by
  rw [Nat.mod_add_mod,show frame+0x1000+0x1000*i = frame+0x1000*(i+1) by omega]

theorem mapContiguous_keepsOutside (n : ℕ) : ∀ {vaddr frame : ℕ} {s : Vm}, frame < W32 →
    (∀ i < n, s.pmm.InBitmap ((frame+0x1000*i)%W32)) →
    mapContiguous flags n vaddr frame s = .ok s' → s.pmm.KeepsOutside s'.pmm := by
  induction n with
  | zero =>
    intro vaddr frame s _ _ h
    obtain rfl := Except.ok.inj h
    exact .refl _
  | succ n ih =>
    intro vaddr frame s hframe hin h
    obtain ⟨s₁,hmap,h⟩ := Result.bind_eq_ok.mp h
    have hfirst : s.pmm.InBitmap frame := by
      have h0 := hin 0 (by omega)
      rwa [Nat.mul_zero,Nat.add_zero,Nat.mod_eq_of_lt hframe] at h0
    have hstep := (claimFrame_keepsOutside hfirst).trans (map_keepsOutside hmap)
    refine hstep.trans (ih (Nat.mod_lt _ (by decide)) (fun i hi => ?_) h)
    rw [InBitmap,hstep.size_eq,frame_succ]
    exact hin (i+1) (by omega)

/-- The loop touches a word behind the bitmap exactly if it comes to a frame that has no bit. -/
theorem contiguous_inside_iff (n : ℕ) : ∀ {vaddr frame : ℕ} {s : Vm}, frame < W32 →
    ((∀ w ∈ contiguousWords flags n vaddr frame s, w < s.pmm.bitmapSize) ↔
      ∀ i < n, (∃ s', mapContiguous flags i vaddr frame s = .ok s') →
      s.pmm.InBitmap ((frame+0x1000*i)%W32)) := by
  induction n with
  | zero => simp [contiguousWords]
  | succ n ih =>
    intro vaddr frame s hframe
    have hfirst : (frame+0x1000*0)%W32 = frame := by
      rw [Nat.mul_zero,Nat.add_zero,Nat.mod_eq_of_lt hframe]
    have hreturn : ∃ s', mapContiguous flags 0 vaddr frame s = .ok s' := ⟨s,rfl⟩
    rw [contiguousWords,List.forall_mem_append,claimWords_inside_iff hframe,
      Nat.forall_lt_succ_left,hfirst,forall_prop_of_true hreturn]
    refine and_congr_right fun _ => ?_
    cases hmap : kMemPagingMap (s.claimFrame frame) vaddr frame flags with
    | error e =>
      refine iff_of_true (by simp) fun i _ hret => ?_
      obtain ⟨s',hret⟩ := hret
      rw [mapContiguous,hmap] at hret
      cases hret
    | ok s₁ =>
      have hsize : s₁.pmm.bitmapSize = s.pmm.bitmapSize :=
        ((claimFrame_takes s frame).trans (map_takes hmap)).size_eq
      have hrest := @ih ((vaddr+0x1000)%W32) ((frame+0x1000)%W32) s₁ (Nat.mod_lt _ (by decide))
      rw [hsize] at hrest
      refine hrest.trans (forall₂_congr fun i _ => ?_)
      rw [mapContiguous,hmap,frame_succ,InBitmap,InBitmap,hsize]
      rfl

theorem mapContiguous_initial {i n : ℕ} (h : i ≤ n) : ∀ {vaddr frame : ℕ} {s s' : Vm},
    mapContiguous flags n vaddr frame s = .ok s' →
    ∃ s', mapContiguous flags i vaddr frame s = .ok s' := by
  induction i generalizing n with
  | zero => exact fun {_ _ s _} _ => ⟨s,rfl⟩
  | succ i ih =>
    intro vaddr frame s s' hret
    obtain ⟨n,rfl⟩ : ∃ m, n = m+1 := ⟨n-1,by omega⟩
    obtain ⟨s₁,hmap,hret⟩ := Result.bind_eq_ok.mp hret
    obtain ⟨s₂,hearlier⟩ := ih (by omega) hret
    exact ⟨s₂,by rw [mapContiguous,hmap]; exact hearlier⟩

theorem mapScattered_eq (h : paddr ≠ 0) (n : ℕ) : ∀ (i vaddr : ℕ) (s : Vm),
    mapScattered paddr flags n i vaddr s =
    mapContiguous flags n vaddr ((paddr+0x1000*i)%W32) s := by
  induction n with
  | zero => exact fun _ _ _ => rfl
  | succ n ih =>
    intro i vaddr s
    rw [mapScattered,mapContiguous,if_neg h]
    simp only [pure,Except.pure,bind,Except.bind,Nat.mod_mod,ih,Nat.mod_add_mod]
    rw [show paddr+0x1000*i+0x1000 = paddr+0x1000*(i+1) by omega]

theorem scatteredWords_eq (h : paddr ≠ 0) (n : ℕ) : ∀ (i vaddr : ℕ) (s : Vm),
    scatteredWords paddr flags n i vaddr s =
    contiguousWords flags n vaddr ((paddr+0x1000*i)%W32) s := by
  induction n with
  | zero => exact fun _ _ _ => rfl
  | succ n ih =>
    intro i vaddr s
    rw [scatteredWords,contiguousWords,if_neg h]
    simp only [pure,Except.pure,Nat.mod_mod,ih,Nat.mod_add_mod]
    rw [show paddr+0x1000*i+0x1000 = paddr+0x1000*(i+1) by omega]

theorem scattered_inside (n : ℕ) : ∀ {i vaddr : ℕ} {s : Vm},
    (∀ w ∈ scatteredWords 0 flags n i vaddr s, w < s.pmm.bitmapSize) ∧
      ∀ s', mapScattered 0 flags n i vaddr s = .ok s' → s.pmm.KeepsOutside s'.pmm := by
  induction n with
  | zero =>
    refine fun {i vaddr s} => ⟨fun w hw => absurd hw List.not_mem_nil,fun s' h => ?_⟩
    obtain rfl := Except.ok.inj h
    exact .refl _
  | succ n ih =>
    intro i vaddr s
    rw [scatteredWords,mapScattered,if_pos rfl,if_pos rfl]
    cases halloc : kMemPmmAllocFrames s.pmm 1 with
    | error e => exact ⟨by simp,fun s' h => by cases h⟩
    | ok r =>
      obtain ⟨b,p⟩ := r
      obtain ⟨hb,hin,hkeeps⟩ := allocFrames_inside halloc
      have hbit : p.InBitmap (b%W32) := by
        have h0 := hin 0 (by omega)
        rwa [InBitmap,← hkeeps.size_eq] at h0
      simp only [bind,Except.bind]
      rw [List.forall_mem_append,← hkeeps.size_eq,claimWords_inside_iff (Nat.mod_lt _ (by decide)),
        and_iff_right hbit]
      cases hmap : kMemPagingMap (claimFrame { s with pmm := p } (b%W32)) vaddr (b%W32) flags with
      | error e => exact ⟨by simp,fun s' h => by cases h⟩
      | ok s₁ =>
        have hclaim : p.KeepsOutside s₁.pmm :=
          KeepsOutside.trans (@claimFrame_keepsOutside { s with pmm := p } _ hbit)
            (map_keepsOutside hmap)
        have hrest := @ih (i+1) ((vaddr+0x1000)%W32) s₁
        rw [hclaim.size_eq] at hrest
        exact ⟨hrest.1,fun s' h => hkeeps.trans (hclaim.trans (hrest.2 s' h))⟩

variable {size : ℕ} {contigous : Bool}

/-- With a physical address both kinds of call run the contiguous loop. -/
theorem mapRegion_eq (h : paddr ≠ 0) : s.kMemPagingMapRegion vaddr paddr size flags contigous =
    mapContiguous flags size vaddr (paddr%W32) s := by
  cases contigous with
  | true =>
    rw [kMemPagingMapRegion,if_pos rfl,if_neg h]
    rfl
  | false => rw [kMemPagingMapRegion,if_neg Bool.false_ne_true,mapScattered_eq h,
      Nat.mul_zero,Nat.add_zero]

theorem regionWords_eq (h : paddr ≠ 0) : s.regionWords vaddr paddr size flags contigous =
    contiguousWords flags size vaddr (paddr%W32) s := by
  cases contigous with
  | true =>
    rw [regionWords,if_pos rfl,if_neg h]
    rfl
  | false => rw [regionWords,if_neg Bool.false_ne_true,scatteredWords_eq h,
      Nat.mul_zero,Nat.add_zero]

theorem marksInside_fresh : s.MarksInside vaddr 0 size flags contigous := by
  cases contigous with
  | true =>
    cases halloc : kMemPmmAllocFrames s.pmm size with
    | error e =>
      refine ⟨fun w hw => ?_,fun s' h => ?_⟩
      · rw [regionWords,if_pos rfl,if_pos rfl,halloc] at hw
        cases hw
      · rw [kMemPagingMapRegion,if_pos rfl,if_pos rfl,halloc] at h
        cases h
    | ok r =>
      obtain ⟨b,p⟩ := r
      obtain ⟨hb,hin,hkeeps⟩ := allocFrames_inside halloc
      have hbits : ∀ i < size, p.InBitmap ((b%W32+0x1000*i)%W32) := by
        intro i hi
        have hi := hin i hi
        rwa [InBitmap,← hkeeps.size_eq,← Nat.mod_add_mod] at hi
      refine ⟨fun w hw => ?_,fun s' h => ?_⟩
      · rw [regionWords,if_pos rfl,if_pos rfl,halloc] at hw
        rw [← hkeeps.size_eq]
        exact (@contiguous_inside_iff flags size vaddr (b%W32) { s with pmm := p }
          (Nat.mod_lt _ (by decide))).mpr
          (fun i hi _ => hbits i hi) w hw
      · rw [kMemPagingMapRegion,if_pos rfl,if_pos rfl,halloc] at h
        exact hkeeps.trans (mapContiguous_keepsOutside size (Nat.mod_lt _ (by decide)) hbits h)
  | false =>
    have hinside := @scattered_inside flags size 0 vaddr s
    refine ⟨fun w hw => hinside.1 w ?_,fun s' h => hinside.2 s' ?_⟩
    · rwa [regionWords,if_neg Bool.false_ne_true] at hw
    · rwa [kMemPagingMapRegion,if_neg Bool.false_ne_true] at h

/-- The marking stays inside the bitmap exactly if all frames of the range that the loop comes
to have a bit there. -/
theorem marksInside_iff (s : Vm) (vaddr paddr size flags : ℕ) (contigous : Bool) :
    s.MarksInside vaddr paddr size flags contigous ↔ paddr = 0 ∨
      ∀ i < size, s.ComesTo vaddr paddr flags contigous i →
      s.pmm.InBitmap ((paddr+0x1000*i)%W32) := by
  by_cases h : paddr = 0
  · subst h
    exact iff_of_true marksInside_fresh (.inl rfl)
  · rw [or_iff_right h]
    have hlt : paddr%W32 < W32 := Nat.mod_lt _ (by decide)
    have hwords := @contiguous_inside_iff flags size vaddr (paddr%W32) s hlt
    simp only [Nat.mod_add_mod] at hwords
    simp only [ComesTo,mapRegion_eq h]
    rw [← hwords]
    constructor
    · intro hinside
      have hwords' : s.regionWords vaddr paddr size flags contigous = _ := regionWords_eq h
      rw [← hwords']
      exact hinside.inside
    · intro hin
      refine ⟨by rwa [regionWords_eq h],fun s' hret => ?_⟩
      rw [mapRegion_eq h] at hret
      refine mapContiguous_keepsOutside size hlt (fun i hi => ?_) hret
      rw [Nat.mod_add_mod]
      exact hwords.mp hin i hi (mapContiguous_initial hi.le hret)

/-- A machine of 128 MiB whose first 16 MiB are in use. The directory is frame 0x100, and the
empty kernel tables are the frames from 0x500 on. -/
def kernelMachine : Vm where
  pmm := ⟨fun w => if w < 0x80 then 0 else BitVec.allOnes 32,0x400,0x80,0,0,0x7000⟩
  phys f i :=
    if f = 0x100 then if i = 1023 then 0x100003 else if KERNEL_PD ≤ i then 0x1000*(0x200+i)+3 else 0
    else 0
  directory := 0x100
  firstFreeAddress := LOWMEM_START
  heapEnd := HEAP_START

/-- The page of the local APIC is marked in a word far behind the bitmap. -/
theorem apic_marked_outside : ¬∀ (s : Vm) (vaddr paddr size flags : ℕ) (contigous : Bool),
    s.MarksInside vaddr paddr size flags contigous := by
  intro h
  have hinside := (h kernelMachine LOWMEM_START 0xFEE00000 1 PAGE_PRESENT true).inside 0x7F70
    (List.mem_append_left _ (by decide))
  exact absurd hinside (by decide)

end Vm
end ScalesOS
