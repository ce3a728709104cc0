import ScalesOS.Mmap
import ScalesOS.PagingMap

/-!
# Calls that only take frames

Mapping pages and growing the kernel heap mark frames as in use and never free one, whatever
the page tables look like.
-/

namespace ScalesOS

namespace Pmm

structure Takes (p p' : Pmm) : Prop where
  free : ∀ l, p'.IsFree l → p.IsFree l
  size_eq : p'.bitmapSize = p.bitmapSize

theorem Takes.refl (p : Pmm) : p.Takes p := ⟨fun _ => id,rfl⟩

theorem Takes.trans {p q r : Pmm} (h : p.Takes q) (h' : q.Takes r) : p.Takes r :=
  ⟨fun l hl => h.free l (h'.free l hl),h'.size_eq.trans h.size_eq⟩

theorem clearFrame_takes (p : Pmm) (f : ℕ) : p.Takes (p.clearFrame f) :=
  ⟨fun l hl => ((isFree_clearFrame p f l).mp hl).1,rfl⟩

theorem markFrames_takes (p : Pmm) (f n : ℕ) : p.Takes (p.markFrames f n) := by
  induction n with
  | zero => exact .refl p
  | succ n ih => exact ih.trans (clearFrame_takes _ _)

theorem allocFrames_takes {p p' : Pmm} {n b : ℕ} (h : kMemPmmAllocFrames p n = .ok (b,p')) :
    p.Takes p' := by
  obtain ⟨k,-,-,-,-,-,-,hbitmap,hsize,-⟩ := allocFrames_ok h
  have hmark := markFrames_takes p b n
  refine ⟨fun l hl => hmark.free l ⟨?_,?_⟩,hsize⟩
  · rw [hmark.size_eq,← hsize]
    exact hl.1
  · rw [← hbitmap]
    exact hl.2

end Pmm

namespace Vm

open Entry Pmm

def Takes (s s' : Vm) : Prop := s.pmm.Takes s'.pmm

variable {s s' : Vm}

theorem Takes.trans {s'' : Vm} (h : Takes s s') (h' : Takes s' s'') : Takes s s'' :=
  Pmm.Takes.trans h h'

theorem claimFrame_takes (s : Vm) (frame : ℕ) : Takes s (s.claimFrame frame) := by
  rw [claimFrame]
  split
  · exact .refl _
  · exact clearFrame_takes _ _

theorem installTable_takes {i flags : ℕ} (h : s.installTable i flags = .ok s') : Takes s s' := by
  obtain ⟨⟨b,p⟩,halloc,h⟩ := Result.bind_eq_ok.mp h
  dsimp only at h
  split at h
  · cases h
  · obtain rfl := Except.ok.inj h
    exact allocFrames_takes halloc

/-- `k_mem_paging_map` once the table is there. -/
def enterPage (vaddr paddr flags : ℕ) (s : Vm) : Result Vm :=
  if present (s.pte (PDE vaddr) (PTE vaddr)) then .error (.panic ("Remapping 0x" ++ fmtX8 vaddr))
  else (if paddr = 0 then kMemPmmAllocFrames s.pmm 1 else pure (paddr,s.pmm)) >>= fun r =>
    let s := { s with pmm := r.2 }
    pure (s.setWord (s.ptFrame (PDE vaddr)) (PTE vaddr) (r.1%W32 ||| flags))

theorem map_eq (s : Vm) (vaddr paddr flags : ℕ) : s.kMemPagingMap vaddr paddr flags =
    (if present (s.pde (PDE vaddr)) then pure s
      else s.installTable (PDE vaddr) (mapFlags flags)) >>=
      enterPage vaddr paddr (mapFlags flags) := by
  have hrest : enterPage vaddr paddr (mapFlags flags) = fun s => (do
      if present (s.pte (PDE vaddr) (PTE vaddr)) then throw (.panic ("Remapping 0x" ++ fmtX8 vaddr))
      let r ← if paddr = 0 then kMemPmmAllocFrames s.pmm 1 else pure (paddr,s.pmm)
      let s := { s with pmm := r.2 }
      pure (s.setWord (s.ptFrame (PDE vaddr)) (PTE vaddr) (r.1%W32 ||| mapFlags flags))) := by
    funext s
    rw [enterPage]
    split
    · rfl
    · split <;> rfl
  rw [hrest,kMemPagingMap]
  split <;> rfl

theorem enterPage_takes {vaddr paddr flags : ℕ} (h : enterPage vaddr paddr flags s = .ok s') :
    Takes s s' := by
  rw [enterPage] at h
  split at h
  · cases h
  obtain ⟨r,halloc,h⟩ := Result.bind_eq_ok.mp h
  obtain rfl := Except.ok.inj h
  split at halloc
  · exact allocFrames_takes halloc
  · obtain rfl := Except.ok.inj halloc
    exact .refl _

theorem map_takes {vaddr paddr flags : ℕ} (h : s.kMemPagingMap vaddr paddr flags = .ok s') :
    Takes s s' := by
  rw [map_eq] at h
  obtain ⟨s₁,htable,h⟩ := Result.bind_eq_ok.mp h
  refine Takes.trans ?_ (enterPage_takes h)
  split at htable
  · obtain rfl := Except.ok.inj htable
    exact .refl _
  · exact installTable_takes htable

theorem mapScattered_takes {paddr flags : ℕ} (n : ℕ) : ∀ {i vaddr : ℕ} {s : Vm},
    mapScattered paddr flags n i vaddr s = .ok s' → Takes s s' := by
  induction n with
  | zero =>
    intro i vaddr s h
    obtain rfl := Except.ok.inj h
    exact .refl _
  | succ n ih =>
    intro i vaddr s h
    rw [mapScattered] at h
    obtain ⟨⟨b,p⟩,htakes,h⟩ : ∃ r : ℕ × Pmm, s.pmm.Takes r.2 ∧ (do
        let s ← kMemPagingMap (claimFrame { s with pmm := r.2 } (r.1%W32)) vaddr (r.1%W32) flags
        mapScattered paddr flags n (i+1) ((vaddr+0x1000)%W32) s) = Except.ok s' := by
      split at h
      · obtain ⟨r,halloc,h⟩ := Result.bind_eq_ok.mp h
        exact ⟨r,allocFrames_takes halloc,h⟩
      · obtain ⟨r,halloc,h⟩ := Result.bind_eq_ok.mp h
        obtain rfl := Except.ok.inj halloc
        exact ⟨_,.refl _,h⟩
    obtain ⟨s₁,hmap,h⟩ := Result.bind_eq_ok.mp h
    have hclaim : Takes s (claimFrame { s with pmm := p } (b%W32)) :=
      Pmm.Takes.trans htakes (claimFrame_takes { s with pmm := p } _)
    exact (hclaim.trans (map_takes hmap)).trans (ih h)

theorem growHeap_takes {pages : ℕ} (h : s.growHeap pages = .ok s') : Takes s s' := by
  obtain ⟨s₁,hmap,h⟩ := Result.bind_eq_ok.mp h
  obtain rfl := Except.ok.inj h
  have htakes : Takes s s₁ := mapScattered_takes pages hmap
  exact htakes

theorem mapAnonymous_takes {start pages prot flags : ℕ}
    (h : s.mapAnonymous start pages prot flags = .ok s') :
    Takes s s' := by
  rw [mapAnonymous] at h
  split at h
  · exact mapScattered_takes pages h
  · obtain rfl := Except.ok.inj h
    exact .refl _

theorem allocateBlock_takes {info : MmapInfo} {start size prot flags growth : ℕ}
    {r : Option MmapBlock × Vm × MmapInfo}
    (h : s.kMemMmapAllocateBlock info start size prot flags growth = .ok r) : Takes s r.2.1 := by
  obtain ⟨place,-,h⟩ := Result.bind_eq_ok.mp h
  cases place with
  | none =>
    obtain rfl := Except.ok.inj h
    exact .refl _
  | some place =>
    obtain ⟨s₁,hmap,h⟩ := Result.bind_eq_ok.mp h
    obtain ⟨s₂,hgrow,h⟩ := Result.bind_eq_ok.mp h
    obtain rfl := Except.ok.inj h
    exact (mapAnonymous_takes hmap).trans (growHeap_takes hgrow)

theorem mapShared_takes {start flags : ℕ} (frames : List ℕ) : ∀ {i : ℕ} {s : Vm},
    mapShared start flags i frames s = .ok s' → Takes s s' := by
  induction frames with
  | nil =>
    intro i s h
    obtain rfl := Except.ok.inj h
    exact .refl _
  | cons frame frames ih =>
    intro i s h
    obtain ⟨s₁,hmap,h⟩ := Result.bind_eq_ok.mp h
    exact (map_takes hmap).trans (ih h)

theorem sysMmap_takes {info : MmapInfo} {start length prot flags growth : ℕ} {arg : FileArg}
    {fd2fdt : ℤ → Option OpenFile} {r : ℕ × Vm × MmapInfo}
    (h : s.sysMmap info start length prot flags arg fd2fdt growth = .ok r) : Takes s r.2.1 := by
  have hnone : ∀ {n : ℕ} {i : MmapInfo}, (pure (n,s,i) : Result (ℕ × Vm × MmapInfo)) = .ok r →
      Takes s r.2.1 :=
    fun h => by
      obtain rfl := Except.ok.inj h
      exact .refl _
  rw [sysMmap] at h
  split at h
  · obtain ⟨⟨block,s₁,info₁⟩,halloc,h⟩ := Result.bind_eq_ok.mp h
    have htakes := allocateBlock_takes halloc
    cases block with
    | none =>
      obtain rfl := Except.ok.inj h
      exact htakes
    | some block =>
      obtain rfl := Except.ok.inj h
      exact htakes
  split at h
  · exact hnone h
  split at h
  · exact hnone h
  split at h
  · exact hnone h
  obtain ⟨⟨block,s₁,info₁⟩,halloc,h⟩ := Result.bind_eq_ok.mp h
  have htakes := allocateBlock_takes halloc
  cases block with
  | none =>
    obtain rfl := Except.ok.inj h
    exact htakes
  | some block =>
    dsimp only at h
    split at h
    · obtain rfl := Except.ok.inj h
      exact htakes
    · obtain ⟨s₂,hmap,h⟩ := Result.bind_eq_ok.mp h
      obtain rfl := Except.ok.inj h
      exact htakes.trans (mapShared_takes _ hmap)

end Vm
end ScalesOS
