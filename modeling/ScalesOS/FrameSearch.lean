import ScalesOS.PmmInit

/-! The search for free frames over whole histories of the allocator. The index
`first_free_index` is moved by three operations and ignored by two others; what it
promises is that no free frame lies in a word below it, and with that the search
from the index on misses nothing. -/
namespace ScalesOS
namespace Pmm

open BitArray

/-- The words of the bitmap below `first_free_index` are all zero. -/
def Swept (p : Pmm) : Prop := ∀ i < p.bitmapSize, i < p.firstFreeIndex → p.bitmap i = 0#32

theorem swept_iff (p : Pmm) : p.Swept ↔ p.FirstFreeOk := by
  constructor
  · intro h k hk
    by_contra hlt
    exact isFree_word hk (h (k/32) hk.1 (not_le.mp hlt))
  · intro h i hi hlow
    rw [word_eq_zero_iff]
    rintro k rfl
    by_contra hb
    have := h k ⟨hi,by simpa using hb⟩
    omega

theorem Swept.clearFrame {p : Pmm} (h : p.Swept) (frame : ℕ) : (p.clearFrame frame).Swept := by
  intro i hi hlow
  have hz := h i hi hlow
  by_cases he : i = BITMAP_INDEX frame
  · subst he
    simp [Pmm.clearFrame,hz]
  · simpa [Pmm.clearFrame,Function.update_of_ne he] using hz

theorem Swept.markFrames {p : Pmm} (h : p.Swept) (frame n : ℕ) : (markFrames p frame n).Swept := by
  induction n with
  | zero => exact h
  | succ n ih => exact ih.clearFrame _

/-- Growing appends zero words, so it may happen above and below the index. -/
theorem Swept.growBitmap {p : Pmm} (h : p.Swept) (n : ℕ) : (growBitmap p n).Swept := by
  induction n generalizing p with
  | zero => exact h
  | succ n ih =>
    refine ih fun i hi hlow => ?_
    by_cases he : i = p.bitmapSize
    · simp [he]
    · have hlt : i < p.bitmapSize := by simp only at hi; omega
      simpa [Function.update_of_ne he] using h i hlt hlow

theorem Swept.freeLoop {p : Pmm} (h : p.Swept) (bound n f : ℕ) : (freeLoop bound n f p).Swept := by
  induction n generalizing f p with
  | zero => exact h
  | succ n ih =>
    simp only [Pmm.freeLoop]
    split
    · have hg := h.growBitmap (BITMAP_INDEX f%W32+1-p.bitmapSize)
      split
      · refine ih (fun i hi hlow => ?_) _
        simp only at hi hlow ⊢
        have hne : i ≠ BITMAP_INDEX f%W32 := by
          split at hlow <;> omega
        rw [Function.update_of_ne hne]
        refine hg i hi ?_
        split at hlow <;> omega
      · exact hg
    · exact h

theorem Swept.free {p : Pmm} (h : p.Swept) (frame size : ℕ) : (kMemPmmFree p frame size).Swept := by
  unfold kMemPmmFree
  split
  · exact h
  · exact h.freeLoop _ _ _

theorem Swept.allocFrames {p p' : Pmm} {n b : ℕ} (h : p.Swept)
    (hret : kMemPmmAllocFrames p n = .ok (b,p')) : p'.Swept := by
  obtain ⟨-,-,-,-,-,-,-,hmap,hsize,hfirst⟩ := allocFrames_ok hret
  have hadv := (swept_iff _).mpr (advanceFirstFree_ok ((swept_iff _).mp (h.markFrames b n)))
  intro i hi hlow
  rw [hmap]
  refine hadv i ?_ (hfirst ▸ hlow)
  simpa [hsize] using hi

/-- Where a history starts: before boot, or after the setup from the memory map. -/
inductive Start : Pmm → Prop
  | unbooted (memory : Words) : Start (unbooted memory)
  | init {img : KernelImage} {memory : Words} {fuel : ℕ} {mb : List MemoryMap} {p : Pmm}
      (h : kMemPmmInit img memory fuel mb = .ok p) : Start p

/-- One operation with any arguments; only the write of `k_mem_pmm_set_allocated`
has to stay inside the bitmap. -/
inductive Op : Pmm → Pmm → Prop
  | allocFrames {p p' : Pmm} {n b : ℕ} (h : kMemPmmAllocFrames p n = .ok (b,p')) : Op p p'
  | free {p : Pmm} (frame size : ℕ) : Op p (kMemPmmFree p frame size)
  | setAllocated {p : Pmm} {frame : ℕ} (h : BITMAP_INDEX frame < p.bitmapSize) :
      Op p (kMemPmmSetAllocated p frame)

theorem unbooted_swept (memory : Words) : (unbooted memory).Swept := by
  intro i hi
  exact absurd hi (Nat.not_lt_zero i)

theorem Swept.regionLoop {p p' : Pmm} {bm : ℕ} {mmap : MemoryMap} {fuel i : ℕ} (h : p.Swept)
    (hret : regionLoop bm mmap fuel i p = .ok p') : p'.Swept := by
  induction fuel generalizing i p with
  | zero => cases hret
  | succ fuel ih =>
    simp only [Pmm.regionLoop] at hret
    split at hret
    · refine ih ?_ hret
      split
      · exact h.free _ _
      · exact h
    · cases hret
      exact h

theorem Swept.mapLoop {p p' : Pmm} {bm fuel : ℕ} {mb : List MemoryMap} (h : p.Swept)
    (hret : mapLoop bm fuel mb p = .ok p') : p'.Swept := by
  induction mb generalizing p with
  | nil => cases hret; exact h
  | cons mmap rest ih =>
    rw [Pmm.mapLoop] at hret
    split at hret
    · obtain ⟨q,hq,hrest⟩ := Result.bind_eq_ok.mp hret
      exact ih (h.regionLoop hq) hrest
    · exact ih h hret

theorem Swept.markBitmap {p : Pmm} (h : p.Swept) (bm : ℕ) : (markBitmap bm p).Swept := by
  have hfold : ∀ (ts : List ℕ) (q : Pmm), q.Swept →
      (ts.foldl (fun q t => q.clearFrame ((bm+4*t)%W32)) q).Swept := by
    intro ts
    induction ts with
    | nil => exact fun q hq => hq
    | cons t ts ih => exact fun q hq => ih _ (hq.clearFrame _)
  exact hfold _ p h

theorem Start.swept {p : Pmm} (h : Start p) : p.Swept := by
  cases h with
  | unbooted memory => exact unbooted_swept memory
  | init h =>
    obtain ⟨q,hq,hret⟩ := Result.bind_eq_ok.mp h
    cases hret
    exact ((unbooted_swept _).mapLoop hq).markBitmap _

theorem Op.swept {p p' : Pmm} (h : p.Swept) (hop : Op p p') : p'.Swept := by
  cases hop with
  | allocFrames hret => exact h.allocFrames hret
  | free frame size => exact h.free frame size
  | setAllocated hin => exact h.clearFrame _

/-- The `n` frames from number `k` on are free. -/
def FreeRun (p : Pmm) (n k : ℕ) : Prop := ∀ i < n, p.IsFree (k+i)

theorem FreeRun.bounds {p : Pmm} {n k : ℕ} (hn : 1 ≤ n) (h : p.FreeRun n k) (hs : p.Swept) :
    32*p.firstFreeIndex ≤ k ∧ k+n ≤ 32*p.bitmapSize ∧ IsRun (bit p.bitmap) n k := by
  have hfirst := (swept_iff p).mp hs k (h 0 (by omega))
  have hlast := (h (n-1) (by omega)).1
  exact ⟨by omega,by omega,fun i hi => (h i hi).2⟩

theorem Swept.alloc_ok {p p' : Pmm} {n b : ℕ} (hs : p.Swept) (hsize : p.bitmapSize ≤ 0x8000)
    (hret : kMemPmmAllocFrames p n = .ok (b,p')) :
    ∃ k, b = 0x1000*k ∧ p.FreeRun n k ∧ ∀ l < k, ¬ p.FreeRun n l := by
  obtain ⟨k,hn,hb,hlo,hhi,hset,hmin,-⟩ := allocFrames_ok hret
  refine ⟨k,?_,fun i hi => ⟨by omega,hset i hi⟩,fun l hl hrun => ?_⟩
  · simp only [W32] at hb
    omega
  · obtain ⟨h1,-,h3⟩ := hrun.bounds hn hs
    exact hmin l h1 hl h3

theorem Swept.alloc_error {p : Pmm} {n : ℕ} {e : Fault} (hs : p.Swept) (hn : 1 ≤ n)
    (hret : kMemPmmAllocFrames p n = .error e) :
    e = .panic (p.outOfMemory n) ∧ ∀ k, ¬ p.FreeRun n k := by
  obtain ⟨he,hnone⟩ := allocFrames_error hn hret
  refine ⟨he,fun k hrun => ?_⟩
  obtain ⟨h1,h2,h3⟩ := hrun.bounds hn hs
  exact hnone k h1 h2 h3

/-- After every history of operations the words below `first_free_index` are zero.
While the bitmap covers at most 4 GiB, an allocation of `n` frames returns the base of
the lowest `n` consecutive free frames when there are such frames, and panics exactly
when there are none. -/
theorem frame_search_exact {p₀ p : Pmm} (hstart : Start p₀) (hrun : Relation.ReflTransGen Op p₀ p) :
    (∀ i < p.bitmapSize, i < p.firstFreeIndex → p.bitmap i = 0#32) ∧
    (p.bitmapSize ≤ 0x8000 → ∀ n, 1 ≤ n →
      (∀ k, p.FreeRun n k → (∀ l < k, ¬ p.FreeRun n l) →
        ∃ p', kMemPmmAllocFrames p n = .ok (0x1000*k,p')) ∧
      (kMemPmmAllocFrames p n = .error (.panic (p.outOfMemory n)) ↔ ¬ ∃ k, p.FreeRun n k)) := by
  have hs : p.Swept := reach_invariant (fun _ _ => Op.swept) hstart.swept hrun
  refine ⟨hs,fun hsize n hn => ?_⟩
  cases hret : kMemPmmAllocFrames p n with
  | ok r =>
    obtain ⟨b,p'⟩ := r
    obtain ⟨k,rfl,hfree,hmin⟩ := hs.alloc_ok hsize hret
    refine ⟨fun l hl hlow => ⟨p',?_⟩,fun h => (by cases h),fun h => absurd ⟨k,hfree⟩ h⟩
    · -- both are the lowest run
      obtain rfl : k = l := by
        rcases Nat.lt_trichotomy k l with h | h | h
        · exact absurd hfree (hlow k h)
        · exact h
        · exact absurd hl (hmin l h)
      rfl
  | error e =>
    obtain ⟨rfl,hnone⟩ := hs.alloc_error hn hret
    exact ⟨fun k hk => absurd hk (hnone k),fun _ ⟨k,hk⟩ => hnone k hk,fun _ => rfl⟩

/-- Two frames released into an empty bitmap, the word of the second beyond the end
that the index pointed at, and one of them taken again. -/
theorem frame_search_exact_two :
    ∃ p, Relation.ReflTransGen Op (unbooted fun _ => 0xFFFFFFFF#32) p ∧ p.bitmapSize = 3 ∧
      p.firstFreeIndex = 2 ∧ p.bitmap 0 = 0#32 ∧ p.bitmap 1 = 0#32 ∧
      ∃ p', kMemPmmAllocFrames p 1 = .ok (0x40000,p') := by
  have hret : (kMemPmmAllocFrames (kMemPmmFree (kMemPmmFree (unbooted fun _ => 0xFFFFFFFF#32)
      0x1000 1) 0x40000 1) 1).toOption.any (fun r : ℕ × Pmm => decide (r.2.bitmapSize = 3 ∧
        r.2.firstFreeIndex = 2 ∧ r.2.IsFree 64)) = true := by
    decide +kernel
  obtain ⟨⟨b,p₃⟩,hret,h⟩ := (Option.any_eq_true _ _).mp hret
  obtain ⟨hsize,hfirst,hfree⟩ : p₃.bitmapSize = 3 ∧ p₃.firstFreeIndex = 2 ∧ p₃.IsFree 64 :=
    of_decide_eq_true h
  have hrun : Relation.ReflTransGen Op (unbooted fun _ => 0xFFFFFFFF#32) p₃ :=
    ((Relation.ReflTransGen.single (Op.free 0x1000 1)).tail (Op.free 0x40000 1)).tail
      (Op.allocFrames (Result.eq_ok_of_toOption hret))
  have hexact := frame_search_exact (Start.unbooted _) hrun
  refine ⟨p₃,hrun,hsize,hfirst,hexact.1 0 (by omega) (by omega),hexact.1 1 (by omega) (by omega),?_⟩
  refine (hexact.2 (by omega) 1 le_rfl).1 64 (fun i hi => ?_) fun l hl hc => ?_
  · obtain rfl : i = 0 := by omega
    exact hfree
  · have hword := hc 0 (by omega)
    exact isFree_word hword (hexact.1 _ hword.1 (by omega))

end Pmm
end ScalesOS
