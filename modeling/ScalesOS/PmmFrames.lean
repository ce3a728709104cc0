import ScalesOS.Pmm

/-! What each operation of the frame allocator does to the set of free frames.
A frame is named here by its number; everything later uses these statements and
never unfolds the loops again. -/
namespace ScalesOS
namespace Pmm

open BitArray

/-- Frame number `k` is managed by the bitmap and marked free. -/
def IsFree (p : Pmm) (k : ℕ) : Prop := k/32 < p.bitmapSize ∧ bit p.bitmap k = true

instance (p : Pmm) (k : ℕ) : Decidable (p.IsFree k) := inferInstanceAs (Decidable (_ ∧ _))

/-- No free frame lies in a word below `first_free_index`. -/
def FirstFreeOk (p : Pmm) : Prop := ∀ k, p.IsFree k → p.firstFreeIndex ≤ k/32

theorem clearFrame_bitmap (p : Pmm) (f : ℕ) :
    (p.clearFrame f).bitmap = clearBit p.bitmap (f/0x1000) := rfl

@[simp] theorem clearFrame_bitmapSize (p : Pmm) (f : ℕ) :
    (p.clearFrame f).bitmapSize = p.bitmapSize := rfl
@[simp] theorem clearFrame_firstFreeIndex (p : Pmm) (f : ℕ) :
    (p.clearFrame f).firstFreeIndex = p.firstFreeIndex := rfl

theorem isFree_clearFrame (p : Pmm) (f k : ℕ) :
    (p.clearFrame f).IsFree k ↔ p.IsFree k ∧ k ≠ f/0x1000 := by
  simp only [IsFree,clearFrame_bitmapSize,clearFrame_bitmap,bit_clearBit,Bool.and_eq_true,
    Bool.not_eq_true',decide_eq_false_iff_not]
  tauto

/-- The scan state at bit position `pos`: the candidate frame starts the current run. -/
def Scan.At (s : Scan) (pos : ℕ) : Prop :=
  s.foundFrames ≤ pos ∧ (0 < s.foundFrames → s.frame = 0x1000*(pos-s.foundFrames)%W32)

theorem Scan.At.step {w : BitVec 32} {i j : ℕ} {s : Scan} (h : s.At (32*i+j)) :
    (scanBit w i j s).At (32*i+j+1) := by
  obtain ⟨hle,hframe⟩ := h
  unfold scanBit
  split
  · refine ⟨by simpa using hle,fun _ => ?_⟩
    by_cases hc : s.foundFrames = 0
    · simp only [hc,if_true,FRAME,W32]; omega
    · simp only [hc,if_false,hframe (by omega)]
      congr 2; omega
  · exact ⟨Nat.zero_le _,by simp⟩

theorem scanBit_foundFrames (bitmap : Words) (i j : ℕ) (hj : j < 32) (s : Scan) :
    (scanBit (bitmap i) i j s).foundFrames =
      if bit bitmap (32*i+j) then s.foundFrames+1 else 0 := by
  have hd : (32*i+j)/32 = i := by omega
  have hm : (32*i+j)%32 = j := by omega
  simp only [bit,hd,hm,scanBit]
  split <;> rfl

/-- The inner loop agrees with the flat search on the bits of one word. -/
theorem scanWord_findRun (bitmap : Words) {n : ℕ} (hn : 0 < n) (i fuel : ℕ) :
    ∀ (m j : ℕ) (s : Scan), j+m = 32 → s.At (32*i+j) →
      let r := scanWord (bitmap i) n i (List.range' j m) s
      (r.2 = true → ∃ k, findRun (bit bitmap) n (m+fuel) (32*i+j) s.foundFrames = some k ∧
        r.1.frame = 0x1000*k%W32) ∧
      (r.2 = false → r.1.At (32*i+32) ∧
        findRun (bit bitmap) n (m+fuel) (32*i+j) s.foundFrames =
          findRun (bit bitmap) n fuel (32*i+32) r.1.foundFrames) := by
  intro m
  induction m with
  | zero =>
    intro j s hj hs
    obtain rfl : j = 32 := by omega
    simpa [scanWord] using hs
  | succ m ih =>
    intro j s hj hs
    have hs' := hs.step (w:=bitmap i)
    have hc := scanBit_foundFrames bitmap i j (by omega) s
    have hrange : List.range' j (m+1) = j::List.range' (j+1) m := rfl
    have hrun : findRun (bit bitmap) n (m+1+fuel) (32*i+j) s.foundFrames =
        if n ≤ (scanBit (bitmap i) i j s).foundFrames
        then some (32*i+j+1-(scanBit (bitmap i) i j s).foundFrames)
        else findRun (bit bitmap) n (m+fuel) (32*i+j+1) (scanBit (bitmap i) i j s).foundFrames := by
      rw [show m+1+fuel = (m+fuel)+1 by omega,findRun,hc]
    simp only [hrange,scanWord,hrun]
    by_cases hc : n ≤ (scanBit (bitmap i) i j s).foundFrames
    · simp only [if_pos hc]
      exact ⟨fun _ => ⟨_,rfl,hs'.2 (by omega)⟩,by simp⟩
    · simp only [if_neg hc]
      exact ih (j+1) _ (by omega) hs'

/-- The two nested loops are the flat search over all bits of the scanned words. -/
theorem scanWords_findRun (bitmap : Words) {n : ℕ} (hn : 0 < n) :
    ∀ (m i : ℕ) (s : Scan), s.At (32*i) →
      match scanWords bitmap n (List.range' i m) s with
      | some s' => ∃ k, findRun (bit bitmap) n (32*m) (32*i) s.foundFrames = some k ∧
          s'.frame = 0x1000*k%W32
      | none => findRun (bit bitmap) n (32*m) (32*i) s.foundFrames = none := by
  intro m
  induction m with
  | zero => intro i s _; simp [scanWords,findRun]
  | succ m ih =>
    intro i s hs
    have hrange : List.range' i (m+1) = i::List.range' (i+1) m := rfl
    have hword := scanWord_findRun bitmap hn i (32*m) 32 0 s (by omega) (by simpa using hs)
    simp only [hrange,scanWords,List.range_eq_range']
    rw [show 32*(m+1) = 32+32*m by ring]
    generalize scanWord (bitmap i) n i (List.range' 0 32) s = r at hword ⊢
    obtain ⟨s',found⟩ := r
    cases found with
    | true => exact hword.1 rfl
    | false =>
      obtain ⟨hat,hrun⟩ := hword.2 rfl
      have h := ih (i+1) s' (by simpa [Nat.mul_add] using hat)
      simp only [Nat.add_zero] at hrun
      rw [hrun]
      simpa only [Nat.mul_add,Nat.mul_one] using h

theorem markFrames_bitmap (p : Pmm) (k n : ℕ) (h : k+n ≤ 0x100000) :
    (markFrames p (0x1000*k) n).bitmap = clearRun p.bitmap k n := by
  induction n with
  | zero => rfl
  | succ n ih =>
    have ht : (0x1000*k+n*0x1000)%W32/0x1000 = k+n := by simp only [W32]; omega
    rw [markFrames,clearFrame_bitmap,ht,ih (by omega),clearRun]

@[simp] theorem markFrames_bitmapSize (p : Pmm) (f n : ℕ) :
    (markFrames p f n).bitmapSize = p.bitmapSize := by
  induction n with
  | zero => rfl
  | succ n ih => simp [markFrames,ih]

@[simp] theorem markFrames_firstFreeIndex (p : Pmm) (f n : ℕ) :
    (markFrames p f n).firstFreeIndex = p.firstFreeIndex := by
  induction n with
  | zero => rfl
  | succ n ih => simp [markFrames,ih]

@[simp] theorem advanceFirstFree_bitmap (p : Pmm) : (advanceFirstFree p).bitmap = p.bitmap := rfl
@[simp] theorem advanceFirstFree_bitmapSize (p : Pmm) :
    (advanceFirstFree p).bitmapSize = p.bitmapSize := rfl

theorem skipFull_zero (bitmap : Words) (n i : ℕ) :
    ∀ l, i ≤ l → l < skipFull bitmap n i → bitmap l = 0#32 := by
  induction n generalizing i with
  | zero => intro l h1 h2; simp only [skipFull] at h2; omega
  | succ n ih =>
    intro l h1 h2
    simp only [skipFull] at h2
    split at h2
    · rename_i hz
      by_cases hl : l = i
      · exact hl ▸ hz
      · exact ih (i+1) l (by omega) h2
    · omega

theorem isFree_word {p : Pmm} {k : ℕ} (h : p.IsFree k) : p.bitmap (k/32) ≠ 0#32 := by
  intro hz
  have hb := (word_eq_zero_iff p.bitmap (k/32)).mp hz k rfl
  rw [h.2] at hb
  exact Bool.false_ne_true hb.symm

theorem advanceFirstFree_ok {p : Pmm} (h : p.FirstFreeOk) : (advanceFirstFree p).FirstFreeOk := by
  intro k hk
  have hk' : p.IsFree k := hk
  have hw := isFree_word hk'
  have hlow := h k hk'
  by_contra hlt
  simp only [advanceFirstFree,not_le] at hlt
  split at hlt
  · exact hw (skipFull_zero _ _ 0 _ (Nat.zero_le _) hlt)
  · rename_i hi
    -- the first pass already stopped at or before the word of a free frame
    have hge : skipFull p.bitmap (p.bitmapSize-p.firstFreeIndex) p.firstFreeIndex ≤ k/32 := by
      by_contra hc
      exact hw (skipFull_zero _ _ _ _ hlow (not_le.mp hc))
    exact hw (skipFull_zero _ _ _ _ hge hlt)

/-- A returned base: the lowest run of free bits at or above `first_free_index`,
with its address reduced to 32 bits. -/
theorem allocFrames_ok {p p' : Pmm} {n b : ℕ} (h : kMemPmmAllocFrames p n = .ok (b,p')) :
    ∃ k, 0 < n ∧ b = 0x1000*k%W32 ∧ 32*p.firstFreeIndex ≤ k ∧ k+n ≤ 32*p.bitmapSize ∧
      IsRun (bit p.bitmap) n k ∧
      (∀ l, 32*p.firstFreeIndex ≤ l → l < k → ¬ IsRun (bit p.bitmap) n l) ∧
      p'.bitmap = (markFrames p b n).bitmap ∧ p'.bitmapSize = p.bitmapSize ∧
      p'.firstFreeIndex = (advanceFirstFree (markFrames p b n)).firstFreeIndex := by
  unfold kMemPmmAllocFrames at h
  split at h
  · cases h
  rename_i hn
  split at h
  · cases h
  rename_i hsize
  have hpos : 0 < n := by omega
  have hscan := scanWords_findRun p.bitmap hpos (p.bitmapSize-p.firstFreeIndex) p.firstFreeIndex
    ⟨0,0⟩ ⟨Nat.zero_le _,by simp⟩
  split at h
  · rename_i s hs
    rw [hs] at hscan
    obtain ⟨k,hrun,hframe⟩ := hscan
    obtain ⟨hlo,hhi,hset,hmin⟩ := findRun_some (Scanned.start hpos _) hrun
    have he : s.frame = b ∧ _ := Prod.mk.inj (Except.ok.inj h)
    obtain ⟨rfl,rfl⟩ := he
    exact ⟨k,hpos,hframe,hlo,by omega,hset,hmin,rfl,by simp,rfl⟩
  · cases h

/-- The search is complete: it panics only when no run of free bits is left at or
above `first_free_index`. -/
theorem allocFrames_error {p : Pmm} {n : ℕ} {e : Fault} (hn : 0 < n)
    (h : kMemPmmAllocFrames p n = .error e) :
    e = .panic (p.outOfMemory n) ∧
    ∀ l, 32*p.firstFreeIndex ≤ l → l+n ≤ 32*p.bitmapSize → ¬ IsRun (bit p.bitmap) n l := by
  unfold kMemPmmAllocFrames at h
  rw [if_neg (by omega)] at h
  split at h
  · rename_i hsize
    exact ⟨(Except.error.inj h).symm,fun l h1 h2 => by omega⟩
  · rename_i hsize
    have hscan := scanWords_findRun p.bitmap hn (p.bitmapSize-p.firstFreeIndex) p.firstFreeIndex
      ⟨0,0⟩ ⟨Nat.zero_le _,by simp⟩
    split at h
    · cases h
    · rename_i hs
      rw [hs] at hscan
      refine ⟨(Except.error.inj h).symm,fun l h1 h2 => ?_⟩
      exact findRun_none (Scanned.start hn _) hscan l h1 (by omega)

theorem allocFrames_spec {p p' : Pmm} {n b : ℕ} (h : kMemPmmAllocFrames p n = .ok (b,p'))
    {k : ℕ} (hk : 32*p.firstFreeIndex ≤ k) (hrun : IsRun (bit p.bitmap) n k)
    (hlow : k+n ≤ 0x100000) :
    ∃ k, b = 0x1000*k ∧ k+n ≤ 0x100000 ∧ (∀ i < n, p.IsFree (k+i)) ∧
      (∀ l, p'.IsFree l ↔ p.IsFree l ∧ ¬ (k ≤ l ∧ l < k+n)) ∧
      p'.bitmapSize = p.bitmapSize ∧ (p.FirstFreeOk → p'.FirstFreeOk) := by
  obtain ⟨k',hn,hb,hlo,hhi,hset,hmin,hmap,hsize,hfirst⟩ := allocFrames_ok h
  have hle : k' ≤ k := by
    by_contra hc
    exact hmin k hk (not_le.mp hc) hrun
  have hb' : b = 0x1000*k' := by simp only [W32] at hb; omega
  have hmap' : p'.bitmap = clearRun p.bitmap k' n := by
    rw [hmap,hb',markFrames_bitmap p k' n (by omega)]
  have hfree : ∀ l, p'.IsFree l ↔ p.IsFree l ∧ ¬ (k' ≤ l ∧ l < k'+n) := by
    intro l
    simp only [IsFree,hsize,hmap',bit_clearRun,Bool.and_eq_true,Bool.not_eq_true',
      decide_eq_false_iff_not]
    tauto
  refine ⟨k',hb',by omega,fun i hi => ⟨by omega,hset i hi⟩,hfree,hsize,fun hok => ?_⟩
  have hmark : (markFrames p b n).FirstFreeOk := by
    intro l hl
    rw [markFrames_firstFreeIndex]
    refine hok l ((hfree l).mp ⟨?_,?_⟩).1
    · simpa [hsize] using hl.1
    · rw [hmap]; exact hl.2
  intro l hl
  rw [hfirst]
  refine advanceFirstFree_ok hmark l ⟨?_,?_⟩
  · simpa [hsize] using hl.1
  · simpa [hmap] using hl.2

theorem allocFrames_freed {p p' : Pmm} {n b : ℕ} (h : kMemPmmAllocFrames p n = .ok (b,p')) :
    p'.freed = p.freed := by
  have hmark : ∀ m, (markFrames p b m).freed = p.freed := by
    intro m
    induction m with
    | zero => rfl
    | succ m ih => exact ih
  unfold kMemPmmAllocFrames at h
  split at h
  · cases h
  split at h
  · cases h
  split at h
  · obtain ⟨rfl,rfl⟩ := Prod.mk.inj (Except.ok.inj h)
    exact hmark n
  · cases h

/-- A bitmap of at most 32768 words covers at most 4 GiB, so the search never meets
a frame whose address does not fit in 32 bits. -/
theorem allocFrames_spec_small {p p' : Pmm} {n b : ℕ} (hp : p.bitmapSize ≤ 0x8000)
    (h : kMemPmmAllocFrames p n = .ok (b,p')) :
    ∃ k, b = 0x1000*k ∧ k+n ≤ 0x100000 ∧ (∀ i < n, p.IsFree (k+i)) ∧
      (∀ l, p'.IsFree l ↔ p.IsFree l ∧ ¬ (k ≤ l ∧ l < k+n)) ∧
      p'.bitmapSize = p.bitmapSize ∧ (p.FirstFreeOk → p'.FirstFreeOk) := by
  obtain ⟨k,hn,hb,hlo,hhi,hset,_⟩ := allocFrames_ok h
  exact allocFrames_spec h hlo hset (by omega)

/-- A single frame: the search returns the lowest free frame from `first_free_index`
on, as long as that frame is below 4 GiB. -/
theorem allocFrame_spec {p : Pmm} {k₀ : ℕ} (hfirst : 32*p.firstFreeIndex ≤ k₀) (hfree : p.IsFree k₀)
    (hlow : k₀ < 0x100000) :
    ∃ k p', kMemPmmAllocFrames p 1 = .ok (0x1000*k,p') ∧ k < 0x100000 ∧ p.IsFree k ∧
      (∀ l, 32*p.firstFreeIndex ≤ l → p.IsFree l → k ≤ l) ∧
      (∀ l, p'.IsFree l ↔ p.IsFree l ∧ l ≠ k) ∧ p'.bitmapSize = p.bitmapSize ∧
      (p.FirstFreeOk → p'.FirstFreeOk) := by
  have hrun : ∀ l, p.IsFree l → IsRun (bit p.bitmap) 1 l := by
    intro l hl i hi
    obtain rfl : i = 0 := by omega
    exact hl.2
  cases hret : kMemPmmAllocFrames p 1 with
  | error e =>
    have := (allocFrames_error (by omega) hret).2 k₀ hfirst (by have := hfree.1; omega)
    exact absurd (hrun k₀ hfree) this
  | ok r =>
    obtain ⟨b,p'⟩ := r
    obtain ⟨k',-,hb,-,hhi,-,hmin,-⟩ := allocFrames_ok hret
    obtain ⟨k,rfl,hk,hwas,hafter,hsize,hok⟩ :=
      allocFrames_spec hret hfirst (hrun k₀ hfree) (by omega)
    have hkk : k' ≤ k₀ := by
      by_contra hc
      exact hmin k₀ hfirst (by omega) (hrun k₀ hfree)
    obtain rfl : k = k' := by simp only [W32] at hb; omega
    refine ⟨k,p',rfl,by omega,hwas 0 (by omega),fun l hl hlf => ?_,fun l => ?_,hsize,hok⟩
    · by_contra hc
      exact hmin l hl (by omega) (hrun l hlf)
    · rw [hafter l]
      constructor
      · rintro ⟨h1,h2⟩; exact ⟨h1,by omega⟩
      · rintro ⟨h1,h2⟩; exact ⟨h1,by omega⟩

theorem and_mask_eq_zero_iff (w : BitVec 32) (k : ℕ) :
    w &&& mask k = 0#32 ↔ w.getLsbD (k%32) = false := by
  have hk : k%32 < 32 := Nat.mod_lt _ (by omega)
  constructor
  · intro h
    have hb := congrArg (fun v => v.getLsbD (k%32)) h
    simpa [getLsbD_mask hk] using hb
  · intro h
    apply BitVec.eq_of_getLsbD_eq
    intro j hj
    rw [BitVec.getLsbD_and,getLsbD_mask hj]
    by_cases he : j = k%32
    · simp [he,h]
    · simp [he]

theorem isAllocated_iff (p : Pmm) {k : ℕ} (hk : k < 0x100000) :
    kMemPmmIsAllocated p (0x1000*k) = true ↔ k/32 < p.bitmapSize ∧ ¬ p.IsFree k := by
  have hi : BITMAP_INDEX (0x1000*k)%W32 = k/32 := by simp only [BITMAP_INDEX,W32]; omega
  have hm : BITMAP_BIT_MASK (0x1000*k) = mask k := by
    rw [BITMAP_BIT_MASK,BITMAP_BIT_NUMBER,mask]; congr 1; omega
  simp only [kMemPmmIsAllocated,hi,hm]
  split
  · rename_i h
    simp only [Bool.false_eq_true,false_iff,not_and]
    intro hc; omega
  · rename_i h
    rw [beq_iff_eq,and_mask_eq_zero_iff]
    simp only [IsFree,bit]
    constructor
    · intro hb
      exact ⟨by omega,by simp [hb]⟩
    · rintro ⟨hlt,hb⟩
      simpa [hlt] using hb

theorem growBitmap_bitmapSize (p : Pmm) (n : ℕ) : (growBitmap p n).bitmapSize = p.bitmapSize+n := by
  induction n generalizing p with
  | zero => rfl
  | succ n ih => rw [growBitmap,ih]; simp only; omega

@[simp] theorem growBitmap_firstFreeIndex (p : Pmm) (n : ℕ) :
    (growBitmap p n).firstFreeIndex = p.firstFreeIndex := by
  induction n generalizing p with
  | zero => rfl
  | succ n ih => rw [growBitmap,ih]

@[simp] theorem growBitmap_freed (p : Pmm) (n : ℕ) : (growBitmap p n).freed = p.freed := by
  induction n generalizing p with
  | zero => rfl
  | succ n ih => rw [growBitmap,ih]

/-- New words start with all frames allocated, so growing frees nothing. -/
theorem isFree_growBitmap (p : Pmm) (n k : ℕ) : (growBitmap p n).IsFree k ↔ p.IsFree k := by
  induction n generalizing p with
  | zero => rfl
  | succ n ih =>
    rw [growBitmap,ih]
    simp only [IsFree,bit]
    by_cases h : k/32 = p.bitmapSize
    · simp [h]
    · rw [Function.update_of_ne h]
      constructor
      · rintro ⟨hlt,hb⟩; exact ⟨by omega,hb⟩
      · rintro ⟨hlt,hb⟩; exact ⟨by omega,hb⟩

/-- The effect of a release on the allocator: the frames `[k, k+m)` were in use and
become free, and nothing else changes. -/
structure Released (p p' : Pmm) (k m : ℕ) : Prop where
  free_iff : ∀ l, p'.IsFree l ↔ p.IsFree l ∨ (k ≤ l ∧ l < k+m)
  was_used : ∀ l, k ≤ l → l < k+m → ¬ p.IsFree l
  size_ge : p.bitmapSize ≤ p'.bitmapSize
  size_le : p'.bitmapSize ≤ max p.bitmapSize 0x8000
  first_ok : p.FirstFreeOk → p'.FirstFreeOk
  freed_eq : p'.freed%W32 = (p.freed+m)%W32

theorem Released.refl (p : Pmm) (k : ℕ) : Released p p k 0 where
  free_iff := fun l => ⟨.inl,fun h => h.resolve_right (by omega)⟩
  was_used := by intro l h1 h2; omega
  size_ge := le_rfl
  size_le := by omega
  first_ok := id
  freed_eq := rfl

theorem Released.grown (p : Pmm) {k m : ℕ} (hk : k < 0x100000) :
    Released p (growBitmap p (k/32+1-p.bitmapSize)) m 0 where
  free_iff := fun l => (isFree_growBitmap p _ l).trans ⟨.inl,fun h => h.resolve_right (by omega)⟩
  was_used := by intro l h1 h2; omega
  size_ge := by rw [growBitmap_bitmapSize]; omega
  size_le := by rw [growBitmap_bitmapSize]; omega
  first_ok := by
    intro h l hl
    rw [growBitmap_firstFreeIndex]
    exact h l ((isFree_growBitmap _ _ _).mp hl)
  freed_eq := by simp

/-- Setting the bit of one allocated frame, as the loop body of `k_mem_pmm_free` does. -/
def freeBit (p : Pmm) (k : ℕ) : Pmm := { p with
  bitmap := setBit p.bitmap k
  freed := (p.freed+1)%W32
  firstFreeIndex := if k/32 < p.firstFreeIndex then k/32 else p.firstFreeIndex }

theorem isFree_freeBit {p : Pmm} {k : ℕ} (hk : k/32 < p.bitmapSize) (l : ℕ) :
    (freeBit p k).IsFree l ↔ p.IsFree l ∨ l = k := by
  simp only [IsFree,freeBit,bit_setBit,Bool.or_eq_true,decide_eq_true_eq]
  constructor
  · rintro ⟨h,rfl | hb⟩
    · exact .inr rfl
    · exact .inl ⟨h,hb⟩
  · rintro (⟨h,hb⟩ | rfl)
    · exact ⟨h,.inr hb⟩
    · exact ⟨hk,.inl rfl⟩

theorem Released.freeBit {p q : Pmm} {k m : ℕ} (h : Released p q k m) (hk : (k+m)/32 < q.bitmapSize)
    (hused : ¬ p.IsFree (k+m)) : Released p (freeBit q (k+m)) k (m+1) where
  free_iff := by
    intro l
    rw [isFree_freeBit hk,h.free_iff,or_assoc]
    apply or_congr Iff.rfl
    omega
  was_used := by
    intro l h1 h2
    by_cases he : l = k+m
    · exact he ▸ hused
    · exact h.was_used l h1 (by omega)
  size_ge := h.size_ge
  size_le := h.size_le
  first_ok := by
    intro hok l hl
    rw [isFree_freeBit hk] at hl
    simp only [Pmm.freeBit]
    rcases hl with hl | rfl
    · have := h.first_ok hok l hl
      split <;> omega
    · split <;> omega
  freed_eq := by
    have := h.freed_eq
    simp only [Pmm.freeBit,W32] at *
    omega

theorem Released.trans {p q r : Pmm} {k m n : ℕ} (h : Released p q k m)
    (h' : Released q r (k+m) n) : Released p r k (m+n) where
  free_iff := by
    intro l
    rw [h'.free_iff,h.free_iff,or_assoc]
    apply or_congr Iff.rfl
    omega
  was_used := by
    intro l h1 h2
    by_cases hl : l < k+m
    · exact h.was_used l h1 hl
    · intro hf
      exact h'.was_used l (by omega) (by omega) ((h.free_iff l).mpr (.inl hf))
  size_ge := h.size_ge.trans h'.size_ge
  size_le := by have := h.size_le; have := h'.size_le; omega
  first_ok := fun hok => h'.first_ok (h.first_ok hok)
  freed_eq := by
    have := h.freed_eq
    have := h'.freed_eq
    simp only [W32] at *
    omega

/-- The loop of `k_mem_pmm_free` releases the longest prefix of frames in use. -/
theorem freeLoop_spec (n k : ℕ) (p : Pmm) (hk : k+n ≤ 0x100000) :
    ∃ m ≤ n, Released p (freeLoop (0x1000*(k+n)) n (0x1000*k) p) k m ∧
      (m < n → p.IsFree (k+m)) := by
  induction n generalizing k p with
  | zero =>
    exact ⟨0,le_rfl,Released.refl p k,by omega⟩
  | succ n ih =>
    have hi : BITMAP_INDEX (0x1000*k)%W32 = k/32 := by simp only [BITMAP_INDEX,W32]; omega
    have hm : BITMAP_BIT_MASK (0x1000*k) = mask k := by
      rw [BITMAP_BIT_MASK,BITMAP_BIT_NUMBER,mask]; congr 1; omega
    have hgrow := Released.grown (m:=k) p (show k < 0x100000 by omega)
    have hsize := growBitmap_bitmapSize p (k/32+1-p.bitmapSize)
    simp only [freeLoop,if_pos (show 0x1000*k < 0x1000*(k+(n+1)) by omega),hi]
    generalize growBitmap p (k/32+1-p.bitmapSize) = q at *
    have hfree : q.IsFree k ↔ p.IsFree k := by
      rw [hgrow.free_iff]
      constructor
      · rintro (h | h)
        · exact h
        · omega
      · exact .inl
    by_cases hq : kMemPmmIsAllocated q (0x1000*k) = true
    · have hused := ((isAllocated_iff q (by omega)).mp hq).2
      have hone := hgrow.freeBit (by omega) (by rwa [Nat.add_zero,← hfree])
      obtain ⟨m,hmn,hrel,hlast⟩ := ih (k+1) (freeBit q k) (by omega)
      refine ⟨1+m,by omega,?_,fun h => ?_⟩
      · rw [if_pos hq,hm]
        have hadd : 0x1000*k+0x1000 = 0x1000*(k+1) := by ring
        have hbound : k+1+n = k+(n+1) := by ring
        rw [hadd,← hbound]
        exact hone.trans hrel
      · have hl := hlast (by omega)
        rw [isFree_freeBit (by omega),hgrow.free_iff] at hl
        rcases hl with (hl | hl) | hl
        · rwa [← Nat.add_assoc]
        · omega
        · omega
    · refine ⟨0,by omega,by simpa [hq] using hgrow,fun _ => ?_⟩
      rw [isAllocated_iff q (by omega)] at hq
      have : q.IsFree k := by
        by_contra hc
        exact hq ⟨by omega,hc⟩
      exact hfree.mp this

theorem free_spec (p : Pmm) (k n : ℕ) (hk : k+n ≤ 0x100000) :
    ∃ m ≤ n, Released p (kMemPmmFree p (0x1000*k) n) k m ∧ (m < n → p.IsFree (k+m)) := by
  have hb : (0x1000*k+0x1000*n)%W64 = 0x1000*(k+n) := by simp only [W64]; omega
  rw [kMemPmmFree,if_neg (by omega),hb]
  exact freeLoop_spec n k p hk

theorem freeLoop_bitmapSize (bound n k : ℕ) (p : Pmm) (hk : k+n ≤ 0x100000)
    (h : k+n ≤ 32*p.bitmapSize) :
    (freeLoop bound n (0x1000*k) p).bitmapSize = p.bitmapSize := by
  induction n generalizing k p with
  | zero => rfl
  | succ n ih =>
    have hi : BITMAP_INDEX (0x1000*k)%W32 = k/32 := by simp only [BITMAP_INDEX,W32]; omega
    have hg : growBitmap p (k/32+1-p.bitmapSize) = p := by
      rw [show k/32+1-p.bitmapSize = 0 by omega]; rfl
    simp only [freeLoop,hi,hg]
    split
    · split
      · rw [show 0x1000*k+0x1000 = 0x1000*(k+1) by ring]
        exact ih (k+1) _ (by omega) (by simp only; omega)
      · rfl
    · rfl

theorem free_bitmapSize (p : Pmm) {k n : ℕ} (hk : k+n ≤ 0x100000) (h : k+n ≤ 32*p.bitmapSize) :
    (kMemPmmFree p (0x1000*k) n).bitmapSize = p.bitmapSize := by
  rw [kMemPmmFree,if_neg (by omega)]
  exact freeLoop_bitmapSize _ n k p hk h

theorem isFree_free_one (p : Pmm) {k : ℕ} (hk : k < 0x100000) (l : ℕ) :
    (kMemPmmFree p (0x1000*k) 1).IsFree l ↔ p.IsFree l ∨ l = k := by
  obtain ⟨m,hm,hrel,hlast⟩ := free_spec p k 1 (by omega)
  rw [hrel.free_iff]
  by_cases h : m < 1
  · have := hlast h
    obtain rfl : m = 0 := by omega
    simp only [Nat.add_zero] at this ⊢
    constructor
    · rintro (h | h)
      · exact .inl h
      · omega
    · rintro (h | rfl)
      · exact .inl h
      · exact .inl this
  · obtain rfl : m = 1 := by omega
    apply or_congr Iff.rfl
    omega

theorem freed_free_one (p : Pmm) {k : ℕ} (hk : k < 0x100000) (hused : ¬ p.IsFree k) :
    (kMemPmmFree p (0x1000*k) 1).freed%W32 = (p.freed+1)%W32 := by
  obtain ⟨m,hm,hrel,hlast⟩ := free_spec p k 1 (by omega)
  obtain rfl : m = 1 := by
    by_contra hne
    have hlt : m < 1 := by omega
    have hfree := hlast hlt
    obtain rfl : m = 0 := by omega
    exact hused hfree
  exact hrel.freed_eq

/-- The release of a sign-extended frame address works on a word far behind the bitmap
and reaches no frame below 4 GiB. -/
theorem isFree_free_high (p : Pmm) {k : ℕ} (hk : k < 0x100000) {l : ℕ} (hl : l < 0x100000) :
    (kMemPmmFree p (W64-W32+0x1000*k) 1).IsFree l ↔ p.IsFree l := by
  have hal : (W64-W32+0x1000*k)%0x1000 = 0 := by simp only [W64,W32]; omega
  have hidx : BITMAP_INDEX (W64-W32+0x1000*k)%W32 = 0xFFFF8000+k/32 := by
    simp only [BITMAP_INDEX,W64,W32]
    omega
  rw [kMemPmmFree,if_neg (by simp [hal]),freeLoop]
  split
  · rw [hidx]
    simp only
    split
    · simp only [freeLoop]
      rw [← isFree_growBitmap p (0xFFFF8000+k/32+1-p.bitmapSize) l]
      simp only [IsFree,bit]
      rw [Function.update_of_ne (by omega)]
    · exact isFree_growBitmap p _ l
  · rfl

end Pmm
end ScalesOS
