import ScalesOS.PmmRuns

/-! Boot-time setup of the frame allocator from the multiboot memory map. The
region loop counts with a 32-bit offset over 64-bit lengths. -/
namespace ScalesOS
namespace Pmm

open BitArray

/-- `multiboot_memory_map_t`; `addr` and `len` are 64-bit numbers. -/
structure MemoryMap where
  addr : ℕ
  len : ℕ
  type : ℕ

def MULTIBOOT_MEMORY_AVAILABLE : ℕ := 1
def MULTIBOOT_MEMORY_ACPI_RECLAIMABLE : ℕ := 3

/-- The linked kernel: it starts at 3 GiB + 1 MiB and ends inside the 4 MiB page
that `boot.asm` maps for it. -/
structure KernelImage where
  kernelEnd : ℕ
  lower : 0xC0100000 ≤ kernelEnd
  upper : kernelEnd ≤ 0xC0400000

/-- `ALIGN` of `shared.h`; it moves an aligned value up by one page as well. -/
def ALIGN (value alignment : ℕ) : ℕ := (value+alignment)/alignment*alignment

/-- Address of the bitmap, and the physical address that belongs to it. -/
def KernelImage.bitmap (img : KernelImage) : ℕ := ALIGN img.kernelEnd 0x1000+0x100000
def KernelImage.bitmapPhys (img : KernelImage) : ℕ := (img.bitmap+W32-VIRTUAL_BASE)%W32

theorem KernelImage.bitmapPhys_bounds (img : KernelImage) :
    img.bitmapPhys%0x1000 = 0 ∧ 0x200000 ≤ img.bitmapPhys ∧ img.bitmapPhys ≤ 0x501000 := by
  have h1 := img.lower
  have h2 := img.upper
  simp only [bitmapPhys,bitmap,ALIGN,VIRTUAL_BASE,W32]
  omega

/-- The loop over one available region. The offset is a `uint32_t` and wraps. -/
def regionLoop (bitmapPhys : ℕ) (mmap : MemoryMap) : ℕ → ℕ → Pmm → Result Pmm
  | 0, _, _ => throw .loop
  | fuel+1, i, p =>
    if i < mmap.len then
      let frame := (mmap.addr+i)%W64
      let p := if bitmapPhys ≤ frame then kMemPmmMarkFrame p frame else p
      regionLoop bitmapPhys mmap fuel ((i+0x1000)%W32) p
    else pure p

def mapLoop (bitmapPhys fuel : ℕ) : List MemoryMap → Pmm → Result Pmm
  | [], p => pure p
  | mmap::rest, p => do
    let p ← if mmap.type = MULTIBOOT_MEMORY_AVAILABLE then regionLoop bitmapPhys mmap fuel 0 p
      else pure p
    mapLoop bitmapPhys fuel rest p

def unbooted (memory : Words) : Pmm := ⟨memory,0,0xFFFFFFFF,0,0,0⟩

def markBitmap (bitmapPhys : ℕ) (p : Pmm) : Pmm :=
  (List.range (p.bitmapSize+1)).foldl (fun q t => q.clearFrame ((bitmapPhys+4*t)%W32)) p

def kMemPmmInit (img : KernelImage) (memory : Words) (fuel : ℕ) (mb : List MemoryMap) :
    Result Pmm := do
  let p ← mapLoop img.bitmapPhys fuel mb (unbooted memory)
  let p := markBitmap img.bitmapPhys p
  pure { p with total := p.freed,freed := 0,allocated := 0 }

/-- The offset never reaches a length beyond its own largest page multiple. -/
theorem regionLoop_diverges {bm : ℕ} {mmap : MemoryMap} (hlen : 0xFFFFF000 < mmap.len)
    (fuel i : ℕ) (p : Pmm) (hi : i%0x1000 = 0) (hw : i < W32) :
    regionLoop bm mmap fuel i p = .error .loop := by
  induction fuel generalizing i p with
  | zero => rfl
  | succ fuel ih =>
    simp only [W32] at hw
    rw [regionLoop,if_pos (by omega)]
    exact ih _ _ (by simp only [W32]; omega) (Nat.mod_lt _ (by simp [W32]))

/-- Where the 32-bit counter, the 32-bit search and the whole-page steps agree with
the map: a region with an aligned base (others are skipped as a whole) either stays
below the bitmap or consists of whole pages below 4 GiB. -/
def MemoryMap.Fits (bitmapPhys : ℕ) (r : MemoryMap) : Prop :=
  r.len ≤ 0xFFFFF000 ∧ (r.addr%0x1000 = 0 →
    r.addr+r.len ≤ bitmapPhys ∨ (r.len%0x1000 = 0 ∧ r.addr+r.len ≤ W32))

instance (bm : ℕ) (r : MemoryMap) : Decidable (r.Fits bm) := inferInstanceAs (Decidable (_ ∧ _))

/-- Frame `k` lies completely inside an available region. -/
def Usable (mb : List MemoryMap) (k : ℕ) : Prop :=
  ∃ r ∈ mb, r.type = MULTIBOOT_MEMORY_AVAILABLE ∧ r.addr ≤ 0x1000*k ∧
    0x1000*k+0x1000 ≤ r.addr+r.len

structure Booting (mb : List MemoryMap) (p : Pmm) : Prop where
  usable : ∀ k, p.IsFree k → Usable mb k ∧ k < 0x100000
  small : p.bitmapSize ≤ 0x8000

theorem Booting.mark {mb : List MemoryMap} {p : Pmm} (h : Booting mb p) {k : ℕ}
    (hk : k < 0x100000) (hu : Usable mb k) : Booting mb (kMemPmmMarkFrame p (0x1000*k)) where
  usable := by
    intro l hl
    rcases (isFree_free_one p hk l).mp hl with hl | rfl
    · exact h.usable l hl
    · exact ⟨hu,hk⟩
  small := by
    obtain ⟨m,-,hrel,-⟩ := free_spec p k 1 (by omega)
    have := hrel.size_le
    have := h.small
    rw [kMemPmmMarkFrame]
    omega

theorem markFrame_unaligned (p : Pmm) {frame : ℕ} (h : frame%0x1000 ≠ 0) :
    kMemPmmMarkFrame p frame = p := by
  rw [kMemPmmMarkFrame,kMemPmmFree,if_pos h]

theorem Booting.step {mb : List MemoryMap} {bm : ℕ} {r : MemoryMap} {p : Pmm}
    (h : Booting mb p) (hr : r ∈ mb) (ht : r.type = MULTIBOOT_MEMORY_AVAILABLE) (hf : r.Fits bm)
    {i : ℕ} (hi : i < r.len) (hal : i%0x1000 = 0) :
    Booting mb (if bm ≤ (r.addr+i)%W64 then kMemPmmMarkFrame p ((r.addr+i)%W64) else p) := by
  split
  · rename_i hbm
    obtain ⟨hlen,hpages⟩ := hf
    by_cases ha : r.addr%0x1000 = 0
    · have hp := hpages ha
      simp only [W32,W64] at hp hbm ⊢
      have hend : r.len%0x1000 = 0 ∧ r.addr+r.len ≤ 0x100000000 := by omega
      obtain ⟨k,hk⟩ : ∃ k, (r.addr+i)%0x10000000000000000 = 0x1000*k :=
        ⟨(r.addr+i)/0x1000,by omega⟩
      rw [hk]
      exact h.mark (by omega) ⟨r,hr,ht,by omega,by omega⟩
    · rw [markFrame_unaligned p (by simp only [W64]; omega)]
      exact h
  · exact h

theorem regionLoop_fits {mb : List MemoryMap} {bm : ℕ} {r : MemoryMap} (hr : r ∈ mb)
    (ht : r.type = MULTIBOOT_MEMORY_AVAILABLE) (hf : r.Fits bm) (fuel i : ℕ) (p : Pmm)
    (h : Booting mb p) (hal : i%0x1000 = 0) :
    (r.len ≤ i+0x1000*fuel → ∃ q, regionLoop bm r (fuel+1) i p = .ok q) ∧
    ∀ q, regionLoop bm r fuel i p = .ok q → Booting mb q := by
  have hlen := hf.1
  induction fuel generalizing i p with
  | zero =>
    refine ⟨fun hle => ⟨p,?_⟩,fun q hq => by cases hq⟩
    rw [regionLoop,if_neg (by omega)]; rfl
  | succ fuel ih =>
    by_cases hi : i < r.len
    · have hnext : (i+0x1000)%W32 = i+0x1000 := by simp only [W32]; omega
      have hb := h.step hr ht hf hi hal
      obtain ⟨hret,hinv⟩ := ih (i+0x1000) _ hb (by omega)
      constructor
      · intro hle
        rw [regionLoop,if_pos hi]
        simp only [hnext]
        exact hret (by omega)
      · intro q hq
        rw [regionLoop,if_pos hi] at hq
        simp only [hnext] at hq
        exact hinv q hq
    · constructor
      · intro _
        exact ⟨p,by rw [regionLoop,if_neg hi]; rfl⟩
      · intro q hq
        rw [regionLoop,if_neg hi] at hq
        cases hq
        exact h

/-- The whole map: with 2^20 + 1 steps per region the loop returns, and it never
frees anything but usable frames. -/
theorem mapLoop_fits {mb : List MemoryMap} {bm : ℕ} :
    ∀ (rest : List MemoryMap) (p : Pmm), (∀ r ∈ rest, r ∈ mb) →
      (∀ r ∈ rest, r.type = MULTIBOOT_MEMORY_AVAILABLE → r.Fits bm) → Booting mb p →
      (∃ q, mapLoop bm 0x100001 rest p = .ok q) ∧
      ∀ fuel q, mapLoop bm fuel rest p = .ok q → Booting mb q := by
  intro rest
  induction rest with
  | nil =>
    intro p _ _ h
    exact ⟨⟨p,rfl⟩,fun fuel q hq => by cases hq; exact h⟩
  | cons r rest ih =>
    intro p hmem hfits h
    have hrest := fun q hq => ih q (fun r' hr' => hmem r' (List.mem_cons_of_mem _ hr'))
      (fun r' hr' => hfits r' (List.mem_cons_of_mem _ hr')) hq
    by_cases ht : r.type = MULTIBOOT_MEMORY_AVAILABLE
    · have hfit := hfits r (by simp) ht
      have hlen := hfit.1
      obtain ⟨q,hq⟩ := (regionLoop_fits (hmem r (by simp)) ht hfit 0x100000 0 p h rfl).1 (by omega)
      constructor
      · have hb := (regionLoop_fits (hmem r (by simp)) ht hfit 0x100001 0 p h rfl).2 q hq
        obtain ⟨q',hq'⟩ := (hrest q hb).1
        exact ⟨q',by simp only [mapLoop,if_pos ht,hq]; exact hq'⟩
      · intro fuel q hq
        simp only [mapLoop,if_pos ht] at hq
        obtain ⟨q₁,hreg,hq⟩ := Result.bind_eq_ok.mp hq
        exact (hrest q₁ ((regionLoop_fits (hmem r (by simp)) ht hfit fuel 0 p h rfl).2 q₁ hreg)).2
          fuel q hq
    · constructor
      · obtain ⟨q',hq'⟩ := (hrest p h).1
        exact ⟨q',by simp only [mapLoop,if_neg ht]; exact hq'⟩
      · intro fuel q hq
        simp only [mapLoop,if_neg ht] at hq
        exact (hrest p h).2 fuel q hq

/-- One region longer than the offset can count keeps the boot loop from returning. -/
theorem mapLoop_diverges {bm fuel : ℕ} {r : MemoryMap}
    (ht : r.type = MULTIBOOT_MEMORY_AVAILABLE) (hlen : 0xFFFFF000 < r.len) :
    ∀ (rest : List MemoryMap) (p q : Pmm), r ∈ rest → mapLoop bm fuel rest p ≠ .ok q := by
  intro rest
  induction rest with
  | nil => intro p q hr; simp at hr
  | cons s rest ih =>
    intro p q hr hq
    rcases List.mem_cons.mp hr with rfl | hr
    · simp only [mapLoop,if_pos ht,regionLoop_diverges hlen fuel 0 p rfl (by decide)] at hq
      cases hq
    · simp only [mapLoop] at hq
      split at hq
      · obtain ⟨q₁,-,hq⟩ := Result.bind_eq_ok.mp hq
        exact ih q₁ q hr hq
      · exact ih p q hr hq

theorem foldl_clearFrame (addr : ℕ → ℕ) (ts : List ℕ) (p : Pmm) :
    (ts.foldl (fun q t => q.clearFrame (addr t)) p).bitmapSize = p.bitmapSize ∧
    ∀ k, (ts.foldl (fun q t => q.clearFrame (addr t)) p).IsFree k ↔
      p.IsFree k ∧ ∀ t ∈ ts, k ≠ addr t/0x1000 := by
  induction ts generalizing p with
  | nil => simp
  | cons t ts ih =>
    obtain ⟨hsize,hfree⟩ := ih (p.clearFrame (addr t))
    refine ⟨by simpa using hsize,fun k => ?_⟩
    rw [List.foldl_cons,hfree,isFree_clearFrame]
    simp only [List.mem_cons,forall_eq_or_imp]
    tauto

/-- Frame `k` holds a byte of the bitmap. -/
def HoldsBitmap (bitmapPhys size k : ℕ) : Prop :=
  ∃ x, bitmapPhys ≤ x ∧ x < bitmapPhys+4*size ∧ 0x1000*k ≤ x ∧ x < 0x1000*k+0x1000

theorem markBitmap_spec (img : KernelImage) {p : Pmm} (hp : p.bitmapSize ≤ 0x8000) :
    (markBitmap img.bitmapPhys p).bitmapSize = p.bitmapSize ∧
    ∀ k, (markBitmap img.bitmapPhys p).IsFree k →
      p.IsFree k ∧ ¬ HoldsBitmap img.bitmapPhys p.bitmapSize k := by
  obtain ⟨hal,-,hhi⟩ := img.bitmapPhys_bounds
  obtain ⟨hsize,hfree⟩ := foldl_clearFrame (fun t => (img.bitmapPhys+4*t)%W32)
    (List.range (p.bitmapSize+1)) p
  refine ⟨hsize,fun k hk => ?_⟩
  obtain ⟨hk,hne⟩ := (hfree k).mp hk
  refine ⟨hk,?_⟩
  rintro ⟨x,h1,h2,h3,h4⟩
  -- the word of byte `x` was one of the marked addresses
  refine hne ((x-img.bitmapPhys)/4) (List.mem_range.mpr (by omega)) ?_
  simp only [W32]
  omega

/-- Calls of the running kernel: releases are of frames that were handed out and
have not been freed. -/
inductive LaterCall : History → History → Prop
  | allocFrames {h : History} {n b : ℕ} {p' : Pmm} (hn : 1 ≤ n)
      (hret : kMemPmmAllocFrames h.pmm n = .ok (b,p')) :
      LaterCall h ⟨p',frameRange b n::h.held⟩
  | free {h : History} {frame size : ℕ}
      (hheld : ∀ f ∈ frameRange frame size, ∃ r ∈ h.held, f ∈ r) :
      LaterCall h ⟨kMemPmmFree h.pmm frame size,
        h.held.map (List.filter fun f =>
          !decide ((kMemPmmFree h.pmm frame size).IsFree (f/0x1000)))⟩
  | setAllocated {h : History} {frame : ℕ} (hrange : BITMAP_INDEX frame < h.pmm.bitmapSize) :
      LaterCall h ⟨kMemPmmSetAllocated h.pmm frame,h.held⟩

/-- Free frames and handed-out frames are good ones, and the bitmap keeps its size. -/
structure Booted (good : ℕ → Prop) (size : ℕ) (h : History) : Prop where
  size_eq : h.pmm.bitmapSize = size
  free_good : ∀ k, h.pmm.IsFree k → good k
  held_good : ∀ r ∈ h.held, ∀ f ∈ r, f%0x1000 = 0 ∧ good (f/0x1000) ∧ f/0x1000/32 < size

theorem free_size_zero (p : Pmm) (frame : ℕ) : kMemPmmFree p frame 0 = p := by
  rw [kMemPmmFree]
  split <;> rfl

theorem LaterCall.booted {good : ℕ → Prop} {size : ℕ} {h h' : History} (hsmall : size ≤ 0x8000)
    (hb : Booted good size h) (hc : LaterCall h h') : Booted good size h' := by
  have hsize := hb.size_eq
  cases hc with
  | allocFrames hn hret =>
    obtain ⟨k,rfl,hk,hwas,hfree,hsize',-⟩ := allocFrames_spec_small (by omega) hret
    refine ⟨by simp only; omega,fun l hl => hb.free_good l ((hfree l).mp hl).1,?_⟩
    intro r hr f hf
    rcases List.mem_cons.mp hr with rfl | hr
    · obtain ⟨i,hi,rfl⟩ := mem_frameRange.mp hf
      have hw := hwas i hi
      rw [show (0x1000*k+i*0x1000)/0x1000 = k+i by omega]
      exact ⟨by omega,hb.free_good _ hw,hsize ▸ hw.1⟩
    · exact hb.held_good r hr f hf
  | free hheld =>
    rename_i frame n
    have hold : ∀ r ∈ List.map (List.filter fun f => !decide
        ((kMemPmmFree h.pmm frame n).IsFree (f/0x1000))) h.held, ∀ f ∈ r,
        f%0x1000 = 0 ∧ good (f/0x1000) ∧ f/0x1000/32 < size := by
      intro r hr f hf
      obtain ⟨r',hr',rfl⟩ := List.mem_map.mp hr
      exact hb.held_good r' hr' f (List.mem_filter.mp hf).1
    cases n with
    | zero =>
      simp only [free_size_zero] at hold ⊢
      exact ⟨hsize,hb.free_good,hold⟩
    | succ n =>
      have hgood : ∀ i < n+1, (frame+i*0x1000)%0x1000 = 0 ∧ good ((frame+i*0x1000)/0x1000) ∧
          (frame+i*0x1000)/0x1000/32 < size := by
        intro i hi
        obtain ⟨r,hr,hf⟩ := hheld _ (mem_frameRange.mpr ⟨i,hi,rfl⟩)
        exact hb.held_good r hr _ hf
      obtain ⟨k,rfl⟩ : ∃ k, frame = 0x1000*k :=
        ⟨frame/0x1000,by have := (hgood 0 (by omega)).1; omega⟩
      have hlast := (hgood n (by omega)).2.2
      obtain ⟨m,hm,hrel,-⟩ := free_spec h.pmm k (n+1) (by omega)
      refine ⟨?_,?_,hold⟩
      · -- the last frame of the range is inside the bitmap, so nothing has to grow
        exact (free_bitmapSize h.pmm (by omega) (by omega)).trans hsize
      · intro l hl
        rcases (hrel.free_iff l).mp hl with hl | hl
        · exact hb.free_good l hl
        · have := (hgood (l-k) (by omega)).2.1
          rwa [show (0x1000*k+(l-k)*0x1000)/0x1000 = l by omega] at this
  | setAllocated hrange =>
    refine ⟨hsize,fun k hk => hb.free_good k ((isFree_clearFrame _ _ _).mp hk).1,hb.held_good⟩

/-- On every memory map whose available regions fit, the region loop returns, and in
every later run each frame handed out was marked free, lies completely inside an
available region and holds no byte of the bitmap. -/
theorem init_frames_usable (img : KernelImage) (memory : Words) (mb : List MemoryMap)
    (hfits : ∀ r ∈ mb, r.type = MULTIBOOT_MEMORY_AVAILABLE → r.Fits img.bitmapPhys) :
    (∃ fuel p, kMemPmmInit img memory fuel mb = .ok p) ∧
    ∀ fuel p, kMemPmmInit img memory fuel mb = .ok p →
      ∀ h, Relation.ReflTransGen LaterCall ⟨p,[]⟩ h →
        ∀ n b p', 1 ≤ n → kMemPmmAllocFrames h.pmm n = .ok (b,p') → ∀ f ∈ frameRange b n,
          h.pmm.IsFree (f/0x1000) ∧ f%0x1000 = 0 ∧ Usable mb (f/0x1000) ∧
          ¬ HoldsBitmap img.bitmapPhys h.pmm.bitmapSize (f/0x1000) := by
  have hstart : Booting mb (unbooted memory) :=
    ⟨fun k hk => absurd hk.1 (by simp [unbooted]),by simp [unbooted]⟩
  obtain ⟨⟨q,hq⟩,hinv⟩ := mapLoop_fits mb (unbooted memory) (fun r hr => hr) hfits hstart
  refine ⟨⟨_,_,Result.bind_eq_ok.mpr ⟨q,hq,rfl⟩⟩,?_⟩
  intro fuel p hp h hrun n b p' hn hret f hf
  obtain ⟨q₁,hmap,hp⟩ := Result.bind_eq_ok.mp hp
  obtain rfl := Except.ok.inj hp
  have hb := hinv fuel q₁ hmap
  obtain ⟨hsize,hfree⟩ := markBitmap_spec img hb.small
  have hboot : Booted (fun k => Usable mb k ∧ ¬ HoldsBitmap img.bitmapPhys q₁.bitmapSize k)
      q₁.bitmapSize h := by
    refine reach_invariant (fun _ _ => LaterCall.booted hb.small) ⟨hsize,?_,by simp⟩ hrun
    intro k hk
    obtain ⟨hk',hnb⟩ := hfree k hk
    exact ⟨(hb.usable k hk').1,hnb⟩
  obtain ⟨k,rfl,hk,hwas,-⟩ := allocFrames_spec_small (by rw [hboot.size_eq]; exact hb.small) hret
  obtain ⟨i,hi,rfl⟩ := mem_frameRange.mp hf
  rw [show (0x1000*k+i*0x1000)/0x1000 = k+i by omega,hboot.size_eq]
  exact ⟨hwas i hi,by omega,hboot.free_good _ (hwas i hi)⟩

/-- A small machine: a low region with a ragged end, a reserved one, and five pages
that start at the bitmap. -/
def smallImage : KernelImage := ⟨0xC0100000,by decide,by decide⟩
def smallMap : List MemoryMap := [⟨0x9C000,0x3C00,1⟩,⟨0x9FC00,0x400,2⟩,⟨0x201000,0x5000,1⟩]

theorem init_frames_usable_small :
    ∃ p b p', kMemPmmInit smallImage (fun _ => 0#32) 8 smallMap = .ok p ∧
      kMemPmmAllocFrames p 2 = .ok (b,p') ∧ b = 0x202000 ∧ Usable smallMap (b/0x1000) := by
  have hrun : ((kMemPmmInit smallImage (fun _ => 0#32) 8 smallMap).bind
      fun p => (kMemPmmAllocFrames p 2).map Prod.fst) = .ok 0x202000 := by decide +kernel
  obtain ⟨p,hp,hret⟩ := Result.bind_eq_ok.mp hrun
  cases hal : kMemPmmAllocFrames p 2 with
  | error e => rw [hal] at hret; cases hret
  | ok r =>
    obtain ⟨b,p'⟩ := r
    obtain rfl : b = 0x202000 := by rw [hal] at hret; exact Except.ok.inj hret
    have h :=
      (init_frames_usable smallImage (fun _ => 0#32) smallMap (by decide)).2 8 p hp ⟨p,[]⟩ .refl
    exact ⟨p,_,p',hp,hal,rfl,(h 2 _ p' (by
      decide) hal _ (mem_frameRange.mpr ⟨0,by decide,rfl⟩)).2.2.1⟩

/-- A machine with 7 GiB: the region above 4 GiB is exactly 4 GiB long, so the 32-bit
offset wraps before it reaches the end and the boot loop never returns. -/
theorem init_diverges_above_four_gib :
    ¬ ∃ fuel p, kMemPmmInit smallImage (fun _ => 0#32) fuel
      [⟨0x100000,0xBFF00000,1⟩,⟨0x100000000,0x100000000,1⟩] = .ok p := by
  rintro ⟨fuel,p,hp⟩
  obtain ⟨q,hq,-⟩ := Result.bind_eq_ok.mp hp
  exact mapLoop_diverges (r:=⟨0x100000000,0x100000000,1⟩) rfl (by decide) _ _ q (by simp) hq

end Pmm
end ScalesOS
