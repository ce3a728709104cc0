import ScalesOS.PmmFrames

/-! Whole histories of the frame allocator: interleaved allocations, releases and
reservations, with the frames that every allocation handed out and that no
release has taken back. -/
namespace ScalesOS
namespace Pmm

open BitArray

/-- The addresses of `n` consecutive frames. -/
def frameRange (b n : ℕ) : List ℕ := (List.range n).map fun i => b+i*0x1000

theorem mem_frameRange {b n f : ℕ} : f ∈ frameRange b n ↔ ∃ i < n, f = b+i*0x1000 := by
  simp only [frameRange,List.mem_map,List.mem_range]
  constructor
  · rintro ⟨i,hi,rfl⟩; exact ⟨i,hi,rfl⟩
  · rintro ⟨i,hi,rfl⟩; exact ⟨i,hi,rfl⟩

theorem mem_frameRange_iff {k l n : ℕ} :
    0x1000*l ∈ frameRange (0x1000*k) n ↔ k ≤ l ∧ l < k+n := by
  rw [mem_frameRange]
  constructor
  · rintro ⟨i,hi,he⟩; omega
  · rintro ⟨h1,h2⟩; exact ⟨l-k,by omega,by omega⟩

/-- The allocator together with the ranges handed out so far, each reduced to the
frames that have not been freed since. -/
structure History where
  pmm : Pmm
  held : List (List ℕ)

/-- One call. Allocations ask for at least one frame; the other two calls are on
frames in range, so that the bitmap never has to grow beyond 4 GiB. -/
inductive Call : History → History → Prop
  | allocFrames {h : History} {n b : ℕ} {p' : Pmm} (hn : 1 ≤ n)
      (hret : kMemPmmAllocFrames h.pmm n = .ok (b,p')) :
      Call h ⟨p',frameRange b n::h.held⟩
  | free {h : History} {frame size : ℕ} (hrange : frame+0x1000*size ≤ W32) :
      Call h ⟨kMemPmmFree h.pmm frame size,
        h.held.map (List.filter fun f =>
          !decide ((kMemPmmFree h.pmm frame size).IsFree (f/0x1000)))⟩
  | setAllocated {h : History} {frame : ℕ} (hrange : BITMAP_INDEX frame < h.pmm.bitmapSize) :
      Call h ⟨kMemPmmSetAllocated h.pmm frame,h.held⟩

/-- What holds between any two calls: frames handed out are marked as in use, and no
frame is handed out twice. -/
structure History.Ok (h : History) : Prop where
  small : h.pmm.bitmapSize ≤ 0x8000
  used : ∀ r ∈ h.held, ∀ f ∈ r, f%0x1000 = 0 ∧ ¬ h.pmm.IsFree (f/0x1000)
  disjoint : h.held.Pairwise List.Disjoint

/-- A release whose frames are below 4 GiB keeps the bitmap below 4 GiB, frees
only frames of its own range, and only frames that were in use. -/
theorem free_in_range (p : Pmm) {frame size : ℕ} (hrange : frame+0x1000*size ≤ W32) :
    (kMemPmmFree p frame size).bitmapSize ≤ max p.bitmapSize 0x8000 ∧
    (∀ k, p.IsFree k → (kMemPmmFree p frame size).IsFree k) ∧
    (∀ k, (kMemPmmFree p frame size).IsFree k → ¬ p.IsFree k →
      0x1000*k ∈ frameRange frame size) := by
  by_cases hal : frame%0x1000 = 0
  · obtain ⟨k,rfl⟩ : ∃ k, frame = 0x1000*k := ⟨frame/0x1000,by omega⟩
    obtain ⟨m,hm,hrel,-⟩ := free_spec p k size (by simp only [W32] at hrange; omega)
    refine ⟨hrel.size_le,fun l hl => (hrel.free_iff l).mpr (.inl hl),fun l hl hn => ?_⟩
    rw [mem_frameRange_iff]
    rcases (hrel.free_iff l).mp hl with h | h
    · exact absurd h hn
    · omega
  · have he : kMemPmmFree p frame size = p := by rw [kMemPmmFree,if_pos hal]
    rw [he]
    exact ⟨by omega,fun k hk => hk,fun k hk hn => absurd hk hn⟩

theorem Call.ok {h h' : History} (hok : h.Ok) (hc : Call h h') : h'.Ok := by
  cases hc with
  | allocFrames hn hret =>
    obtain ⟨k,rfl,hk,hwas,hfree,hsize,-⟩ := allocFrames_spec_small hok.small hret
    refine ⟨by simpa [hsize] using hok.small,?_,List.pairwise_cons.mpr ⟨?_,hok.disjoint⟩⟩
    · intro r hr f hf
      rcases List.mem_cons.mp hr with rfl | hr
      · obtain ⟨i,hi,rfl⟩ := mem_frameRange.mp hf
        refine ⟨by omega,fun hc => ?_⟩
        have := ((hfree _).mp hc).2
        omega
      · obtain ⟨hal,hnf⟩ := hok.used r hr f hf
        exact ⟨hal,fun hc => hnf ((hfree _).mp hc).1⟩
    · -- a frame of the new range was free, a frame held by an older range was not
      intro r hr f hf hfr
      obtain ⟨i,hi,rfl⟩ := mem_frameRange.mp hf
      have hnf := (hok.used r hr _ hfr).2
      rw [show (0x1000*k+i*0x1000)/0x1000 = k+i by omega] at hnf
      exact hnf (hwas i hi)
  | free hrange =>
    obtain ⟨hsize,-,-⟩ := free_in_range h.pmm hrange
    have hsmall := hok.small
    refine ⟨by simp only; omega,?_,?_⟩
    · intro r hr f hf
      obtain ⟨r',hr',rfl⟩ := List.mem_map.mp hr
      obtain ⟨hf',hkeep⟩ := List.mem_filter.mp hf
      exact ⟨(hok.used r' hr' f hf').1,by simpa using hkeep⟩
    · refine List.pairwise_map.mpr (hok.disjoint.imp ?_)
      intro a b hab f ha hb
      exact hab (List.mem_filter.mp ha).1 (List.mem_filter.mp hb).1
  | setAllocated hrange =>
    refine ⟨hok.small,?_,hok.disjoint⟩
    intro r hr f hf
    obtain ⟨hal,hnf⟩ := hok.used r hr f hf
    exact ⟨hal,fun hc => hnf ((isFree_clearFrame _ _ _).mp hc).1⟩

/-- For a bitmap below 4 GiB and every history of calls: an allocation that returns
takes exactly the frames it reports, all of which were free; a release changes only
frames in use of its own range; the ranges handed out and not yet freed are disjoint. -/
theorem held_ranges_disjoint {p : Pmm} (hp : p.bitmapSize ≤ 0x8000) {h : History}
    (hrun : Relation.ReflTransGen Call ⟨p,[]⟩ h) :
    (∀ n b p', 1 ≤ n → kMemPmmAllocFrames h.pmm n = .ok (b,p') →
      b%0x1000 = 0 ∧ (∀ f ∈ frameRange b n, h.pmm.IsFree (f/0x1000)) ∧
      p'.bitmapSize = h.pmm.bitmapSize ∧
      ∀ k, p'.IsFree k ↔ h.pmm.IsFree k ∧ 0x1000*k ∉ frameRange b n) ∧
    (∀ frame size, frame+0x1000*size ≤ W32 → ∀ k,
      ¬ ((kMemPmmFree h.pmm frame size).IsFree k ↔ h.pmm.IsFree k) →
      0x1000*k ∈ frameRange frame size ∧ ¬ h.pmm.IsFree k) ∧
    h.held.Pairwise List.Disjoint := by
  have hok : h.Ok := reach_invariant (fun _ _ => Call.ok) ⟨hp,by simp,List.Pairwise.nil⟩ hrun
  refine ⟨fun n b p' hn hret => ?_,fun frame size hrange k hne => ?_,hok.disjoint⟩
  · obtain ⟨k,rfl,hk,hwas,hfree,hsize,-⟩ := allocFrames_spec_small hok.small hret
    refine ⟨by omega,fun f hf => ?_,hsize,fun l => ?_⟩
    · obtain ⟨i,hi,rfl⟩ := mem_frameRange.mp hf
      rw [show (0x1000*k+i*0x1000)/0x1000 = k+i by omega]
      exact hwas i hi
    · rw [mem_frameRange_iff]
      exact hfree l
  · obtain ⟨-,hkeep,hown⟩ := free_in_range h.pmm hrange
    by_cases hk : h.pmm.IsFree k
    · exact absurd ⟨fun _ => hk,hkeep k⟩ hne
    · have hf : (kMemPmmFree h.pmm frame size).IsFree k := by
        by_contra hc
        exact hne ⟨fun h => absurd h hc,fun h => absurd h hk⟩
      exact ⟨hown k hf hk,hk⟩

def sixFrames : Pmm := ⟨fun i => if i = 0 then 0x7E#32 else 0#32,1,0,0,0,6⟩

theorem held_ranges_disjoint_six :
    ∃ h, Relation.ReflTransGen Call ⟨sixFrames,[]⟩ h ∧ h.held = [[0x3000,0x4000],[0x1000,0x2000]] ∧
      h.held.Pairwise List.Disjoint := by
  have hrun := Relation.ReflTransGen.tail (Relation.ReflTransGen.single
    (Call.allocFrames (h:=⟨sixFrames,[]⟩) (n:=2) (by decide) rfl))
    (Call.allocFrames (n:=2) (by decide) rfl)
  exact ⟨_,hrun,by decide,(held_ranges_disjoint (by decide) hrun).2.2⟩

end Pmm
end ScalesOS
