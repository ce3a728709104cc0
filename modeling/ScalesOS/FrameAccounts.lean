import ScalesOS.Separate

/-!
# Frame accounts

Relative to some earlier state, a frame that has been taken since either backs a page by
which the kernel heap has grown or is held by the address space under observation. The
accounts are kept over growth of the heap, over a clone and over everything that gives
frames back.
-/

namespace ScalesOS
namespace Vm

open Entry Pmm

/-- `l` backs a page by which the kernel heap has grown between `s` and `s'`. -/
def HeapFrame (s s' : Vm) (d l : ℕ) : Prop :=
  ∃ m, s.heapEnd ≤ m*0x1000 ∧ m*0x1000 < s'.heapEnd ∧ s'.lookup d m = some l

structure Accounts (s₀ s : Vm) (d : ℕ) (own : ℕ → Prop) : Prop where
  heap_start : HEAP_START ≤ s₀.heapEnd
  heap_le : s₀.heapEnd ≤ s.heapEnd
  heap_end : s.heapEnd ≤ HEAP_END
  free_iff : ∀ l, s.pmm.IsFree l ↔ s₀.pmm.IsFree l ∧ ¬ HeapFrame s₀ s d l ∧ ¬ own l
  own_taken : ∀ l, own l → s₀.pmm.IsFree l ∧ ¬ HeapFrame s₀ s d l
  above : ∀ m, s.heapEnd ≤ m*0x1000 → m*0x1000 < HEAP_END → s.lookup d m = s₀.lookup d m

/-- The pages behind the kernel heap are not mapped. -/
def HeapRoom (s : Vm) (d : ℕ) : Prop :=
  ∀ m, s.heapEnd ≤ m*0x1000 → m*0x1000 < HEAP_END → s.lookup d m = none

theorem heap_within {e n m : ℕ} (h : e+n*0x1000 ≤ HEAP_END) (hle : m ≤ n) : e+m*0x1000 ≤ HEAP_END :=
  le_trans (Nat.add_le_add_left (Nat.mul_le_mul_right _ hle) _) h

theorem HeapRoom.grow_returns {s : Vm} {n : ℕ} (hroom : s.HeapRoom s.directory)
    (hs : s.SpaceOk s.directory) (hzero : ¬ s.pmm.IsFree 0) (hok : s.pmm.FirstFreeOk)
    (hheap : ∃ m, s.heapEnd = m*0x1000 ∧ HEAP_PAGE ≤ m) (hend : s.heapEnd+n*0x1000 ≤ HEAP_END)
    (hlow : n ≤ s.pmm.lowFree.card) : ∃ s', s.growHeap n = .ok s' := by
  obtain ⟨m,h1,h2⟩ := hheap
  exact growHeap_returns hs hzero hok h1 h2 hend hlow fun m' h3 h4 =>
    hroom m' h3 (lt_of_lt_of_le h4 hend)

theorem heap_page {m : ℕ} (h1 : HEAP_START ≤ m*0x1000) (h2 : m*0x1000 < HEAP_END) :
    WINDOW_START ≤ m ∧ m < 1023*1024 := by
  have h3 : HEAP_START = 0xF7001000 := by decide
  have h4 : HEAP_END = 0xFFBFF000 := by decide
  have h5 : WINDOW_START = 0xC1000 := by decide
  omega

section Accounts

variable {s₀ s s' : Vm} {d : ℕ} {own own' : ℕ → Prop}

theorem Accounts.refl (d : ℕ) (h1 : HEAP_START ≤ s₀.heapEnd) (h2 : s₀.heapEnd ≤ HEAP_END) :
    Accounts s₀ s₀ d fun _ => False := by
  have hno : ∀ l, ¬ HeapFrame s₀ s₀ d l := fun l ⟨m,h1,h2,_⟩ => by omega
  exact ⟨h1,le_rfl,h2,fun l => by simp [hno l],fun l h => h.elim,fun _ _ _ => rfl⟩

/-- A step that leaves the kernel half alone keeps the pages of the heap. -/
theorem heapFrame_congr (hstart : HEAP_START ≤ s₀.heapEnd) (hend : s.heapEnd ≤ HEAP_END)
    (hheap : s'.heapEnd = s.heapEnd)
    (hview : ∀ m, WINDOW_START ≤ m → m < 1023*1024 → s'.lookup d m = s.lookup d m) (l : ℕ) :
    HeapFrame s₀ s' d l ↔ HeapFrame s₀ s d l := by
  refine exists_congr fun m => and_congr_right fun h1 => ?_
  rw [hheap]
  refine and_congr_right fun h2 => ?_
  obtain ⟨h3,h4⟩ := heap_page (m:=m) (by omega) (by omega)
  rw [hview m h3 h4]

theorem Accounts.above_congr (h : Accounts s₀ s d own) (hheap : s'.heapEnd = s.heapEnd)
    (hview : ∀ m, WINDOW_START ≤ m → m < 1023*1024 → s'.lookup d m = s.lookup d m) (m : ℕ)
    (h1 : s'.heapEnd ≤ m*0x1000) (h2 : m*0x1000 < HEAP_END) : s'.lookup d m = s₀.lookup d m := by
  have h3 := h.heap_start
  have h4 := h.heap_le
  rw [hheap] at h1
  obtain ⟨h5,h6⟩ := heap_page (m:=m) (by omega) h2
  rw [hview m h5 h6,h.above m h1 h2]

theorem Accounts.switch (h : Accounts s₀ s d own) (e : ℕ) :
    Accounts s₀ (s.kMemPagingSetPageDirectory e) d own :=
  ⟨h.heap_start,h.heap_le,h.heap_end,h.free_iff,h.own_taken,h.above⟩

theorem Accounts.room (h : Accounts s₀ s d own) (hroom : s₀.HeapRoom d) : s.HeapRoom d := by
  intro m h1 h2
  rw [h.above m h1 h2]
  exact hroom m (le_trans h.heap_le h1) h2

theorem Accounts.take (h : Accounts s₀ s d fun _ => False) (hheap : s'.heapEnd = s.heapEnd)
    (hview : ∀ m, WINDOW_START ≤ m → m < 1023*1024 → s'.lookup d m = s.lookup d m)
    (hown : ∀ l, own l → s.pmm.IsFree l) (hfree : ∀ l, s'.pmm.IsFree l ↔ s.pmm.IsFree l ∧ ¬ own l) :
    Accounts s₀ s' d own := by
  have hcongr := heapFrame_congr h.heap_start h.heap_end hheap hview
  refine ⟨h.heap_start,by rw [hheap]; exact h.heap_le,by rw [hheap]; exact h.heap_end,fun l => ?_,
    fun l hl => ?_,h.above_congr hheap hview⟩
  · rw [hfree l,h.free_iff l,hcongr l]
    tauto
  · obtain ⟨h1,h2,-⟩ := (h.free_iff l).mp (hown l hl)
    exact ⟨h1,by rw [hcongr l]; exact h2⟩

theorem Accounts.giveBack (h : Accounts s₀ s d own) (hheap : s'.heapEnd = s.heapEnd)
    (hview : ∀ m, WINDOW_START ≤ m → m < 1023*1024 → s'.lookup d m = s.lookup d m)
    (hsub : ∀ l, own' l → own l)
    (hfree : ∀ l, s'.pmm.IsFree l ↔ s.pmm.IsFree l ∨ (own l ∧ ¬ own' l)) :
    Accounts s₀ s' d own' := by
  have hcongr := heapFrame_congr h.heap_start h.heap_end hheap hview
  refine ⟨h.heap_start,by rw [hheap]; exact h.heap_le,by rw [hheap]; exact h.heap_end,fun l => ?_,
    fun l hl => by rw [hcongr l]; exact h.own_taken l (hsub l hl),h.above_congr hheap hview⟩
  rw [hfree l,h.free_iff l,hcongr l]
  constructor
  · rintro (⟨h1,h2,h3⟩ | ⟨h1,h2⟩)
    · exact ⟨h1,h2,fun hc => h3 (hsub l hc)⟩
    · obtain ⟨h3,h4⟩ := h.own_taken l h1
      exact ⟨h3,h4,h2⟩
  · rintro ⟨h1,h2,h3⟩
    by_cases ho : own l
    · exact .inr ⟨ho,h3⟩
    · exact .inl ⟨h1,h2,ho⟩

theorem Accounts.grow {n : ℕ} (h : Accounts s₀ s d own) (hg : Grown s s' s.directory n)
    (hheap : s'.heapEnd = s.heapEnd+n*0x1000) (hend : s'.heapEnd ≤ HEAP_END)
    (hs : s.SpaceOk s.directory) (hd : s.SpaceOk d) (hshare : s.SharedKernel s.directory d) :
    Accounts s₀ s' d own := by
  have hstart := h.heap_start
  have hle := h.heap_le
  have hshare' : s'.SharedKernel s.directory d :=
    hshare.congr (hg.dir_eq hs) (hg.userSame hd hshare).dir
  -- the pages of the heap look the same from both directories
  have hsame : ∀ m, HEAP_START ≤ m*0x1000 → m*0x1000 < HEAP_END →
      s'.lookup d m = s'.lookup s.directory m ∧ s.lookup d m = s.lookup s.directory m := by
    intro m h1 h2
    obtain ⟨h3,h4⟩ := heap_page h1 h2
    obtain ⟨h5,h6⟩ := window_page h3 h4
    exact ⟨hshare'.lookup_eq h5 h6,hshare.lookup_eq h5 h6⟩
  have hsplit : ∀ l, HeapFrame s₀ s' d l ↔ HeapFrame s₀ s d l ∨ ∃ m, s.heapEnd ≤ m*0x1000 ∧
      m*0x1000 < s.heapEnd+n*0x1000 ∧ s'.lookup s.directory m = some l := by
    intro l
    constructor
    · rintro ⟨m,h1,h2,h3⟩
      obtain ⟨h4,h5⟩ := hsame m (by omega) (by omega)
      rcases Nat.lt_or_ge (m*0x1000) s.heapEnd with hlt | hge
      · refine .inl ⟨m,h1,hlt,?_⟩
        rw [h5,← hg.view m (heap_page (m:=m) (by omega) (by omega)).2 (.inl hlt),← h4]
        exact h3
      · exact .inr ⟨m,hge,by omega,by rw [← h4]; exact h3⟩
    · rintro (⟨m,h1,h2,h3⟩ | ⟨m,h1,h2,h3⟩)
      · obtain ⟨h4,h5⟩ := hsame m (by omega) (by omega)
        refine ⟨m,h1,by omega,?_⟩
        rw [h4,hg.view m (heap_page (m:=m) (by omega) (by omega)).2 (.inl h2),← h5]
        exact h3
      · exact ⟨m,by omega,by omega,by rw [(hsame m (by omega) (by omega)).1]; exact h3⟩
  have habove : ∀ m, s'.heapEnd ≤ m*0x1000 → m*0x1000 < HEAP_END →
      s'.lookup d m = s₀.lookup d m := by
    intro m h1 h2
    rw [hheap] at h1
    have h3 : s.heapEnd ≤ m*0x1000 := le_trans (Nat.le_add_right _ _) h1
    have h4 : HEAP_START ≤ m*0x1000 := le_trans hstart (le_trans hle h3)
    obtain ⟨h5,h6⟩ := hsame m h4 h2
    rw [h5,hg.view m (heap_page h4 h2).2 (.inr h1),← h6]
    exact h.above m h3 h2
  refine ⟨hstart,le_trans hle (by rw [hheap]; exact Nat.le_add_right _ _),hend,
    fun l => ?_,fun l hl => ?_,habove⟩
  · rw [hg.free_iff l,h.free_iff l,hsplit l,not_or]
    exact ⟨fun ⟨⟨h1,h2,h3⟩,h4⟩ => ⟨h1,⟨h2,h4⟩,h3⟩,fun ⟨h1,⟨h2,h4⟩,h3⟩ => ⟨⟨h1,h2,h3⟩,h4⟩⟩
  · obtain ⟨h1,h2⟩ := h.own_taken l hl
    refine ⟨h1,fun hc => ?_⟩
    rcases (hsplit l).mp hc with hc | ⟨m,h3,h4,h5⟩
    · exact h2 hc
    · -- new pages of the heap come from frames that were still free
      have := (h.free_iff l).mp (hg.new_free m h3 h4 l h5)
      exact this.2.2 hl

end Accounts

end Vm
end ScalesOS
