import ScalesOS.FrameMarking
import ScalesOS.ShmRuns

/-! The size of a shared memory object. `__k_mem_shm_truncate` counts pages of the difference of
two sizes, one of which belongs to the node it was called on, and gives back the first frames of
the list where it should give back the last ones. -/
namespace ScalesOS
namespace SharedMemory

open Pmm

def pagesOf (size : ℕ) : ℕ := (size+0xFFF)/0x1000

/-- What a truncation to `size` is for. -/
structure Resized (p p' : Pmm) (frames frames' : List ℕ) (size : ℕ) : Prop where
  count : frames'.length = pagesOf size
  used : ∀ f ∈ frames', p'.Used f
  nodup : frames'.Nodup
  grown : frames.length ≤ pagesOf size → frames <+: frames' ∧ ∀ l, p'.IsFree l → p.IsFree l
  shrunk : pagesOf size ≤ frames.length → frames' <+: frames ∧
    ∀ l, p'.IsFree l ↔ p.IsFree l ∨ 0x1000*l ∈ frames.drop (pagesOf size)

/-- The node's size is that of the object, and it stays, becomes 0 while the frames lie below
2 GiB, or grows so that the bytes behind the last whole page of the difference need a page of
their own. -/
def Fits (frames : List ℕ) (size sz : BitVec 32) : Prop :=
  frames.length = pagesOf size.toNat ∧
    (sz = size ∨ (sz = 0 ∧ ∀ f ∈ frames, f < 0x80000000) ∨ (size.toNat < sz.toNat ∧
      (size.toNat%0x1000 = 0 ∨ (sz.toNat-size.toNat)%0x1000 = 0 ∨
        0x1000 < size.toNat%0x1000+(sz.toNat-size.toNat)%0x1000)))

/-- What happens to object `d`: it is truncated through one of its nodes, gets another node, or
other code runs that leaves its frames alone. -/
inductive Call (d : ℕ) (allowed : List ℕ → BitVec 32 → BitVec 32 → Prop) (s t : SharedMemory) : Prop
  | truncate {p : ℕ} {fd : ℤ} {sz : BitVec 32} {growth : ℕ → ℕ} {beyond : ℕ → BitVec 32}
      {file : ShmFile} {frames : List ℕ}
      (hfile : s.findFile p fd = some file) (hdevice : file.device = d)
      (hframes : s.framesAt d = some frames)
      (hsize : sz.toNat < 0x80000000) (hallowed : allowed frames file.size sz)
      (h : s.kMemShmTruncate p fd sz growth beyond = .ok t)
  | opened {p mode growth : ℕ} {fd : ℤ} {path : String} (hpath : s.kMemShmFinddir path = some d)
      (h : s.kFsVfsOpen p fd path mode growth = .ok t)
  | other (hnodes : t.nodes = s.nodes) (hfiles : t.files = s.files)
      (hsmall : t.vm.pmm.bitmapSize ≤ 0x8000)
      (hused : ∀ frames, s.framesAt d = some frames → ∀ f ∈ frames, s.vm.pmm.Used f →
        t.vm.pmm.Used f)

/-- A new object on a machine below 4 GiB, perhaps with nodes. -/
structure Fresh (s : SharedMemory) (d : ℕ) : Prop where
  small : s.vm.pmm.bitmapSize ≤ 0x8000
  frames : s.framesAt d = some []
  sizes : ∀ file ∈ s.files, file.device = d → file.size = 0

/-- The object owns different frames in use. At most one of its nodes has a size, and it is the
size of the object. -/
structure Owned (s : SharedMemory) (d : ℕ) : Prop where
  small : s.vm.pmm.bitmapSize ≤ 0x8000
  frames : ∀ frames, s.framesAt d = some frames → frames.Nodup ∧ ∀ f ∈ frames, s.vm.pmm.Used f
  sizes : ∀ file ∈ s.files, file.device = d → file.size.toNat < 0x80000000
  nodes : ∀ frames, s.framesAt d = some frames → ∀ file ∈ s.files, file.device = d →
    file.size = 0 ∨ frames.length = pagesOf file.size.toNat
  single : ∀ f ∈ s.files, ∀ g ∈ s.files, f.device = d → g.device = d → f.size ≠ 0 → g.size ≠ 0 →
    f.process = g.process ∧ f.fd = g.fd

theorem sdiv_page {diff : BitVec 32} (h : diff.toNat < 0x80000000) :
    (diff.sdiv 0x1000).toNat = diff.toNat/0x1000 := by
  have hmsb : diff.msb = false := BitVec.msb_eq_false_iff_two_mul_lt.mpr (by omega)
  rw [BitVec.sdiv_eq,hmsb]
  exact BitVec.toNat_udiv

theorem srem_page {diff : BitVec 32} (h : diff.toNat < 0x80000000) : diff.srem 0x1000 = 0 ↔
    diff.toNat%0x1000 = 0 := by
  have hmsb : diff.msb = false := BitVec.msb_eq_false_iff_two_mul_lt.mpr (by omega)
  rw [BitVec.srem_eq,hmsb,← BitVec.toNat_inj]
  exact Iff.of_eq (congrArg (· = 0) BitVec.toNat_umod)

theorem pages_of_diff {diff : BitVec 32} (h : diff.toNat < 0x80000000) :
    (diff.sdiv 0x1000+if diff.srem 0x1000 = 0 then 0 else 1).toNat = pagesOf diff.toNat := by
  rw [BitVec.toNat_add,sdiv_page h,pagesOf]
  by_cases hrem : diff.srem 0x1000 = 0
  · rw [if_pos hrem]
    have hrem := (srem_page h).mp hrem
    change (diff.toNat/0x1000+0)%2^32 = _
    omega
  · rw [if_neg hrem]
    have hrem := mt (srem_page h).mpr hrem
    change (diff.toNat/0x1000+1)%2^32 = _
    omega

theorem grows_iff {size sz : BitVec 32} (hsize : size.toNat < 0x80000000)
    (hsz : sz.toNat < 0x80000000) :
    grows size sz ↔ size.toNat < sz.toNat := by
  rw [grows,BitVec.slt_iff_toInt_lt,BitVec.toInt_sub,BitVec.toInt_eq_toNat_of_lt (x:=sz) (by omega),
    BitVec.toInt_eq_toNat_of_lt (x:=size) (by omega),Int.bmod_eq_of_le (by omega) (by omega)]
  change 0 < (sz.toNat : ℤ)-size.toNat ↔ _
  omega

theorem pageChange_grow {size sz : BitVec 32} (hsize : size.toNat < 0x80000000)
    (hsz : sz.toNat < 0x80000000)
    (h : size.toNat < sz.toNat) : (pageChange size sz).toNat = pagesOf (sz.toNat-size.toNat) := by
  have hdiff : (sz-size).toNat = sz.toNat-size.toNat := by
    rw [BitVec.toNat_sub]
    omega
  rw [pageChange,if_pos ((grows_iff hsize hsz).mpr h),pages_of_diff (by omega),hdiff]

theorem shrinkCount_eq {size sz : BitVec 32} (hsize : size.toNat < 0x80000000)
    (hsz : sz.toNat < 0x80000000)
    (h : sz.toNat ≤ size.toNat) : shrinkCount size sz = pagesOf (size.toNat-sz.toNat) := by
  have hdiff : (-(sz-size)).toNat = size.toNat-sz.toNat := by
    rw [BitVec.toNat_neg,BitVec.toNat_sub]
    omega
  have hchange : (pageChange size sz).toNat = pagesOf (size.toNat-sz.toNat) := by
    rw [pageChange,if_neg (fun hc => absurd ((grows_iff hsize hsz).mp hc) (by omega)),
      pages_of_diff (by omega),hdiff]
  have hbound : pagesOf (size.toNat-sz.toNat) ≤ 0x80000 := by
    rw [pagesOf]
    omega
  rw [shrinkCount,BitVec.toInt_sub,BitVec.toInt_eq_toNat_of_lt (by omega),hchange]
  change (Int.bmod ((pagesOf (size.toNat-sz.toNat) : ℤ)-1) (2^32)+1).toNat = _
  rw [Int.bmod_eq_of_le (by omega) (by omega)]
  omega

theorem pagesOf_add_iff {size sz : ℕ} (h : size < sz) :
    pagesOf size+pagesOf (sz-size) = pagesOf sz ↔
    size%0x1000 = 0 ∨ (sz-size)%0x1000 = 0 ∨ 0x1000 < size%0x1000+(sz-size)%0x1000 := by
  simp only [pagesOf]
  omega

theorem pagesOf_pos {size : BitVec 32} (h : size ≠ 0) : 0 < pagesOf size.toNat := by
  have hne : size.toNat ≠ 0 := fun hzero => h (BitVec.toNat_inj.mp hzero)
  rw [pagesOf]
  omega

section Call

variable {s t : SharedMemory} {d p : ℕ} {fd : ℤ} {sz : BitVec 32} {growth : ℕ → ℕ}
    {beyond : ℕ → BitVec 32} {file : ShmFile}
  {frames : List ℕ}

theorem growFrames_length (n : ℕ) : ∀ {vm : Vm} {frames : List ℕ}
    {r : Vm × List ℕ}, growFrames growth n vm frames = .ok r →
    r.2.length = frames.length+n := by
  induction n with
  | zero =>
    intro vm frames r h
    obtain rfl := Except.ok.inj h
    rfl
  | succ n ih =>
    intro vm frames r h
    obtain ⟨⟨b,q⟩,-,h⟩ := Result.bind_eq_ok.mp h
    obtain ⟨vm₁,-,h⟩ := Result.bind_eq_ok.mp h
    rw [ih h,List.length_append,List.length_singleton,Nat.add_assoc,Nat.add_comm 1]

theorem resized_grow {vm vm' : Vm} {size n : ℕ} {frames' : List ℕ}
    (hsmall : vm.pmm.bitmapSize ≤ 0x8000)
    (hnodup : frames.Nodup) (hused : ∀ f ∈ frames, vm.pmm.Used f)
    (hcount : frames.length+n = pagesOf size) (hpos : 0 < n)
    (h : growFrames growth n vm frames = .ok (vm',frames')) :
    Resized vm.pmm vm'.pmm frames frames' size ∧ vm'.pmm.bitmapSize ≤ 0x8000 := by
  have hlength := growFrames_length n h
  obtain ⟨htakes,new,rfl,hdistinct,hnew⟩ := growFrames_spec n hsmall h
  refine ⟨⟨hlength.trans hcount,fun f hf => ?_,?_,fun _ => ⟨List.prefix_append _ _,htakes.free⟩,
    fun hle => ?_⟩,?_⟩
  · rcases List.mem_append.mp hf with hf | hf
    · exact (hused f hf).takes htakes
    · exact (hnew f hf).1
  · exact List.nodup_append'.mpr ⟨hnodup,hdistinct,fun f hf hm => (hnew f hm).2 (hused f hf)⟩
  · omega
  · rw [htakes.size_eq]
    exact hsmall

/-- Giving back none of the frames, or all of them from below 2 GiB. -/
theorem resized_shrink {q : Pmm} {size n : ℕ} (hsmall : q.bitmapSize ≤ 0x8000)
    (hnodup : frames.Nodup) (hused : ∀ f ∈ frames, q.Used f)
    (hn : (n = 0 ∧ frames.length = pagesOf size) ∨
      (n = frames.length ∧ pagesOf size = 0 ∧ ∀ f ∈ frames, f < 0x80000000)) :
    Resized q (shrinkFrames beyond n q frames).1 frames (shrinkFrames beyond n q frames).2 size ∧
      (shrinkFrames beyond n q frames).1.bitmapSize ≤ 0x8000 := by
  rcases hn with ⟨rfl,hcount⟩ | ⟨rfl,hzero,hlow⟩
  · refine ⟨⟨hcount,hused,hnodup,fun _ => ⟨List.prefix_rfl,fun _ => id⟩,fun _ =>
      ⟨List.prefix_rfl,fun l => ?_⟩⟩,hsmall⟩
    rw [← hcount,List.drop_length]
    simp [shrinkFrames]
  · obtain ⟨hfreed,hleft⟩ := @shrink_inside beyond frames.length q frames hnodup le_rfl
    have hpmm := @shrinkFrames_pmm beyond frames.length q frames
    rw [hfreed,List.take_length] at hpmm
    rw [List.drop_length] at hleft
    have hlow' : ∀ f ∈ frames.reverse, f < 0x80000000 := fun f hf => hlow f (List.mem_reverse.mp hf)
    rw [hleft,hpmm]
    refine ⟨⟨hzero.symm,fun f hf => absurd hf List.not_mem_nil,List.nodup_nil,fun hle => ?_,
      fun _ => ⟨List.nil_prefix,fun l => ?_⟩⟩,freeFrames_small _ hlow' hsmall⟩
    · obtain rfl := List.length_eq_zero_iff.mp (show frames.length = 0 by omega)
      exact ⟨List.prefix_rfl,fun _ => id⟩
    · rw [isFree_freeFrames _ _ hlow',List.mem_reverse,hzero,List.drop_zero]

theorem low_of_shrunk {q : Pmm} (hnodup : frames.Nodup) (hused : ∀ f ∈ frames, q.Used f)
    (h : ∀ l, (shrinkFrames beyond frames.length q frames).1.IsFree l ↔
      q.IsFree l ∨ 0x1000*l ∈ frames) :
    ∀ f ∈ frames, f < 0x80000000 := by
  intro f hf
  obtain ⟨l,rfl,hl,hwas⟩ := hused f hf
  by_contra hhigh
  have hpmm := @shrinkFrames_pmm beyond frames.length q frames
  rw [(@shrink_inside beyond frames.length q frames hnodup le_rfl).1,List.take_length] at hpmm
  have hstays := isFree_freeFrames_high frames.reverse q
    (fun g hg => (hused g (List.mem_reverse.mp hg)).lt) l hl (by omega)
  rw [← hpmm] at hstays
  exact hwas (hstays.mp ((h l).mpr (Or.inr hf)))

/-- What the truncation of an object does: it adds frames to the list or takes some off. -/
theorem truncate_spec (hfile : s.findFile p fd = some file)
    (hframes : s.framesAt file.device = some frames)
    (h : s.kMemShmTruncate p fd sz growth beyond = .ok t) : t.files = (s.resize p fd sz).files ∧
      ((grows file.size sz ∧ ∃ frames',
        growFrames growth (pageChange file.size sz).toNat s.vm frames = .ok (t.vm,frames') ∧
          t.framesAt file.device = some frames') ∨
        (¬grows file.size sz ∧
          t.vm.pmm = (shrinkFrames beyond (shrinkCount file.size sz) s.vm.pmm frames).1 ∧
          t.framesAt file.device =
          some (shrinkFrames beyond (shrinkCount file.size sz) s.vm.pmm frames).2)) := by
  obtain ⟨node,hnode,rfl⟩ := Option.map_eq_some_iff.mp hframes
  rw [kMemShmTruncate,hfile] at h
  dsimp only at h
  rw [hnode] at h
  dsimp only at h
  by_cases hgrows : grows file.size sz
  · rw [if_pos hgrows] at h
    obtain ⟨⟨vm,frames'⟩,hgrow,h⟩ := Result.bind_eq_ok.mp h
    obtain rfl := Except.ok.inj h
    exact ⟨rfl,.inl ⟨hgrows,frames',hgrow,framesAt_setNode_self ((s.resize p fd sz).setVm vm) _ _⟩⟩
  · rw [if_neg hgrows] at h
    obtain rfl := Except.ok.inj h
    exact ⟨rfl,.inr ⟨hgrows,rfl,framesAt_setNode_self ((s.resize p fd sz).setVm _) _ _⟩⟩

theorem Owned.truncate (hs : s.Owned d) (hfile : s.findFile p fd = some file)
    (hdevice : file.device = d)
    (hframes : s.framesAt d = some frames) (hsize : sz.toNat < 0x80000000)
    (hfits : Fits frames file.size sz) (h : s.kMemShmTruncate p fd sz growth beyond = .ok t) :
    (∃ frames', t.framesAt d = some frames' ∧
      Resized s.vm.pmm t.vm.pmm frames frames' sz.toNat) ∧ t.vm.pmm.bitmapSize ≤ 0x8000 ∧
      t.files = (s.resize p fd sz).files := by
  subst hdevice
  obtain ⟨hnodup,hused⟩ := hs.frames frames hframes
  have hold := hs.sizes file (List.mem_of_find?_eq_some hfile) rfl
  obtain ⟨hcount,hcase⟩ := hfits
  obtain ⟨hfiles,⟨hgrows,frames',hgrow,hframes'⟩ | ⟨hgrows,hpmm,hframes'⟩⟩ :=
    truncate_spec hfile hframes h
  · have hlt := (grows_iff hold hsize).mp hgrows
    have hmore : frames.length+(pageChange file.size sz).toNat = pagesOf sz.toNat := by
      rw [pageChange_grow hold hsize hlt,hcount]
      rcases hcase with rfl | ⟨rfl,-⟩ | ⟨-,hcase⟩
      · omega
      · exact absurd hlt (Nat.not_lt_zero _)
      · exact (pagesOf_add_iff hlt).mpr hcase
    have hpos : 0 < (pageChange file.size sz).toNat := by
      rw [pageChange_grow hold hsize hlt,pagesOf]
      omega
    obtain ⟨hresized,hsmall⟩ := resized_grow hs.small hnodup hused hmore hpos hgrow
    exact ⟨⟨frames',hframes',hresized⟩,hsmall,hfiles⟩
  · have hle : sz.toNat ≤ file.size.toNat := not_lt.mp (mt (grows_iff hold hsize).mpr hgrows)
    have hn : (shrinkCount file.size sz = 0 ∧ frames.length = pagesOf sz.toNat) ∨
        (shrinkCount file.size sz = frames.length ∧ pagesOf sz.toNat = 0 ∧
          ∀ f ∈ frames, f < 0x80000000) := by
      rw [shrinkCount_eq hold hsize hle,hcount]
      rcases hcase with rfl | ⟨rfl,hlow⟩ | ⟨hlt,-⟩
      · exact .inl ⟨by rw [Nat.sub_self]; rfl,rfl⟩
      · exact .inr ⟨rfl,rfl,hlow⟩
      · omega
    rw [hpmm]
    obtain ⟨hresized,hsmall⟩ := @resized_shrink beyond frames _ _ _ hs.small hnodup hused hn
    exact ⟨⟨_,hframes',hresized⟩,hsmall,hfiles⟩

theorem Owned.fits (hs : s.Owned d) (hfile : s.findFile p fd = some file)
    (hdevice : file.device = d)
    (hframes : s.framesAt d = some frames) (hsize : sz.toNat < 0x80000000)
    (h : s.kMemShmTruncate p fd sz growth beyond = .ok t) {frames' : List ℕ}
    (hframes' : t.framesAt d = some frames')
    (hright : Resized s.vm.pmm t.vm.pmm frames frames' sz.toNat) : Fits frames file.size sz := by
  subst hdevice
  obtain ⟨hnodup,hused⟩ := hs.frames frames hframes
  have hmem := List.mem_of_find?_eq_some hfile
  have hold := hs.sizes file hmem rfl
  have hnodes := hs.nodes frames hframes file hmem rfl
  have hcount := hright.count
  obtain ⟨-,⟨hgrows,new,hgrow,hnew⟩ | ⟨hgrows,hpmm,hnew⟩⟩ := truncate_spec hfile hframes h
  · have hlt := (grows_iff hold hsize).mp hgrows
    obtain rfl := Option.some.inj (hnew.symm.trans hframes')
    have hlength := growFrames_length _ hgrow
    rw [pageChange_grow hold hsize hlt] at hlength
    have hsum : frames.length+pagesOf (sz.toNat-file.size.toNat) = pagesOf sz.toNat :=
      hlength.symm.trans hcount
    rcases hnodes with hzero | hpages
    · rw [hzero] at hsum ⊢
      exact ⟨by change frames.length = 0; change _+pagesOf sz.toNat = _ at hsum; omega,
        .inr (.inr ⟨by rwa [hzero] at hlt,.inl rfl⟩)⟩
    · rw [hpages] at hsum
      exact ⟨hpages,.inr (.inr ⟨hlt,(pagesOf_add_iff hlt).mp hsum⟩)⟩
  · have hle : sz.toNat ≤ file.size.toNat := not_lt.mp (mt (grows_iff hold hsize).mpr hgrows)
    obtain rfl := Option.some.inj (hnew.symm.trans hframes')
    rw [hpmm] at hright
    rw [shrinkCount_eq hold hsize hle] at hcount hright
    rcases hnodes with hzero | hpages
    · have hsz : sz = 0 := by
        rw [hzero] at hle
        exact BitVec.toNat_inj.mp (Nat.le_zero.mp hle)
      rw [hzero,hsz] at hcount ⊢
      exact ⟨hcount,.inl rfl⟩
    · refine ⟨hpages,?_⟩
      by_cases hsame : sz = file.size
      · exact .inl hsame
      · right
        left
        have hlt : sz.toNat < file.size.toNat :=
          lt_of_le_of_ne hle fun hc => hsame (BitVec.toNat_inj.mp hc)
        have hn : pagesOf (file.size.toNat-sz.toNat) ≤ frames.length := by
          rw [hpages,pagesOf,pagesOf]
          omega
        have hpos : 0 < pagesOf (file.size.toNat-sz.toNat) := by
          rw [pagesOf]
          omega
        obtain ⟨-,hleft⟩ := @shrink_inside beyond _ s.vm.pmm _ hnodup hn
        rw [hleft] at hcount hright
        have hless : pagesOf sz.toNat ≤ frames.length := by
          rw [← hcount,List.length_drop]
          omega
        obtain ⟨hinitial,hfree⟩ := hright.shrunk hless
        by_cases hne : sz = 0
        · refine ⟨hne,@low_of_shrunk beyond frames _ hnodup hused ?_⟩
          subst hne
          rwa [show pagesOf (file.size.toNat-(0 : BitVec 32).toNat) =
            frames.length from hpages.symm,
            show pagesOf (0 : BitVec 32).toNat = 0 from rfl,List.drop_zero] at hfree
        exfalso
        generalize pagesOf (file.size.toNat-sz.toNat) = n at *
        -- the list left over would begin with the first frame, which has been given back
        have hkept := pagesOf_pos hne
        rw [List.length_drop] at hcount
        have hfirst := hinitial.getElem (i:=0) (by rw [List.length_drop]; omega)
        rw [List.getElem_drop] at hfirst
        have hindex := hnodup.getElem_inj_iff.mp hfirst
        omega

end Call

section Runs

variable {s s₀ t : SharedMemory} {d : ℕ}

theorem Fresh.owned (h : s.Fresh d) : s.Owned d where
  small := h.small
  frames frames hframes := by
    rw [h.frames] at hframes
    obtain rfl := Option.some.inj hframes
    exact ⟨List.nodup_nil,fun f hf => absurd hf List.not_mem_nil⟩
  sizes file hfile hdevice := by
    rw [h.sizes file hfile hdevice]
    decide
  nodes _ _ file hfile hdevice := .inl (h.sizes file hfile hdevice)
  single f hf _ _ hdevice _ hne _ := absurd (h.sizes f hf hdevice) hne

theorem Owned.truncate_owned (hs : s.Owned d) {p : ℕ} {fd : ℤ} {sz : BitVec 32} {growth : ℕ → ℕ}
    {beyond : ℕ → BitVec 32}
    {file : ShmFile} {frames : List ℕ} (hfile : s.findFile p fd = some file)
    (hdevice : file.device = d)
    (hframes : s.framesAt d = some frames) (hsize : sz.toNat < 0x80000000)
    (hfits : Fits frames file.size sz)
    (h : s.kMemShmTruncate p fd sz growth beyond = .ok t) : t.Owned d := by
  obtain ⟨⟨frames',hframes',hresized⟩,hsmall,hfiles⟩ :=
    hs.truncate hfile hdevice hframes hsize hfits h
  have hmem := List.mem_of_find?_eq_some hfile
  have hkey : file.process = p ∧ file.fd = fd := by simpa using List.find?_some hfile
  -- every node of the object has the new size or the size 0
  have hnode : ∀ g ∈ t.files, g.device = d → (g.process = p ∧ g.fd = fd ∧ g.size = sz) ∨
      g.size = 0 := by
    intro g hg hgd
    rw [hfiles] at hg
    obtain ⟨g',hg',rfl⟩ := List.mem_map.mp hg
    by_cases hself : g'.process = p ∧ g'.fd = fd
    · rw [if_pos hself]
      exact .inl ⟨hself.1,hself.2,rfl⟩
    · rw [if_neg hself] at hgd ⊢
      by_contra hother
      push Not at hother
      obtain ⟨-,hne⟩ := hother
      have hlength := (hs.nodes frames hframes g' hg' hgd).resolve_left hne
      have hpos := pagesOf_pos hne
      have hzero : file.size ≠ 0 := fun hzero => by
        have hnone : frames.length = 0 := by rw [hfits.1,hzero]; rfl
        omega
      obtain ⟨h1,h2⟩ := hs.single g' hg' file hmem hgd hdevice hne hzero
      exact hself ⟨h1.trans hkey.1,h2.trans hkey.2⟩
  refine ⟨hsmall,fun fs hfs => ?_,fun g hg hgd => ?_,fun fs hfs g hg hgd => ?_,
    fun f hf g hg hfd hgd hfne hgne => ?_⟩
  · rw [hframes'] at hfs
    obtain rfl := Option.some.inj hfs
    exact ⟨hresized.nodup,hresized.used⟩
  · rcases hnode g hg hgd with ⟨-,-,hg⟩ | hg
    · rwa [hg]
    · rw [hg]
      decide
  · rw [hframes'] at hfs
    obtain rfl := Option.some.inj hfs
    exact (hnode g hg hgd).symm.imp id fun hg => by rw [hg.2.2,hresized.count]
  · obtain ⟨h1,h2,-⟩ := (hnode f hf hfd).resolve_right hfne
    obtain ⟨h3,h4,-⟩ := (hnode g hg hgd).resolve_right hgne
    exact ⟨h1.trans h3.symm,h2.trans h4.symm⟩

theorem Owned.opened (hs : s.Owned d) {p mode growth : ℕ} {fd : ℤ} {path : String}
    (hpath : s.kMemShmFinddir path = some d)
    (h : s.kFsVfsOpen p fd path mode growth = .ok t) : t.Owned d := by
  obtain ⟨vm,hgrow,h⟩ := Result.bind_eq_ok.mp h
  have htakes := Vm.growHeap_takes hgrow
  have hfind : (s.setVm vm).kMemShmFinddir path = some d := hpath
  dsimp only at h
  rw [hfind] at h
  obtain rfl := Except.ok.inj h
  obtain ⟨hvm,-⟩ := addFile_same (s.setVm vm) p fd d mode
  have hsame := addFile_framesAt (s.setVm vm) p fd d mode
  have hnode : ∀ g ∈ ((s.setVm vm).addFile p fd d mode).files, g ∈ s.files ∨ g.size = 0 := by
    intro g hg
    rcases List.mem_append.mp (show g ∈ s.files++[⟨p,fd,d,0,mode⟩] from hg) with hg | hg
    · exact .inl hg
    · exact .inr (by rw [List.mem_singleton.mp hg])
  refine ⟨?_,fun fs hfs => ?_,fun g hg hgd => ?_,fun fs hfs g hg hgd => ?_,
    fun f hf g hg hfd hgd hfne hgne => ?_⟩
  · rw [hvm]
    exact htakes.size_eq.trans_le hs.small
  · rw [hsame] at hfs
    obtain ⟨hnodup,hused⟩ := hs.frames fs hfs
    rw [hvm]
    exact ⟨hnodup,fun f hf => (hused f hf).takes htakes⟩
  · rcases hnode g hg with hg | hg
    · exact hs.sizes g hg hgd
    · rw [hg]
      decide
  · rw [hsame] at hfs
    rcases hnode g hg with hg | hg
    · exact hs.nodes fs hfs g hg hgd
    · exact .inl hg
  · exact hs.single f ((hnode f hf).resolve_right hfne) g ((hnode g hg).resolve_right hgne)
      hfd hgd hfne hgne

theorem Owned.call (hs : s.Owned d) (h : Call d Fits s t) : t.Owned d := by
  cases h with
  | truncate hfile hdevice hframes hsize hfits h =>
    exact hs.truncate_owned hfile hdevice hframes hsize hfits h
  | opened hpath h => exact hs.opened hpath h
  | other hnodes hfiles hsmall hused =>
    have hsame : t.framesAt d = s.framesAt d := by rw [framesAt,framesAt,hnodes]
    refine ⟨hsmall,fun fs hfs => ?_,?_,?_,?_⟩
    · rw [hsame] at hfs
      obtain ⟨hnodup,hin⟩ := hs.frames fs hfs
      exact ⟨hnodup,fun f hf => hused fs hfs f hf (hin f hf)⟩
    · rw [hfiles]
      exact hs.sizes
    · rw [hsame,hfiles]
      exact hs.nodes
    · rw [hfiles]
      exact hs.single

/-- In a run whose truncations all fit, the next one does what it is for exactly if it fits. -/
theorem truncates_right_iff (h₀ : s₀.Fresh d) (hrun : Relation.ReflTransGen (Call d Fits) s₀ s)
    {p : ℕ} {fd : ℤ} {sz : BitVec 32}
    {growth : ℕ → ℕ} {beyond : ℕ → BitVec 32} {file : ShmFile} {frames : List ℕ}
    (hfile : s.findFile p fd = some file)
    (hdevice : file.device = d) (hframes : s.framesAt d = some frames)
    (hsize : sz.toNat < 0x80000000) (h : s.kMemShmTruncate p fd sz growth beyond = .ok t) :
    (∃ frames', t.framesAt d = some frames' ∧ Resized s.vm.pmm t.vm.pmm frames frames' sz.toNat) ↔
      Fits frames file.size sz := by
  have hs : s.Owned d :=
    reach_invariant (I:=fun s : SharedMemory => s.Owned d) (fun _ _ hs hcall =>
      Owned.call hs hcall) h₀.owned hrun
  exact ⟨fun ⟨_,hframes',hright⟩ => hs.fits hfile hdevice hframes hsize h hframes' hright,
    fun hfits => (hs.truncate hfile hdevice hframes hsize hfits h).1⟩

def oneNode : SharedMemory where
  vm := Vm.kernelMachine
  directories _ := 0x100
  mmapStart _ := 0
  blocks _ := []
  nodes d := if d = 0 then some ⟨"shm",[],1⟩ else none
  root := [0]
  files := [⟨1,3,0,0,2⟩]
  nextNode := 1

def truncateNode (s : SharedMemory) (sz : BitVec 32) : Result SharedMemory :=
  s.kMemShmTruncate 1 3 sz (fun _ => 0) fun _ => 0

theorem oneNode_fresh : oneNode.Fresh 0 where
  small := by decide
  frames := rfl
  sizes file hfile _ := by rw [List.mem_singleton.mp hfile]

theorem truncates_right_iff_first : ∃ t, truncateNode oneNode 0x2000 = .ok t ∧
    ((∃ frames', t.framesAt 0 = some frames' ∧ Resized oneNode.vm.pmm t.vm.pmm [] frames' 0x2000) ↔
      Fits [] 0 0x2000) := by
  have hret : (truncateNode oneNode 0x2000).toOption.isSome = true := by decide +kernel
  obtain ⟨t,hret⟩ := Option.isSome_iff_exists.mp hret
  have hret := Result.eq_ok_of_toOption hret
  have hfile : oneNode.findFile 1 3 = some ⟨1,3,0,0,2⟩ := rfl
  exact ⟨t,hret,truncates_right_iff oneNode_fresh .refl hfile rfl rfl (by decide) hret⟩

/-- An object of 100 bytes gets a second page when it grows to 200 bytes. -/
theorem second_page_for_200_bytes : ¬∀ (d : ℕ) (s₀ s t : SharedMemory), s₀.Fresh d →
    Relation.ReflTransGen (Call d fun _ _ _ => True) s₀ s →
    ∀ (p : ℕ) (fd : ℤ) (sz : BitVec 32) (growth : ℕ → ℕ)
      (beyond : ℕ → BitVec 32) (file : ShmFile) (frames : List ℕ), s.findFile p fd = some file →
      file.device = d → s.framesAt d = some frames → sz.toNat < 0x80000000 →
      s.kMemShmTruncate p fd sz growth beyond = .ok t → ∃ frames', t.framesAt d = some frames' ∧
      Resized s.vm.pmm t.vm.pmm frames frames' sz.toNat := by
  intro hright
  have hrun :
    (truncateNode oneNode 100).toOption.any
    (fun s : SharedMemory => (truncateNode s 200).toOption.any
      fun t : SharedMemory =>
        decide ((s.findFile 1 3).map ShmFile.device = some 0 ∧ (s.framesAt 0).isSome ∧
        (t.framesAt 0).map List.length = some 2)) = true := by decide +kernel
  obtain ⟨s,hs,hrun⟩ := (Option.any_eq_true _ _).mp hrun
  obtain ⟨t,ht,hfacts⟩ := (Option.any_eq_true _ _).mp hrun
  obtain ⟨hfile,hframes,hlength⟩ := of_decide_eq_true hfacts
  obtain ⟨file,hfile,hdevice⟩ := Option.map_eq_some_iff.mp hfile
  obtain ⟨frames,hframes⟩ := Option.isSome_iff_exists.mp hframes
  have hfirst : oneNode.findFile 1 3 = some ⟨1,3,0,0,2⟩ := rfl
  have hcall : Call 0 (fun _ _ _ => True) oneNode s :=
    .truncate hfirst rfl rfl (by decide) trivial (Result.eq_ok_of_toOption hs)
  obtain ⟨frames',hframes',hresized⟩ :=
    hright 0 oneNode s t oneNode_fresh (.single hcall) 1 3 200 _ _ file frames hfile hdevice
    hframes (by decide) (Result.eq_ok_of_toOption ht)
  rw [hframes'] at hlength
  have hcount := hresized.count
  rw [Option.some.inj hlength] at hcount
  exact absurd hcount (by decide)

end Runs

end SharedMemory
end ScalesOS
