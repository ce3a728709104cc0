import ScalesOS.LinkedChain
import ScalesOS.Machine

/-!
# Clipping

The clip list of a framebuffer. A new node goes behind the nodes with a larger `x0`, but
never before the first one, and the `next` field of a first node is what `malloc` left there:
with a first node that ends and has the largest `x0` the list holds each rectangle once.
-/

namespace ScalesOS
namespace Framebuffer

open LinkedChain

abbrev Ptr := BitVec 32

structure Rect where
  x0 : BitVec 32
  y0 : BitVec 32
  w : BitVec 32
  h : BitVec 32

/-- `clip_t`. -/
structure Clip extends Rect where
  next : Ptr

/-- The field `clips` of `fb_t` and the clips that `malloc` has given. -/
structure Fb where
  clips : Ptr
  node : Ptr → Option Clip

namespace Rect

/-- The test of `fb_is_clipped`: the sums are unsigned, and so are the comparisons with them. -/
def tests (r : Rect) (x y : BitVec 32) : Bool :=
  r.x0.sle x && r.y0.sle y && x.ule (r.x0+r.w) && y.ule (r.y0+r.h)

/-- The point lies in the rectangle, whose border belongs to it. -/
def Covers (r : Rect) (x y : BitVec 32) : Prop :=
  r.x0.toInt ≤ x.toInt ∧ r.y0.toInt ≤ y.toInt ∧ x.toInt ≤ r.x0.toInt+r.w.toNat ∧
    y.toInt ≤ r.y0.toInt+r.h.toNat

/-- No negative corner, and no sum that wraps. -/
def Plain (r : Rect) : Prop :=
  0 ≤ r.x0.toInt ∧ 0 ≤ r.y0.toInt ∧ r.x0.toNat+r.w.toNat < 2^32 ∧ r.y0.toNat+r.h.toNat < 2^32

instance (r : Rect) : Decidable r.Plain := inferInstanceAs (Decidable (_ ∧ _))

end Rect

namespace Fb

/-- What `fb_open` leaves: it does not store into the field `clips`. -/
def opened (old : Ptr) : Fb := ⟨old,fun _ => none⟩

/-- What `fb_open_mem` leaves. -/
def fresh : Fb := opened 0

def deref (fb : Fb) (p : Ptr) : Result Clip :=
  match fb.node p with
  | some c => pure c
  | none => throw (.panic "no clip")

def store (fb : Fb) (p : Ptr) (c : Clip) : Fb :=
  { fb with node := Function.update fb.node p (some c) }

def free (fb : Fb) (p : Ptr) : Fb := { fb with node := Function.update fb.node p none }

/-- The loop of `fb_clip`, which leaves `last` and `cl`. -/
def seek (fb : Fb) (x0 : BitVec 32) : ℕ → Ptr → Ptr → Result (Ptr × Ptr)
  | 0, _, _ => throw .loop
  | fuel+1, last, cl =>
    if cl = 0 then pure (last,cl)
    else do
      let c ← fb.deref cl
      if x0.slt c.x0 then fb.seek x0 fuel cl c.next else pure (last,cl)

/-- `malloc` has returned `p`, with `junk` in the field `next`. -/
def fbClip (fb : Fb) (fuel : ℕ) (p junk : Ptr) (r : Rect) : Result Fb := do
  let fb := fb.store p ⟨r,junk⟩
  if fb.clips = 0 then pure { fb with clips := p }
  else
    let (last,cl) ← fb.seek r.x0 fuel fb.clips fb.clips
    let c ← fb.deref last
    let fb := fb.store last { c with next := p }
    let clip ← fb.deref p
    pure (fb.store p { clip with next := cl })

/-- The loop of `fb_unclip`, with the nodes it frees. -/
def freeAll : ℕ → Fb → Ptr → Result (Fb × List Ptr)
  | 0, _, _ => throw .loop
  | fuel+1, fb, cl =>
    if cl = 0 then pure (fb,[])
    else do
      let c ← fb.deref cl
      let (fb,freed) ← freeAll fuel (fb.free cl) c.next
      pure (fb,cl::freed)

def fbUnclip (fb : Fb) (fuel : ℕ) : Result (Fb × List Ptr) := do
  let (fb,freed) ← freeAll fuel fb fb.clips
  pure ({ fb with clips := 0 },freed)

def search (fb : Fb) (x y : BitVec 32) : ℕ → Ptr → Result Bool
  | 0, _ => throw .loop
  | fuel+1, cl =>
    if cl = 0 then pure false
    else do
      let c ← fb.deref cl
      if c.tests x y then pure true else fb.search x y fuel c.next

def fbIsClipped (fb : Fb) (fuel : ℕ) (x y : BitVec 32) : Result Bool := fb.search x y fuel fb.clips

def link (p : Ptr) : Option Ptr := if p = 0 then none else some p

def next (fb : Fb) (p : Ptr) : Option Ptr := (fb.node p).bind fun c => link c.next

/-- The list leads through all nodes there are; the rectangles come with the clipped ones in
some order, the first one first. -/
structure Chain (fb : Fb) (nodes : List Ptr) (rects : List Rect) : Prop where
  segment : Segment fb.next (link fb.clips) nodes none
  mem_iff : ∀ p, p ∈ nodes ↔ (fb.node p).isSome = true
  perm : (nodes.filterMap fun p => (fb.node p).map Clip.toRect).Perm rects
  first : (nodes.head?.bind fb.node).map Clip.toRect = rects.head?

/-- The list ends and has each rectangle once. -/
def Linked (fb : Fb) (rects : List Rect) : Prop := ∃ nodes, fb.Chain nodes rects

variable {fb fb' : Fb} {p q junk : Ptr} {r : Rect} {c : Clip} {rects : List Rect}
    {nodes : List Ptr} {x y : BitVec 32}

theorem deref_some (h : fb.node p = some c) : fb.deref p = .ok c := by rw [deref,h]; rfl

theorem link_of_ne (hp : p ≠ 0) : link p = some p := if_neg hp

theorem eq_of_link (h : link p = some q) : p = q ∧ p ≠ 0 := by
  rw [link] at h
  split at h
  · cases h
  · rename_i hp
    exact ⟨Option.some.inj h,hp⟩

theorem eq_zero_of_link (h : link p = none) : p = 0 := by
  by_contra hp
  rw [link_of_ne hp] at h
  cases h

theorem next_eq (h : fb.node p = some c) : fb.next p = link c.next := by rw [next,h]; rfl

theorem search_spec {cl : Ptr} (hseg : Segment fb.next (link cl) nodes none)
    (hnode : ∀ p ∈ nodes, (fb.node p).isSome = true)
    (x y : BitVec 32) : ∃ b, fb.search x y (nodes.length+1) cl = .ok b ∧
      (b = true ↔ ∃ r ∈ nodes.filterMap fun p => (fb.node p).map Clip.toRect,
        r.tests x y = true) := by
  induction nodes generalizing cl with
  | nil =>
    obtain rfl := eq_zero_of_link hseg
    exact ⟨false,rfl,by simp⟩
  | cons p nodes ih =>
    obtain ⟨rfl,hcl⟩ := eq_of_link hseg.1
    obtain ⟨c,hc⟩ := Option.isSome_iff_exists.mp (hnode cl List.mem_cons_self)
    obtain ⟨b,hret,hb⟩ := ih (next_eq hc ▸ hseg.2) fun p hp => hnode p (List.mem_cons_of_mem _ hp)
    have hrects : (cl::nodes).filterMap (fun p => (fb.node p).map Clip.toRect) =
        c.toRect::nodes.filterMap fun p => (fb.node p).map Clip.toRect := by
      rw [List.filterMap_cons,hc]
      rfl
    rw [hrects,List.length_cons,search,if_neg hcl,deref_some hc]
    simp only [bind,Except.bind]
    by_cases htest : c.tests x y = true
    · exact ⟨true,by rw [if_pos htest]; rfl,by simp [htest]⟩
    · exact ⟨b,by rw [if_neg htest,hret],by simp [htest,hb]⟩

theorem freeAll_spec {cl : Ptr} (hseg : Segment fb.next (link cl) nodes none)
    (hmem : ∀ p, p ∈ nodes ↔ (fb.node p).isSome = true) :
    freeAll (nodes.length+1) fb cl = .ok (⟨fb.clips,fun _ => none⟩,nodes) := by
  induction nodes generalizing fb cl with
  | nil =>
    obtain rfl := eq_zero_of_link hseg
    have hnone : fb.node = fun _ => none := funext fun p =>
      Option.not_isSome_iff_eq_none.mp ((hmem p).not.mp List.not_mem_nil)
    rw [← hnone]
    rfl
  | cons p nodes ih =>
    have hnodup := hseg.nodup
    obtain ⟨hp,hnodup'⟩ := List.nodup_cons.mp hnodup
    obtain ⟨rfl,hcl⟩ := eq_of_link hseg.1
    obtain ⟨c,hc⟩ := Option.isSome_iff_exists.mp ((hmem cl).mp List.mem_cons_self)
    have hne : ∀ q ∈ nodes, q ≠ cl := fun q hq he => hp (he ▸ hq)
    have hseg' : Segment (fb.free cl).next (link c.next) nodes none :=
      (next_eq hc ▸ hseg.2).congr fun q hq => by simp [next,free,hne q hq]
    have hret := ih hseg' fun q => by
      by_cases hq : q = cl
      · simp [free,hq,hp]
      · simpa [free,hq] using hmem q
    rw [List.length_cons,freeAll,if_neg hcl,deref_some hc]
    simp only [bind,Except.bind,hret]
    rfl

theorem seek_spec {x0 : BitVec 32} {last cl : Ptr} (hseg : Segment fb.next (link cl) nodes none)
    (hnode : ∀ p ∈ nodes, (fb.node p).isSome = true) :
    ∃ front back cl', nodes = front++back ∧ fb.seek x0 (nodes.length+1) last cl =
      .ok ((last::front).getLast (by simp),cl') ∧
      Segment fb.next (link cl') back none ∧ link cl' = back.head? ∧
      (∀ c, (nodes.head?.bind fb.node) = some c → (front = [] ↔ ¬ x0.slt c.x0 = true)) := by
  induction nodes generalizing last cl with
  | nil =>
    obtain rfl := eq_zero_of_link hseg
    exact ⟨[],[],0,rfl,rfl,hseg,rfl,by simp⟩
  | cons p nodes ih =>
    obtain ⟨rfl,hcl⟩ := eq_of_link hseg.1
    obtain ⟨c,hc⟩ := Option.isSome_iff_exists.mp (hnode cl List.mem_cons_self)
    rw [List.length_cons,seek,if_neg hcl,deref_some hc]
    simp only [bind,Except.bind]
    by_cases hlt : x0.slt c.x0 = true
    · obtain ⟨front,back,cl',rfl,hret,hback,hlink,-⟩ :=
        @ih cl _ (next_eq hc ▸ hseg.2) fun p hp => hnode p (List.mem_cons_of_mem _ hp)
      refine ⟨cl::front,back,cl',rfl,?_,hback,hlink,by simp [hc,hlt]⟩
      rw [if_pos hlt,hret,List.getLast_cons (List.cons_ne_nil cl front)]
    · exact ⟨[],cl::nodes,cl,rfl,by rw [if_neg hlt]; rfl,hseg,link_of_ne hcl,by simp [hc,hlt]⟩

/-- Where the next rectangle has to lie: the memory of a first node ends the list, and no later
node belongs before the first one. -/
def Placed : List Rect → Ptr → Rect → Prop
  | [], junk, _ => junk = 0
  | first::_, _, r => r.x0.toInt < first.x0.toInt

theorem Chain.nodes_eq_nil (h : fb.Chain nodes []) : nodes = [] := by
  refine List.eq_nil_iff_forall_not_mem.mpr fun p hp => ?_
  obtain ⟨c,hc⟩ := Option.isSome_iff_exists.mp ((h.mem_iff p).mp hp)
  have hmem : c.toRect ∈ nodes.filterMap fun p => (fb.node p).map Clip.toRect :=
    List.mem_filterMap.mpr ⟨p,hp,by rw [hc]; rfl⟩
  rw [h.perm.eq_nil] at hmem
  cases hmem

theorem Chain.head {first : Rect} (h : fb.Chain nodes (first::rects)) :
    ∃ q rest c, nodes = q::rest ∧ fb.clips = q ∧ q ≠ 0 ∧ fb.node q = some c ∧ c.toRect = first := by
  have hfirst := h.first
  cases nodes with
  | nil => cases hfirst
  | cons q rest =>
    obtain ⟨hq,hne⟩ := eq_of_link h.segment.1
    obtain ⟨c,hc⟩ := Option.isSome_iff_exists.mp ((h.mem_iff q).mp List.mem_cons_self)
    refine ⟨q,rest,c,rfl,hq,hq ▸ hne,hc,?_⟩
    simp only [List.head?_cons,Option.bind_some,hc,Option.map_some] at hfirst
    exact Option.some.inj hfirst

theorem Chain.clip_first (h : fb.Chain nodes []) (hp : p ≠ 0) (fuel : ℕ) (r : Rect) :
    ∃ fb', fb.fbClip fuel p 0 r = .ok fb' ∧ fb'.Chain [p] [r] := by
  obtain rfl := h.nodes_eq_nil
  have hclips : fb.clips = 0 := eq_zero_of_link h.segment
  have hnone : ∀ q, fb.node q = none := fun q =>
    Option.not_isSome_iff_eq_none.mp ((h.mem_iff q).not.mp List.not_mem_nil)
  refine ⟨{ fb.store p ⟨r,0⟩ with clips := p },if_pos hclips,?_,fun q => ?_,?_,?_⟩
  · exact ⟨link_of_ne hp,next_eq (c:=⟨r,0⟩) (by simp [store])⟩
  · by_cases hq : q = p
    · simp [store,hq]
    · simp [store,hq,hnone]
  · simp [store]
  · simp [store]

theorem Chain.insert {l back : List Ptr} {x₀ cl : Ptr} (h : fb.Chain (l++x₀::back) rects)
    (hx : fb.node x₀ = some c) (hp : p ≠ 0) (hnew : fb.node p = none) (hcl : link cl = back.head?)
    (hnode : fb'.node = Function.update (Function.update fb.node x₀ (some { c with next := p }))
      p (some ⟨r,cl⟩))
    (hclips : fb'.clips = fb.clips) : fb'.Chain (l++x₀::p::back) (rects++[r]) := by
  have hnodup := h.segment.nodup
  have hout : p ∉ l++x₀::back := fun hmem => by simpa [hnew] using (h.mem_iff p).mp hmem
  have hpx : p ≠ x₀ := fun he => hout (by simp [he])
  have hrect :
      ∀ q, q ≠ p → (fb'.node q).map Clip.toRect = (fb.node q).map Clip.toRect := fun q hq => by
    rw [hnode,Function.update_of_ne hq]
    by_cases he : q = x₀
    · simp [he,hx]
    · rw [Function.update_of_ne he]
  have hnext : fb'.next = Function.update (Function.update fb.next x₀ (some p)) p (link cl) := by
    funext q
    rw [Fb.next,hnode]
    by_cases hq : q = p
    · simp [hq]
    · rw [Function.update_of_ne hq,Function.update_of_ne hq]
      by_cases he : q = x₀
      · simp [he,link_of_ne hp]
      · rw [Function.update_of_ne he,Function.update_of_ne he,Fb.next]
  refine ⟨?_,fun q => ?_,?_,?_⟩
  · have hseg := h.segment
    rw [hclips,hnext]
    rw [List.append_cons,segment_append] at hseg
    obtain ⟨d,hfront,hrest⟩ := hseg
    obtain rfl := hrest.head.trans hcl.symm
    obtain ⟨hl,hback,hdisj⟩ := List.nodup_append.mp hnodup
    exact hfront.insert hrest (fun hm =>
      hdisj _ hm _ List.mem_cons_self rfl) (List.nodup_cons.mp hback).1
      (fun hm => hout (List.mem_append_left _ hm)) (fun hm => hout (by simp [hm])) hpx
  · by_cases hq : q = p
    · simp [hnode,hq]
    · have := h.mem_iff q
      have hsome : (fb'.node q).isSome = (fb.node q).isSome := by
        have := congrArg Option.isSome (hrect q hq)
        simpa using this
      rw [hsome,← this]
      simp [hq]
  · have hkept : ∀ part : List Ptr, (∀ q ∈ part, q ≠ p) →
        part.filterMap (fun q => (fb'.node q).map Clip.toRect) = part.filterMap fun q =>
        (fb.node q).map Clip.toRect :=
      fun part hpart => List.filterMap_congr fun q hq => hrect q (hpart q hq)
    have hself : (fb'.node p).map Clip.toRect = some r := by simp [hnode]
    have hnodes : l++x₀::p::back = (l++[x₀])++p::back := by simp
    rw [hnodes,List.filterMap_append,List.filterMap_cons,hself,
      hkept _ fun q hq he => hout (he ▸ by grind),hkept _ fun q hq he => hout (he ▸ by grind)]
    refine List.perm_middle.trans
      ((List.Perm.cons r ?_).trans (List.perm_append_singleton r rects).symm)
    rw [← List.filterMap_append,← List.append_cons]
    exact h.perm
  · have hhead : (l++x₀::p::back).head? = (l++x₀::back).head? := by cases l <;> rfl
    have hne : rects ≠ [] := fun he => by
      have hnil := (he ▸ h).nodes_eq_nil
      simp at hnil
    rw [hhead,List.head?_append_of_ne_nil _ hne,← h.first]
    cases hq : (l++x₀::back).head? with
    | none => rfl
    | some q =>
      exact hrect q fun he => hout (he ▸ List.mem_of_head? hq)

theorem store_next_congr (hnew : fb.node p = none) (hq : (fb.node q).isSome = true) :
    (fb.store p c).next q = fb.next q := by
  have hne : q ≠ p := fun he => by simp [he,hnew] at hq
  simp [Fb.next,store,hne]

theorem Chain.clip_behind {first : Rect} (h : fb.Chain nodes (first::rects)) (hp : p ≠ 0)
    (hnew : fb.node p = none) (hlt : r.x0.toInt < first.x0.toInt) (junk : Ptr) :
    ∃ fb', fb.fbClip (nodes.length+1) p junk r = .ok fb' ∧ fb'.Linked (first::rects++[r]) := by
  obtain ⟨q,rest,c,hnodes,hclips,hq,hc,rfl⟩ := h.head
  have hne : ∀ a, (fb.node a).isSome = true → a ≠ p := fun a ha he => by simp [he,hnew] at ha
  have hstored : ∀ a, a ≠ p → (fb.store p ⟨r,junk⟩).node a = fb.node a := fun a ha =>
    Function.update_of_ne ha _ _
  have hseg : Segment (fb.store p ⟨r,junk⟩).next (link fb.clips) nodes none :=
    h.segment.congr fun a ha => store_next_congr hnew ((h.mem_iff a).mp ha)
  obtain ⟨front,back,cl,hsplit,hseek,-,hlink,hstart⟩ :=
    @seek_spec _ _ r.x0 fb.clips _ hseg fun a ha => by
    have hsome := (h.mem_iff a).mp ha
    rwa [hstored a (hne a hsome)]
  have hhead : nodes.head?.bind (fb.store p ⟨r,junk⟩).node = some c := by
    rw [hnodes,List.head?_cons,Option.bind_some,hstored q (hne q (by simp [hc])),hc]
  have hfront : front ≠ [] := fun he => by
    refine (hstart c hhead).mp he ?_
    rw [BitVec.slt_iff_toInt_lt]
    exact hlt
  obtain ⟨l,x₀,rfl⟩ := (List.eq_nil_or_concat' front).resolve_left hfront
  have hx₀ : x₀ ∈ nodes := by simp [hsplit]
  obtain ⟨cx,hcx⟩ := Option.isSome_iff_exists.mp ((h.mem_iff x₀).mp hx₀)
  have hxp : x₀ ≠ p := hne x₀ (by simp [hcx])
  have hlast : (fb.clips::(l++[x₀])).getLast (by simp) = x₀ := by simp
  rw [List.append_assoc] at hsplit
  refine ⟨((fb.store p ⟨r,junk⟩).store x₀ { cx with next := p }).store p ⟨r,cl⟩,?_,
    l++x₀::p::back,?_⟩
  · rw [fbClip,if_neg (by rw [show (fb.store p ⟨r,junk⟩).clips =
      fb.clips from rfl,hclips]; exact hq)]
    have hclips' : (fb.store p ⟨r,junk⟩).clips = fb.clips := rfl
    rw [hclips',hseek,hlast]
    simp only [bind,Except.bind]
    rw [deref_some (c:=cx) (by rw [hstored x₀ hxp,hcx])]
    simp only
    rw [deref_some (c:=⟨r,junk⟩) (by simp [store,Ne.symm hxp])]
    rfl
  · refine (hsplit ▸ h).insert hcx hp hnew hlink ?_ rfl
    funext a
    simp only [store,Function.update_apply]
    split_ifs <;> rfl

theorem Chain.clip (h : fb.Chain nodes rects) (hp : p ≠ 0) (hnew : fb.node p = none)
    (hplaced : Placed rects junk r) :
    ∃ fb', fb.fbClip (nodes.length+1) p junk r = .ok fb' ∧ fb'.Linked (rects++[r]) := by
  cases rects with
  | nil =>
    obtain rfl : junk = 0 := hplaced
    obtain ⟨fb',hret,hchain⟩ := h.clip_first hp (nodes.length+1) r
    exact ⟨fb',hret,[p],hchain⟩
  | cons first rects => exact h.clip_behind hp hnew hplaced junk

theorem Linked.two (h : fb.Linked rects) (hp : link fb.clips = some p) :
    fb.next p = none ∨ ∃ q, fb.next p = some q ∧ (fb.node q).isSome = true ∧ q ≠ p ∧
    fb.next q ≠ some p := by
  obtain ⟨nodes,h⟩ := h
  have hseg := h.segment
  have hnodup := hseg.nodup
  have hmem := h.mem_iff
  rw [hp] at hseg
  match nodes,hseg,hnodup,hmem with
  | [],hseg,_,_ => cases hseg
  | [a],hseg,_,_ =>
    obtain ⟨ha,hend⟩ := hseg
    exact .inl (Option.some.inj ha ▸ hend)
  | a::b::nodes,hseg,hnodup,hmem =>
    obtain ⟨ha,hb,hrest⟩ := hseg
    obtain rfl := Option.some.inj ha
    refine .inr ⟨b,hb,(hmem b).mp (by simp),fun he => by simp [he] at hnodup,fun he => ?_⟩
    have hhead := hrest.head
    rw [he] at hhead
    have hin := List.mem_of_head? hhead.symm
    simp [hin] at hnodup

theorem Chain.placed (h : fb.Chain nodes rects) (hp : p ≠ 0) (hnew : fb.node p = none) {fuel : ℕ}
    (hret : fb.fbClip fuel p junk r = .ok fb') (hlinked : fb'.Linked (rects++[r])) :
    Placed rects junk r := by
  cases rects with
  | nil =>
    obtain rfl := h.nodes_eq_nil
    have hclips : fb.clips = 0 := eq_zero_of_link h.segment
    rw [fbClip,if_pos (show (fb.store p ⟨r,junk⟩).clips = 0 from hclips)] at hret
    obtain rfl := Except.ok.inj hret
    have hnext : Fb.next { fb.store p ⟨r,junk⟩ with clips := p } p = link junk :=
      next_eq (c:=⟨r,junk⟩) (by simp [store])
    rcases hlinked.two (link_of_ne hp) with hend | ⟨q,hq,hsome,hne,-⟩
    · exact eq_zero_of_link (hnext.symm.trans hend)
    · have hnone := (h.mem_iff q).not.mp List.not_mem_nil
      simp [store,hne,hnone] at hsome
  | cons first rects =>
    obtain ⟨q,rest,c,hnodes,hclips,hq,hc,rfl⟩ := h.head
    by_contra hlt
    have hqp : q ≠ p := fun he => by simp [← he,hc] at hnew
    have hclips' : (fb.store p ⟨r,junk⟩).clips = q := hclips
    have hnode : (fb.store p ⟨r,junk⟩).node q = some c := by simp [store,hqp,hc]
    have hslt : ¬ r.x0.slt c.x0 = true := by
      rw [BitVec.slt_iff_toInt_lt]
      exact hlt
    rw [fbClip,hclips',if_neg hq] at hret
    cases fuel with
    | zero => cases hret
    | succ fuel =>
      rw [seek,if_neg hq,deref_some hnode] at hret
      simp only [bind,Except.bind,if_neg hslt,pure,Except.pure] at hret
      rw [deref_some hnode] at hret
      simp only at hret
      rw [deref_some (c:=⟨r,junk⟩) (by simp [store,Ne.symm hqp])] at hret
      obtain rfl := Except.ok.inj hret
      have hfirst : link (fb.store p ⟨r,junk⟩).clips = some q := by rw [hclips',link_of_ne hq]
      rcases hlinked.two hfirst with hend | ⟨a,ha,-,-,hback⟩
      · simp [Fb.next,store,hqp,link_of_ne hp] at hend
      · have hap : a = p := by simpa [Fb.next,store,hqp,link_of_ne hp,eq_comm] using ha
        subst hap
        exact hback (by simp [Fb.next,store,link_of_ne hq])

end Fb

namespace Rect

variable {r : Rect} {x y : BitVec 32}

theorem tests_iff : r.tests x y = true ↔ r.x0.toInt ≤ x.toInt ∧ r.y0.toInt ≤ y.toInt ∧
    x.toNat ≤ (r.x0.toNat+r.w.toNat)%2^32 ∧ y.toNat ≤ (r.y0.toNat+r.h.toNat)%2^32 := by
  simp only [tests,Bool.and_eq_true,BitVec.sle_iff_toInt_le,BitVec.ule_eq_decide,decide_eq_true_eq,
    BitVec.toNat_add,and_assoc]

theorem Plain.tests_iff_covers (h : r.Plain) (x y : BitVec 32) : r.tests x y = true ↔
    r.Covers x y := by
  obtain ⟨hx,hy,hw,hh⟩ := h
  rw [tests_iff,Covers]
  simp only [BitVec.toInt_eq_toNat_cond] at hx hy ⊢
  have := x.isLt
  have := y.isLt
  have := r.x0.isLt
  have := r.y0.isLt
  rw [Nat.mod_eq_of_lt hw,Nat.mod_eq_of_lt hh]
  omega

/-- The test is right for all points exactly for the plain rectangles. -/
theorem tests_iff_covers_iff : (∀ x y, r.tests x y = true ↔ r.Covers x y) ↔ r.Plain := by
  constructor
  · intro h
    have hwx := r.w.isLt
    have hhy := r.h.isLt
    have hcorner := (h r.x0 r.y0).mpr ⟨le_rfl,le_rfl,by omega,by omega⟩
    rw [tests_iff] at hcorner
    have hw : r.x0.toNat+r.w.toNat < 2^32 := by omega
    have hh : r.y0.toNat+r.h.toNat < 2^32 := by omega
    refine ⟨?_,?_,hw,hh⟩
    · by_contra hneg
      have hzero := (h 0 r.y0).mp (tests_iff.mpr (by simp; omega))
      have hright : (0 : ℤ) ≤ r.x0.toInt+r.w.toNat := hzero.2.2.1
      rw [BitVec.toInt_eq_toNat_cond] at hneg hright
      split at hneg <;> omega
    · by_contra hneg
      have hzero := (h r.x0 0).mp (tests_iff.mpr (by simp; omega))
      have hbottom : (0 : ℤ) ≤ r.y0.toInt+r.h.toNat := hzero.2.2.2
      rw [BitVec.toInt_eq_toNat_cond] at hneg hbottom
      split at hneg <;> omega
  · exact fun h => h.tests_iff_covers

end Rect

namespace Fb

variable {fb fb' : Fb} {rects : List Rect} {old : Ptr}

/-- `rects` are the rectangles clipped since the list was last empty. `fb_unclip` frees each node
once: a second time it would find no node there. -/
structure Holds (fb : Fb) (rects : List Rect) : Prop where
  linked : fb.Linked rects
  answers : ∀ x y, ∃ fuel b, fb.fbIsClipped fuel x y = .ok b ∧
    (b = true ↔ ∃ r ∈ rects, r.Covers x y)
  unclips : ∃ fuel freed, fb.fbUnclip fuel = .ok (fresh,freed) ∧ freed.Nodup ∧ ∀ p, p ∈ freed ↔
    (fb.node p).isSome = true

/-- The calls of `fb_clip` that meet a condition, and `fb_unclip`. -/
inductive Step (condition : List Rect → Ptr → Rect → Prop) : Fb × List Rect → Fb × List Rect → Prop
  | clip {fb fb' : Fb} {rects : List Rect} {fuel : ℕ} {p junk : Ptr} {r : Rect} (hp : p ≠ 0)
      (hnew : fb.node p = none)
      (hmeets : condition rects junk r) (hret : fb.fbClip fuel p junk r = .ok fb') :
      Step condition (fb,rects) (fb',rects++[r])
  | unclip {fb fb' : Fb} {rects : List Rect} {freed : List Ptr} {fuel : ℕ}
      (hret : fb.fbUnclip fuel = .ok (fb',freed)) :
      Step condition (fb,rects) (fb',[])

/-- In its place and plain. -/
def Meets (rects : List Rect) (junk : Ptr) (r : Rect) : Prop := Placed rects junk r ∧ r.Plain

theorem opened_linked_iff : (opened old).Linked [] ↔ old = 0 := by
  constructor
  · rintro ⟨nodes,h⟩
    obtain rfl := h.nodes_eq_nil
    exact eq_zero_of_link h.segment
  · rintro rfl
    exact ⟨[],rfl,by simp [opened],by simp,rfl⟩

theorem Linked.unclips (h : fb.Linked rects) :
    ∃ fuel freed, fb.fbUnclip fuel = .ok (fresh,freed) ∧ freed.Nodup ∧ ∀ p, p ∈ freed ↔
    (fb.node p).isSome = true := by
  obtain ⟨nodes,h⟩ := h
  refine ⟨nodes.length+1,nodes,?_,h.segment.nodup,h.mem_iff⟩
  rw [fbUnclip,freeAll_spec h.segment h.mem_iff]
  rfl

theorem Linked.holds (h : fb.Linked rects) (hplain : ∀ r ∈ rects, r.Plain) : fb.Holds rects where
  linked := h
  unclips := h.unclips
  answers x y := by
    obtain ⟨nodes,h⟩ := h
    obtain ⟨b,hret,hb⟩ := search_spec h.segment (fun p hp => (h.mem_iff p).mp hp) x y
    refine ⟨nodes.length+1,b,hret,hb.trans ?_⟩
    constructor
    · rintro ⟨r,hr,htest⟩
      have hr := h.perm.mem_iff.mp hr
      exact ⟨r,hr,((hplain r hr).tests_iff_covers x y).mp htest⟩
    · rintro ⟨r,hr,hcovers⟩
      exact ⟨r,h.perm.mem_iff.mpr hr,((hplain r hr).tests_iff_covers x y).mpr hcovers⟩

theorem seek_mono {x0 : BitVec 32} {fuel : ℕ} {last cl : Ptr} {out : Ptr × Ptr}
    (h : fb.seek x0 fuel last cl = .ok out) (k : ℕ) :
    fb.seek x0 (fuel+k) last cl = .ok out := by
  induction fuel generalizing last cl with
  | zero => cases h
  | succ fuel ih =>
    rw [seek] at h
    rw [Nat.add_right_comm,seek]
    by_cases hcl : cl = 0
    · rwa [if_pos hcl] at h ⊢
    · rw [if_neg hcl] at h ⊢
      obtain ⟨c,hc,h⟩ := Result.bind_eq_ok.mp h
      refine Result.bind_eq_ok.mpr ⟨c,hc,?_⟩
      by_cases hlt : x0.slt c.x0 = true
      · rw [if_pos hlt] at h ⊢
        exact ih h
      · rwa [if_neg hlt] at h ⊢

theorem freeAll_mono {fuel : ℕ} {cl : Ptr} {out : Fb × List Ptr}
    (h : freeAll fuel fb cl = .ok out) (k : ℕ) :
    freeAll (fuel+k) fb cl = .ok out := by
  induction fuel generalizing fb cl out with
  | zero => cases h
  | succ fuel ih =>
    rw [freeAll] at h
    rw [Nat.add_right_comm,freeAll]
    by_cases hcl : cl = 0
    · rwa [if_pos hcl] at h ⊢
    · rw [if_neg hcl] at h ⊢
      obtain ⟨c,hc,h⟩ := Result.bind_eq_ok.mp h
      obtain ⟨rest,hrest,h⟩ := Result.bind_eq_ok.mp h
      exact Result.bind_eq_ok.mpr ⟨c,hc,Result.bind_eq_ok.mpr ⟨rest,ih hrest,h⟩⟩

theorem fbClip_mono {fuel : ℕ} {p junk : Ptr} {r : Rect}
    (h : fb.fbClip fuel p junk r = .ok fb') (k : ℕ) :
    fb.fbClip (fuel+k) p junk r = .ok fb' := by
  rw [fbClip] at h ⊢
  split at h
  · rename_i hclips
    rwa [if_pos hclips]
  · rename_i hclips
    rw [if_neg hclips]
    obtain ⟨out,hout,h⟩ := Result.bind_eq_ok.mp h
    exact Result.bind_eq_ok.mpr ⟨out,seek_mono hout k,h⟩

theorem Linked.clip {fuel : ℕ} {p junk : Ptr} {r : Rect} (h : fb.Linked rects) (hp : p ≠ 0)
    (hnew : fb.node p = none)
    (hplaced : Placed rects junk r) (hret : fb.fbClip fuel p junk r = .ok fb') :
    fb'.Linked (rects++[r]) := by
  obtain ⟨nodes,h⟩ := h
  obtain ⟨fb'',hret'',hlinked⟩ := h.clip hp hnew hplaced
  have hmore := fbClip_mono hret (nodes.length+1)
  rw [Nat.add_comm,fbClip_mono hret'' fuel] at hmore
  exact Except.ok.inj hmore ▸ hlinked

theorem Linked.unclip {fuel : ℕ} {freed : List Ptr} (h : fb.Linked rects)
    (hret : fb.fbUnclip fuel = .ok (fb',freed)) :
    fb' = fresh := by
  obtain ⟨nodes,h⟩ := h
  obtain ⟨out,hout,hret⟩ := Result.bind_eq_ok.mp hret
  have hmore := freeAll_mono hout (nodes.length+1)
  rw [Nat.add_comm,freeAll_mono (freeAll_spec h.segment h.mem_iff) fuel] at hmore
  obtain rfl := Except.ok.inj hmore
  exact (congrArg Prod.fst (Except.ok.inj hret)).symm

theorem clip_returns_iff {p junk : Ptr} {r : Rect} (h : fb.Linked rects) (hp : p ≠ 0)
    (hnew : fb.node p = none) :
    (∃ fuel fb', fb.fbClip fuel p junk r = .ok fb' ∧ fb'.Linked (rects++[r])) ↔
    Placed rects junk r := by
  obtain ⟨nodes,h⟩ := h
  constructor
  · rintro ⟨fuel,fb',hret,hlinked⟩
    exact h.placed hp hnew hret hlinked
  · intro hplaced
    obtain ⟨fb',hret,hlinked⟩ := h.clip hp hnew hplaced
    exact ⟨_,fb',hret,hlinked⟩

theorem run_linked (hrun : Relation.ReflTransGen (Step Meets) (opened 0,[]) (fb,rects)) :
    fb.Linked rects ∧ ∀ r ∈ rects, r.Plain := by
  generalize hs : (fb,rects) = s at hrun
  induction hrun generalizing fb rects with
  | refl =>
    obtain ⟨rfl,rfl⟩ := Prod.mk.inj hs
    exact ⟨opened_linked_iff.mpr rfl,by simp⟩
  | tail _ hstep ih =>
    cases hstep with
    | clip hp hnew hmeets hret =>
      obtain ⟨rfl,rfl⟩ := Prod.mk.inj hs
      obtain ⟨hlinked,hplain⟩ := ih rfl
      refine ⟨hlinked.clip hp hnew hmeets.1 hret,fun r hr => ?_⟩
      rcases List.mem_append.mp hr with hr | hr
      · exact hplain r hr
      · exact List.mem_singleton.mp hr ▸ hmeets.2
    | unclip hret =>
      obtain ⟨rfl,rfl⟩ := Prod.mk.inj hs
      obtain rfl := (ih rfl).1.unclip hret
      exact ⟨opened_linked_iff.mpr rfl,by simp⟩

/-- Where the field `clips` was null and all rectangles come in their place and are plain, the clip
list is as it should be after each call, and the next one keeps it so only in its place. -/
theorem clips_hold (hold : old = 0)
    (hrun : Relation.ReflTransGen (Step Meets) (opened old,[]) (fb,rects)) :
    fb.Holds rects ∧ ∀ p junk r, p ≠ 0 → fb.node p = none →
      ((∃ fuel fb', fb.fbClip fuel p junk r = .ok fb' ∧ fb'.Linked (rects++[r])) ↔
        Placed rects junk r) := by
  subst hold
  obtain ⟨hlinked,hplain⟩ := run_linked hrun
  exact ⟨hlinked.holds hplain,fun p junk r hp hnew => clip_returns_iff hlinked hp hnew⟩

/-- A first node at `0x1000`. -/
def single (r : Rect) : Fb := { fresh.store 0x1000 ⟨r,0⟩ with clips := 0x1000 }

theorem single_clip (r : Rect) : fresh.fbClip 0 0x1000 0 r = .ok (single r) := rfl

theorem clips_hold_two : ∃ fb,
    Relation.ReflTransGen (Step Meets) (opened 0,[]) (fb,[⟨5,5,10,10⟩,⟨0,0,10,10⟩]) ∧
    fb.Holds [⟨5,5,10,10⟩,⟨0,0,10,10⟩] := by
  have hfirst : Step Meets (fresh,[]) (single ⟨5,5,10,10⟩,[⟨5,5,10,10⟩]) :=
    .clip (by decide) rfl ⟨rfl,by decide⟩ (single_clip _)
  have hplaced : Placed [⟨5,5,10,10⟩] 0xffff ⟨0,0,10,10⟩ := by
    rw [Placed]
    decide
  obtain ⟨fuel,fb,hret,-⟩ :=
    (clip_returns_iff (p:=0x2000) (run_linked (.single hfirst)).1 (by decide) rfl).mpr hplaced
  have hrun :=
    (Relation.ReflTransGen.single hfirst).tail (.clip (by decide) rfl ⟨hplaced,by decide⟩ hret)
  exact ⟨fb,hrun,(clips_hold rfl hrun).1⟩

/-- A second rectangle to the right of the first one makes the list a cycle. -/
theorem clips_cycle : ¬ ∀ fb rects,
    Relation.ReflTransGen (Step fun _ _ _ => True) (fresh,[]) (fb,rects) → fb.Holds rects := by
  intro h
  have hrun :
      Relation.ReflTransGen (Step fun _ _ _ => True) (fresh,[]) (single ⟨0,0,10,10⟩,
          [⟨0,0,10,10⟩]) :=
    .single (.clip (by decide) rfl trivial (single_clip _))
  have hret : ∃ fb, (single ⟨0,0,10,10⟩).fbClip 1 0x2000 0 ⟨5,5,10,10⟩ = .ok fb := ⟨_,rfl⟩
  obtain ⟨fb,hret⟩ := hret
  have hlinked := (h _ _ (hrun.tail (.clip (by decide) rfl trivial hret))).linked
  have hplaced := (clip_returns_iff (h _ _ hrun).linked (by decide) rfl).mp ⟨1,fb,hret,hlinked⟩
  rw [Placed] at hplaced
  revert hplaced
  decide

end Fb
end Framebuffer
end ScalesOS
