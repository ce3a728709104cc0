import ScalesOS.Painting

/-!
# Which window is hit

The hit test and the painter see the same rectangles, but in two orders and with two ideas
of where a rectangle ends. They agree at a point unless the list holds, behind the window
that is painted last there, one that should not have been hit.
-/

namespace ScalesOS
namespace Compose

/-- Searching from the end finds `target`, or nothing, if nothing behind it satisfies `p`. -/
theorem find_reverse_eq_iff {α : Type} [DecidableEq α] {p : α → Bool}
    {target : Option α} (list : List α) (htarget : ∀ t, target = some t → t ∈ list ∧ p t = true) :
    list.reverse.find? p = target ↔ ∀ a ∈ list.rtakeWhile (fun a => some a ≠ target),
        p a = false := by
  rw [List.rtakeWhile]
  have hrev : ∀ t, target = some t → t ∈ list.reverse ∧ p t = true := fun t ht => by
    simpa using htarget t ht
  simp only [List.mem_reverse]
  generalize list.reverse = back at hrev
  clear htarget
  induction back with
  | nil =>
    cases target with
    | none => simp
    | some t => simpa using (hrev t rfl).1
  | cons a back ih =>
    by_cases ha : some a = target
    · subst ha
      simp [(hrev a rfl).2]
    · by_cases hp : p a = true
      · simp [hp,ha]
      · have hback : ∀ t, target = some t → t ∈ back ∧ p t = true := fun t ht => by
          obtain ⟨hmem,hpt⟩ := hrev t ht
          refine ⟨(List.mem_cons.mp hmem).resolve_left fun he => ?_,hpt⟩
          exact ha (by rw [ht,he])
        simp [hp,ha,ih hback]

/-- The unsigned comparison of a point on the screen with the end of a rectangle. -/
theorem reaches_iff {x s : BitVec 32} (hx : 0 ≤ x.toInt) :
    x.ule s = true ↔ x.toInt ≤ s.toInt ∨ s.toInt < 0 := by
  rw [BitVec.ule_iff_toNat_le]
  simp only [BitVec.toInt_eq_toNat_cond] at hx ⊢
  have := x.isLt
  have := s.isLt
  split at hx <;> split <;> omega

/-- The point is not in the rectangle, but on the line behind its right or its lower edge, or
behind an end that lies left of the screen or above it. -/
structure Drawn.AtEdge (d : Drawn) (x y : BitVec 32) : Prop where
  left : d.x.toInt ≤ x.toInt
  top : d.y.toInt ≤ y.toInt
  right : x.toInt ≤ (d.x+d.w).toInt ∨ (d.x+d.w).toInt < 0
  bottom : y.toInt ≤ (d.y+d.h).toInt ∨ (d.y+d.h).toInt < 0
  outside : (d.x+d.w).toInt ≤ x.toInt ∨ (d.y+d.h).toInt ≤ y.toInt

theorem Drawn.hit_iff {d : Drawn} {x y : BitVec 32} (hx : 0 ≤ x.toInt) (hy : 0 ≤ y.toInt) :
    d.hit x y = true ↔ d.covers x y = true ∨ d.AtEdge x y := by
  simp only [hit,covers,Bool.and_eq_true,reaches_iff hx,reaches_iff hy,BitVec.sle_iff_toInt_le,
    BitVec.slt_iff_toInt_lt]
  constructor
  · rintro ⟨⟨⟨hleft,htop⟩,hright⟩,hbottom⟩
    by_cases hin : x.toInt < (d.x+d.w).toInt ∧ y.toInt < (d.y+d.h).toInt
    · exact .inl ⟨⟨⟨hleft,hin.1⟩,htop⟩,hin.2⟩
    · rw [not_and_or,not_lt,not_lt] at hin
      exact .inr ⟨hleft,htop,hright,hbottom,hin⟩
  · rintro (⟨⟨⟨hleft,hright⟩,htop⟩,hbottom⟩ | ⟨hleft,htop,hright,hbottom,-⟩)
    · exact ⟨⟨⟨hleft,htop⟩,.inl hright.le⟩,.inl hbottom.le⟩
    · exact ⟨⟨⟨hleft,htop⟩,hright⟩,hbottom⟩

namespace Server

/-- Why the hit test stops at a window other than the one in front: the test takes in the lines
at its far edges and rectangles that end outside the screen; the window is over the point, but
not below the root and never painted; or it is painted there, before the window in front. -/
inductive Obstructs (srv : Server) (x y : BitVec 32) (front : Option Ref) (r : Ref) : Prop
  | edge {d : Drawn} (hd : srv.Shown d) (hwin : d.win = r) (hedge : d.AtEdge x y) :
      srv.Obstructs x y front r
  | stray {d : Drawn} (hd : srv.Shown d) (hwin : d.win = r) (hcovers : d.covers x y = true)
      (hstray : ∀ root, srv.root = some root → ¬ srv.Below root r) : srv.Obstructs x y front r
  | under {d : Drawn} {t : Ref} (hd : srv.Shown d) (hwin : d.win = r)
      (hcovers : d.covers x y = true) (hfront : front = some t) (hunder : srv.Under r t) :
      srv.Obstructs x y front r

/-- Behind the window in front at the point, or in the whole list if there is none, no other
but the overlay is in the way. -/
def Unobstructed (srv : Server) (x y : BitVec 32) : Prop :=
  ∃ front, srv.Front x y front ∧ ∀ r ∈ srv.windows.rtakeWhile (fun r => some r ≠ front),
    srv.overlay ≠ some r → ¬ srv.Obstructs x y front r

variable {srv srv' : Server} {x y : BitVec 32}

def HitAt (srv : Server) (x y : BitVec 32) (r : Ref) : Prop :=
  ∃ d, srv.Shown d ∧ d.win = r ∧ d.hit x y = true

theorem PaintedAt.hitAt (hx : 0 ≤ x.toInt) (hy : 0 ≤ y.toInt) {r : Ref} (h : srv.PaintedAt x y r) :
    srv.HitAt x y r := by
  obtain ⟨-,d,hd,hwin,hcovers⟩ := h
  exact ⟨d,hd,hwin,(Drawn.hit_iff hx hy).mpr (.inl hcovers)⟩

theorem obstructs_iff (hx : 0 ≤ x.toInt) (hy : 0 ≤ y.toInt) {front : Option Ref} {r : Ref}
    (hfront : srv.Front x y front) (hne : some r ≠ front) :
    srv.Obstructs x y front r ↔ srv.HitAt x y r := by
  constructor
  · intro h
    cases h with
    | edge hd hwin hedge => exact ⟨_,hd,hwin,(Drawn.hit_iff hx hy).mpr (.inr hedge)⟩
    | stray hd hwin hcovers => exact ⟨_,hd,hwin,(Drawn.hit_iff hx hy).mpr (.inl hcovers)⟩
    | under hd hwin hcovers => exact ⟨_,hd,hwin,(Drawn.hit_iff hx hy).mpr (.inl hcovers)⟩
  · rintro ⟨d,hd,hwin,hhit⟩
    rcases (Drawn.hit_iff hx hy).mp hhit with hcovers | hedge
    · by_cases hreached : ∃ root, srv.root = some root ∧ srv.Below root r
      · obtain ⟨t,ht,hunder⟩ := hfront.under r ⟨hreached,d,hd,hwin,hcovers⟩ hne.symm
        exact .under hd hwin hcovers ht hunder
      · exact .stray hd hwin hcovers fun root hroot hr => hreached ⟨root,hroot,hr⟩
    · exact .edge hd hwin hedge

open Classical in
/-- The hit test takes the first window from the end whose test succeeds. -/
theorem windowAt_eq (hf : srv.Forest) {windows : List Ref}
    (hlive : ∀ r ∈ windows, r ∈ srv.windows) :
    srv.windowAt x y windows =
      .ok (windows.find? fun r => srv.overlay ≠ some r ∧ srv.HitAt x y r) := by
  induction windows with
  | nil => rfl
  | cons r windows ih =>
    have hrest := ih fun a ha => hlive a (by simp [ha])
    rw [windowAt]
    by_cases hover : srv.overlay = some r
    · rw [if_pos hover,hrest,List.find?_cons_of_neg (by simp [hover])]
    · obtain ⟨win,hw⟩ := (hf.listed r).mp (hlive r (by simp))
      obtain ⟨sx,sy,hplace,hret⟩ := svTranslateAbs_eq hf hw
      have hd : srv.Shown ⟨r,sx,sy,win.sizes.w,win.sizes.h⟩ := ⟨hplace,win,hw,rfl⟩
      have hiff : srv.HitAt x y r ↔ Drawn.hit ⟨r,sx,sy,win.sizes.w,win.sizes.h⟩ x y = true := by
        refine ⟨?_,fun hhit => ⟨_,hd,rfl,hhit⟩⟩
        rintro ⟨d,hd',hwin,hhit⟩
        rwa [hd.unique hd' hwin.symm]
      simp only [if_neg hover,deref_some hw,bind,Except.bind,hret]
      by_cases hhit : Drawn.hit ⟨r,sx,sy,win.sizes.w,win.sizes.h⟩ x y = true
      · rw [if_pos hhit,List.find?_cons_of_pos (by simp [hover,hiff.mpr hhit])]
        rfl
      · rw [if_neg hhit,hrest,List.find?_cons_of_neg (by simp [hiff.not.mpr hhit])]

/-- Creating, moving, restacking, resizing and removing windows. The clients store the size of
a resized window in the context they share with the server. -/
inductive Rearranges (srv : Server) : Server → Prop
  | create {client par : Option Ref} {props : Props} {srv' : Server}
      (hret : srv.svCreateWindow client par props = .ok srv') : srv.Rearranges srv'
  | move {r : Ref} {px py pz : BitVec 32} {mask : BitVec 8} {srv' : Server}
      (hret : srv.svMove r px py pz mask = .ok srv') : srv.Rearranges srv'
  | restack {r : Ref} {srv' : Server} (hret : srv.svRestack r = .ok srv') : srv.Rearranges srv'
  | resize {r : Ref} {win : Window} {stage : BitVec 8} {w h : BitVec 32} {srv' : Server}
      (hr : srv.window r = some win)
      (hret : srv.resized r (handleResize win stage w h) = .ok srv') :
      srv.Rearranges srv'
  | share {r : Ref} {win : Window} (gc : Gc) (hr : srv.window r = some win) :
      srv.Rearranges (srv.store r { win with gc := gc })
  | remove {r : Ref} {srv' : Server} (hroot : srv.root ≠ some r) (hoverlay : srv.overlay ≠ some r)
      (hret : srv.svRemoveWindow r true = .ok srv') : srv.Rearranges srv'

theorem svRemoveWindow_live {r : Ref} (hret : srv.svRemoveWindow r true = .ok srv') :
    ∃ win, srv.window r = some win := by
  rw [svRemoveWindow] at hret
  cases hfresh : srv.fresh with
  | zero => simp only [hfresh,removeWindow] at hret; cases hret
  | succ fuel =>
    rw [hfresh] at hret
    obtain ⟨win,hwin,-⟩ := Result.bind_eq_ok.mp hret
    exact ⟨win,window_of_deref hwin⟩

theorem Rearranges.ordered {root overlay : Ref} (ho : srv.Ordered) (hr : srv.Rooted root overlay)
    (h : srv.Rearranges srv') : srv'.Ordered ∧ srv'.Rooted root overlay := by
  have hf := ho.forest
  cases h with
  | create hret =>
    obtain ⟨hpar,layer,windows,hperm,hk⟩ := svCreateWindow_keeps hf hret
    exact ⟨svCreateWindow_ordered ho hret,(hr.created hf _ _ layer _ windows).keeps hk⟩
  | move hret => exact ⟨svMove_ordered ho hret,hr.keeps (svMove_keeps hret)⟩
  | restack hret =>
    obtain rfl := restack_in_order (fun x _ => ho.sorted x) hret
    exact ⟨ho,hr⟩
  | resize hw hret =>
    exact ⟨resized_ordered ho hw hret,hr.keeps (resized_keeps hw (handleResize_like _ _ _ _) hret)⟩
  | share gc hw =>
    exact ⟨ho.store hw ⟨rfl,rfl,rfl,rfl,rfl,.refl _⟩ rfl rfl,
      hr.keeps (.store hw ⟨rfl,rfl,rfl,rfl,rfl,.refl _⟩)⟩
  | remove hroot hoverlay hret =>
    have ho' := svRemoveWindow_ordered ho hret
    obtain ⟨win,hw⟩ := svRemoveWindow_live hret
    rw [svRemoveWindow_eq hf hw] at hret
    obtain rfl := Except.ok.inj hret
    refine ⟨ho',hr.removed (fun he => hroot ?_) fun he => hoverlay ?_⟩
    · rw [hr.root_eq,he]
    · rw [hr.overlay_eq,he]

/-- In every state reached, at every point of the screen: the window that the hit test returns
is the one painted last if and only if nothing is in the way of the window that the tree and
the `z` put in front. -/
theorem hit_test_iff {w h : BitVec 32} {start : Server} (hstart : svCreate w h = .ok start)
    (hrun : Relation.ReflTransGen Rearranges start srv) (hx : 0 ≤ x.toInt) (hy : 0 ≤ y.toInt) :
    ∃ frame hit, srv.svRedraw = .ok frame ∧ srv.svGetWindowAt x y = .ok hit ∧
      (hit = frame.topmost x y ↔ srv.Unobstructed x y) := by
  classical
  obtain ⟨-,hr₀,-⟩ := svCreate_eq hstart
  obtain ⟨ho,hr⟩ : srv.Ordered ∧ srv.Rooted 0 1 :=
    reach_invariant (I:=fun srv => srv.Ordered ∧ srv.Rooted 0 1)
      (fun _ _ h hstep => hstep.ordered h.1 h.2) ⟨svCreate_ordered hstart,hr₀⟩ hrun
  obtain ⟨frame,hframe,hpainted⟩ := svRedraw_eq ho hr
  have hfront := topmost_front hr.root_eq hpainted x y
  generalize hlast : frame.topmost x y = last at hfront
  refine ⟨frame,_,hframe,windowAt_eq ho.forest fun r hmem => List.mem_reverse.mp hmem,?_⟩
  have hunobstructed : srv.Unobstructed x y ↔ ∀ r ∈ srv.windows.rtakeWhile (fun r => some r ≠ last),
      srv.overlay ≠ some r → ¬ srv.Obstructs x y last r := by
    constructor
    · rintro ⟨front,hf,hclear⟩
      rwa [← hf.unique ho.forest hfront]
    · exact fun hclear => ⟨last,hfront,hclear⟩
  rw [hlast,find_reverse_eq_iff,hunobstructed]
  · refine forall₂_congr fun r hmem => ?_
    have hne : some r ≠ last := by simpa using List.mem_rtakeWhile_imp hmem
    rw [obstructs_iff hx hy hfront hne]
    simp
  · intro t ht
    have hthere := hfront.painted t ht
    obtain ⟨d,hshown,rfl,-⟩ := hthere.2
    obtain ⟨win,hw,-⟩ := hshown.2
    refine ⟨(ho.forest.listed _).mpr ⟨win,hw⟩,decide_eq_true ⟨fun he => ?_,hthere.hitAt hx hy⟩⟩
    obtain ⟨root,hroot,hbelow⟩ := hthere.1
    rw [hr.overlay_eq] at he
    rw [hr.root_eq] at hroot
    obtain rfl := Option.some.inj hroot
    exact hr.overlay_not_below (Option.some.inj he ▸ hbelow)

/-- A window of 20 by 20 at (10,10) on a screen of 100 by 100: right of it the root window is
drawn, and the window is hit. -/
theorem edge_hits_neighbour : ∃ start srv frame, svCreate 100 100 = .ok start ∧
    Relation.ReflTransGen Rearranges start srv ∧ srv.svRedraw = .ok frame ∧
    frame.topmost 30 15 = some 0 ∧ srv.svGetWindowAt 30 15 = .ok (some 2) := by
  have heval : (do
      let start ← svCreate 100 100
      let srv ← start.svCreateWindow none (some 0) ⟨10,10,20,20,0,0⟩
      let frame ← srv.svRedraw
      let hit ← srv.svGetWindowAt 30 15
      pure (frame.topmost 30 15,hit) : Result (Option Ref × Option Ref)) = .ok (some 0,
        some 2) := by decide +kernel
  obtain ⟨start,hstart,heval⟩ := Result.bind_eq_ok.mp heval
  obtain ⟨srv,hcreate,heval⟩ := Result.bind_eq_ok.mp heval
  obtain ⟨frame,hframe,heval⟩ := Result.bind_eq_ok.mp heval
  obtain ⟨hit,hhit,heval⟩ := Result.bind_eq_ok.mp heval
  obtain ⟨htop,rfl⟩ := Prod.mk.inj (Except.ok.inj heval)
  exact ⟨start,srv,frame,hstart,.single (.create hcreate),hframe,htop,hhit⟩

/-- Inside its rectangle the window is hit and drawn on top. -/
theorem hit_test_iff_inside : ∃ start srv frame hit, svCreate 100 100 = .ok start ∧
    Relation.ReflTransGen Rearranges start srv ∧ srv.svRedraw = .ok frame ∧
    srv.svGetWindowAt 15 15 = .ok hit ∧ hit = some 2 ∧ srv.Unobstructed 15 15 := by
  have heval : (do
      let start ← svCreate 100 100
      let srv ← start.svCreateWindow none (some 0) ⟨10,10,20,20,0,0⟩
      let frame ← srv.svRedraw
      let hit ← srv.svGetWindowAt 15 15
      pure (frame.topmost 15 15,hit) : Result (Option Ref × Option Ref)) = .ok (some 2,
        some 2) := by decide +kernel
  obtain ⟨start,hstart,heval⟩ := Result.bind_eq_ok.mp heval
  obtain ⟨srv,hcreate,heval⟩ := Result.bind_eq_ok.mp heval
  obtain ⟨frame,hframe,heval⟩ := Result.bind_eq_ok.mp heval
  obtain ⟨hit,hhit,heval⟩ := Result.bind_eq_ok.mp heval
  obtain ⟨htop,rfl⟩ := Prod.mk.inj (Except.ok.inj heval)
  have hrun : Relation.ReflTransGen Rearranges start srv := .single (.create hcreate)
  obtain ⟨frame',hit',hframe',hhit',hiff⟩ :=
    hit_test_iff hstart hrun (x:=15) (y:=15) (by decide) (by decide)
  obtain rfl := Except.ok.inj (hframe.symm.trans hframe')
  obtain rfl := Except.ok.inj (hhit.symm.trans hhit')
  exact ⟨start,srv,frame,_,hstart,hrun,hframe,hhit,rfl,hiff.mp htop.symm⟩

end Server
end Compose
end ScalesOS
