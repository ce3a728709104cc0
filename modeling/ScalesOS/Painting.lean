import ScalesOS.PaintOrder

/-!
# Painting and hit testing

`compose_sv_redraw` paints the windows by a walk over the children lists, which it sorts
first. `compose_sv_get_window_at` looks for a point in the server's list of all windows,
which is sorted when a window is created.
-/

namespace ScalesOS
namespace Compose

/-- One call of `fb_bitmap`, for a window. -/
structure Drawn where
  win : Ref
  x : BitVec 32
  y : BitVec 32
  w : BitVec 32
  h : BitVec 32
  deriving DecidableEq, Repr

/-- The loops of `fb_bitmap` reach the pixel. -/
def Drawn.covers (d : Drawn) (x y : BitVec 32) : Bool :=
  d.x.sle x && x.slt (d.x+d.w) && d.y.sle y && y.slt (d.y+d.h)

/-- The condition of `compose_sv_get_window_at`. The upper bounds have the type of the sizes,
which are unsigned. -/
def Drawn.hit (d : Drawn) (x y : BitVec 32) : Bool :=
  d.x.sle x && d.y.sle y && x.ule (d.x+d.w) && y.ule (d.y+d.h)

namespace Server

/-- `__compose_draw_window`, after the windows in `drawn`. The offset is 0 where the source
passes none. -/
def drawWindow : ℕ → Server → Ref → BitVec 32 → BitVec 32 → List Drawn → Result (List Drawn)
  | 0, _, _, _, _, _ => throw .loop
  | fuel+1, srv, r, offX, offY, drawn => do
    let win ← srv.deref (some r)
    let x := win.pos.x+offX
    let y := win.pos.y+offY
    win.children.foldlM (fun drawn child => drawWindow fuel srv child x y drawn)
      (drawn++[⟨r,x,y,win.sizes.w,win.sizes.h⟩])

/-- What a redraw leaves and paints, the windows of the root and those of the overlay. -/
structure Frame where
  srv : Server
  windows : List Drawn
  overlay : List Drawn

def svRedraw (srv : Server) : Result Frame := do
  match srv.root, srv.overlay with
  | some root, some overlay => do
    let srv ← srv.svRestack root
    let windows ← drawWindow srv.fresh srv root 0 0 []
    let drawn ← drawWindow srv.fresh srv overlay 0 0 []
    pure ⟨srv,windows,drawn⟩
  | _, _ => throw (.panic "null window")

/-- The loop of `compose_sv_translate_abs`. -/
def translateAbs : ℕ → Server → Window → BitVec 32 → BitVec 32 → Result (BitVec 32 × BitVec 32)
  | 0, _, _, _, _ => throw .loop
  | fuel+1, srv, win, ox, oy =>
    match win.parent with
    | some par => do
      let parWin ← srv.deref (some par)
      translateAbs fuel srv parWin (ox+parWin.pos.x) (oy+parWin.pos.y)
    | none => pure (ox,oy)

def svTranslateAbs (srv : Server) (win : Window) (x y : BitVec 32) :
    Result (BitVec 32 × BitVec 32) := do
  let o ← translateAbs srv.fresh srv win win.pos.x win.pos.y
  pure (x+o.1,y+o.2)

/-- The loop of `compose_sv_get_window_at`, from the end of the list on. -/
def windowAt (srv : Server) (x y : BitVec 32) : List Ref → Result (Option Ref)
  | [] => pure none
  | r::windows =>
    if srv.overlay = some r then srv.windowAt x y windows
    else do
      let win ← srv.deref (some r)
      let s ← srv.svTranslateAbs win 0 0
      if Drawn.hit ⟨r,s.1,s.2,win.sizes.w,win.sizes.h⟩ x y then pure (some r)
      else srv.windowAt x y windows

def svGetWindowAt (srv : Server) (x y : BitVec 32) : Result (Option Ref) :=
  srv.windowAt x y srv.windows.reverse

/-- The window painted last at a point, of those below the root. -/
def Frame.topmost (frame : Frame) (x y : BitVec 32) : Option Ref :=
  ((frame.windows.filter fun d => d.covers x y).getLast?).map Drawn.win

/-- The positions of the window and of all above it add up to `x` and `y`. -/
inductive Place (srv : Server) : Ref → BitVec 32 → BitVec 32 → Prop
  | top {r : Ref} {win : Window} (hr : srv.window r = some win) (hp : win.parent = none) :
      srv.Place r win.pos.x win.pos.y
  | child {r par : Ref} {win : Window} {x y : BitVec 32} (hr : srv.window r = some win)
      (hp : win.parent = some par) (hpar : srv.Place par x y) :
      srv.Place r (win.pos.x+x) (win.pos.y+y)

def Shown (srv : Server) (d : Drawn) : Prop :=
  srv.Place d.win d.x d.y ∧ ∃ win, srv.window d.win = some win ∧ win.sizes = ⟨d.w,d.h⟩

variable {srv srv' : Server}

theorem Place.unique {r : Ref} {x y x' y' : BitVec 32} (h : srv.Place r x y)
    (h' : srv.Place r x' y') :
    x = x' ∧ y = y' := by
  induction h generalizing x' y' with
  | top hr hp =>
    cases h' with
    | top hr' hp' =>
      obtain rfl := Option.some.inj (hr.symm.trans hr')
      exact ⟨rfl,rfl⟩
    | child hr' hp' =>
      obtain rfl := Option.some.inj (hr.symm.trans hr')
      rw [hp] at hp'
      cases hp'
  | child hr hp hpar ih =>
    cases h' with
    | top hr' hp' =>
      obtain rfl := Option.some.inj (hr.symm.trans hr')
      rw [hp] at hp'
      cases hp'
    | child hr' hp' hpar' =>
      obtain rfl := Option.some.inj (hr.symm.trans hr')
      obtain rfl := Option.some.inj (hp.symm.trans hp')
      obtain ⟨rfl,rfl⟩ := ih hpar'
      exact ⟨rfl,rfl⟩

theorem Shown.unique {d d' : Drawn} (h : srv.Shown d) (h' : srv.Shown d')
    (he : d.win = d'.win) : d = d' := by
  obtain ⟨r,x,y,w,h⟩ := d
  obtain ⟨r',x',y',w',h'⟩ := d'
  obtain rfl : r = r' := he
  obtain ⟨hp,win,hw,hs⟩ := h
  obtain ⟨hp',win',hw',hs'⟩ := h'
  obtain rfl := Option.some.inj (hw.symm.trans hw')
  obtain ⟨rfl,rfl⟩ := hp.unique hp'
  obtain ⟨rfl,rfl⟩ := Sizes.mk.inj (hs.symm.trans hs')
  rfl

/-- The sum over the parents of a window, added to what has been summed up. -/
theorem translateAbs_eq (hf : srv.Forest) {fuel : ℕ} {r : Ref} {win : Window}
    (hr : srv.window r = some win)
    (hfuel : r < fuel) : ∃ x y, srv.Place r (win.pos.x+x) (win.pos.y+y) ∧
      ∀ ox oy, translateAbs fuel srv win ox oy = .ok (ox+x,oy+y) := by
  induction fuel generalizing r win with
  | zero => exact absurd hfuel (Nat.not_lt_zero _)
  | succ fuel ih =>
    cases hp : win.parent with
    | none =>
      refine ⟨0,0,?_,fun ox oy => ?_⟩
      · simpa using Place.top hr hp
      · simp [translateAbs,hp,pure,Except.pure]
    | some par =>
      obtain ⟨hlt,parWin,hw,-⟩ := hf.parent hr hp
      obtain ⟨x,y,hplace,hret⟩ := ih hw (lt_of_lt_of_le hlt (Nat.lt_succ_iff.mp hfuel))
      refine ⟨parWin.pos.x+x,parWin.pos.y+y,.child hr hp hplace,fun ox oy => ?_⟩
      simp only [translateAbs,hp,deref_some hw,bind,Except.bind,hret,BitVec.add_assoc]

theorem svTranslateAbs_eq (hf : srv.Forest) {r : Ref} {win : Window}
    (hr : srv.window r = some win) :
    ∃ x y, srv.Place r x y ∧ srv.svTranslateAbs win 0 0 = .ok (x,y) := by
  obtain ⟨x,y,hplace,hret⟩ := translateAbs_eq hf hr (hf.fresh hr)
  refine ⟨_,_,hplace,?_⟩
  simp [svTranslateAbs,hret,bind,Except.bind,pure,Except.pure]

/-- Just these windows have been painted, each at its place, in the painter's order. -/
structure Painted (srv : Server) (windows : Set Ref) (ds : List Drawn) : Prop where
  mem_iff : ∀ d, d ∈ ds ↔ d.win ∈ windows ∧ srv.Shown d
  order : ds.Pairwise fun d d' => srv.Under d.win d'.win

theorem Painted.nil : srv.Painted ∅ [] := ⟨by simp,.nil⟩

theorem Painted.single {d : Drawn} (hd : srv.Shown d) : srv.Painted {d.win} [d] := by
  refine ⟨fun d' => ?_,List.pairwise_singleton _ _⟩
  rw [List.mem_singleton,Set.mem_singleton_iff]
  constructor
  · rintro rfl
    exact ⟨rfl,hd⟩
  · exact fun h => h.2.unique hd h.1

theorem Painted.append {a b : Set Ref} {ds ds' : List Drawn} (h : srv.Painted a ds)
    (h' : srv.Painted b ds') (hunder : ∀ x ∈ a, ∀ y ∈ b, srv.Under x y) :
    srv.Painted (a ∪ b) (ds++ds') := by
  refine ⟨fun d => ?_,List.pairwise_append.mpr ⟨h.order,h'.order,fun d hd d' hd' => ?_⟩⟩
  · rw [List.mem_append,h.mem_iff,h'.mem_iff,Set.mem_union,or_and_right]
  · exact hunder _ ((h.mem_iff d).mp hd).1 _ ((h'.mem_iff d').mp hd').1

/-- The walk paints the windows below `r`. -/
theorem drawWindow_eq (ho : srv.Ordered) {fuel : ℕ} {r : Ref} {win : Window}
    {offX offY : BitVec 32} (hr : srv.window r = some win) (hfuel : srv.fresh ≤ fuel+r)
    (hplace : srv.Place r (win.pos.x+offX) (win.pos.y+offY)) (drawn : List Drawn) :
    ∃ ds, drawWindow fuel srv r offX offY drawn = .ok (drawn++ds) ∧
      srv.Painted (srv.subtree r) ds := by
  have hf := ho.forest
  induction fuel generalizing r win offX offY drawn with
  | zero => exact absurd (hf.fresh hr) (by simpa using hfuel)
  | succ fuel ih =>
    have hchildren : ∀ children : List Ref, (∀ c ∈ children, srv.IsChild r c) →
        children.Pairwise srv.Lower → ∀ drawn, ∃ ds,
        children.foldlM (fun drawn child =>
          drawWindow fuel srv child (win.pos.x+offX) (win.pos.y+offY) drawn) drawn =
            .ok (drawn++ds) ∧ srv.Painted (srv.subtrees children) ds := by
      intro children
      induction children with
      | nil =>
        refine fun _ _ drawn => ⟨[],by simp [pure,Except.pure],?_⟩
        simpa [subtrees] using Painted.nil
      | cons c children ihc =>
        intro hchild hlower drawn
        obtain ⟨hfirst,hlower⟩ := List.pairwise_cons.mp hlower
        obtain ⟨child,hw,hp⟩ := hchild c (by simp)
        obtain ⟨ds,hret,hds⟩ :=
          ih hw (fuel_child hfuel (hf.parent hw hp).1) (.child hw hp hplace) drawn
        obtain ⟨ds',hret',hds'⟩ := ihc (fun d hd => hchild d (by simp [hd])) hlower (drawn++ds)
        refine ⟨ds++ds',?_,?_⟩
        · simp only [List.foldlM_cons,hret,bind,Except.bind,hret',List.append_assoc]
        · rw [subtrees_cons]
          refine hds.append hds' ?_
          rintro x hx y ⟨t,ht,hty⟩
          exact .beside (hfirst t ht) hx hty
    have hself : srv.Shown ⟨r,win.pos.x+offX,win.pos.y+offY,win.sizes.w,win.sizes.h⟩ :=
      ⟨hplace,win,hr,rfl⟩
    obtain ⟨ds,hret,hds⟩ := hchildren win.children
      (fun c hc => (hf.mem_children_iff hr).mp hc) (ho.children_lower hr)
      (drawn++[⟨r,win.pos.x+offX,win.pos.y+offY,win.sizes.w,win.sizes.h⟩])
    refine ⟨⟨r,win.pos.x+offX,win.pos.y+offY,win.sizes.w,win.sizes.h⟩::ds,?_,?_⟩
    · simp only [drawWindow,deref_some hr,bind,Except.bind,hret,List.append_assoc,
        List.singleton_append]
    · rw [subtree_eq hf hr]
      refine (Painted.single hself).append hds ?_
      rintro x rfl y ⟨c,hc,hcy⟩
      obtain ⟨child,hw,hp⟩ := (hf.mem_children_iff hr).mp hc
      exact .above (.head ⟨child,hw,hp⟩ hcy) ((hf.parent hw hp).1.trans_le (hf.below_le hcy)).ne

/-- A redraw paints the windows below the root. -/
theorem svRedraw_eq {root overlay : Ref} (ho : srv.Ordered) (hroot : srv.Rooted root overlay) :
    ∃ frame, srv.svRedraw = .ok frame ∧ srv.Painted (srv.subtree root) frame.windows := by
  obtain ⟨win,hw,hp,-⟩ := hroot.root_base
  obtain ⟨top,htop,hptop,-⟩ := hroot.overlay_base
  obtain ⟨srv₁,hrestack⟩ := svRestack_returns ho.forest hw
  obtain rfl := restack_in_order (fun x _ => ho.sorted x) hrestack
  obtain ⟨ds,hret,hds⟩ := drawWindow_eq ho hw (Nat.le_add_right _ _)
    (show srv₁.Place root (win.pos.x+0) (win.pos.y+0) by simpa using Place.top hw hp) []
  obtain ⟨ds',hret',-⟩ := drawWindow_eq ho htop (Nat.le_add_right _ _)
    (show srv₁.Place overlay (top.pos.x+0) (top.pos.y+0) by simpa using Place.top htop hptop) []
  refine ⟨⟨srv₁,ds,ds'⟩,?_,hds⟩
  simp only [svRedraw,hroot.root_eq,hroot.overlay_eq,hrestack,bind,Except.bind]
  simp only [BitVec.ofNat_eq_ofNat,List.nil_append] at hret hret' ⊢
  rw [hret]
  simp only
  rw [hret']
  rfl

/-- The walk from the root comes to the window, and its rectangle is over the point. -/
def PaintedAt (srv : Server) (x y : BitVec 32) (r : Ref) : Prop :=
  (∃ root, srv.root = some root ∧ srv.Below root r) ∧ ∃ d, srv.Shown d ∧ d.win = r ∧
  d.covers x y = true

/-- Of the windows painted at the point, all others are painted before `front`. -/
structure Front (srv : Server) (x y : BitVec 32) (front : Option Ref) : Prop where
  painted : ∀ t, front = some t → srv.PaintedAt x y t
  under : ∀ r, srv.PaintedAt x y r → front ≠ some r → ∃ t, front = some t ∧ srv.Under r t

theorem Front.unique (hf : srv.Forest) {x y : BitVec 32} {front front' : Option Ref}
    (h : srv.Front x y front) (h' : srv.Front x y front') : front = front' := by
  by_contra hne
  have hkey : ∀ {front front' t}, srv.Front x y front → srv.Front x y front' → front = some t →
      front' ≠ some t → ∃ t', front' = some t' ∧ srv.Under t t' := fun h h' ht hne =>
    h'.under _ (h.painted _ ht) hne
  cases hfront : front with
  | none =>
    cases hfront' : front' with
    | none => exact hne (hfront.trans hfront'.symm)
    | some t =>
      obtain ⟨t',ht',-⟩ := hkey h' h hfront' (by simp [hfront])
      cases hfront.symm.trans ht'
  | some t =>
    have hne' : front' ≠ some t := fun he => hne (hfront.trans he.symm)
    obtain ⟨t',ht',hunder⟩ := hkey h h' hfront hne'
    obtain ⟨t₂,ht₂,hunder'⟩ := hkey h' h ht' fun he => hne (he.trans ht'.symm)
    obtain rfl := Option.some.inj (hfront.symm.trans ht₂)
    exact hunder.asymm hf hunder'

/-- The window painted last at a point is the one in front. -/
theorem topmost_front {root : Ref} {frame : Frame} (hroot : srv.root = some root)
    (hpainted : srv.Painted (srv.subtree root) frame.windows) (x y : BitVec 32) :
    srv.Front x y (frame.topmost x y) := by
  rw [Frame.topmost]
  have hover : ∀ d, d ∈ frame.windows.filter (fun d => d.covers x y) ↔
      (d.win ∈ srv.subtree root ∧ srv.Shown d) ∧ d.covers x y = true := fun d => by
    rw [List.mem_filter,hpainted.mem_iff]
  have hpair := hpainted.order.sublist (List.filter_sublist (p:=fun d => d.covers x y))
  have hmem : ∀ r, srv.PaintedAt x y r →
      ∃ d ∈ frame.windows.filter (fun d => d.covers x y), d.win = r := by
    rintro r ⟨⟨top,htop,hbelow⟩,d,hshown,rfl,hcovers⟩
    obtain rfl := Option.some.inj (hroot.symm.trans htop)
    exact ⟨d,(hover d).mpr ⟨⟨hbelow,hshown⟩,hcovers⟩,rfl⟩
  generalize frame.windows.filter (fun d => d.covers x y) = there at *
  rcases List.eq_nil_or_concat there with rfl | ⟨init,d,rfl⟩
  · refine ⟨fun t ht => (by cases ht),fun r hr _ => ?_⟩
    obtain ⟨d,hd,-⟩ := hmem r hr
    cases hd
  · rw [List.concat_eq_append] at hover hpair hmem ⊢
    obtain ⟨⟨hbelow,hshown⟩,hcovers⟩ := (hover d).mp (by simp)
    rw [List.getLast?_concat,Option.map_some]
    refine ⟨fun t ht => ?_,fun r hr hne => ?_⟩
    · obtain rfl := Option.some.inj ht
      exact ⟨⟨root,hroot,hbelow⟩,d,hshown,rfl,hcovers⟩
    · obtain ⟨d',hd',rfl⟩ := hmem r hr
      rcases List.mem_append.mp hd' with hinit | hlast
      · exact ⟨d.win,rfl,(List.pairwise_append.mp hpair).2.2 d' hinit d (by simp)⟩
      · obtain rfl := List.mem_singleton.mp hlast
        exact absurd rfl hne

end Server
end Compose
end ScalesOS
