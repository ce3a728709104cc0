import ScalesOS.WindowOrder

/-!
# Raising and sinking

Moving a window to the top or to the bottom of its siblings. The request handler raises the
window for both; it does nothing when the position in the request is the one the window has;
and above a sibling whose `z` is the largest number the next `z` is the smallest one.
-/

namespace ScalesOS
namespace Compose

def INT_MAX : BitVec 32 := 0x7fffffff#32
def INT_MIN : BitVec 32 := 0x80000000#32

theorem toInt_le_max (z : BitVec 32) : z.toInt ≤ INT_MAX.toInt := by
  have := BitVec.toInt_lt (x:=z)
  have hmax : INT_MAX.toInt = 2147483647 := by decide
  omega

theorem min_le_toInt (z : BitVec 32) : INT_MIN.toInt ≤ z.toInt := by
  have := BitVec.le_toInt (x:=z)
  have hmin : INT_MIN.toInt = -2147483648 := by decide
  omega

theorem max_add_one : INT_MAX+1 = INT_MIN := by decide

theorem lt_add_one {z : BitVec 32} (hz : z ≠ INT_MAX) : z.toInt < (z+1).toInt := by
  have hne : z.toNat ≠ 2147483647 := fun he => hz (BitVec.eq_of_toNat_eq he)
  have := z.isLt
  rw [BitVec.toInt_eq_toNat_cond,BitVec.toInt_eq_toNat_cond,BitVec.toNat_add]
  have hone : (1 : BitVec 32).toNat = 1 := rfl
  rw [hone]
  split <;> split <;> omega

variable {z z₁ z₂ : ℕ → BitVec 32} {children children₁ children₂ : List ℕ} {r : ℕ} {v : BitVec 32}

/-- What sorting compares. -/
def signed (z : ℕ → BitVec 32) (r : ℕ) : ℤ := (z r).toInt

/-- Raising leaves the last sibling alone and gives any other the `z` after that of the last. -/
inductive Raised (z : ℕ → BitVec 32) (r : ℕ) (children : List ℕ) : (ℕ → BitVec 32) → List ℕ → Prop
  | last (hlast : children.getLast? = some r) : Raised z r children z children
  | above {t : ℕ} {children' : List ℕ} (htop : children.getLast? = some t) (hne : t ≠ r)
      (hsort : Resorted (signed (Function.update z r (z t+1))) children children') :
      Raised z r children (Function.update z r (z t+1)) children'

/-- A sibling has the largest `z` there is. -/
def Crowded (z : ℕ → BitVec 32) (r : ℕ) (children : List ℕ) : Prop :=
  ∃ s ∈ children, s ≠ r ∧ z s = INT_MAX

theorem Resorted.le_of_before {key : ℕ → ℤ} (h : Resorted key children children₁) {a b : ℕ}
    (hsub : [a,b].Sublist children₁) : key a ≤ key b := by
  have hpair := h.sorted.sublist hsub
  exact (List.pairwise_pair (R:=fun a b => key a ≤ key b)).mp hpair

theorem Resorted.before_of_lt {key : ℕ → ℤ} (h : Resorted key children children₁) {a b : ℕ}
    (ha : a ∈ children) (hb : b ∈ children) (hlt : key a < key b) : [a,b].Sublist children₁ := by
  have hne : a ≠ b := fun he => absurd hlt (he ▸ lt_irrefl _)
  exact (before_or_behind (h.perm.mem_iff.mpr ha) (h.perm.mem_iff.mpr hb) hne).resolve_right
      fun hba =>
    absurd (h.le_of_before hba) (not_le.mpr hlt)

theorem signed_update_self : signed (Function.update z r v) r = v.toInt := by simp [signed]

theorem signed_update_of_ne {s : ℕ} (hs : s ≠ r) :
    signed (Function.update z r v) s = signed z s := by
  simp [signed,hs]

theorem erase_sorted (hnodup : children.Nodup) (hs : children.Pairwise (signed z · ≤ signed z ·))
    (v : BitVec 32) :
    (children.erase r).Pairwise (signed (Function.update z r v) · ≤
      signed (Function.update z r v) ·) := by
  refine (hs.sublist List.erase_sublist).imp_of_mem fun {a b} ha hb hle => ?_
  rwa [signed_update_of_ne (hnodup.mem_erase_iff.mp ha).1,
    signed_update_of_ne (hnodup.mem_erase_iff.mp hb).1]

namespace Raised

theorem perm (h : Raised z₁ r children₁ z₂ children₂) : children₂.Perm children₁ := by
  cases h with
  | last => exact .refl _
  | above _ _ hsort => exact hsort.perm

theorem sorted (h : Raised z₁ r children₁ z₂ children₂)
    (hs : children₁.Pairwise (signed z₁ · ≤ signed z₁ ·)) :
    children₂.Pairwise (signed z₂ · ≤ signed z₂ ·) := by
  cases h with
  | last => exact hs
  | above _ _ hsort => exact hsort.sorted

theorem erase_eq (h : Raised z₁ r children₁ z₂ children₂) (hnodup : children₁.Nodup)
    (hs : children₁.Pairwise (signed z₁ · ≤ signed z₁ ·)) :
    children₂.erase r = children₁.erase r := by
  cases h with
  | last => rfl
  | above _ _ hsort => exact hsort.erase_eq hnodup (erase_sorted hnodup hs _)

end Raised

theorem le_top (hnodup : children.Nodup)
    (hmove : Resorted (signed (Function.update z r v)) children children₁) {t : ℕ}
    (htop : children₁.getLast? = some t) (hne : t ≠ r) {s : ℕ} (hs : s ∈ children) (hsr : s ≠ r) :
    (z s).toInt ≤ (z t).toInt := by
  by_cases he : s = t
  · rw [he]
  · have hmem : t ∈ children₁ := List.mem_of_getLast? htop
    have hle := hmove.le_of_before
      ((getLast_eq_iff (hmove.perm.nodup_iff.mpr hnodup) hmem).mp htop s
        (hmove.perm.mem_iff.mpr hs) he)
    rwa [signed_update_of_ne hsr,signed_update_of_ne hne] at hle

theorem top_eq_max (hnodup : children.Nodup)
    (hmove : Resorted (signed (Function.update z r v)) children children₁)
    {t : ℕ} (htop : children₁.getLast? = some t) (hne : t ≠ r) (hcrowded : Crowded z r children) :
    z t = INT_MAX := by
  obtain ⟨s,hs,hsr,hmax⟩ := hcrowded
  have hle := le_top hnodup hmove htop hne hs hsr
  rw [hmax] at hle
  exact BitVec.toInt_inj.mp (le_antisymm (toInt_le_max _) hle)

theorem exists_sibling (hnodup : children.Nodup) (hr : r ∈ children) (hne : children ≠ [r]) :
    ∃ s ∈ children, s ≠ r := by
  by_contra hall
  push Not at hall
  cases children with
  | nil => cases hr
  | cons a rest =>
    obtain rfl := hall a (by simp)
    cases rest with
    | nil => exact hne rfl
    | cons b rest =>
      obtain rfl := hall b (by simp)
      simp at hnodup

section Ends

variable (hnodup : children.Nodup) (hr : r ∈ children)
    (hs : children.Pairwise (signed z · ≤ signed z ·))
  (hmove : Resorted (signed (Function.update z r v)) children children₁)
  (hraise : Raised (Function.update z r v) r children₁ z₂ children₂)

include hnodup hr hs hmove

/-- Next to a sibling with the largest `z`, a window stays last after a move only if it was last
and gets that `z`, too. -/
theorem moved_last_iff (hcrowded : Crowded z r children) :
    children₁.getLast? = some r ↔ children.getLast? = some r ∧ v = INT_MAX := by
  have hnodup₁ := hmove.perm.nodup_iff.mpr hnodup
  obtain ⟨s₀,hs₀,hne₀,hmax₀⟩ := hcrowded
  constructor
  · intro hlast
    rw [getLast_eq_iff hnodup₁ (hmove.perm.mem_iff.mpr hr)] at hlast
    have hbefore : ∀ s ∈ children, s ≠ r → [s,r].Sublist children₁ := fun s hs' hne =>
      hlast s (hmove.perm.mem_iff.mpr hs') hne
    have hv : v = INT_MAX := by
      have hle := hmove.le_of_before (hbefore s₀ hs₀ hne₀)
      rw [signed_update_self,signed_update_of_ne hne₀,signed,hmax₀] at hle
      exact BitVec.toInt_inj.mp (le_antisymm (toInt_le_max v) hle)
    refine ⟨?_,hv⟩
    rw [List.getLast?_eq_some_getLast (List.ne_nil_of_mem hr)]
    by_contra hother
    set t := children.getLast (List.ne_nil_of_mem hr) with ht
    have hlast' : children.getLast? = some t := List.getLast?_eq_some_getLast _
    have hmem : t ∈ children := List.getLast_mem _
    have hne : t ≠ r := fun he => hother (by rw [he])
    have hmax : z t = INT_MAX := by
      have hle := hs.rel_getLast hs₀
      rw [← ht,signed,signed,hmax₀] at hle
      exact BitVec.toInt_inj.mp (le_antisymm (toInt_le_max _) hle)
    have hsub : [r,t].Sublist children := (getLast_eq_iff hnodup hmem).mp hlast' r hr hne.symm
    refine not_behind hnodup₁ (hbefore t hmem hne) (hmove.before ?_ hsub)
    rw [signed_update_self,signed_update_of_ne hne,signed,hv,hmax]
  · rintro ⟨hlast,hv⟩
    have hsorted : children.Pairwise
        (signed (Function.update z r v) · ≤ signed (Function.update z r v) ·) := by
      refine List.pairwise_iff_forall_sublist.mpr fun {a b} hab => ?_
      have hne : a ≠ b := by
        have := hnodup.sublist hab
        simpa using this
      by_cases hb : b = r
      · rw [hb,signed_update_self,hv]
        exact toInt_le_max _
      · have ha : a ≠ r := fun he => not_behind hnodup hab
          (he ▸ (getLast_eq_iff hnodup hr).mp hlast b (hab.subset (by simp)) hb)
        rw [signed_update_of_ne ha,signed_update_of_ne hb]
        exact List.pairwise_iff_forall_sublist.mp hs hab
    rwa [hmove.eq_of_sorted hsorted]

include hraise

/-- A raised window is last, unless there is no `z` left above its siblings. -/
theorem raised_last_iff : children₂.getLast? = some r ↔
    ¬ Crowded z r children ∨ (children.getLast? = some r ∧ v = INT_MAX) := by
  have hnodup₁ := hmove.perm.nodup_iff.mpr hnodup
  have hr₁ := hmove.perm.mem_iff.mpr hr
  have hnodup₂ := hraise.perm.nodup_iff.mpr hnodup₁
  have hr₂ := hraise.perm.mem_iff.mpr hr₁
  cases hraise with
  | last hlast =>
    by_cases hcrowded : Crowded z r children
    · simp [hcrowded,moved_last_iff hnodup hr hs hmove hcrowded]
    · simp [hcrowded,hlast]
  | @above t _ htop hne hsort =>
    have ht := List.mem_of_getLast? htop
    simp only [Function.update_of_ne hne,Function.update_idem] at hsort
    by_cases hcrowded : Crowded z r children
    · have hnot : ¬ (children.getLast? = some r ∧ v = INT_MAX) := fun h => by
        have hlast := (moved_last_iff hnodup hr hs hmove hcrowded).mpr h
        rw [htop] at hlast
        exact hne (Option.some.inj hlast)
      have htmax := top_eq_max hnodup hmove htop hne hcrowded
      have hbefore : [r,t].Sublist children₂ := by
        refine hsort.before_of_lt hr₁ ht ?_
        rw [signed_update_self,signed_update_of_ne hne,signed,htmax]
        decide
      have hnotlast : children₂.getLast? ≠ some r := fun hlast =>
        not_behind hnodup₂ hbefore
          ((getLast_eq_iff hnodup₂ hr₂).mp hlast t (hbefore.subset (by simp)) hne)
      simp only [hnotlast,false_iff,not_or,not_not]
      exact ⟨hcrowded,hnot⟩
    · have htmax : z t ≠ INT_MAX := fun hmax => hcrowded ⟨t,hmove.perm.mem_iff.mp ht,hne,hmax⟩
      simp only [hcrowded,not_false_eq_true,true_or,iff_true]
      refine (getLast_eq_iff hnodup₂ hr₂).mpr fun s hsmem hsr => ?_
      have hs₁ := hsort.perm.mem_iff.mp hsmem
      refine hsort.before_of_lt hs₁ hr₁ ?_
      rw [signed_update_self,signed_update_of_ne hsr]
      exact (le_top hnodup hmove htop hne (hmove.perm.mem_iff.mp hs₁) hsr).trans_lt
        (lt_add_one htmax)

/-- Raising makes a window the first one only if it is alone, or if its `z` wraps around to the
smallest number, past which no sibling with that `z` lies. -/
theorem raised_first_iff : children₂.head? = some r ↔
    children = [r] ∨ (Crowded z r children ∧ ¬ (children.getLast? = some r ∧ v = INT_MAX) ∧
      ∀ s ∈ children, s ≠ r → z s = INT_MIN → v = INT_MIN ∧ [r,s].Sublist children) := by
  have hlast_iff := raised_last_iff hnodup hr hs hmove hraise
  have hnodup₁ := hmove.perm.nodup_iff.mpr hnodup
  have hr₁ := hmove.perm.mem_iff.mpr hr
  have hnodup₂ := hraise.perm.nodup_iff.mpr hnodup₁
  have hr₂ := hraise.perm.mem_iff.mpr hr₁
  have hperm := hraise.perm.trans hmove.perm
  by_cases halone : children = [r]
  · subst halone
    simp [List.perm_singleton.mp hperm]
  simp only [halone,false_or]
  by_cases hlast : children₂.getLast? = some r
  · obtain ⟨s,hsmem,hsr⟩ := exists_sibling hnodup hr halone
    have hs₂ := hperm.mem_iff.mpr hsmem
    have hnot : children₂.head? ≠ some r := fun hhead =>
      not_behind hnodup₂ ((head_eq_iff hnodup₂ hr₂).mp hhead s hs₂ hsr)
        ((getLast_eq_iff hnodup₂ hr₂).mp hlast s hs₂ hsr)
    simp only [hnot,false_iff]
    exact fun h => (hlast_iff.mp hlast).elim (absurd h.1) h.2.1
  · have hrest := hlast_iff.not.mp hlast
    rw [not_or,not_not] at hrest
    simp only [hrest.1,hrest.2,not_false_eq_true,true_and]
    cases hraise with
    | last hlast₁ => exact absurd hlast₁ hlast
    | @above t _ htop hne hsort =>
      simp only [Function.update_of_ne hne,Function.update_idem,
        top_eq_max hnodup hmove htop hne hrest.1,max_add_one] at hsort
      rw [head_eq_iff hnodup₂ hr₂]
      constructor
      · intro hfirst s hsmem hsr hmin
        have hs₁ := hmove.perm.mem_iff.mpr hsmem
        have hbefore := hfirst s (hperm.mem_iff.mpr hsmem) hsr
        have hbefore₁ : [r,s].Sublist children₁ := by
          refine (before_or_behind hr₁ hs₁ hsr.symm).resolve_right fun hbehind => ?_
          refine not_behind hnodup₂ hbefore (hsort.before ?_ hbehind)
          rw [signed_update_self,signed_update_of_ne hsr,signed,hmin]
        have hv : v = INT_MIN := by
          have hle := hmove.le_of_before hbefore₁
          rw [signed_update_self,signed_update_of_ne hsr,signed,hmin] at hle
          exact BitVec.toInt_inj.mp (le_antisymm hle (min_le_toInt v))
        refine ⟨hv,(before_or_behind hr hsmem hsr.symm).resolve_right fun hbehind => ?_⟩
        refine not_behind hnodup₁ hbefore₁ (hmove.before ?_ hbehind)
        rw [signed_update_self,signed_update_of_ne hsr,signed,hmin,hv]
      · intro hmins s hs₂ hsr
        have hsmem := hperm.mem_iff.mp hs₂
        by_cases hmin : z s = INT_MIN
        · obtain ⟨hv,hbefore⟩ := hmins s hsmem hsr hmin
          have hbefore₁ : [r,s].Sublist children₁ := by
            refine hmove.before ?_ hbefore
            rw [signed_update_self,signed_update_of_ne hsr,signed,hmin,hv]
          refine hsort.before ?_ hbefore₁
          rw [signed_update_self,signed_update_of_ne hsr,signed,hmin]
        · refine hsort.before_of_lt hr₁ (hmove.perm.mem_iff.mpr hsmem) ?_
          rw [signed_update_self,signed_update_of_ne hsr,signed]
          exact lt_of_le_of_ne (min_le_toInt _) fun he => hmin (BitVec.toInt_inj.mp he.symm)

end Ends

theorem Raised.again {z₃ : ℕ → BitVec 32} {children₃ : List ℕ} (hnodup : children₁.Nodup)
    (hr : r ∈ children₁)
    (hs : children₁.Pairwise (signed z₁ · ≤ signed z₁ ·)) (h : Raised z₁ r children₁ z₂ children₂)
    (h' : Raised z₂ r children₂ z₃ children₃) : z₃ = z₂ ∧ children₃ = children₂ := by
  have hs₂ := h.sorted hs
  cases h' with
  | last => exact ⟨rfl,rfl⟩
  | @above t' _ htop' hne' hsort' =>
    have hcrowded : Crowded z₁ r children₁ := by
      by_contra hnot
      have hlast :=
        (raised_last_iff (v:=z₁ r) hnodup hr hs (by rw [Function.update_eq_self]; exact .refl hs)
        (by rwa [Function.update_eq_self])).mpr (.inl hnot)
      rw [htop'] at hlast
      exact hne' (Option.some.inj hlast)
    have hnodup₂ := h.perm.nodup_iff.mpr hnodup
    cases h with
    | last hlast =>
      rw [htop'] at hlast
      exact absurd (Option.some.inj hlast) hne'
    | @above t _ htop hne hsort =>
      have hmax :=
        top_eq_max (v:=z₁ r) hnodup (by
          rw [Function.update_eq_self]; exact .refl hs) htop hne hcrowded
      have hcrowded' : Crowded (Function.update z₁ r (z₁ t+1)) r children₂ := by
        obtain ⟨s,hsmem,hsr,hsmax⟩ := hcrowded
        exact ⟨s,hsort.perm.mem_iff.mpr hsmem,hsr,by rw [Function.update_of_ne hsr,hsmax]⟩
      have hmax' := top_eq_max (v:=Function.update z₁ r (z₁ t+1) r) hnodup₂
        (by rw [Function.update_eq_self]; exact .refl hs₂) htop' hne' hcrowded'
      have hsame :
        Function.update (Function.update z₁ r (z₁ t+1)) r (Function.update z₁ r (z₁ t+1) t'+1) =
          Function.update z₁ r (z₁ t+1) := by
        rw [hmax',hmax,Function.update_idem]
      rw [hsame] at hsort' ⊢
      exact ⟨rfl,hsort'.eq_of_sorted hs₂⟩

/-- The `z` of a moved window before it is raised. -/
def Window.requestedZ (win : Window) (z : BitVec 32) (mask : BitVec 8) : BitVec 32 :=
  if mask &&& MOVE_Z ≠ 0#8 then z else win.pos.z

namespace Server

variable {srv srv' : Server} {par : Ref} {win parWin : Window}

theorem zOf_store (hr : srv.window r = some win) (pos : Position) :
    (srv.store r { win with pos }).zOf = Function.update srv.zOf r pos.z := by
  funext a
  by_cases ha : a = r
  · subst ha
    simp [zOf,Server.store]
  · simp [zOf,Server.store,ha]

theorem restackParent_eq (hp : win.parent = some par) :
    srv.restackParent win = srv.svRestack par := by
  rw [restackParent,hp]

theorem restackParent_moved (h : srv.Ordered) (hr : srv.window r = some win)
    (hp : win.parent = some par) (hpar : srv.window par = some parWin) {pos : Position}
    (hret : (srv.store r { win with pos }).restackParent win = .ok srv') :
    srv'.zOf = Function.update srv.zOf r pos.z ∧ ∃ children,
      srv'.window par = some { parWin with children } ∧
      Resorted (signed (Function.update srv.zOf r pos.z)) parWin.children children := by
  have hne : par ≠ r := (h.forest.parent hr hp).1.ne
  have hf : (srv.store r { win with pos }).Forest :=
    h.forest.keeps (.store hr ⟨rfl,rfl,rfl,rfl,rfl,.refl _⟩)
  rw [restackParent_eq hp] at hret
  have hpar' : (srv.store r { win with pos }).window par = some parWin := by
    simp only [Server.store,Function.update_of_ne hne]
    exact hpar
  obtain ⟨children,hwin,hsort⟩ := restack_par hf hpar' hret
  refine ⟨(restack_restacked hret).zOf.trans (zOf_store hr pos),children,hwin,?_⟩
  rw [← zOf_store hr pos]
  exact hsort

theorem svRaise_raised (h : srv.Ordered) (hr : srv.window r = some win) (hp : win.parent = some par)
    (hpar : srv.window par = some parWin) (hret : srv.svRaise r = .ok srv') :
    ∃ parWin', srv'.window par = some parWin' ∧
        Raised srv.zOf r parWin.children srv'.zOf parWin'.children := by
  rw [svRaise] at hret
  obtain ⟨win',hwin,hret⟩ := Result.bind_eq_ok.mp hret
  obtain rfl := Option.some.inj (hr.symm.trans (window_of_deref hwin))
  simp only [hp] at hret
  obtain ⟨parWin',hparWin,hret⟩ := Result.bind_eq_ok.mp hret
  obtain rfl := Option.some.inj (hpar.symm.trans (window_of_deref hparWin))
  split at hret
  · rename_i hlast
    obtain rfl := Except.ok.inj hret
    exact ⟨parWin,hpar,.last hlast⟩
  · rename_i hnotlast
    obtain ⟨top,htop,hret⟩ := Result.bind_eq_ok.mp hret
    obtain ⟨t,hlast,htwin⟩ := deref_eq_ok.mp htop
    have hne : t ≠ r := fun he => hnotlast (he ▸ hlast)
    have hs := h.sorted par _ hpar
    rw [← zOf_eq htwin] at hret
    obtain ⟨win',hwin',hret⟩ := Result.bind_eq_ok.mp hret
    obtain rfl := Option.some.inj (hr.symm.trans (window_of_deref hwin'))
    split at hret
    · rename_i hpos
      obtain rfl := Except.ok.inj hret
      have hsame : Function.update srv.zOf r (srv.zOf t+1) = srv.zOf := by
        rw [← show win.pos.z = srv.zOf t+1 from congrArg Position.z hpos,← zOf_eq hr,
          Function.update_eq_self]
      refine ⟨parWin,hpar,?_⟩
      have habove := Raised.above (z:=srv.zOf) hlast hne (by rw [hsame]; exact .refl hs)
      rwa [hsame] at habove
    · obtain ⟨srv₁,h₁,hret⟩ := Result.bind_eq_ok.mp hret
      obtain ⟨srv₂,h₂,hret⟩ := Result.bind_eq_ok.mp hret
      obtain ⟨srv₃,h₃,hret⟩ := Result.bind_eq_ok.mp hret
      obtain ⟨moved,-,hret⟩ := Result.bind_eq_ok.mp hret
      obtain rfl := Except.ok.inj h₂
      obtain rfl := Except.ok.inj h₃
      have hwindow := sendTo_window hret
      obtain ⟨hz,children,hpar',hsort⟩ := restackParent_moved h hr hp hpar h₁
      have hz' : srv'.zOf = Function.update srv.zOf r (srv.zOf t+1) := by
        refine Eq.trans (funext fun a => ?_) hz
        rw [zOf,zOf,hwindow]
      rw [← hwindow] at hpar'
      exact ⟨_,hpar',hz' ▸ .above hlast hne hsort⟩

/-- `r` is one of the `children` of `par`, and these are the numbers that sort them. -/
structure Siblings (srv : Server) (r par : Ref) (z : Ref → BitVec 32)
    (children : List Ref) : Prop where
  ordered : srv.Ordered
  window : ∃ win, srv.window r = some win ∧ win.parent = some par
  parent : ∃ parWin, srv.window par = some parWin ∧ parWin.children = children
  numbers : srv.zOf = z

namespace Siblings

theorem nodup (h : srv.Siblings r par z children) : children.Nodup := by
  obtain ⟨parWin,hpar,rfl⟩ := h.parent
  exact h.ordered.forest.distinct hpar

theorem mem (h : srv.Siblings r par z children) : r ∈ children := by
  obtain ⟨win,hr,hp⟩ := h.window
  obtain ⟨-,parWin,hpar,hmem⟩ := h.ordered.forest.parent hr hp
  obtain ⟨parWin',hpar',rfl⟩ := h.parent
  exact Option.some.inj (hpar.symm.trans hpar') ▸ hmem

theorem sorted (h : srv.Siblings r par z children) :
    children.Pairwise (signed z · ≤ signed z ·) := by
  obtain ⟨parWin,hpar,rfl⟩ := h.parent
  obtain rfl := h.numbers
  exact h.ordered.sorted par _ hpar

theorem svRaise (h : srv.Siblings r par z children) (hret : srv.svRaise r = .ok srv') :
    ∃ z' children', srv'.Siblings r par z' children' ∧ Raised z r children z' children' := by
  obtain ⟨win,hr,hp⟩ := h.window
  obtain ⟨parWin,hpar,rfl⟩ := h.parent
  obtain rfl := h.numbers
  obtain ⟨win',hr',hlike⟩ := (svRaise_keeps hret).window_eq hr
  obtain ⟨parWin',hpar',hraised⟩ := svRaise_raised h.ordered hr hp hpar hret
  exact ⟨_,_,⟨svRaise_ordered h.ordered hret,⟨win',hr',hlike.parent.trans hp⟩,
    ⟨parWin',hpar',rfl⟩,rfl⟩,hraised⟩

theorem svEventSend (h : srv.Siblings r par z children) {cli : Option Ref} {event : Event}
    (hret : srv.sendTo cli event = .ok srv') : srv'.Siblings r par z children := by
  have hwindow := sendTo_window hret
  refine ⟨h.ordered.of_window (h.ordered.forest.keeps (sendTo_keeps hret)) hwindow,?_,?_,?_⟩
  · rw [hwindow]
    exact h.window
  · rw [hwindow]
    exact h.parent
  · rw [← h.numbers]
    funext a
    rw [zOf,zOf,hwindow]

theorem moved (h : srv.Siblings r par z children) (hr : srv.window r = some win) {pos : Position}
    {condition : Bool} (hpos : condition = false → pos.z = win.pos.z)
    (hret : when condition (fun srv => srv.restackParent win) (srv.store r { win with pos }) =
      .ok srv') :
    ∃ children', srv'.Siblings r par (Function.update z r pos.z) children' ∧
      Resorted (signed (Function.update z r pos.z)) children children' := by
  have hsorted := h.sorted
  obtain ⟨win',hr',hp⟩ := h.window
  obtain rfl := Option.some.inj (hr.symm.trans hr')
  obtain ⟨parWin,hpar,rfl⟩ := h.parent
  obtain rfl := h.numbers
  have hk : srv.Keeps (srv.store r { win with pos }) := .store hr ⟨rfl,rfl,rfl,rfl,rfl,.refl _⟩
  have ho := moved_ordered h.ordered hr hpos hret
  obtain ⟨win',hr',hlike⟩ :=
    (hk.trans (when_keeps (fun _ ht => restackParent_keeps ht) hret)).window_eq hr
  cases condition with
  | false =>
    obtain rfl := Except.ok.inj hret
    have hsame : Function.update srv.zOf r pos.z = srv.zOf := by
      rw [hpos rfl,← zOf_eq hr,Function.update_eq_self]
    refine ⟨parWin.children,⟨ho,⟨win',hr',hlike.parent.trans hp⟩,⟨parWin,?_,rfl⟩,zOf_store hr pos⟩,
      ?_⟩
    · simp only [Server.store,Function.update_of_ne (h.ordered.forest.parent hr hp).1.ne]
      exact hpar
    · rw [hsame]
      exact .refl hsorted
  | true =>
    obtain ⟨hz,children,hpar',hsort⟩ := restackParent_moved h.ordered hr hp hpar hret
    exact ⟨children,⟨ho,⟨win',hr',hlike.parent.trans hp⟩,⟨_,hpar',rfl⟩,hz⟩,hsort⟩

end Siblings

/-- A request to raise or to sink changes `z` as asked, and then raises. -/
theorem svMove_raised (h : srv.Siblings r par z children) (hr : srv.window r = some win)
    {x y newZ : BitVec 32} {mask : BitVec 8} (hpos : win.pos ≠ ⟨x,y,newZ⟩)
    (hmask : mask &&& MOVE_RAISE ≠ 0#8 ∨ mask &&& MOVE_SUNK ≠ 0#8)
    (hret : srv.svMove r x y newZ mask = .ok srv') :
    ∃ children₁ z' children', srv'.Siblings r par z' children' ∧
      Resorted (signed (Function.update z r (win.requestedZ newZ mask))) children children₁ ∧
      Raised (Function.update z r (win.requestedZ newZ mask)) r children₁ z' children' := by
  obtain ⟨win',hwin,hret⟩ := Result.bind_eq_ok.mp hret
  obtain rfl := Option.some.inj (hr.symm.trans (window_of_deref hwin))
  rw [if_neg hpos] at hret
  obtain ⟨srv₁,h₁,hret⟩ := Result.bind_eq_ok.mp hret
  obtain ⟨srv₂,h₂,hret⟩ := Result.bind_eq_ok.mp hret
  obtain ⟨srv₃,h₃,hret⟩ := Result.bind_eq_ok.mp hret
  obtain ⟨moved,-,hsend⟩ := Result.bind_eq_ok.mp hret
  obtain ⟨children₁,hs₁,hmove⟩ := h.moved hr (fun hz => if_neg (of_decide_eq_false hz)) h₁
  by_cases hraise : mask &&& MOVE_RAISE ≠ 0#8
  · rw [decide_eq_true hraise] at h₂
    obtain ⟨z₂,children₂,hs₂,hraised⟩ := hs₁.svRaise h₂
    by_cases hsunk : mask &&& MOVE_SUNK ≠ 0#8
    · rw [decide_eq_true hsunk] at h₃
      obtain ⟨z₃,children₃,hs₃,hagain⟩ := hs₂.svRaise h₃
      obtain ⟨rfl,rfl⟩ := hraised.again hs₁.nodup hs₁.mem hs₁.sorted hagain
      exact ⟨children₁,_,_,hs₃.svEventSend hsend,hmove,hraised⟩
    · rw [decide_eq_false hsunk] at h₃
      obtain rfl := Except.ok.inj h₃
      exact ⟨children₁,_,_,hs₂.svEventSend hsend,hmove,hraised⟩
  · rw [decide_eq_false hraise] at h₂
    obtain rfl := Except.ok.inj h₂
    rw [decide_eq_true (hmask.resolve_left hraise)] at h₃
    obtain ⟨z₂,children₂,hs₂,hraised⟩ := hs₁.svRaise h₃
    exact ⟨children₁,_,_,hs₂.svEventSend hsend,hmove,hraised⟩

/-- The window lies above its siblings, which are in order as they were. -/
def OnTop (srv srv' : Server) (par r : Ref) : Prop :=
  ∃ old new, srv.window par = some old ∧ srv'.window par = some new ∧
    new.children = old.children.erase r++[r] ∧ srv'.SortedAt par

/-- The window lies below its siblings, which are in order as they were. -/
def AtBottom (srv srv' : Server) (par r : Ref) : Prop :=
  ∃ old new, srv.window par = some old ∧ srv'.window par = some new ∧
    new.children = r::old.children.erase r ∧ srv'.SortedAt par

theorem onTop_iff (h : srv.Siblings r par z children) (h' : srv'.Siblings r par z₂ children₂)
    (herase : children₂.erase r = children.erase r) : srv.OnTop srv' par r ↔
    children₂.getLast? = some r := by
  obtain ⟨old,hold,rfl⟩ := h.parent
  obtain ⟨new,hnew,rfl⟩ := h'.parent
  rw [← eq_erase_append_iff h'.nodup,herase]
  constructor
  · rintro ⟨old',new',hold',hnew',hchildren,-⟩
    obtain rfl := Option.some.inj (hold.symm.trans hold')
    obtain rfl := Option.some.inj (hnew.symm.trans hnew')
    exact hchildren
  · exact fun hchildren => ⟨old,new,hold,hnew,hchildren,h'.ordered.sorted par⟩

theorem atBottom_iff (h : srv.Siblings r par z children) (h' : srv'.Siblings r par z₂ children₂)
    (herase : children₂.erase r = children.erase r) : srv.AtBottom srv' par r ↔
    children₂.head? = some r := by
  obtain ⟨old,hold,rfl⟩ := h.parent
  obtain ⟨new,hnew,rfl⟩ := h'.parent
  rw [← eq_cons_erase_iff,herase]
  constructor
  · rintro ⟨old',new',hold',hnew',hchildren,-⟩
    obtain rfl := Option.some.inj (hold.symm.trans hold')
    obtain rfl := Option.some.inj (hnew.symm.trans hnew')
    exact hchildren
  · exact fun hchildren => ⟨old,new,hold,hnew,hchildren,h'.ordered.sorted par⟩

/-- In every state reached, for every window with a parent and every request to raise or to sink
it. A window is raised unless the position in the request is the one it has or no `z` is left
above its siblings. It is never sunk on purpose: it ends up at the bottom where it lies there
anyway, or where its `z` wraps around. -/
theorem svMove_restacks_iff {w height : BitVec 32} {start : Server}
    (hstart : svCreate w height = .ok start)
    (hrun : Relation.ReflTransGen (Performs fun _ _ => True) start srv)
    (hr : srv.window r = some win)
    (hp : win.parent = some par) (hpar : srv.window par = some parWin)
    (hclient : ∀ cli, win.client = some cli → ∃ client, srv.client cli = some client)
    (x y newZ : BitVec 32) (mask : BitVec 8) :
    ∃ srv', srv.svMove r x y newZ mask = .ok srv' ∧
      (mask &&& MOVE_RAISE ≠ 0#8 → (srv.OnTop srv' par r ↔
        if win.pos = ⟨x,y,newZ⟩ then parWin.children.getLast? = some r
        else ¬ Crowded srv.zOf r parWin.children ∨ (parWin.children.getLast? = some r ∧
          win.requestedZ newZ mask = INT_MAX))) ∧
      (mask &&& MOVE_SUNK ≠ 0#8 → (srv.AtBottom srv' par r ↔
        if win.pos = ⟨x,y,newZ⟩ then parWin.children.head? = some r
        else parWin.children = [r] ∨ (Crowded srv.zOf r parWin.children ∧
          ¬ (parWin.children.getLast? = some r ∧ win.requestedZ newZ mask = INT_MAX) ∧
          ∀ s ∈ parWin.children, s ≠ r → srv.zOf s = INT_MIN →
            win.requestedZ newZ mask = INT_MIN ∧ [r,s].Sublist parWin.children))) := by
  have ho := siblings_sorted hstart hrun
  have hs : srv.Siblings r par srv.zOf parWin.children := ⟨ho,⟨win,hr,hp⟩,⟨parWin,hpar,rfl⟩,rfl⟩
  obtain ⟨srv',hret,-⟩ : ∃ srv', srv.svMove r x y newZ mask = .ok srv' ∧ srv.Keeps srv' := by
    refine svMove_returns (P:=fun s => s.Forest ∧ srv.Keeps s) (fun h hk =>
      ⟨h.1.keeps hk,h.2.trans hk⟩) And.left
      (fun {s moved} h hw event => ?_) x y newZ mask ⟨ho.forest,.refl srv⟩ hr
    obtain ⟨old,hold,hlike⟩ := h.2.of_window_eq hw
    obtain rfl := Option.some.inj (hr.symm.trans hold)
    cases hc : moved.client with
    | none => exact ⟨s,rfl⟩
    | some cli =>
      obtain ⟨client,hlive⟩ := hclient cli (hlike.client ▸ hc)
      rw [← h.2.client] at hlive
      exact ⟨_,by simp only [sendTo,svEventSend,derefClient,hlive,bind,Except.bind]; rfl⟩
  refine ⟨srv',hret,?_⟩
  by_cases hpos : win.pos = ⟨x,y,newZ⟩
  · obtain rfl : srv = srv' := by
      rw [svMove,moveWith,deref_some hr] at hret
      simp only [bind,Except.bind,if_pos hpos] at hret
      exact Except.ok.inj hret
    simp only [if_pos hpos]
    exact ⟨fun _ => onTop_iff hs hs rfl,fun _ => atBottom_iff hs hs rfl⟩
  · simp only [if_neg hpos]
    have hwhere : mask &&& MOVE_RAISE ≠ 0#8 ∨ mask &&& MOVE_SUNK ≠ 0#8 →
      (srv.OnTop srv' par r ↔ _) ∧ (srv.AtBottom srv' par r ↔ _) := fun hmask => by
      obtain ⟨children₁,z',children',hs',hmove,hraise⟩ := svMove_raised hs hr hpos hmask hret
      have herase := (hraise.erase_eq (hmove.perm.nodup_iff.mpr hs.nodup) hmove.sorted).trans
        (hmove.erase_eq hs.nodup (erase_sorted hs.nodup hs.sorted _))
      exact ⟨(onTop_iff hs hs' herase).trans
        (raised_last_iff hs.nodup hs.mem hs.sorted hmove hraise),
        (atBottom_iff hs hs' herase).trans
        (raised_first_iff hs.nodup hs.mem hs.sorted hmove hraise)⟩
    exact ⟨fun hmask => (hwhere (.inl hmask)).1,fun hmask => (hwhere (.inr hmask)).2⟩

/-- A client with two windows below the root window: 3, and 4 above it. -/
theorem two_windows : ∃ start srv win parWin, svCreate 100 100 = .ok start ∧
    Relation.ReflTransGen (Performs fun _ _ => True) start srv ∧ srv.window 3 = some win ∧
    win.parent = some 0 ∧ win.client = some 2 ∧ (srv.client 2).isSome = true ∧ win.pos = ⟨10,10,0⟩ ∧
    srv.window 0 = some parWin ∧ parWin.children = [3,4] ∧ srv.zOf 4 = 0 ∧
    ∃ srv' new, srv.svMove 3 0 0 0 MOVE_SUNK = .ok srv' ∧ srv'.window 0 = some new ∧
    new.children = [4,3] := by
  have heval : (do
      let start ← svCreate 100 100
      let a ← start.acceptClient
      let b ← a.svHandleRequest 2 (.newwin 1 ⟨10,10,20,20,0,0⟩)
      let srv ← b.svHandleRequest 2 (.newwin 1 ⟨10,10,20,20,0,0⟩)
      let win ← srv.deref (some 3)
      let parWin ← srv.deref (some 0)
      let srv' ← srv.svMove 3 0 0 0 MOVE_SUNK
      let new ← srv'.deref (some 0)
      pure (decide (2 ∈ a.clients ∧ 2 ∈ b.clients ∧ win.parent = some 0 ∧ win.client = some 2 ∧
        (srv.client 2).isSome = true ∧ win.pos = ⟨10,10,0⟩ ∧
        parWin.children = [3,4] ∧ srv.zOf 4 = 0 ∧
        new.children = [4,3])) : Result Bool) = .ok true := by decide +kernel
  obtain ⟨start,hstart,heval⟩ := Result.bind_eq_ok.mp heval
  obtain ⟨a,ha,heval⟩ := Result.bind_eq_ok.mp heval
  obtain ⟨b,hb,heval⟩ := Result.bind_eq_ok.mp heval
  obtain ⟨srv,hsrv,heval⟩ := Result.bind_eq_ok.mp heval
  obtain ⟨win,hwin,heval⟩ := Result.bind_eq_ok.mp heval
  obtain ⟨parWin,hpar,heval⟩ := Result.bind_eq_ok.mp heval
  obtain ⟨srv',hmove,heval⟩ := Result.bind_eq_ok.mp heval
  obtain ⟨new,hnew,heval⟩ := Result.bind_eq_ok.mp heval
  obtain ⟨hma,hmb,hp,hcl,hlive,hpos,hchildren,hz,hafter⟩ := of_decide_eq_true (Except.ok.inj heval)
  have hrun : Relation.ReflTransGen (Performs fun _ _ => True) start srv :=
    ((Relation.ReflTransGen.single ⟨.accept,trivial,trivial,ha⟩).tail
      ⟨.request 2 (.newwin 1 ⟨10,10,20,20,0,0⟩),hma,trivial,hb⟩).tail
      ⟨.request 2 (.newwin 1 ⟨10,10,20,20,0,0⟩),hmb,trivial,hsrv⟩
  exact ⟨start,srv,win,parWin,hstart,hrun,window_of_deref hwin,hp,hcl,hlive,hpos,
    window_of_deref hpar,hchildren,hz,srv',new,hmove,window_of_deref hnew,hafter⟩

/-- Raising the lower one. -/
theorem svMove_restacks_raise : ∃ start srv srv', svCreate 100 100 = .ok start ∧
    Relation.ReflTransGen (Performs fun _ _ => True) start srv ∧
    srv.svMove 3 0 0 0 MOVE_RAISE = .ok srv' ∧ srv.OnTop srv' 0 3 := by
  obtain ⟨start,srv,win,parWin,hstart,hrun,hr,hp,hcl,hlive,hpos,hpar,hchildren,hz,-⟩ := two_windows
  obtain ⟨srv',hret,hraise,-⟩ := svMove_restacks_iff hstart hrun hr hp hpar
    (fun cli hc => Option.isSome_iff_exists.mp (by rwa [← Option.some.inj (hcl.symm.trans hc)]))
    0 0 0 MOVE_RAISE
  refine ⟨start,srv,srv',hstart,hrun,hret,(hraise (by decide)).mpr ?_⟩
  rw [if_neg (by rw [hpos]; decide),hchildren]
  refine .inl ?_
  rintro ⟨s,hs,hne,hmax⟩
  have hs4 : s = 4 := by simpa [hne] using hs
  rw [hs4,hz] at hmax
  cases hmax

/-- Sinking the lower one moves it to the top. -/
theorem sunk_raises : ∃ start srv srv', svCreate 100 100 = .ok start ∧
    Relation.ReflTransGen (Performs fun _ _ => True) start srv ∧
    srv.svMove 3 0 0 0 MOVE_SUNK = .ok srv' ∧ ¬ srv.AtBottom srv' 0 3 ∧ srv.OnTop srv' 0 3 := by
  obtain ⟨start,srv,win,parWin,hstart,hrun,-,-,-,-,-,hpar,hchildren,-,srv',new,hret,hnew,hafter⟩ :=
    two_windows
  have hsorted := (svMove_ordered (siblings_sorted hstart hrun) hret).sorted 0
  refine ⟨start,srv,srv',hstart,hrun,hret,?_,parWin,new,hpar,hnew,
    by rw [hafter,hchildren]; rfl,hsorted⟩
  rintro ⟨old,new',-,hnew',hbottom,-⟩
  obtain rfl := Option.some.inj (hnew.symm.trans hnew')
  rw [hafter] at hbottom
  cases hbottom

end Server

end Compose
end ScalesOS
