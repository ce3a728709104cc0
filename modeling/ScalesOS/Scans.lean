import Mathlib.Logic.Relation
import Mathlib.Tactic

/-!
# Scans

A scan goes from place to place in search of the entry with a given index. At each place it
ends, passes on, or counts an entry and passes on. What it finds may depend on something that
is new at every turn.
-/

namespace Scans
open Relation

inductive Turn (α γ : Type)
  | ended (r : γ)
  | passed (next : α)
  | listed (r : γ) (next : α)

variable {F α γ δ : Type}

/-- The result of a scan, unless the fuel runs out. `fresh` is what is new at the turns. -/
def nth (look : F → α → Turn α γ) : ℕ → (ℕ → F) → ℕ → α → Option γ
  | 0,_,_,_ => none
  | fuel+1,fresh,index,a =>
    match look (fresh 0) a with
    | .ended r => some r
    | .passed next => nth look fuel (fun n => fresh (n+1)) index next
    | .listed r next => if index = 0 then some r
        else nth look fuel (fun n => fresh (n+1)) (index-1) next

def Ends (look : F → α → Turn α γ) (fresh : ℕ → F) (index : ℕ) (a : α) : Prop :=
  ∃ fuel, (nth look fuel fresh index a).isSome

def Pass (look : F → α → Turn α γ) (a b : α) : Prop := ∃ f, look f a = .passed b

def Goes (look : F → α → Turn α γ) (f : F) (x y : ℕ × α) : Prop :=
  look f x.2 = .passed y.2 ∧ y.1 = x.1 ∨ ∃ r, look f x.2 = .listed r y.2 ∧ x.1 = y.1+1

def Step (look : F → α → Turn α γ) (x y : ℕ × α) : Prop := ∃ f, Goes look f x y

/-- On its way to the entry with the index the scan can pass from one place to another that are
so related. -/
def Meets (look : F → α → Turn α γ) (bad : α → α → Prop) (index : ℕ) (a : α) : Prop :=
  ∃ x b, ReflTransGen (Step look) (index,a) x ∧ Pass look x.2 b ∧ bad x.2 b

section
variable {look : F → α → Turn α γ} {bad : α → α → Prop} {fresh : ℕ → F} {f : F} {x y : ℕ × α}
    {a b : α} {index fuel : ℕ}

theorem nth_goes (h : Goes look (fresh 0) x y) :
    nth look (fuel+1) fresh x.1 x.2 = nth look fuel (fun n => fresh (n+1)) y.1 y.2 := by
  obtain ⟨i,a⟩ := x
  obtain ⟨j,b⟩ := y
  rcases h with ⟨hpass,heq⟩ | ⟨r,hlist,heq⟩
  · dsimp only at hpass heq
    rw [nth,hpass,heq]
  · dsimp only at hlist heq
    rw [heq,nth,hlist]
    rfl

theorem goes_or_returns (look : F → α → Turn α γ) (fresh : ℕ → F) (x : ℕ × α) :
    (∃ r, ∀ fuel, nth look (fuel+1) fresh x.1 x.2 = some r) ∨ ∃ y, Goes look (fresh 0) x y := by
  obtain ⟨i,a⟩ := x
  cases hturn : look (fresh 0) a with
  | ended r => exact .inl ⟨r,fun fuel => by rw [nth,hturn]⟩
  | passed b => exact .inr ⟨(i,b),.inl ⟨hturn,rfl⟩⟩
  | listed r b =>
    cases i with
    | zero => exact .inl ⟨r,fun fuel => by rw [nth,hturn]; rfl⟩
    | succ i => exact .inr ⟨(i,b),.inr ⟨r,hturn,rfl⟩⟩

theorem Meets.step (h : Step look x y) (hmeets : Meets look bad y.1 y.2) :
    Meets look bad x.1 x.2 := by
  obtain ⟨z,b,hway,hpass,hbad⟩ := hmeets
  exact ⟨z,b,.head h hway,hpass,hbad⟩

/-- A scan ends if whatever it passes leads forward, below a bound. The induction is on the entries
that it leaves out, and between two of them on the places that are left. -/
theorem ends_of_not_meets {place : α → ℕ} {bound : ℕ}
    (hforward : ∀ a b, Pass look a b → ¬ bad a b → place a < place b ∧ place b < bound)
    (index : ℕ) :
    ∀ a fresh, ¬ Meets look bad index a → Ends look fresh index a := by
  induction index using Nat.strong_induction_on with
  | _ index outer =>
    intro a
    induction hn : bound-place a using Nat.strong_induction_on generalizing a with
    | _ n inner =>
      intro fresh hfree
      rcases goes_or_returns look fresh (index,a) with ⟨r,hr⟩ | ⟨y,hgoes⟩
      · exact ⟨1,by rw [hr]; rfl⟩
      have hrest : ¬ Meets look bad y.1 y.2 := fun h => hfree (Meets.step ⟨_,hgoes⟩ h)
      have hends : Ends look (fun n => fresh (n+1)) y.1 y.2 := by
        rcases hgoes with ⟨hpass,hindex⟩ | ⟨r,-,hindex⟩
        · have hlt :=
            hforward a y.2 ⟨_,hpass⟩ fun hbad => hfree ⟨(index,a),y.2,.refl,⟨_,hpass⟩,hbad⟩
          obtain rfl : y.1 = index := hindex
          exact inner (bound-place y.2) (by omega) y.2 rfl _ hrest
        · have hindex : index = y.1+1 := hindex
          exact outer y.1 (by omega) y.2 _ hrest
      obtain ⟨fuel,hsome⟩ := hends
      exact ⟨fuel+1,by rwa [nth_goes hgoes]⟩

/-- A scan goes on for ever if what it has passed in this way it can pass in this way again. -/
theorem exists_fresh_of_meets
    (hagain : ∀ a b, Pass look a b → bad a b → ∃ c, Pass look b c ∧ bad b c)
    (h : Meets look bad index a) : ∃ fresh, ¬ Ends look fresh index a := by
  have hgoes : ∀ x : {x : ℕ × α // Meets look bad x.1 x.2}, ∃ f y, Goes look f x.1 y ∧
      Meets look bad y.1 y.2 := by
    rintro ⟨x,z,b,hway,hpass,hbad⟩
    rcases ReflTransGen.cases_head hway with rfl | ⟨y,⟨f,hgoes⟩,hrest⟩
    · obtain ⟨f,hturn⟩ := hpass
      obtain ⟨c,hnext,hbad'⟩ := hagain _ _ ⟨f,hturn⟩ hbad
      exact ⟨f,(x.1,b),.inl ⟨hturn,rfl⟩,(x.1,b),c,.refl,hnext,hbad'⟩
    · exact ⟨f,y,hgoes,z,b,hrest,hpass,hbad⟩
  choose f y hgoes hmeets using hgoes
  have hnone : ∀ fuel (x : {x : ℕ × α // Meets look bad x.1 x.2}),
      nth look fuel (fun n => f ((fun x => ⟨y x,hmeets x⟩)^[n] x)) x.1.1 x.1.2 = none := by
    intro fuel
    induction fuel with
    | zero => exact fun x => rfl
    | succ fuel ih =>
      intro x
      rw [nth_goes (y:=y x) (hgoes x)]
      exact ih ⟨y x,hmeets x⟩
  refine ⟨fun n => f ((fun x => ⟨y x,hmeets x⟩)^[n] ⟨(index,a),h⟩),?_⟩
  rintro ⟨fuel,hsome⟩
  rw [hnone fuel ⟨(index,a),h⟩] at hsome
  cases hsome

/-- From `a` on the scan passes places with these entries, or with none, and then ends. `R` says
which entry a result stands for. -/
inductive Trail (look : F → α → Turn α γ) (R : γ → δ → Prop) (last : δ) : α → List (Option δ) → Prop
  | ended {a : α} (r : F → γ) : (∀ f, look f a = .ended (r f) ∧ R (r f) last) →
      Trail look R last a []
  | passed {a : α} {l : List (Option δ)} (next : F → α) : (∀ f, look f a = .passed (next f)) →
      (∀ f, Trail look R last (next f) l) → Trail look R last a (none::l)
  | listed {a : α} {l : List (Option δ)} {entry : δ} (r : F → γ) (next : F → α) :
      (∀ f, look f a = .listed (r f) (next f) ∧ R (r f) entry) →
      (∀ f, Trail look R last (next f) l) → Trail look R last a (some entry::l)

theorem Trail.nth_eq {R : γ → δ → Prop} {last : δ} {l : List (Option δ)}
    (h : Trail look R last a l) :
    ∀ fresh index fuel, l.length < fuel →
      ∃ r, nth look fuel fresh index a = some r ∧ R r (((l.filterMap id)[index]?).getD last) := by
  induction h with
  | ended r hturn =>
    intro fresh index fuel hfuel
    obtain ⟨fuel,rfl⟩ := Nat.exists_eq_add_of_lt hfuel
    obtain ⟨heq,hr⟩ := hturn (fresh 0)
    exact ⟨r (fresh 0),by rw [nth,heq],hr⟩
  | passed next hturn _ ih =>
    intro fresh index fuel hfuel
    obtain ⟨fuel,rfl⟩ : ∃ n, fuel = n+1 := ⟨fuel-1,by omega⟩
    rw [nth,hturn]
    exact ih (fresh 0) _ _ _ (by simpa using hfuel)
  | listed r next hturn _ ih =>
    intro fresh index fuel hfuel
    obtain ⟨fuel,rfl⟩ : ∃ n, fuel = n+1 := ⟨fuel-1,by omega⟩
    obtain ⟨heq,hr⟩ := hturn (fresh 0)
    rw [nth,heq]
    cases index with
    | zero => exact ⟨r (fresh 0),rfl,hr⟩
    | succ index => exact ih (fresh 0) _ _ _ (by simpa using hfuel)

end
end Scans
