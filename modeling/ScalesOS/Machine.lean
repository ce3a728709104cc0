import Mathlib.Logic.Relation
import Mathlib.Tactic

/-! The outcome type shared by all modelled kernel code, and the fixed address
space layout of `mem/memory.h`. Machine integers are natural numbers; wrap-around
is written as an explicit remainder where the source can reach it. -/
namespace ScalesOS

/-- A kernel call either returns, stops the machine through `k_panic`, or stays in
a loop for ever. -/
inductive Fault
  | panic (reason : String)
  | loop
  deriving DecidableEq, Repr

abbrev Result (α : Type) := Except Fault α

theorem Result.bind_eq_ok {α β : Type} {x : Result α} {f : α → Result β} {b : β} :
    (x >>= f) = .ok b ↔ ∃ a, x = .ok a ∧ f a = .ok b := by
  cases x with
  | error e => simp [bind,Except.bind]
  | ok a => simp [bind,Except.bind]

theorem Result.eq_ok_of_toOption {ε α : Type} {x : Except ε α} {a : α}
    (h : x.toOption = some a) : x = .ok a := by
  cases x with
  | error e => cases h
  | ok b => exact congrArg Except.ok (Option.some.inj h)

theorem Result.bind_ne_loop {α β : Type} {x : Result α} {f : α → Result β} (hx : x ≠ .error .loop)
    (hf : ∀ a, x = .ok a → f a ≠ .error .loop) : (x >>= f) ≠ .error .loop := by
  cases x with
  | error e => exact fun h => hx (by simpa [bind,Except.bind] using h)
  | ok a => exact hf a rfl

@[simp] theorem Result.pure_ne_error {α : Type} (a : α) (e : Fault) :
    (pure a : Result α) ≠ .error e := fun h => by cases h

@[simp] theorem Result.throw_panic_ne_loop {α : Type} (reason : String) :
    (throw (.panic reason) : Result α) ≠ .error .loop := fun h => by cases h

/-- The `%d` conversion of a 32-bit value. -/
def fmtD (x : ℕ) : String := toString (BitVec.ofNat 32 x).toInt

abbrev W32 : ℕ := 0x100000000
abbrev W64 : ℕ := 0x10000000000000000

def sub32 (a b : ℕ) : ℕ := if b ≤ a then a-b else a+2^32-b

theorem sub32_eq {a b : ℕ} (h : b ≤ a) : sub32 a b = a-b := if_pos h

def VIRTUAL_BASE : ℕ := 0xC0000000
def USABLE_MEMORY_END : ℕ := 0xFFC00000
def USER_STACK_START : ℕ := 0xBFFFF000
def USER_STACK_SIZE : ℕ := 64*1024
def USER_STACK_END : ℕ := USER_STACK_START-USER_STACK_SIZE
def LOWMEM_START : ℕ := 0xC1000000
def LOWMEM_END : ℕ := 0xF7000000
def HEAP_START : ℕ := LOWMEM_END+0x1000
def HEAP_END : ℕ := USABLE_MEMORY_END-0x1000
def HEAP_INITIAL_SIZE : ℕ := 16*1024

theorem reach_invariant {σ : Type} {r : σ → σ → Prop} {I : σ → Prop} {s t : σ}
    (hstep : ∀ s t, I s → r s t → I t) (hs : I s) (h : Relation.ReflTransGen r s t) : I t := by
  induction h with
  | refl => exact hs
  | tail _ hr ih => exact hstep _ _ ih hr

/-- The state after some events, if each of them may happen and returns. -/
def runAll {σ ε : Type} (may : σ → ε → Prop) [∀ s e, Decidable (may s e)]
    (step : σ → ε → Result σ) :
    List ε → σ → Option σ
  | [], s => some s
  | e :: es, s =>
    if may s e then
      match step s e with
      | .ok t => runAll may step es t
      | .error _ => none
    else none

theorem runAll_reaches {σ ε : Type} {may : σ → ε → Prop} [∀ s e, Decidable (may s e)]
    {step : σ → ε → Result σ} (es : List ε) : ∀ {s t : σ}, runAll may step es s = some t →
      Relation.ReflTransGen (fun s t => ∃ e, may s e ∧ step s e = .ok t) s t := by
  induction es with
  | nil =>
    intro s t h
    obtain rfl := Option.some.inj h
    exact .refl
  | cons e es ih =>
    intro s t h
    rw [runAll] at h
    split at h
    · rename_i hmay
      split at h
      · rename_i u hu
        exact .head ⟨e,hmay,hu⟩ (ih h)
      · cases h
    · cases h

/-- A run that can be carried out, to a state that can be looked at. -/
theorem exists_of_runAll {σ ε : Type} {may : σ → ε → Prop} [∀ s e, Decidable (may s e)]
    {step : σ → ε → Result σ}
    {es : List ε} {s : σ} (P : σ → Bool) (h : (runAll may step es s).any P = true) :
    ∃ t, Relation.ReflTransGen (fun s t => ∃ e, may s e ∧ step s e = .ok t) s t ∧ P t = true := by
  obtain ⟨t,ht,hp⟩ := (Option.any_eq_true _ _).mp h
  exact ⟨t,runAll_reaches es ht,hp⟩

end ScalesOS
