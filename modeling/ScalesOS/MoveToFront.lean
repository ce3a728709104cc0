import Mathlib.Data.List.Perm.Basic
import Mathlib.Tactic

/-! Bounded caches that are lists with the entry used last in front. -/
namespace MoveToFront
variable {ε : Type} {p : ε → Bool} {cache cache' : List ε} {e x : ε} {max : ℕ}

/-- The first entry that is accepted, and the cache with it moved to the front. -/
def lookup (p : ε → Bool) (cache : List ε) : Option (ε × List ε) :=
  (cache.find? p).map fun e => (e,e::cache.eraseP p)

def push (max : ℕ) (e : ε) (cache : List ε) : List ε :=
  if max < (e::cache).length then (e::cache).dropLast else e::cache

theorem cons_eraseP_perm (h : cache.find? p = some e) : (e::cache.eraseP p).Perm cache := by
  induction cache with
  | nil => cases h
  | cons a cache ih =>
    by_cases ha : p a = true
    · rw [List.find?_cons_of_pos ha] at h
      rw [List.eraseP_cons_of_pos ha,Option.some.inj h]
    · rw [List.find?_cons_of_neg ha] at h
      rw [List.eraseP_cons_of_neg ha]
      exact (List.Perm.swap a e _).trans ((ih h).cons a)

theorem lookup_eq_some (h : lookup p cache = some (e,cache')) :
    p e = true ∧ e ∈ cache ∧ cache'.Perm cache := by
  obtain ⟨a,ha,heq⟩ := Option.map_eq_some_iff.mp h
  obtain ⟨rfl,rfl⟩ := Prod.mk.inj heq
  exact ⟨List.find?_some ha,List.mem_of_find?_eq_some ha,cons_eraseP_perm ha⟩

theorem lookup_eq_none (h : lookup p cache = none) : ∀ e ∈ cache, ¬ p e = true :=
  List.find?_eq_none.mp (Option.map_eq_none_iff.mp h)

theorem lookup_none (h : ∀ e ∈ cache, ¬ p e = true) : lookup p cache = none :=
  Option.map_eq_none_iff.mpr (List.find?_eq_none.mpr h)

theorem push_sublist : (push max e cache).Sublist (e::cache) := by
  rw [push]
  split
  · exact List.dropLast_sublist _
  · exact List.Sublist.refl _

theorem mem_push (h : x ∈ push max e cache) : x = e ∨ x ∈ cache :=
  List.mem_cons.mp (push_sublist.subset h)

theorem length_push (h : cache.length ≤ max) : (push max e cache).length ≤ max := by
  rw [push]
  split
  · rw [List.length_dropLast,List.length_cons]
    omega
  · omega

/-- With different keys, what stays after the entry with one key has been removed has other
keys. -/
theorem key_ne_of_mem_eraseP {κ : Type} [DecidableEq κ] {key : ε → κ} {k : κ}
    (h : (cache.map key).Nodup) (hx : x ∈ cache.eraseP fun e => key e = k) : key x ≠ k := by
  induction cache with
  | nil => cases hx
  | cons a cache ih =>
    rw [List.map_cons,List.nodup_cons] at h
    by_cases ha : key a = k
    · rw [List.eraseP_cons_of_pos (by simpa using ha)] at hx
      rintro rfl
      exact h.1 (List.mem_map.mpr ⟨x,hx,ha.symm⟩)
    · rw [List.eraseP_cons_of_neg (by simpa using ha)] at hx
      rcases List.mem_cons.mp hx with rfl | hx
      · exact ha
      · exact ih h.2 hx

end MoveToFront
