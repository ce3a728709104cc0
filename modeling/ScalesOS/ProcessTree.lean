import ScalesOS.Zombies

/-!
# The process tree and the process list

Forks, tasklets, exits and waits keep the tree of processes and `process_list` in order:
who has not finished knows its children, and every process hangs below one that has not
finished.
-/

namespace ScalesOS
namespace Sched

variable {s t : Sched}

/-- Any step but a signal from a terminal; the root does not exit. -/
def RootStays (s : Sched) : Event → Prop
  | .terminal _ _ => False
  | .exit => s.current ≠ ROOT
  | _ => True

instance (s : Sched) (e : Event) : Decidable (s.RootStays e) := by
  induction e using Event.casesOn <;> dsimp only [RootStays] <;> infer_instance

theorem RootStays.spares {e : Event} (h : s.RootStays e) : s.SparesFinished e := by
  cases e with
  | terminal pid sig => exact h.elim
  | _ => trivial

theorem root_runs (h : Relation.ReflTransGen (Step RootStays) boot s) :
    s.Inv ∧ (s.tasks ROOT).state ≠ .finished := by
  refine reach_invariant (I:=fun s => s.Inv ∧ (s.tasks ROOT).state ≠ .finished) ?_
    ⟨boot_inv,by decide⟩ h
  rintro s t ⟨hs,hroot⟩ ⟨e,hen,hal,hret⟩
  have hkept := hs.step_kept hen hal.spares hret
  refine ⟨hs.step hen hal.spares hret,fun hf => ?_⟩
  have hf' := (hkept.finished ROOT).mp hf
  cases e with
  | exit =>
    rw [finishing,modify_other s _ (Ne.symm hal)] at hf'
    exact hroot hf'
  | _ => exact hroot hf'

/-- Parents are the root or have not finished; the children of the root and of a process
that has not finished are exactly the processes it is the parent of, each once; and the
list has exactly the processes that were created and are not destroyed, each once. -/
theorem process_tree (h : Relation.ReflTransGen (Step RootStays) boot s) :
    (∀ p ∈ s.processList, p ≠ ROOT → ∃ q ∈ s.processList, (s.tasks p).parent = some q ∧
      (q = ROOT ∨ (s.tasks q).state ≠ .finished)) ∧
    (∀ q ∈ s.processList, q = ROOT ∨ (s.tasks q).state ≠ .finished → (s.tasks q).children.Nodup ∧
      ∀ c, c ∈ (s.tasks q).children ↔ c ∈ s.processList ∧ (s.tasks c).parent = some q) ∧
    s.processList.Nodup ∧ ∀ p, p ∈ s.processList ↔ (ROOT ≤ p ∧ p < s.nextPid) ∧
    p ∉ s.destroyed := by
  obtain ⟨hs,hroot⟩ := root_runs h
  refine ⟨fun p hp hne => ?_,fun q hq hqf => ?_,hs.tree.nodup,fun p => ⟨fun hp => ?_,fun hp => ?_⟩⟩
  · obtain ⟨q,hpar,hq,-,hf⟩ := hs.tree.parent p hp hne
    exact ⟨q,hq,hpar,Or.inr hf⟩
  · have hf : (s.tasks q).state ≠ .finished := by
      rcases hqf with rfl | hf
      · exact hroot
      · exact hf
    exact ⟨hs.tree.children_nodup q hq hf,hs.tree.children q hq hf⟩
  · obtain ⟨h0,hlt,hd⟩ := hs.core.listed p hp
    exact ⟨⟨h0,hlt⟩,hd⟩
  · exact (hs.core.known p hp.1.1 hp.1.2).resolve_right hp.2

theorem process_tree_child : ∃ s : Sched, (s.tasks 2).state = .finished ∧ 3 ∈ s.processList ∧
    (∀ c, c ∈ (s.tasks ROOT).children ↔ c ∈ s.processList ∧ (s.tasks c).parent = some ROOT) := by
  obtain ⟨s,hs,hps⟩ := exists_of_run RootStays [.fork,.yield,.fork,.exit] (s:=boot)
    (fun s => (s.tasks 2).state = .finished ∧ 3 ∈ s.processList ∧ ROOT ∈ s.processList) (by
      decide +kernel)
  obtain ⟨hf,hmem,hroot⟩ := of_decide_eq_true hps
  obtain ⟨-,htree,-⟩ := process_tree hs
  exact ⟨s,hf,hmem,(htree ROOT hroot (Or.inl rfl)).2⟩

end Sched
end ScalesOS
