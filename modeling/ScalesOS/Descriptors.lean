import ScalesOS.Process

/-!
# Descriptor arrays

Copying an array gives every node one more link for each of its slots, closing all slots
of an array takes one away for each. A node whose links outnumber the slots of an array
survives the closing of that array.
-/

namespace ScalesOS
namespace Kernel

/-- The node behind slot `i`. -/
def slotNode (k : Kernel) (array i : ℕ) : Option ℕ :=
  (k.fdArrays array i).map fun f => (k.fdts f).node

def slotCount (k : Kernel) (array node : ℕ) : ℕ → ℕ
  | 0 => 0
  | n+1 => slotCount k array node n+if k.slotNode array n = some node then 1 else 0

theorem slotCount_le (k : Kernel) (array node n : ℕ) : k.slotCount array node n ≤ n := by
  induction n with
  | zero => exact le_rfl
  | succ n ih =>
    rw [slotCount]
    split <;> omega

theorem slotCount_congr {k k' : Kernel} {array array' node n : ℕ}
    (h : ∀ i < n, k'.slotNode array' i = k.slotNode array i) :
    k'.slotCount array' node n = k.slotCount array node n := by
  induction n with
  | zero => rfl
  | succ n ih => rw [slotCount,slotCount,ih fun i hi => h i (by omega),h n (by omega)]

theorem slotCount_mono {k : Kernel} {array node n m : ℕ} (h : n ≤ m) :
    k.slotCount array node n ≤ k.slotCount array node m := by
  induction m with
  | zero =>
    obtain rfl : n = 0 := by omega
    exact le_rfl
  | succ m ih =>
    rcases Nat.lt_or_ge m n with hlt | hge
    · obtain rfl : n = m+1 := by omega
      exact le_rfl
    · rw [slotCount]
      have := ih hge
      omega

/-- The slots below `n` of an array have been closed, without a node losing its last link. -/
structure Closed (k k' : Kernel) (array n : ℕ) : Prop where
  vm_eq : k'.vm = k.vm
  blocks_eq : k'.blockLists = k.blockLists
  processes_eq : k'.processes = k.processes
  names_eq : k'.nextName = k.nextName ∧ k'.nextPid = k.nextPid
  links : ∀ node, k'.nodeLinks node = k.nodeLinks node-k.slotCount array node n
  nodes : ∀ f, (k'.fdts f).node = (k.fdts f).node
  slots : ∀ a i, k'.fdArrays a i = if a = array ∧ i < n then none else k.fdArrays a i

theorem Closed.slotNode_eq {k k' : Kernel} {array n : ℕ} (h : Closed k k' array n) {a i : ℕ}
    (hi : ¬ (a = array ∧ i < n)) : k'.slotNode a i = k.slotNode a i := by
  rw [slotNode,slotNode,h.slots,if_neg hi]
  congr 1
  funext f
  exact h.nodes f

theorem closeFd_spec (close : ℕ → Vm → Vm) {k : Kernel} {array fd fdt : ℕ}
    (hlinks : 1 < k.nodeLinks (k.fdts fdt).node) (hlt : k.nodeLinks (k.fdts fdt).node < W32) :
    kProcProcessCloseFd close k array fd fdt =
      ((k.setLinks (k.fdts fdt).node (k.nodeLinks (k.fdts fdt).node-1)).setFdt fdt
        ⟨(k.fdts fdt).node,((k.fdts fdt).links+W32-1)%W32⟩).setSlot array fd none := by
  have hmod : (k.nodeLinks (k.fdts fdt).node+W32-1)%W32 = k.nodeLinks (k.fdts fdt).node-1 := by
    simp only [W32] at hlt ⊢
    omega
  rw [kProcProcessCloseFd,kFsVfsClose,hmod]
  simp only [show ¬ k.nodeLinks (k.fdts fdt).node-1 = 0 by omega,if_false]
  rfl

theorem closeFds_spec (close : ℕ → Vm → Vm) {k : Kernel} {array n : ℕ}
    (hlinks : ∀ node, 0 < k.slotCount array node n → k.slotCount array node n < k.nodeLinks node)
    (hlt : ∀ node, k.nodeLinks node < W32) : Closed k (closeFds close array n k) array n := by
  induction n with
  | zero => exact ⟨rfl,rfl,rfl,⟨rfl,rfl⟩,fun _ => rfl,fun _ => rfl,fun a i => by simp [closeFds]⟩
  | succ n ih =>
    have hprev : Closed k (closeFds close array n k) array n := ih fun node hpos => by
      have hmono : k.slotCount array node n ≤ k.slotCount array node (n+1) :=
        slotCount_mono (by omega)
      have := hlinks node (by omega)
      omega
    rw [closeFds]
    generalize closeFds close array n k = k₁ at hprev ⊢
    have hslot := hprev.slotNode_eq (a:=array) (i:=n) (by omega)
    have harr : k₁.fdArrays array n = k.fdArrays array n := by
      rw [hprev.slots,if_neg (by omega)]
    cases hf : k₁.fdArrays array n with
    | none =>
      have hno : k.slotNode array n = none := by rw [slotNode,← harr,hf]; rfl
      refine ⟨hprev.vm_eq,hprev.blocks_eq,hprev.processes_eq,hprev.names_eq,
        fun node => ?_,hprev.nodes,fun a i => ?_⟩
      · rw [hprev.links,slotCount,hno]
        simp
      · rw [hprev.slots]
        by_cases ha : a = array ∧ i = n
        · obtain ⟨rfl,rfl⟩ := ha
          rw [if_neg (by omega),if_pos ⟨rfl,by omega⟩,← harr,hf]
        · exact if_congr (by omega) rfl rfl
    | some f =>
      have hnode : k.slotNode array n = some (k.fdts f).node := by rw [slotNode,← harr,hf]; rfl
      have hcount : k.slotCount array (k.fdts f).node (n+1) =
          k.slotCount array (k.fdts f).node n+1 := by rw [slotCount,if_pos hnode]
      have hl := hlinks (k.fdts f).node (by omega)
      have hl₁ := hprev.links (k.fdts f).node
      have hw := hlt (k.fdts f).node
      have hfn := hprev.nodes f
      simp only
      rw [closeFd_spec close (by rw [hfn]; omega) (by rw [hfn]; omega)]
      refine ⟨hprev.vm_eq,hprev.blocks_eq,hprev.processes_eq,hprev.names_eq,
        fun node => ?_,fun g => ?_,fun a i => ?_⟩
      · show Function.update k₁.nodeLinks _ _ node = _
        rw [hfn]
        by_cases hn : node = (k.fdts f).node
        · subst hn
          rw [Function.update_self,hl₁,hcount]
          omega
        · rw [Function.update_of_ne hn,hprev.links,slotCount,hnode,
            if_neg fun h => hn (Option.some.inj h).symm]
          rfl
      · show (Function.update k₁.fdts f _ g).node = _
        by_cases hg : g = f
        · subst hg
          rw [Function.update_self]
          exact hfn
        · rw [Function.update_of_ne hg]
          exact hprev.nodes g
      · show Function.update k₁.fdArrays array (Function.update (k₁.fdArrays array) n none) a i = _
        by_cases ha : a = array
        · subst ha
          rw [Function.update_self]
          by_cases hi : i = n
          · subst hi
            rw [Function.update_self,if_pos ⟨rfl,by omega⟩]
          · rw [Function.update_of_ne hi,hprev.slots]
            exact if_congr (by omega) rfl rfl
        · rw [Function.update_of_ne ha,hprev.slots,if_neg (by tauto),if_neg (by tauto)]

/-- The slots below `n` of `src` have been copied to `dst`, in new descriptors. -/
structure Copied (k k' : Kernel) (src dst n : ℕ) : Prop where
  vm_eq : k'.vm = k.vm
  blocks_eq : k'.blockLists = k.blockLists
  processes_eq : k'.processes = k.processes
  pid_eq : k'.nextPid = k.nextPid
  names_le : k.nextName ≤ k'.nextName
  links : ∀ node, k'.nodeLinks node = k.nodeLinks node+k.slotCount src node n
  slots : ∀ i < n, k'.slotNode dst i = k.slotNode src i
  slots_new : ∀ i < n, ∀ f, k'.fdArrays dst i = some f → f < k'.nextName
  others : ∀ a ≠ dst, k'.fdArrays a = k.fdArrays a
  fdts : ∀ f < k.nextName, k'.fdts f = k.fdts f

theorem Copied.slotNode_eq {k k' : Kernel} {src dst n : ℕ} (h : Copied k k' src dst n) {a i : ℕ}
    (ha : a ≠ dst) (hf : ∀ f, k.fdArrays a i = some f → f < k.nextName) :
    k'.slotNode a i = k.slotNode a i := by
  rw [slotNode,slotNode,h.others a ha]
  cases hs : k.fdArrays a i with
  | none => rfl
  | some f => rw [Option.map_some,Option.map_some,h.fdts f (hf f hs)]

theorem copyFds_spec {k : Kernel} {src dst n : ℕ} (hne : src ≠ dst)
    (hnames : ∀ i f, k.fdArrays src i = some f → f < k.nextName)
    (hlt : ∀ node, k.nodeLinks node+n < W32) : Copied k (copyFds src dst n k) src dst n := by
  induction n with
  | zero =>
    exact ⟨rfl,rfl,rfl,rfl,le_rfl,fun _ => rfl,fun i hi => by omega,fun i hi => by omega,
      fun _ _ => rfl,fun _ _ => rfl⟩
  | succ n ih =>
    have hprev : Copied k (copyFds src dst n k) src dst n := ih fun node => by
      have := hlt node
      omega
    rw [copyFds]
    generalize copyFds src dst n k = k₁ at hprev ⊢
    have hsrc : k₁.fdArrays src n = k.fdArrays src n := by rw [hprev.others src hne]
    have hnode := hprev.slotNode_eq (a:=src) (i:=n) hne (hnames n)
    have hcount := fun node => slotCount_le k src node n
    cases hf : k₁.fdArrays src n with
    | none =>
      have hno : k.slotNode src n = none := by rw [slotNode,← hsrc,hf]; rfl
      rw [copyFd,hf]
      have hold : ∀ i < n, (k₁.setSlot dst n none).fdArrays dst i = k₁.fdArrays dst i := by
        intro i hi
        show Function.update k₁.fdArrays dst _ dst i = _
        rw [Function.update_self,Function.update_of_ne (by omega)]
      have hnew : (k₁.setSlot dst n none).fdArrays dst n = none := by
        show Function.update k₁.fdArrays dst _ dst n = _
        rw [Function.update_self,Function.update_self]
      refine ⟨hprev.vm_eq,hprev.blocks_eq,hprev.processes_eq,hprev.pid_eq,
        hprev.names_le,fun node => ?_,
        fun i hi => ?_,fun i hi f hif => ?_,fun a ha => ?_,hprev.fdts⟩
      · rw [slotCount,hno]
        simpa [setSlot] using hprev.links node
      · rcases Nat.lt_succ_iff_lt_or_eq.mp hi with hlt | rfl
        · rw [← hprev.slots i hlt,slotNode,slotNode,hold i hlt]
          rfl
        · rw [hno,slotNode,hnew]
          rfl
      · rcases Nat.lt_succ_iff_lt_or_eq.mp hi with hlt | rfl
        · rw [hold i hlt] at hif
          exact hprev.slots_new i hlt f hif
        · rw [hnew] at hif
          cases hif
      · show Function.update k₁.fdArrays dst _ a = _
        rw [Function.update_of_ne ha]
        exact hprev.others a ha
    | some f =>
      have hfl : f < k.nextName := hnames n f (by rw [← hsrc,hf])
      have hfd : k₁.fdts f = k.fdts f := hprev.fdts f hfl
      have hsl : k.slotNode src n = some (k.fdts f).node := by rw [slotNode,← hsrc,hf]; rfl
      rw [copyFd,hf]
      simp only [hfd]
      have hold : ∀ i < n, Function.update k₁.fdArrays dst
          (Function.update (k₁.fdArrays dst) n (some k₁.nextName)) dst i = k₁.fdArrays dst i := by
        intro i hi
        rw [Function.update_self,Function.update_of_ne (by omega)]
      have hnew : Function.update k₁.fdArrays dst
          (Function.update (k₁.fdArrays dst) n (some k₁.nextName)) dst n = some k₁.nextName := by
        rw [Function.update_self,Function.update_self]
      refine ⟨hprev.vm_eq,hprev.blocks_eq,hprev.processes_eq,hprev.pid_eq,?_,fun node => ?_,
        fun i hi => ?_,fun i hi g hig => ?_,fun a ha => ?_,fun g hg => ?_⟩
      · exact le_trans hprev.names_le (Nat.le_succ _)
      · show Function.update k₁.nodeLinks _ _ node = _
        rw [slotCount,hsl]
        by_cases hn : node = (k.fdts f).node
        · subst hn
          have := hprev.links (k.fdts f).node
          have := hlt (k.fdts f).node
          have := hcount (k.fdts f).node
          rw [Function.update_self,if_pos rfl]
          show (k₁.nodeLinks _+1)%W32 = _
          simp only [W32] at *
          omega
        · rw [Function.update_of_ne hn,if_neg fun h => hn (Option.some.inj h).symm]
          exact hprev.links node
      · show Option.map _ (Function.update k₁.fdArrays dst _ dst i) = _
        rcases Nat.lt_succ_iff_lt_or_eq.mp hi with hlt | rfl
        · rw [hold i hlt,← hprev.slots i hlt,slotNode]
          cases hs : k₁.fdArrays dst i with
          | none => rfl
          | some g =>
            have hg := hprev.slots_new i hlt g hs
            show some (Function.update k₁.fdts k₁.nextName _ g).node = some (k₁.fdts g).node
            rw [Function.update_of_ne (by omega)]
        · rw [hnew,hsl]
          show some (Function.update k₁.fdts k₁.nextName _ k₁.nextName).node = _
          rw [Function.update_self]
      · change Function.update k₁.fdArrays dst _ dst i = some g at hig
        show g < k₁.nextName+1
        rcases Nat.lt_succ_iff_lt_or_eq.mp hi with hlt | rfl
        · rw [hold i hlt] at hig
          have := hprev.slots_new i hlt g hig
          omega
        · rw [hnew] at hig
          have := Option.some.inj hig
          omega
      · show Function.update k₁.fdArrays dst _ a = _
        rw [Function.update_of_ne ha]
        exact hprev.others a ha
      · show Function.update k₁.fdts k₁.nextName _ g = _
        have := hprev.names_le
        rw [Function.update_of_ne (by omega)]
        exact hprev.fdts g hg

end Kernel
end ScalesOS
