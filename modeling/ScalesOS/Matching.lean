import ScalesOS.Machine

/-!
# Partial matchings with waiting lists

Parties that are matched in pairs. A party first waits in the list of another one, which
matches it with a new party; every party may leave. Which parties there are is open: they
are of any type.
-/

namespace ScalesOS

@[ext] structure Links (α : Type) where
  /-- whom a party is matched with -/
  connect : α → Option α
  backlog : α → List α
  isOpen : α → Bool

namespace Links

variable {α : Type} {l : Links α} {a b c s : α} {rest : List α}

/-- Two parties are matched with each other or not at all, a party waits in one place only,
and nobody who has left is matched or waits. -/
structure Matched (l : Links α) : Prop where
  symm : ∀ a b, l.connect a = some b → l.connect b = some a
  alive : ∀ a b, l.connect a = some b → l.isOpen b = true
  nodup : ∀ s, (l.backlog s).Nodup
  once : ∀ a s s', a ∈ l.backlog s → a ∈ l.backlog s' → s = s'
  waiting : ∀ s, ∀ a ∈ l.backlog s, l.isOpen a = true

def Patient (l : Links α) : Prop := ∀ s, ∀ a ∈ l.backlog s, l.connect a = none

theorem Matched.partner_unique (h : Matched l) (ha : l.connect a = some c)
    (hb : l.connect b = some c) : a = b := by
  have hc := h.symm a c ha
  rw [h.symm b c hb] at hc
  exact (Option.some.inj hc).symm

theorem Matched.closed (h : Matched l) (ha : l.isOpen a = false) : l.connect a = none := by
  cases hc : l.connect a with
  | none => rfl
  | some b =>
    have hopen := h.alive b a (h.symm a b hc)
    rw [ha] at hopen
    cases hopen

variable [DecidableEq α]

def enter (l : Links α) (a : α) : Links α := { l with isOpen := Function.update l.isOpen a true }

def wait (l : Links α) (a s : α) : Links α :=
  { l with backlog := Function.update l.backlog s (l.backlog s++[a]) }

def join (l : Links α) (s : α) (rest : List α) (client new : α) : Links α where
  connect := Function.update (Function.update l.connect client (some new)) new (some client)
  backlog := Function.update l.backlog s rest
  isOpen := Function.update l.isOpen new true

def part (l : Links α) (a : α) : Links α :=
  { l with
    connect :=
      match l.connect a with
      | none => l.connect
      | some b => Function.update (Function.update l.connect a none) b none }

def leave (l : Links α) (a : α) : Links α :=
  { l.part a with isOpen := Function.update l.isOpen a false }

theorem enter_isOpen (l : Links α) (a : α) (h : l.isOpen b = true) :
    (l.enter a).isOpen b = true := by
  change Function.update l.isOpen a true b = true
  rw [Function.update_apply]
  split
  · rfl
  · exact h

theorem Matched.enter (h : Matched l) (a : α) : Matched (l.enter a) where
  symm := h.symm
  alive := fun b c hbc => l.enter_isOpen a (h.alive b c hbc)
  nodup := h.nodup
  once := h.once
  waiting := fun s b hb => l.enter_isOpen a (h.waiting s b hb)

theorem wait_backlog (l : Links α) (a s s' : α) :
    (l.wait a s).backlog s' = l.backlog s'++if s' = s then [a] else [] := by
  change Function.update l.backlog s _ s' = _
  rw [Function.update_apply]
  split
  · rename_i heq
    rw [heq]
  · rw [List.append_nil]

theorem mem_wait {s' : α} : b ∈ (l.wait a s).backlog s' ↔ b ∈ l.backlog s' ∨ (s' = s ∧ b = a) := by
  rw [wait_backlog,List.mem_append]
  refine or_congr Iff.rfl ?_
  split
  · rename_i heq
    rw [List.mem_singleton]
    exact ⟨fun hb => ⟨heq,hb⟩,fun hb => hb.2⟩
  · rename_i hne
    exact iff_of_false (List.not_mem_nil) fun hb => hne hb.1

/-- A party that is there may wait just if it does not wait already. -/
theorem Matched.wait_iff (h : Matched l) (ha : l.isOpen a = true) (s : α) :
    Matched (l.wait a s) ↔ ∀ s', a ∉ l.backlog s' := by
  constructor
  · intro h' s' hmem
    have hs : a ∈ (l.wait a s).backlog s := mem_wait.mpr (Or.inr ⟨rfl,rfl⟩)
    obtain rfl := h'.once a s' s (mem_wait.mpr (Or.inl hmem)) hs
    have hnodup := h'.nodup s'
    rw [wait_backlog,if_pos rfl,List.nodup_append] at hnodup
    exact hnodup.2.2 a hmem a (List.mem_singleton_self a) rfl
  · intro hnew
    refine ⟨h.symm,h.alive,fun s' => ?_,fun b s₁ s₂ h₁ h₂ => ?_,fun s' b hb => ?_⟩
    · rw [wait_backlog]
      split
      · refine List.nodup_append.mpr ⟨h.nodup s',List.nodup_singleton a,fun b hb c hc hbc => ?_⟩
        rw [List.mem_singleton.mp hc] at hbc
        exact hnew s' (hbc ▸ hb)
      · rw [List.append_nil]
        exact h.nodup s'
    · rcases mem_wait.mp h₁ with hold₁ | ⟨hs₁,hb₁⟩
      · rcases mem_wait.mp h₂ with hold₂ | ⟨-,hb₂⟩
        · exact h.once b s₁ s₂ hold₁ hold₂
        · exact absurd (hb₂ ▸ hold₁) (hnew s₁)
      · rcases mem_wait.mp h₂ with hold₂ | ⟨hs₂,-⟩
        · exact absurd (hb₁ ▸ hold₂) (hnew s₂)
        · rw [hs₁,hs₂]
    · rcases mem_wait.mp hb with hb | ⟨-,rfl⟩
      · exact h.waiting s' b hb
      · exact ha

theorem Patient.wait (h : Patient l) (ha : l.connect a = none) (s : α) : Patient (l.wait a s) := by
  intro s' b hb
  rcases mem_wait.mp hb with hb | ⟨-,rfl⟩
  · exact h s' b hb
  · exact ha

/-- A party that nobody has to do with. -/
structure Fresh (l : Links α) (a : α) : Prop where
  connect_eq : l.connect a = none
  connect_ne : ∀ b, l.connect b ≠ some a
  not_waiting : ∀ s, a ∉ l.backlog s

theorem mem_join {client new s' : α} (hs : l.backlog s = client :: rest)
    (hb : b ∈ (l.join s rest client new).backlog s') :
    b ∈ l.backlog s' := by
  change b ∈ Function.update l.backlog s rest s' at hb
  rw [Function.update_apply] at hb
  split at hb
  · rename_i heq
    rw [heq,hs]
    exact List.mem_cons_of_mem _ hb
  · exact hb

theorem Matched.join (h : Matched l) (hp : Patient l) {client new : α}
    (hs : l.backlog s = client :: rest) (hnew : Fresh l new) : Matched (l.join s rest client new) ∧
    Patient (l.join s rest client new) := by
  have hmem : client ∈ l.backlog s := hs ▸ List.mem_cons_self
  have hne : client ≠ new := fun heq => hnew.not_waiting s (heq ▸ hmem)
  have hconnect : ∀ x, (l.join s rest client new).connect x =
      if x = new then some client else if x = client then some new else l.connect x := by
    intro x
    change Function.update (Function.update l.connect client (some new)) new (some client) x = _
    rw [Function.update_apply,Function.update_apply]
  have hfree := hp s client hmem
  have hopen : ∀ x, l.isOpen x = true → (l.join s rest client new).isOpen x = true := fun x =>
    l.enter_isOpen new
  have hrest : client ∉ rest := (List.nodup_cons.mp (hs ▸ h.nodup s)).1
  refine ⟨⟨fun x y hxy => ?_,fun x y hxy => ?_,fun s' => ?_,fun b s₁ s₂ h₁ h₂ => ?_,fun s' b hb =>
    ?_⟩,fun s' b hb => ?_⟩
  · rw [hconnect] at hxy ⊢
    split at hxy
    · rename_i hx
      rw [← Option.some.inj hxy,if_neg hne,if_pos rfl,hx]
    · split at hxy
      · rename_i hx
        rw [← Option.some.inj hxy,if_pos rfl,hx]
      · have hy : y ≠ new := fun heq => hnew.connect_ne x (heq ▸ hxy)
        have hy' : y ≠ client := by
          rintro rfl
          rw [h.symm x y hxy] at hfree
          cases hfree
        rw [if_neg hy,if_neg hy']
        exact h.symm x y hxy
  · rw [hconnect] at hxy
    split at hxy
    · rw [← Option.some.inj hxy]
      exact hopen client (h.waiting s client hmem)
    · split at hxy
      · rw [← Option.some.inj hxy]
        exact Function.update_self ..
      · exact hopen y (h.alive x y hxy)
  · change (Function.update l.backlog s rest s').Nodup
    rw [Function.update_apply]
    split
    · exact (List.nodup_cons.mp (hs ▸ h.nodup s)).2
    · exact h.nodup s'
  · exact h.once b s₁ s₂ (mem_join hs h₁) (mem_join hs h₂)
  · exact hopen b (h.waiting s' b (mem_join hs hb))
  · have hold := mem_join hs hb
    have hb' : b ≠ new := fun heq => hnew.not_waiting s' (heq ▸ hold)
    rw [hconnect,if_neg hb',if_neg]
    · exact hp s' b hold
    · rintro rfl
      obtain rfl := h.once b s' s hold hmem
      change b ∈ Function.update l.backlog s' rest s' at hb
      rw [Function.update_self] at hb
      exact hrest hb

theorem part_connect (h : Matched l) (a x : α) :
    (l.part a).connect x = if x = a ∨ l.connect x = some a then none else l.connect x := by
  rw [part]
  cases ha : l.connect a with
  | none =>
    dsimp only
    split
    · rename_i hx
      rcases hx with rfl | hx
      · exact ha
      · rw [h.symm x a hx] at ha
        cases ha
    · rfl
  | some b =>
    dsimp only
    rw [Function.update_apply,Function.update_apply]
    by_cases hxb : x = b
    · rw [if_pos hxb,if_pos (Or.inr (hxb ▸ h.symm a b ha))]
    · rw [if_neg hxb]
      by_cases hxa : x = a
      · rw [if_pos hxa,if_pos (Or.inl hxa)]
      · have hne : l.connect x ≠ some a := by
          intro hx
          have hax := h.symm x a hx
          rw [ha] at hax
          exact hxb (Option.some.inj hax).symm
        rw [if_neg hxa,if_neg fun hor => hor.elim hxa hne]

theorem Matched.leave_iff (h : Matched l) (a : α) : Matched (l.leave a) ↔ ∀ s, a ∉ l.backlog s := by
  have hopen : ∀ x, x ≠ a → (l.leave a).isOpen x = l.isOpen x := fun x hx =>
    Function.update_of_ne hx ..
  constructor
  · intro h' s hmem
    have hclosed : (l.leave a).isOpen a = false := Function.update_self ..
    rw [h'.waiting s a hmem] at hclosed
    cases hclosed
  · intro hno
    have hconnect : ∀ x y, (l.leave a).connect x = some y → l.connect x = some y ∧
        x ≠ a ∧ y ≠ a := by
      intro x y hxy
      change (l.part a).connect x = some y at hxy
      rw [part_connect h] at hxy
      split at hxy
      · cases hxy
      · rename_i hnot
        rw [not_or] at hnot
        exact ⟨hxy,hnot.1,fun heq => hnot.2 (heq ▸ hxy)⟩
    refine ⟨fun x y hxy => ?_,fun x y hxy => ?_,h.nodup,h.once,fun s b hb => ?_⟩
    · obtain ⟨hold,hx,hy⟩ := hconnect x y hxy
      have hback := h.symm x y hold
      change (l.part a).connect y = some x
      rw [part_connect h,if_neg]
      · exact hback
      · rintro (heq | heq)
        · exact hy heq
        · rw [hback] at heq
          exact hx (Option.some.inj heq)
    · obtain ⟨hold,-,hy⟩ := hconnect x y hxy
      rw [hopen y hy]
      exact h.alive x y hold
    · have hb' : b ∈ l.backlog s := hb
      rw [hopen b fun heq => hno s (heq ▸ hb')]
      exact h.waiting s b hb'

theorem Patient.leave (hp : Patient l) (h : Matched l) (a : α) : Patient (l.leave a) := by
  intro s b hb
  change (l.part a).connect b = none
  rw [part_connect h]
  split
  · rfl
  · exact hp s b hb

end Links
end ScalesOS
