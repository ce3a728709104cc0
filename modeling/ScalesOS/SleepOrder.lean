import ScalesOS.LinkedChain
import ScalesOS.SleepQueue

/-!
# The order of timed sleepers

As long as every new node finds a later one at the head of the queue, or an empty queue,
the queue is a list that ends, with the latest deadline first.
-/

namespace ScalesOS

open LinkedChain

namespace WaitNode

def time (node : WaitNode) : ℕ ×ₗ ℕ := toLex (node.seconds,node.microseconds)

theorem later_iff (node : WaitNode) (time : ℕ × ℕ) : node.later time.1 time.2 = true ↔
    toLex time < node.time := by
  rw [later,WaitNode.time,Prod.Lex.toLex_lt_toLex]
  simp
  omega

theorem due_iff (node : WaitNode) (now : ℕ × ℕ) : node.due now.1 now.2 = true ↔
    node.time ≤ toLex now := by
  rw [due,WaitNode.time,Prod.Lex.toLex_le_toLex]
  simp

end WaitNode

namespace SleepQueue

variable {q q' : SleepQueue} {l : List ℕ}

def next (q : SleepQueue) (n : ℕ) : Option ℕ := (q.nodes n).next

structure Queued (q : SleepQueue) (l : List ℕ) : Prop where
  segment : Segment q.next q.head l none
  sorted : l.Pairwise fun m n => (q.nodes n).time ≤ (q.nodes m).time
  lt : ∀ n ∈ l, n < q.nextNode

def SameNodes (q q' : SleepQueue) (n : ℕ) : Prop :=
  (q'.nodes n).process = (q.nodes n).process ∧ (q'.nodes n).time = (q.nodes n).time

theorem SameNodes.trans {q'' : SleepQueue} {n : ℕ} (h : SameNodes q q' n)
    (h' : SameNodes q' q'' n) : SameNodes q q'' n :=
  ⟨h'.1.trans h.1,h'.2.trans h.2⟩

theorem Queued.unique {m : List ℕ} (h : q.Queued l) (h' : q.Queued m) : l = m :=
  h.segment.unique h'.segment

theorem Queued.nodup (h : q.Queued l) : l.Nodup := h.segment.nodup

theorem Queued.length_le (h : q.Queued l) : l.length ≤ q.nextNode := by
  have hsub : l ⊆ List.range q.nextNode := fun n hn => List.mem_range.mpr (h.lt n hn)
  simpa using (h.nodup.subperm hsub).length_le

theorem setNext_next (q : SleepQueue) (n : ℕ) (next : Option ℕ) :
    (q.setNext n next).next = Function.update q.next n next := by
  funext m
  by_cases hm : m = n
  · subst hm
    simp [SleepQueue.next,setNext]
  · simp [SleepQueue.next,setNext,hm]

theorem setNext_nodes (q : SleepQueue) (n : ℕ) (next : Option ℕ) (m : ℕ) :
    SameNodes q (q.setNext n next) m := by
  by_cases hm : m = n
  · subst hm
    simp [SameNodes,setNext,WaitNode.time]
  · simp [SameNodes,setNext,hm]

theorem findNode_spec (q : SleepQueue) (target fuel : ℕ) :
    ∀ prev cur l, Segment q.next cur l none → l.length ≤ fuel →
    (target ∉ l ∧ q.findNode target fuel prev cur = .ok none) ∨
      ∃ l₁ l₂, l = l₁++target :: l₂ ∧ target ∉ l₁ ∧
        q.findNode target fuel prev cur = .ok (some (l₁.getLast?.getD prev)) := by
  induction fuel with
  | zero =>
    intro prev cur l hl hlen
    obtain rfl := List.length_eq_zero_iff.mp (Nat.le_zero.mp hlen)
    obtain rfl : cur = none := hl
    exact Or.inl ⟨List.not_mem_nil,rfl⟩
  | succ fuel ih =>
    intro prev cur l hl hlen
    cases l with
    | nil =>
      obtain rfl : cur = none := hl
      exact Or.inl ⟨List.not_mem_nil,rfl⟩
    | cons n l =>
      obtain rfl : cur = some n := hl.1
      by_cases hn : n = target
      · exact Or.inr ⟨[],l,by rw [hn]; rfl,List.not_mem_nil,if_pos hn⟩
      · have hstep :
          q.findNode target (fuel+1) prev (some n) = q.findNode target fuel n (q.next n) :=
            if_neg hn
        rw [hstep]
        rcases ih n _ l hl.2 (by simpa using hlen) with ⟨hnot,h⟩ | ⟨l₁,l₂,rfl,hnot,h⟩
        · refine Or.inl ⟨fun hm => ?_,h⟩
          exact (List.mem_cons.mp hm).elim (fun heq => hn heq.symm) hnot
        · refine Or.inr ⟨n :: l₁,l₂,rfl,fun hm => ?_,?_⟩
          · exact (List.mem_cons.mp hm).elim (fun heq => hn heq.symm) hnot
          · rw [h,List.getLast?_cons,Option.getD_some]

theorem filter_ne_append {target : ℕ} {l₁ l₂ : List ℕ} (h : (l₁++target :: l₂).Nodup) :
    (l₁++target :: l₂).filter (fun n => some target ≠ some n) = l₁++l₂ := by
  obtain ⟨-,h2,h3⟩ := List.nodup_append.mp h
  have hl₁ : ∀ n ∈ l₁, some target ≠ some n := fun n hn heq =>
    h3 n hn target List.mem_cons_self (Option.some.inj heq).symm
  have hl₂ : ∀ n ∈ l₂, some target ≠ some n := fun n hn heq =>
    (List.nodup_cons.mp h2).1 (Option.some.inj heq ▸ hn)
  rw [List.filter_append,List.filter_cons_of_neg (by simp),
    List.filter_eq_self.mpr (by simpa using hl₁),List.filter_eq_self.mpr (by simpa using hl₂)]

theorem remove_spec (h : q.Queued l) (target : Option ℕ) : ∃ q', q.remove target = .ok q' ∧
    q'.Queued (l.filter fun n => target ≠ some n) ∧ (∀ n, SameNodes q q' n) ∧
    q'.nextNode = q.nextNode := by
  have hlt : ∀ n ∈ l.filter (fun n => target ≠ some n), n < q.nextNode := fun n hn =>
    h.lt n (List.mem_of_mem_filter hn)
  have hsorted := h.sorted.filter fun n => target ≠ some n
  cases target with
  | none =>
    rw [List.filter_eq_self.mpr (by simp)]
    exact ⟨q,rfl,h,fun _ => ⟨rfl,rfl⟩,rfl⟩
  | some target =>
    rw [remove,removeFromSleepQueue]
    cases hhead : q.head with
    | none =>
      have hseg := h.segment
      rw [hhead] at hseg
      cases l with
      | nil => exact ⟨q,rfl,h,fun _ => ⟨rfl,rfl⟩,rfl⟩
      | cons n l => cases hseg.1
    | some first =>
      have hseg := h.segment
      rw [hhead] at hseg
      have hlen := h.length_le
      rcases q.findNode_spec target (q.nextNode+1) first (some first) l hseg (by omega) with
        ⟨hnot,hfind⟩ | ⟨l₁,l₂,rfl,hnot,hfind⟩
      · refine ⟨q,by simp only [hfind]; rfl,?_,fun _ => ⟨rfl,rfl⟩,rfl⟩
        have hall : ∀ n ∈ l, some target ≠ some n := fun n hn heq => hnot (Option.some.inj heq ▸ hn)
        rw [List.filter_eq_self.mpr (by simpa using hall)]
        exact h
      · simp only [hfind]
        have hnodup := h.nodup
        rw [filter_ne_append hnodup] at hsorted hlt ⊢
        rcases List.eq_nil_or_concat l₁ with rfl | ⟨l',prev,rfl⟩
        · obtain ⟨hfirst,hrest⟩ := hseg
          obtain rfl := Option.some.inj hfirst
          exact ⟨_,if_pos rfl,⟨hrest,hsorted,hlt⟩,fun _ => ⟨rfl,rfl⟩,rfl⟩
        · rw [List.concat_eq_append] at *
          have hne : target ≠ first := by
            rintro rfl
            refine hnot ?_
            cases l' with
            | nil => exact List.mem_append_right _ (by
                rw [Option.some.inj hseg.1]; exact List.mem_singleton_self _)
            | cons n l' => exact List.mem_append_left _ (by
                rw [Option.some.inj hseg.1]; exact List.mem_cons_self)
          rw [List.append_assoc] at hnodup hseg
          have hprev : prev ∉ l' ∧ prev ∉ l₂ := by
            obtain ⟨-,h2,h3⟩ := List.nodup_append.mp hnodup
            refine ⟨fun hm => h3 prev hm prev (by simp) rfl,fun hm => ?_⟩
            exact (List.nodup_cons.mp h2).1 (by simp [hm])
          refine ⟨q.setNext prev (q.next target),?_,⟨?_,?_,?_⟩,setNext_nodes q prev _,rfl⟩
          · rw [List.getLast?_concat]
            exact if_neg hne
          · rw [setNext_next,List.append_assoc]
            change Segment _ q.head _ _
            rw [hhead]
            exact hseg.skip hprev.1 hprev.2
          · refine hsorted.imp fun {m n} hmn => ?_
            rw [(setNext_nodes q prev _ m).2,(setNext_nodes q prev _ n).2]
            exact hmn
          · exact hlt

def isLater (q : SleepQueue) (time : ℕ × ℕ) (n : ℕ) : Bool := (q.nodes n).later time.1 time.2

theorem findLater_spec (q : SleepQueue) (time : ℕ × ℕ) (fuel : ℕ) :
    ∀ prev cur l, Segment q.next cur l none →
    l.length ≤ fuel → q.findLater time.1 time.2 fuel prev cur =
      .ok ((l.takeWhile (q.isLater time)).getLast?.getD prev,
          (l.dropWhile (q.isLater time)).head?) := by
  induction fuel with
  | zero =>
    intro prev cur l hl hlen
    obtain rfl := List.length_eq_zero_iff.mp (Nat.le_zero.mp hlen)
    obtain rfl : cur = none := hl
    rfl
  | succ fuel ih =>
    intro prev cur l hl hlen
    cases l with
    | nil =>
      obtain rfl : cur = none := hl
      rfl
    | cons n l =>
      obtain rfl : cur = some n := hl.1
      rw [findLater]
      split
      · rename_i hlater
        have hrest := ih n _ l hl.2 (by simpa using hlen)
        rw [List.takeWhile_cons_of_pos (p:=q.isLater time) hlater,
          List.dropWhile_cons_of_pos (p:=q.isLater time) hlater,
          List.getLast?_cons,Option.getD_some]
        exact hrest
      · rename_i hlater
        rw [List.takeWhile_cons_of_neg (p:=q.isLater time) hlater,
          List.dropWhile_cons_of_neg (p:=q.isLater time) hlater]
        rfl

def Accepts (q : SleepQueue) (time : ℕ × ℕ) : Prop := ∀ first ∈ q.head, q.isLater time first = true

instance (q : SleepQueue) (time : ℕ × ℕ) : Decidable (q.Accepts time) := by
  dsimp only [Accepts]
  infer_instance

theorem Queued.dropWhile_le (h : q.Queued l) {time : ℕ × ℕ} {n : ℕ}
    (hn : n ∈ l.dropWhile (q.isLater time)) :
    (q.nodes n).time ≤ toLex time := by
  have hsorted := h.sorted.sublist (List.dropWhile_sublist (q.isLater time))
  cases hdrop : l.dropWhile (q.isLater time) with
  | nil =>
    rw [hdrop] at hn
    cases hn
  | cons m rest =>
    rw [hdrop] at hn hsorted
    have hm : (q.nodes m).time ≤ toLex time := by
      have hhead := List.head?_dropWhile_not (q.isLater time) l
      rw [hdrop] at hhead
      have hnot : q.isLater time m = false := hhead
      exact not_lt.mp fun hlt =>
        Bool.false_ne_true (hnot.symm.trans (((q.nodes m).later_iff time).mpr hlt))
    rcases List.mem_cons.mp hn with rfl | hn
    · exact hm
    · exact ((List.pairwise_cons.mp hsorted).1 n hn).trans hm

def withNode (q : SleepQueue) (p : ℕ) (time : ℕ × ℕ) : SleepQueue :=
  { q with nodes := Function.update q.nodes q.nextNode ⟨p,time.1,time.2,
    none⟩, nextNode := q.nextNode+1 }

theorem withNode_nodes (q : SleepQueue) (p : ℕ) (time : ℕ × ℕ) {n : ℕ} (hn : n ≠ q.nextNode) :
    (q.withNode p time).nodes n = q.nodes n := Function.update_of_ne hn _ _

theorem withNode_new (q : SleepQueue) (p : ℕ) (time : ℕ × ℕ) :
    (q.withNode p time).nodes q.nextNode = ⟨p,time.1,time.2,none⟩ := Function.update_self _ _ _

theorem Queued.withNode (h : q.Queued l) (p : ℕ) (time : ℕ × ℕ) : (q.withNode p time).Queued l := by
  have hnode : ∀ n ∈ l, (q.withNode p time).nodes n = q.nodes n := fun n hn =>
    q.withNode_nodes p time (h.lt n hn).ne
  refine ⟨h.segment.congr fun n hn => ?_,h.sorted.imp_of_mem fun {m n} hm hn hmn => ?_,fun n hn =>
    Nat.lt_succ_of_lt (h.lt n hn)⟩
  · rw [next,hnode n hn]
    rfl
  · rw [hnode m hm,hnode n hn]
    exact hmn

theorem Queued.place {new : ℕ} {l₁ l₂ : List ℕ} (h : q.Queued (l₁++l₂)) (hnew : new ∉ l₁++l₂)
    (hlt : new < q.nextNode) (hl₁ : ∀ n ∈ l₁, (q.nodes new).time ≤ (q.nodes n).time)
    (hl₂ : ∀ n ∈ l₂, (q.nodes n).time ≤ (q.nodes new).time)
    {prev : ℕ} (hprev : l₁.getLast? = some prev) :
    ((q.setNext prev (some new)).setNext new l₂.head?).Queued (l₁++new :: l₂) := by
  obtain ⟨l',rfl⟩ := List.getLast?_eq_some_iff.mp hprev
  have hnodup := h.nodup
  rw [List.append_assoc] at hnodup
  obtain ⟨-,h2,h3⟩ := List.nodup_append.mp hnodup
  have hpl' : prev ∉ l' := fun hm => h3 prev hm prev (by simp) rfl
  have hpl₂ : prev ∉ l₂ := fun hm => (List.nodup_cons.mp h2).1 (by simp [hm])
  have hnl : new ∉ l' ∧ new ≠ prev ∧ new ∉ l₂ := by
    simp only [List.mem_append,List.mem_singleton,not_or] at hnew
    exact ⟨hnew.1.1,hnew.1.2,hnew.2⟩
  have hsame : ∀ n, SameNodes q ((q.setNext prev (some new)).setNext new l₂.head?) n := fun n =>
    (setNext_nodes q prev _ n).trans (setNext_nodes _ new _ n)
  refine ⟨?_,?_,fun n hn => ?_⟩
  · rw [setNext_next,setNext_next,List.append_assoc]
    obtain ⟨c,hc,hrest⟩ := segment_append.mp h.segment
    have hhead : c = l₂.head? := by
      cases l₂ with
      | nil => exact hrest
      | cons n l₂ => exact hrest.1
    subst hhead
    exact hc.insert hrest hpl' hpl₂ hnl.1 hnl.2.2 hnl.2.1
  · have hsorted : (l'++[prev]++new :: l₂).Pairwise fun m n =>
        (q.nodes n).time ≤ (q.nodes m).time := by
      obtain ⟨hs1,hs2,hcross⟩ := List.pairwise_append.mp h.sorted
      refine List.pairwise_append.mpr ⟨hs1,List.pairwise_cons.mpr ⟨hl₂,hs2⟩,fun m hm n hn => ?_⟩
      rcases List.mem_cons.mp hn with rfl | hn
      · exact hl₁ m hm
      · exact hcross m hm n hn
    refine hsorted.imp fun {m n} hmn => ?_
    rw [(hsame m).2,(hsame n).2]
    exact hmn
  · rcases List.mem_append.mp hn with hn | hn
    · exact h.lt n (List.mem_append_left _ hn)
    · rcases List.mem_cons.mp hn with rfl | hn
      · exact hlt
      · exact h.lt n (List.mem_append_right _ hn)

theorem insert_empty (q : SleepQueue) (p : ℕ) (time : ℕ × ℕ) (hhead : q.head = none) :
    q.insert p time = .ok (q.nextNode,{ q.withNode p time with head := some q.nextNode }) := by
  rw [insert]
  dsimp only
  rw [hhead]
  rfl

theorem insert_behind (q : SleepQueue) (p : ℕ) (time : ℕ × ℕ) {first prev : ℕ} {node : Option ℕ}
    (hhead : q.head = some first)
    (hfind : (q.withNode p time).findLater time.1 time.2 (q.nextNode+1) first (some first) =
      .ok (prev,node)) :
    q.insert p time = .ok (q.nextNode,
        ((q.withNode p time).setNext prev (some q.nextNode)).setNext q.nextNode node) := by
  obtain ⟨head,nodes,nextNode⟩ := q
  obtain rfl : head = some first := hhead
  exact Result.bind_eq_ok.mpr ⟨_,hfind,rfl⟩

/-- A node with an earlier deadline than the first one comes in behind all that are later. -/
theorem insert_spec (h : q.Queued l) {time : ℕ × ℕ} (hok : q.Accepts time) (p : ℕ) :
    ∃ q' l₁ l₂, l = l₁++l₂ ∧ q.insert p time = .ok (q.nextNode,q') ∧
    q'.Queued (l₁++q.nextNode :: l₂) ∧
      (∀ n ≠ q.nextNode, SameNodes q q' n) ∧ (q'.nodes q.nextNode).process = p ∧
      (q'.nodes q.nextNode).time = toLex time ∧ q'.nextNode = q.nextNode+1 := by
  have hwith := h.withNode p time
  have hnew : q.nextNode ∉ l := fun hm => lt_irrefl _ (h.lt _ hm)
  have hother : ∀ n ≠ q.nextNode, SameNodes q (q.withNode p time) n := fun n hn => by
    rw [SameNodes,q.withNode_nodes p time hn]
    exact ⟨rfl,rfl⟩
  cases hhead : q.head with
  | none =>
    have hnil : l = [] := by
      have hseg := h.segment
      rw [hhead] at hseg
      cases l with
      | nil => rfl
      | cons n l => cases hseg.1
    refine ⟨_,[],[],hnil,q.insert_empty p time hhead,⟨⟨rfl,?_⟩,List.pairwise_singleton _ _,?_⟩,
      hother,?_,?_,rfl⟩
    · change ((q.withNode p time).nodes q.nextNode).next = none
      rw [withNode_new]
    · intro n hn
      rw [List.mem_singleton.mp hn]
      exact Nat.lt_succ_self _
    · change ((q.withNode p time).nodes q.nextNode).process = p
      rw [withNode_new]
    · change ((q.withNode p time).nodes q.nextNode).time = _
      rw [withNode_new]
      rfl
  | some first =>
    have hseg := hwith.segment
    have hhead' : (q.withNode p time).head = some first := hhead
    rw [hhead'] at hseg
    have hlen := h.length_le
    have hfind :=
      (q.withNode p time).findLater_spec time (q.nextNode+1) first (some first) l hseg (by omega)
    have hsplit :
        l = l.takeWhile ((q.withNode p time).isLater time)++l.dropWhile
            ((q.withNode p time).isLater time) :=
      List.takeWhile_append_dropWhile.symm
    have hnode : (q.withNode p time).nodes q.nextNode = ⟨p,time.1,time.2,none⟩ :=
      q.withNode_new p time
    -- the first node is later, so that the walk passes it
    have hprev : ∃ prev, (l.takeWhile ((q.withNode p time).isLater time)).getLast? = some prev := by
      cases l with
      | nil => cases hhead.symm.trans h.segment
      | cons n l =>
        obtain rfl : first = n := Option.some.inj hseg.1
        have hne : first ≠ q.nextNode := fun heq => hnew (heq ▸ List.mem_cons_self)
        have hlater : (q.withNode p time).isLater time first = true := by
          rw [isLater,q.withNode_nodes p time hne]
          exact hok first hhead
        rw [List.takeWhile_cons_of_pos hlater,List.getLast?_cons]
        exact ⟨_,rfl⟩
    obtain ⟨prev,hprev⟩ := hprev
    rw [hprev,Option.getD_some] at hfind
    have htime : ((q.withNode p time).nodes q.nextNode).time = toLex time := by
      rw [hnode]
      rfl
    rw [hsplit] at hwith hnew
    have hplaced := hwith.place hnew (Nat.lt_succ_self _) (fun n hn => ?_) (fun n hn => ?_) hprev
    · have hsame :
        ∀ n, SameNodes (q.withNode p time)
          (((q.withNode p time).setNext prev (some q.nextNode)).setNext
          q.nextNode (l.dropWhile ((q.withNode p time).isLater time)).head?) n := fun n =>
        (setNext_nodes _ prev _ n).trans (setNext_nodes _ q.nextNode _ n)
      refine ⟨_,_,_,hsplit,q.insert_behind p time hhead hfind,hplaced,
        fun n hn => (hother n hn).trans (hsame n),?_,?_,rfl⟩
      · rw [(hsame _).1,hnode]
      · rw [(hsame _).2,htime]
    · rw [htime]
      exact (((q.withNode p time).nodes n).later_iff time).mp
        (List.all_eq_true.mp List.all_takeWhile n hn) |>.le
    · rw [htime]
      exact (h.withNode p time).dropWhile_le hn

end SleepQueue
end ScalesOS
