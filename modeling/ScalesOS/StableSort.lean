import ScalesOS.Lists
import ScalesOS.Restacking

/-!
# Insertion sort in memory

`list_sort` moves the pointers of a list within its array: the indices are signed and the
size is not. It ends with the sorted sequence in the same array, for every predicate, and
with a strict weak order as the predicate the sort is stable.
-/

namespace ScalesOS
namespace Lists

open ByteMemory

/-- The `while` loop, which returns its last `j`. -/
def shiftUp (predicate : Ptr → Ptr → Bool) (key : Ptr) (s : State) (j : BitVec 32) :
    Except Stop (State × BitVec 32) := do
  if h : 0 ≤ j.toInt then
    let x ← s.load j.toNat
    if predicate x key then
      let s ← s.store (j+1).toNat x
      shiftUp predicate key s (j-1)
    else pure (s,j)
  else pure (s,j)
  termination_by (j.toInt+1).toNat
  decreasing_by
    have := BitVec.toInt_lt (x:=j)
    rw [BitVec.toInt_sub]
    simp only [BitVec.toInt_ofNat]
    norm_num
    rw [Int.bmod_eq_of_le] <;> omega

/-- The body of the `for` loop. -/
def insertKey (predicate : Ptr → Ptr → Bool) (s : State) (i : BitVec 32) : Except Stop State := do
  let key ← s.load i.toNat
  let (s,j) ← shiftUp predicate key s (i-1)
  s.store (j+1).toNat key

/-- The signed `i` is compared with the size as an unsigned number. -/
def listSort (predicate : Ptr → Ptr → Bool) (s : State) : Except Stop State :=
  (List.range' 1 (s.list.size-1)).foldlM (fun s i => insertKey predicate s (BitVec.ofNat 32 i)) s

variable {predicate : Ptr → Ptr → Bool} {key v : Ptr} {s s' s'' : State}
    {xs low high rest : List Ptr} {i k : ℕ}

/-- The same array; the memory around it is as before. -/
structure InPlace (s s' : State) : Prop where
  list : s'.list = s.list
  bytes : s'.bytes = s.bytes
  outside : ∀ x, x < s.list.data ∨ s.list.data+s.bytes ≤ x → s'.mem x = s.mem x

theorem InPlace.refl (s : State) : InPlace s s := ⟨rfl,rfl,fun _ _ => rfl⟩

theorem InPlace.trans (h : InPlace s s') (h' : InPlace s' s'') : InPlace s s'' where
  list := h'.list.trans h.list
  bytes := h'.bytes.trans h.bytes
  outside x hx := (h'.outside x (by rw [h.list,h.bytes]; exact hx)).trans (h.outside x hx)

theorem pointers_write (m : Mem) (a n : ℕ) :
    pointers (writePtr m (a+4*i) v) a n = (pointers m a n).set i v := by
  refine List.ext_getElem (by simp) fun j hj hj' => ?_
  rw [getElem_pointers,List.getElem_set]
  split
  · rename_i he
    rw [he,read32_write32_ptr]
  · rename_i hne
    rw [getElem_pointers]
    exact readPtr_congr fun x hx => write32_outside m (by omega)

theorem Rep.store (h : Rep s xs) (hi : i < xs.length) (v : Ptr) :
    ∃ s', s.store i v = .ok s' ∧ Rep s' (xs.set i v) ∧ InPlace s s' := by
  have hbytes := h.bytes
  refine ⟨_,h.toOwns.store hi v,{
    bytes := by rw [List.length_set]; exact h.bytes
    fits := by rw [List.length_set]; exact h.fits
    small := by rw [List.length_set]; exact h.small
    size := by rw [List.length_set]; exact h.size
    data := by rw [h.data]; simp
    contents := ?_ },rfl,rfl,fun x hx => write32_outside s.mem (by omega)⟩
  rw [List.length_set,pointers_write,h.contents]

theorem ofNat_succ_sub_one (k : ℕ) : BitVec.ofNat 32 (k+1)-1 = BitVec.ofNat 32 k := by
  rw [BitVec.ofNat_add]
  exact BitVec.add_sub_cancel _ _

theorem toNat_ofNat_of_small (hk : k ≤ 2^29) : (BitVec.ofNat 32 k).toNat = k := by
  rw [BitVec.toNat_ofNat]
  exact Nat.mod_eq_of_lt (by omega)

theorem toInt_ofNat_of_small (hk : k ≤ 2^29) : (BitVec.ofNat 32 k).toInt = k := by
  have hw : W32 = 2^32 := rfl
  rw [toInt_ofNat (by omega),if_pos (by omega)]

/-- The loop opens a hole behind the last of the lower pointers that the predicate does not hold
for. -/
theorem shiftUp_spec {hole : Ptr} (h : Rep s (low++hole::(high++rest))) :
    ∃ s' hole', shiftUp predicate key s (BitVec.ofNat 32 low.length-1) =
        .ok (s',BitVec.ofNat 32 (low.rdropWhile (predicate · key)).length-1) ∧
      Rep s' (low.rdropWhile (predicate · key)++hole'::(low.rtakeWhile
        (predicate · key)++high++rest)) ∧ InPlace s s' := by
  induction low using List.reverseRecOn generalizing s hole high with
  | nil =>
    refine ⟨s,hole,?_,by simpa using h,.refl s⟩
    rw [shiftUp,dif_neg (by decide)]
    rfl
  | append_singleton low x ih =>
    have hsmall := h.small
    simp only [List.length_append,List.length_cons,List.length_nil] at hsmall
    have hload : s.load low.length = .ok x := by
      rw [h.load (by simp)]
      simp
    rw [List.length_append,List.length_singleton,ofNat_succ_sub_one,shiftUp,
      dif_pos (by rw [toInt_ofNat_of_small (by omega)]; omega),
      toNat_ofNat_of_small (by omega),hload]
    by_cases hx : predicate x key = true
    · obtain ⟨s₁,hstore,hrep,hin⟩ := h.store (i:=low.length+1) (by simp) x
      have hset :
          ((low++[x])++hole::(high++rest)).set (low.length+1) x = low++x::((x::high)++rest) := by
        rw [List.set_append_right _ _ (by simp)]
        simp
      obtain ⟨s',hole',hshift,hrep',hin'⟩ := ih (hset ▸ hrep)
      refine ⟨s',hole',?_,?_,hin.trans hin'⟩
      · rw [List.rdropWhile_concat_pos (predicate · key) _ _ hx,← hshift]
        have hnext : (BitVec.ofNat 32 low.length+1).toNat = low.length+1 := by
          have hadd : BitVec.ofNat 32 low.length+1 = BitVec.ofNat 32 (low.length+1) :=
            (BitVec.ofNat_add ..).symm
          rw [hadd,toNat_ofNat_of_small (by omega)]
        simp only [bind,Except.bind,hx,if_true,hnext,hstore]
      · rw [List.rdropWhile_concat_pos (predicate · key) _ _ hx,
          List.rtakeWhile_concat_pos (predicate · key) _ _ hx]
        simpa using hrep'
    · refine ⟨s,hole,?_,?_,.refl s⟩
      · rw [List.rdropWhile_concat_neg (predicate · key) _ _ hx,List.length_append,
          List.length_singleton,ofNat_succ_sub_one]
        simp only [bind,Except.bind,hx]
        rfl
      · rw [List.rdropWhile_concat_neg (predicate · key) _ _ hx,
          List.rtakeWhile_concat_neg (predicate · key) _ _ hx]
        simpa using h

theorem insertKey_spec (h : Rep s (low++key::rest)) :
    ∃ s', insertKey predicate s (BitVec.ofNat 32 low.length) = .ok s' ∧
      Rep s' (Compose.round predicate low key++rest) ∧ InPlace s s' := by
  have hsmall := h.small
  simp only [List.length_append,List.length_cons] at hsmall
  have hload : s.load low.length = .ok key := by
    rw [h.load (by simp)]
    simp
  obtain ⟨s₁,hole,hshift,hrep,hin⟩ := @shiftUp_spec predicate key _ _ [] _ _ h
  have hkept := (List.rdropWhile_prefix (predicate · key) (l:=low)).length_le
  obtain ⟨s',hstore,hrep',hin'⟩ :=
    hrep.store (i:=(low.rdropWhile (predicate · key)).length) (by simp) key
  refine ⟨s',?_,?_,hin.trans hin'⟩
  · rw [insertKey,toNat_ofNat_of_small (by omega),hload]
    simp only [bind,Except.bind,hshift]
    rw [BitVec.sub_add_cancel,toNat_ofNat_of_small (by omega),hstore]
  · rw [List.set_append_right _ _ le_rfl] at hrep'
    simpa [Compose.round] using hrep'

theorem rounds_spec (h : Rep s (low++rest)) :
    ∃ s', (List.range' low.length rest.length).foldlM (fun s i =>
      insertKey predicate s (BitVec.ofNat 32 i)) s = .ok s' ∧
      Rep s' (rest.foldl (Compose.round predicate) low) ∧ InPlace s s' := by
  induction rest generalizing s low with
  | nil => exact ⟨s,rfl,by simpa using h,.refl s⟩
  | cons key rest ih =>
    obtain ⟨s₁,hinsert,hrep,hin⟩ := @insertKey_spec predicate _ _ _ _ h
    obtain ⟨s',hrounds,hrep',hin'⟩ := ih hrep
    refine ⟨s',?_,hrep',hin.trans hin'⟩
    rw [(Compose.round_perm low key).length_eq,List.length_cons] at hrounds
    rw [List.length_cons,List.range'_succ,List.foldlM_cons,hinsert]
    exact hrounds

theorem listSort_refines (h : Rep s xs) (predicate : Ptr → Ptr → Bool) :
    ∃ s', listSort predicate s = .ok s' ∧ Rep s' (Compose.listSort predicate xs) ∧
    InPlace s s' := by
  rw [listSort,h.size]
  cases xs with
  | nil => exact ⟨s,rfl,h,.refl s⟩
  | cons x xs => exact @rounds_spec _ _ [x] _ h

end Lists

namespace Compose

section Stability

variable {α : Type} {predicate : α → α → Bool} {list list' : List α} {a b c : α}

def equivalent (predicate : α → α → Bool) (a b : α) : Bool := !predicate a b && !predicate b a

theorem equivalent_iff : equivalent predicate a b = true ↔
    ¬ predicate a b = true ∧ ¬ predicate b a = true := by
  simp [equivalent]

/-- The same members, none followed by one that it is above, equivalent ones in their old order. -/
structure SortedStably (predicate : α → α → Bool) (list list' : List α) : Prop where
  perm : list'.Perm list
  sorted : list'.Pairwise (¬ predicate · · = true)
  stable : ∀ a ∈ list, list'.filter (equivalent predicate a) = list.filter (equivalent predicate a)

theorem weak_of_strictWeakOrder
    [h : IsStrictWeakOrder {p // p ∈ list} fun a b => predicate a b = true] :
    Weak predicate list where
  asymm a ha b hb hab hba := h.irrefl ⟨a,ha⟩ (h.trans ⟨a,ha⟩ ⟨b,hb⟩ ⟨a,ha⟩ hab hba)
  trans a ha b hb c hc hab hbc hac := by
    by_cases hba : predicate b a = true
    · exact hbc (h.trans ⟨b,hb⟩ ⟨a,ha⟩ ⟨c,hc⟩ hba hac)
    · by_cases hcb : predicate c b = true
      · exact hab (h.trans ⟨a,ha⟩ ⟨c,hc⟩ ⟨b,hb⟩ hac hcb)
      · exact (h.incomp_trans ⟨a,ha⟩ ⟨b,hb⟩ ⟨c,hc⟩ ⟨hab,hba⟩ ⟨hbc,hcb⟩).1 hac

theorem Weak.stable (hw : Weak predicate list) (ha : a ∈ list) :
    (listSort predicate list).filter (equivalent predicate a) =
    list.filter (equivalent predicate a) := by
  have hpair : (list.filter (equivalent predicate a)).Pairwise (¬ predicate · · = true) := by
    refine List.pairwise_of_forall_mem_list fun b hb c hc => ?_
    obtain ⟨hb,hab⟩ := List.mem_filter.mp hb
    obtain ⟨hc,hac⟩ := List.mem_filter.mp hc
    exact hw.trans b hb a ha c hc (equivalent_iff.mp hab).2 (equivalent_iff.mp hac).1
  have hsub := (hw.sublist hpair List.filter_sublist).filter (equivalent predicate a)
  rw [List.filter_filter] at hsub
  simp only [Bool.and_self] at hsub
  exact (hsub.eq_of_length ((listSort_perm predicate list).filter _).length_eq.symm).symm

theorem Weak.sortedStably (hw : Weak predicate list) :
    SortedStably predicate list (listSort predicate list) :=
  ⟨listSort_perm _ _,hw.sorted,fun _ => hw.stable⟩

end Stability

namespace Server

def HasChild (srv : Server) (r c : Ref) : Prop := ∃ win, srv.window r = some win ∧ c ∈ win.children

theorem store_self {srv : Server} {r : Ref} {win : Window} (h : srv.window r = some win) :
    srv.store r win = srv := by
  rw [Server.store,← h,Function.update_eq_self]

theorem restack_in_order {srv srv' : Server} {fuel : ℕ} {par : Ref}
    (hs : ∀ x, Relation.ReflTransGen srv.HasChild par x → srv.SortedAt x)
    (hret : restack fuel srv par = .ok srv') :
    srv' = srv := by
  induction fuel generalizing srv' par with
  | zero => cases hret
  | succ fuel ih =>
    obtain ⟨win,hwin,hret⟩ := Result.bind_eq_ok.mp hret
    obtain ⟨children,hsort,hret⟩ := Result.bind_eq_ok.mp hret
    have hpar := window_of_deref hwin
    obtain rfl := (sortWindows_resorted hsort).eq_of_sorted (hs par .refl win hpar)
    rw [store_self hpar] at hret
    refine foldlM_invariant (P:=(· = srv)) win.children (fun c hc s t he ht => ?_) rfl hret
    subst he
    exact ih (fun x hx => hs x (.head ⟨win,hpar,hc⟩ hx)) ht

end Server
end Compose

namespace Lists

open Compose

/-- Sorting the array of a list is stable, and restacking windows in order changes nothing. -/
theorem sorts_stably :
    (∀ (s : State) (xs : List Ptr) (predicate : Ptr → Ptr → Bool), Rep s xs →
      IsStrictWeakOrder {p // p ∈ xs} (fun a b => predicate a b = true) →
      ∃ s' ys, Lists.listSort predicate s = .ok s' ∧ Rep s' ys ∧ InPlace s s' ∧
      SortedStably predicate xs ys) ∧
    ∀ (srv : Server) (par : Ref) (win : Window), srv.Forest → srv.window par = some win →
      (∀ x, Relation.ReflTransGen srv.HasChild par x → srv.SortedAt x) →
      srv.svRestack par = .ok srv := by
  constructor
  · intro s xs predicate h hw
    obtain ⟨s',hret,hrep,hin⟩ := listSort_refines h predicate
    exact ⟨s',_,hret,hrep,hin,weak_of_strictWeakOrder.sortedStably⟩
  · intro srv par win hf hpar hs
    obtain ⟨srv',hret⟩ := Server.svRestack_returns hf hpar
    obtain rfl := Server.restack_in_order hs hret
    exact hret

def threePointers : State :=
  ⟨writePtr (writePtr (writePtr (fun _ => 0) 0x1000 0x44) 0x1004 0x20) 0x1008 0x40,⟨3,0x1000⟩,12⟩

theorem threePointers_rep : Rep threePointers [0x44,0x20,0x40] where
  bytes := rfl
  fits := by decide
  small := by decide
  size := rfl
  data := by decide
  contents := by decide +kernel

/-- Sorted by their blocks; and two windows in order. -/
theorem sorts_stably_blocks : ∃ s' ys start srv,
    Lists.listSort (fun a b => decide (b.toNat/16 < a.toNat/16)) threePointers =
    .ok s' ∧ Rep s' ys ∧
    SortedStably (fun a b : Ptr => decide (b.toNat/16 < a.toNat/16)) [0x44,0x20,0x40] ys ∧
    Server.svCreate 100 100 = .ok start ∧ Relation.ReflTransGen (Server.Performs fun _ _ =>
      True) start srv ∧
    (∃ win, srv.window 0 = some win ∧ win.children = [3,4]) ∧ srv.svRestack 0 = .ok srv := by
  obtain ⟨s',ys,hret,hrep,-,hsorted⟩ := sorts_stably.1 threePointers [0x44,0x20,0x40]
    (fun a b => decide (b.toNat/16 < a.toNat/16)) threePointers_rep
    { irrefl := by simp
      trans := fun a b c hab hbc => by
        simp only [decide_eq_true_eq] at hab hbc ⊢
        omega
      incomp_trans := fun a b c hab hbc => by
        simp only [decide_eq_true_eq] at hab hbc ⊢
        omega }
  obtain ⟨start,srv,-,win,hstart,hrun,-,-,-,-,-,hwin,hchildren,-⟩ := Server.two_windows
  have hordered := Server.siblings_sorted hstart hrun
  exact ⟨s',ys,start,srv,hret,hrep,hsorted,hstart,hrun,⟨win,hwin,hchildren⟩,
    sorts_stably.2 srv 0 win hordered.forest hwin fun x _ => hordered.sorted x⟩

end Lists
end ScalesOS
