import Mathlib.Tactic

/-!
# Trees of names

An ordered forest whose entries have a name and a value, paths of names that lead to the first
entry of each name, and cells of a heap that lay such a forest out with pointers to the parent
and to the children. A change at one place of the forest is a change of the cells there.
-/

inductive NameTree (N A : Type) where
  | nil
  /-- The first entry, what is below it, and the entries after it. -/
  | cons (name : N) (value : A) (below rest : NameTree N A)
  deriving DecidableEq

namespace NameTree

structure Cell (N V : Type) where
  name : N
  value : V
  parent : Option ℕ
  children : List ℕ

variable {N A B V : Type}

/-- The entries of the first level. -/
def entries : NameTree N A → List (N × A)
  | nil => []
  | cons name value _ rest => (name,value) :: rest.entries

def map (g : A → B) : NameTree N A → NameTree N B
  | nil => nil
  | cons name value below rest => cons name (g value) (below.map g) (rest.map g)

def push (name : N) (value : A) : NameTree N A → NameTree N A
  | nil => cons name value nil nil
  | cons m a below rest => cons m a below (rest.push name value)

theorem map_push (g : A → B) (name : N) (value : A) (t : NameTree N A) :
    (t.push name value).map g = (t.map g).push name (g value) := by
  induction t with
  | nil => rfl
  | cons m a below rest _ ih => rw [push,map,ih,map,push]

theorem map_entries (g : A → B) (t : NameTree N A) : (t.map g).entries = t.entries.map fun e =>
    (e.1,g e.2) := by
  induction t with
  | nil => rfl
  | cons m a below rest _ ih => rw [map,entries,ih,entries,List.map_cons]

section Paths
variable [DecidableEq N]

def find : NameTree N A → List N → Option (A × NameTree N A)
  | nil,_ => none
  | cons _ _ _ _,[] => none
  | cons name value below rest,n :: ns =>
    if name = n then if ns = [] then some (value,below) else below.find ns
    else rest.find (n :: ns)

def change (f : A → NameTree N A → A × NameTree N A) : NameTree N A → List N → NameTree N A
  | nil,_ => nil
  | cons name value below rest,[] => cons name value below rest
  | cons name value below rest,n :: ns =>
    if name = n then
      if ns = [] then cons name (f value below).1 (f value below).2 rest
      else cons name value (below.change f ns) rest
    else cons name value below (rest.change f (n :: ns))

def erase (n : N) : NameTree N A → NameTree N A
  | nil => nil
  | cons name value below rest => if name = n then rest else cons name value below (rest.erase n)

variable {f : A → NameTree N A → A × NameTree N A} {t below : NameTree N A} {a : A}
    {n : N} {ns : List N}

@[simp] theorem find_nil (t : NameTree N A) : t.find [] = none := by cases t <;> rfl

theorem find_append (t : NameTree N A) : ∀ {ns ms : List N}, ns ≠ [] → ms ≠ [] →
    t.find (ns++ms) = (t.find ns).bind fun e => e.2.find ms := by
  induction t with
  | nil => exact fun _ _ => rfl
  | cons name value below rest ihBelow ihRest =>
    intro ns ms hns hms
    cases ns with
    | nil => exact absurd rfl hns
    | cons n ns =>
      rw [List.cons_append,find,find]
      by_cases hname : name = n
      · rw [if_pos hname,if_pos hname,if_neg (List.append_ne_nil_of_right_ne_nil _ hms)]
        by_cases hnil : ns = []
        · rw [hnil,if_pos rfl]
          rfl
        · rw [if_neg hnil]
          exact ihBelow hnil hms
      · rw [if_neg hname,if_neg hname]
        exact ihRest (List.cons_ne_nil _ _) hms

theorem find_map (g : A → B) (t : NameTree N A) : ∀ ns : List N,
    (t.map g).find ns = (t.find ns).map fun e => (g e.1,e.2.map g) := by
  induction t with
  | nil => exact fun _ => rfl
  | cons name value below rest ihBelow ihRest =>
    intro ns
    cases ns with
    | nil => rfl
    | cons m ms =>
      rw [map,find,find]
      split
      · split
        · rfl
        · exact ihBelow ms
      · exact ihRest (m :: ms)

theorem change_map {g : A → B} {h : B → NameTree N B → B × NameTree N B} (t : NameTree N A) :
    ∀ {ns : List N}, (∀ a below, t.find ns = some (a,below) →
      (g (f a below).1,(f a below).2.map g) = h (g a) (below.map g)) →
    (t.change f ns).map g = (t.map g).change h ns := by
  induction t with
  | nil => exact fun _ => rfl
  | cons name value below rest ihBelow ihRest =>
    intro ns hf
    cases ns with
    | nil => rfl
    | cons m ms =>
      rw [find] at hf
      rw [map,change,change]
      split
      · rename_i hname
        rw [if_pos hname] at hf
        split
        · rename_i hms
          rw [if_pos hms] at hf
          rw [map,← hf _ _ rfl]
        · rename_i hms
          rw [if_neg hms] at hf
          rw [map,ihBelow hf]
      · rename_i hname
        rw [if_neg hname] at hf
        rw [map,ihRest hf]

theorem map_erase (g : A → B) (n : N) (t : NameTree N A) :
    (t.erase n).map g = (t.map g).erase n := by
  induction t with
  | nil => rfl
  | cons m a below rest _ ih =>
    rw [erase,map,erase]
    split
    · rfl
    · rw [map,ih]

end Paths

def tops (t : NameTree N (ℕ × A)) : List ℕ := t.entries.map fun e => e.2.1

/-- All pointers. -/
def pointers : NameTree N (ℕ × A) → List ℕ
  | nil => []
  | cons _ value below rest => value.1 :: (below.pointers++rest.pointers)

def Laid (R : V → A → Prop) (heap : ℕ → Option (Cell N V)) : Option ℕ → NameTree N (ℕ × A) → Prop
  | _,nil => True
  | parent,cons name value below rest =>
    (∃ v, heap value.1 = some ⟨name,v,parent,below.tops⟩ ∧ R v value.2) ∧
      Laid R heap (some value.1) below ∧ Laid R heap parent rest

variable {R : V → A → Prop} {heap heap' : ℕ → Option (Cell N V)} {t below : NameTree N (ℕ × A)}
    {parent : Option ℕ}

theorem Laid.congr (t : NameTree N (ℕ × A)) : ∀ {parent : Option ℕ}, Laid R heap parent t →
    (∀ p ∈ t.pointers, heap' p = heap p) → Laid R heap' parent t := by
  induction t with
  | nil => exact fun _ _ => trivial
  | cons name value below rest ihBelow ihRest =>
    intro parent h hsame
    obtain ⟨⟨v,hcell,hv⟩,hbelow,hrest⟩ := h
    refine ⟨⟨v,?_,hv⟩,ihBelow hbelow fun p hp => hsame p ?_,ihRest hrest fun p hp => hsame p ?_⟩
    · rw [hsame _ List.mem_cons_self,hcell]
    · exact List.mem_cons_of_mem _ (List.mem_append_left _ hp)
    · exact List.mem_cons_of_mem _ (List.mem_append_right _ hp)

theorem Laid.cell (t : NameTree N (ℕ × A)) : ∀ {parent : Option ℕ}, Laid R heap parent t →
    ∀ p ∈ t.pointers, heap p ≠ none := by
  induction t with
  | nil => exact fun _ p hp => by cases hp
  | cons name value below rest ihBelow ihRest =>
    intro parent h p hp
    obtain ⟨⟨v,hcell,-⟩,hbelow,hrest⟩ := h
    rcases List.mem_cons.mp hp with rfl | hp
    · rw [hcell]
      exact Option.some_ne_none _
    · rcases List.mem_append.mp hp with hp | hp
      · exact ihBelow hbelow p hp
      · exact ihRest hrest p hp

theorem Laid.entry (t : NameTree N (ℕ × A)) (h : Laid R heap parent t) {x : N × ℕ × A}
    (hx : x ∈ t.entries) :
    (heap x.2.1).map Cell.name = some x.1 := by
  induction t with
  | nil => cases hx
  | cons name value below rest _ ih =>
    obtain ⟨⟨v,hcell,-⟩,-,hrest⟩ := h
    rcases List.mem_cons.mp hx with rfl | hx
    · rw [hcell]
      rfl
    · exact ih hrest hx

theorem pointers_push (name : N) (value : ℕ × A) (t : NameTree N (ℕ × A)) :
    (t.push name value).pointers = t.pointers++[value.1] := by
  induction t with
  | nil => rfl
  | cons m a below rest _ ih => rw [push,pointers,ih,pointers,List.cons_append,List.append_assoc]

@[simp] theorem tops_cons (name : N) (value : ℕ × A) (below rest : NameTree N (ℕ × A)) :
    (cons name value below rest).tops = value.1 :: rest.tops := rfl

theorem tops_push (name : N) (value : ℕ × A) (t : NameTree N (ℕ × A)) :
    (t.push name value).tops = t.tops++[value.1] := by
  induction t with
  | nil => rfl
  | cons m a below rest _ ih => rw [push,tops_cons,ih,tops_cons,List.cons_append]

theorem Laid.push {name : N} {value : ℕ × A} {v : V} (t : NameTree N (ℕ × A))
    (h : Laid R heap parent t) (hcell : heap value.1 = some ⟨name,v,parent,[]⟩) (hv : R v value.2) :
    Laid R heap parent (t.push name value) := by
  induction t with
  | nil => exact ⟨⟨v,hcell,hv⟩,trivial,trivial⟩
  | cons m a below rest _ ih => exact ⟨h.1,h.2.1,ih h.2.2⟩

section Paths
variable [DecidableEq N] {f : ℕ × A → NameTree N (ℕ × A) → (ℕ × A) × NameTree N (ℕ × A)} {p : ℕ}
    {a : A} {ns : List N}

def pointerAt (t : NameTree N (ℕ × A)) (ns : List N) : Option ℕ := (t.find ns).map fun e => e.1.1

theorem Laid.find (t : NameTree N (ℕ × A)) : ∀ {parent : Option ℕ}
    {ns : List N}, Laid R heap parent t → t.find ns = some ((p,a),below) →
    ∃ name v q, ns.getLast? = some name ∧ heap p = some ⟨name,v,q,below.tops⟩ ∧ R v a ∧
    Laid R heap (some p) below := by
  induction t with
  | nil =>
    intro parent ns _ hfind
    cases hfind
  | cons name value below' rest ihBelow ihRest =>
    intro parent ns h hfind
    obtain ⟨⟨v,hcell,hv⟩,hbelow,hrest⟩ := h
    cases ns with
    | nil => cases hfind
    | cons m ms =>
      rw [NameTree.find] at hfind
      by_cases hname : name = m
      · rw [if_pos hname] at hfind
        by_cases hms : ms = []
        · rw [if_pos hms] at hfind
          obtain ⟨rfl,rfl⟩ := Prod.mk.inj (Option.some.inj hfind)
          exact ⟨name,v,parent,by rw [hname,hms]; rfl,hcell,hv,hbelow⟩
        · rw [if_neg hms] at hfind
          rw [List.getLast?_cons_of_ne_nil hms]
          exact ihBelow hbelow hfind
      · rw [if_neg hname] at hfind
        exact ihRest hrest hfind

/-- A loop over the pointers that compares names finds the first entry of the name. -/
theorem Laid.first (t : NameTree N (ℕ × A)) (h : Laid R heap parent t) (n : N) :
    (t.tops.find? fun p => (heap p).map Cell.name = some n) = t.pointerAt [n] := by
  induction t with
  | nil => rfl
  | cons name value below rest _ ih =>
    obtain ⟨⟨v,hcell,-⟩,-,hrest⟩ := h
    rw [tops_cons,pointerAt,NameTree.find]
    by_cases hname : name = n
    · rw [if_pos hname,if_pos rfl,
        List.find?_cons_of_pos (by rw [hcell,← hname]; exact decide_eq_true rfl)]
      rfl
    · rw [if_neg hname]
      refine (List.find?_cons_of_neg ?_).trans (ih hrest)
      rw [hcell]
      exact fun h => hname (Option.some.inj (of_decide_eq_true h))

theorem Laid.parent_eq {n : N} {name : N} {v : V} {q : Option ℕ} {inner : NameTree N (ℕ × A)}
    (t : NameTree N (ℕ × A))
    (h : Laid R heap parent t) (hfind : t.find [n] = some ((p,a),inner)) {children : List ℕ}
    (hp : heap p = some ⟨name,v,q,children⟩) : q = parent := by
  induction t with
  | nil => cases hfind
  | cons m value below rest _ ih =>
    obtain ⟨⟨v',hcell,-⟩,-,hrest⟩ := h
    rw [NameTree.find] at hfind
    by_cases hname : m = n
    · rw [if_pos hname,if_pos rfl] at hfind
      obtain ⟨rfl,rfl⟩ := Prod.mk.inj (Option.some.inj hfind)
      rw [hcell] at hp
      exact congrArg Cell.parent (Option.some.inj hp).symm
    · rw [if_neg hname] at hfind
      exact ih hrest hfind

theorem find_change (t : NameTree N (ℕ × A)) : ∀ {ns : List N}, t.find ns = some ((p,a),below) →
    (t.change f ns).find ns = some (f (p,a) below) := by
  induction t with
  | nil =>
    intro ns hfind
    cases hfind
  | cons name value below' rest ihBelow ihRest =>
    intro ns hfind
    cases ns with
    | nil => cases hfind
    | cons m ms =>
      rw [find] at hfind
      rw [change]
      by_cases hname : name = m
      · rw [if_pos hname] at hfind ⊢
        by_cases hms : ms = []
        · rw [if_pos hms] at hfind ⊢
          obtain ⟨rfl,rfl⟩ := Prod.mk.inj (Option.some.inj hfind)
          rw [find,if_pos hname,if_pos hms]
        · rw [if_neg hms] at hfind ⊢
          rw [find,if_pos hname,if_neg hms]
          exact ihBelow hfind
      · rw [if_neg hname] at hfind ⊢
        rw [find,if_neg hname]
        exact ihRest hfind

/-- The first level stays where the pointer at the end of the path does. -/
theorem tops_change (t : NameTree N (ℕ × A)) : ∀ {ns : List N},
    (∀ x below, t.find ns = some (x,below) → (f x below).1.1 = x.1) →
    (t.change f ns).tops = t.tops := by
  induction t with
  | nil => exact fun _ => rfl
  | cons name value below' rest ihBelow ihRest =>
    intro ns hf
    cases ns with
    | nil => rfl
    | cons m ms =>
      rw [find] at hf
      rw [change]
      by_cases hname : name = m
      · rw [if_pos hname] at hf ⊢
        by_cases hms : ms = []
        · rw [if_pos hms] at hf ⊢
          rw [tops_cons,tops_cons,hf _ _ rfl]
        · rw [if_neg hms]
          rfl
      · rw [if_neg hname] at hf ⊢
        rw [tops_cons,tops_cons,ihRest hf]

theorem pointers_change (t : NameTree N (ℕ × A)) : ∀ {ns : List N}, t.find ns = some ((p,a),below) →
    ∃ l r, t.pointers = l++(p :: below.pointers)++r ∧
      (t.change f ns).pointers = l++((f (p,a) below).1.1 :: (f (p,a) below).2.pointers)++r := by
  induction t with
  | nil =>
    intro ns hfind
    cases hfind
  | cons name value below' rest ihBelow ihRest =>
    intro ns hfind
    cases ns with
    | nil => cases hfind
    | cons m ms =>
      rw [find] at hfind
      rw [change]
      by_cases hname : name = m
      · rw [if_pos hname] at hfind ⊢
        by_cases hms : ms = []
        · rw [if_pos hms] at hfind ⊢
          obtain ⟨rfl,rfl⟩ := Prod.mk.inj (Option.some.inj hfind)
          exact ⟨[],rest.pointers,rfl,rfl⟩
        · rw [if_neg hms] at hfind ⊢
          obtain ⟨l,r,hold,hnew⟩ := ihBelow hfind
          refine ⟨value.1 :: l,r++rest.pointers,?_,?_⟩
          · rw [pointers,hold]
            simp only [List.cons_append,List.append_assoc]
          · rw [pointers,hnew]
            simp only [List.cons_append,List.append_assoc]
      · rw [if_neg hname] at hfind ⊢
        obtain ⟨l,r,hold,hnew⟩ := ihRest hfind
        refine ⟨value.1 :: (below'.pointers++l),r,?_,?_⟩
        · rw [pointers,hold]
          simp only [List.cons_append,List.append_assoc]
        · rw [pointers,hnew]
          simp only [List.cons_append,List.append_assoc]

/-- What a path leads to is in the forest, with all that is below it. -/
theorem mem_find (t : NameTree N (ℕ × A)) (hfind : t.find ns = some ((p,a),below)) :
    p :: below.pointers ⊆ t.pointers := by
  obtain ⟨l,r,hpointers,-⟩ := pointers_change (f := fun x b => (x,b)) t hfind
  rw [hpointers]
  exact fun q hq => List.mem_append_left _ (List.mem_append_right _ hq)

theorem nodup_find (t : NameTree N (ℕ × A)) (hnodup : t.pointers.Nodup)
    (hfind : t.find ns = some ((p,a),below)) :
    p ∉ below.pointers ∧ below.pointers.Nodup := by
  obtain ⟨l,r,hpointers,-⟩ := pointers_change (f := fun x b => (x,b)) t hfind
  rw [hpointers] at hnodup
  exact List.nodup_cons.mp (List.nodup_append.mp (List.nodup_append.mp hnodup).1).2.1

theorem pointer_mem {t : NameTree N (ℕ × A)} {q : ℕ} (hq : t.pointerAt ns = some q) :
    q ∈ t.pointers := by
  obtain ⟨⟨⟨p,a⟩,below⟩,hfind,rfl⟩ := Option.map_eq_some_iff.mp hq
  exact mem_find t hfind List.mem_cons_self

/-- No pointer is there twice if those below the place are old ones of it or new. -/
theorem nodup_change (t : NameTree N (ℕ × A)) (hnodup : t.pointers.Nodup)
    (hfind : t.find ns = some ((p,a),below))
    (hp : (f (p,a) below).1.1 = p) (hbelow : (f (p,a) below).2.pointers.Nodup)
    (hnew : ∀ q ∈ (f (p,a) below).2.pointers, q ∈ below.pointers ∨ q ∉ t.pointers) :
    (t.change f ns).pointers.Nodup := by
  obtain ⟨l,r,hold,hafter⟩ := pointers_change (f := f) t hfind
  rw [hold] at hnodup hnew
  rw [hafter,hp]
  simp only [List.nodup_append,List.nodup_cons,List.mem_append,List.mem_cons] at hnodup hnew ⊢
  obtain ⟨⟨hl,⟨hpbelow,-⟩,hlp⟩,hr,hlr⟩ := hnodup
  refine ⟨⟨hl,⟨fun hmem => ?_,hbelow⟩,?_⟩,hr,?_⟩
  · exact (hnew p hmem).elim hpbelow fun hout => hout (.inl (.inr (.inl rfl)))
  · rintro b hb c (rfl | hc)
    · exact hlp b hb c (.inl rfl)
    · rintro rfl
      exact (hnew b hc).elim (fun hin => hlp b hb b (.inr hin) rfl) fun hout =>
        hout (.inl (.inl hb))
  · rintro b (hb | rfl | hb) c hc
    · exact hlr b (.inl hb) c hc
    · exact hlr b (.inr (.inl rfl)) c hc
    · rintro rfl
      exact (hnew b hb).elim (fun hin => hlr b (.inr (.inr hin)) b hc rfl) fun hout =>
        hout (.inr hc)

/-- A heap with a change at the cell of one entry and below it lays the changed forest out. -/
theorem Laid.change (t : NameTree N (ℕ × A)) {n : N} {v v' : V} {q : Option ℕ}
    (hcell : heap p = some ⟨n,v,q,below.tops⟩)
    (hcell' : heap' p = some ⟨n,v',q,(f (p,a) below).2.tops⟩) (hR : R v' (f (p,a) below).1.2)
    (hlaid : Laid R heap' (some p) (f (p,a) below).2) (hp : (f (p,a) below).1.1 = p) :
    ∀ {parent : Option ℕ} {ns : List N}, Laid R heap parent t → t.pointers.Nodup →
      t.find ns = some ((p,a),below) →
      (∀ q ∈ t.pointers, q ∉ p :: below.pointers → heap' q = heap q) →
      Laid R heap' parent (t.change f ns) := by
  induction t with
  | nil => exact fun _ _ _ _ => trivial
  | cons name value below' rest ihBelow ihRest =>
    intro parent ns h hnodup hfind hsame
    obtain ⟨⟨w,hw,hRw⟩,hbelow,hrest⟩ := h
    rw [pointers,List.nodup_cons,List.nodup_append] at hnodup
    obtain ⟨hhead,hnodupBelow,hnodupRest,hapart⟩ := hnodup
    cases ns with
    | nil => cases hfind
    | cons m ms =>
      rw [NameTree.find] at hfind
      rw [NameTree.change]
      by_cases hname : name = m
      · rw [if_pos hname] at hfind ⊢
        -- nothing of what comes after the entry is at the place
        have hafter : ∀ q ∈ rest.pointers, q ∉ value.1 :: below'.pointers := by
          intro q hq hmem
          rcases List.mem_cons.mp hmem with rfl | hmem
          · exact hhead (List.mem_append_right _ hq)
          · exact hapart q hmem q hq rfl
        by_cases hms : ms = []
        · rw [if_pos hms] at hfind ⊢
          obtain ⟨rfl,rfl⟩ := Prod.mk.inj (Option.some.inj hfind)
          injection hw.symm.trans hcell with heq
          injection heq with hn hv hq
          refine ⟨⟨v',?_,hR⟩,?_,hrest.congr rest fun q hq => hsame q ?_ (hafter q hq)⟩
          · rw [hp,hn,hq]
            exact hcell'
          · rw [hp]
            exact hlaid
          · exact List.mem_cons_of_mem _ (List.mem_append_right _ hq)
        · rw [if_neg hms] at hfind ⊢
          obtain ⟨l,r,hold,-⟩ := pointers_change (f := f) below' hfind
          have hin : ∀ q ∈ p :: below.pointers, q ∈ below'.pointers := by
            intro q hq
            rw [hold]
            exact List.mem_append_left _ (List.mem_append_right _ hq)
          have hout : ∀ q, q ∉ below'.pointers →
            q ∉ p :: below.pointers := fun q hq hmem => hq (hin q hmem)
          refine ⟨⟨w,?_,hRw⟩,ihBelow hbelow hnodupBelow hfind fun q hq => hsame q ?_,
            hrest.congr rest fun q hq => hsame q ?_ (hout q ?_)⟩
          · have htops : (below'.change f ms).tops = below'.tops := by
              refine tops_change below' fun x b hx => ?_
              rw [hfind] at hx
              obtain ⟨rfl,rfl⟩ := Prod.mk.inj (Option.some.inj hx)
              exact hp
            rw [htops,hsame value.1 List.mem_cons_self (hout _ fun hmem =>
              hhead (List.mem_append_left _ hmem)),hw]
          · exact List.mem_cons_of_mem _ (List.mem_append_left _ hq)
          · exact List.mem_cons_of_mem _ (List.mem_append_right _ hq)
          · exact fun hmem => hapart q hmem q hq rfl
      · rw [if_neg hname] at hfind ⊢
        obtain ⟨l,r,hold,-⟩ := pointers_change (f := f) rest hfind
        have hout : ∀ q, q ∉ rest.pointers → q ∉ p :: below.pointers := by
          intro q hq hmem
          apply hq
          rw [hold]
          exact List.mem_append_left _ (List.mem_append_right _ hmem)
        refine ⟨⟨w,?_,hRw⟩,hbelow.congr below' fun q hq => hsame q ?_ (hout q ?_),
          ihRest hrest hnodupRest hfind fun q hq => hsame q ?_⟩
        · rw [hsame value.1 List.mem_cons_self (hout _ fun hmem =>
            hhead (List.mem_append_right _ hmem)),hw]
        · exact List.mem_cons_of_mem _ (List.mem_append_left _ hq)
        · exact fun hmem => hapart q hq q hmem rfl
        · exact List.mem_cons_of_mem _ (List.mem_append_right _ hq)

/-- A path keeps its pointer where the change keeps those below the place. -/
theorem pointerAt_change (t : NameTree N (ℕ × A)) : ∀ {ns ns' : List N}
    {q : ℕ}, t.find ns = some ((p,a),below) → (f (p,a) below).1.1 = p →
    (∀ s, ns' = ns++s → below.pointerAt s = some q → (f (p,a) below).2.pointerAt s = some q) →
    t.pointerAt ns' = some q → (t.change f ns).pointerAt ns' = some q := by
  induction t with
  | nil =>
    intro ns ns' q hfind
    cases hfind
  | cons name value below' rest ihBelow ihRest =>
    intro ns ns' q hfind hp hbelow hq
    cases ns with
    | nil => cases hfind
    | cons m ms =>
      cases ns' with
      | nil => rw [pointerAt,find_nil] at hq; cases hq
      | cons m' ms' =>
        rw [find] at hfind
        rw [pointerAt,find] at hq
        rw [change]
        by_cases hname : name = m
        · rw [if_pos hname] at hfind ⊢
          by_cases hms : ms = []
          · rw [if_pos hms] at hfind ⊢
            obtain ⟨rfl,rfl⟩ := Prod.mk.inj (Option.some.inj hfind)
            rw [pointerAt,find]
            by_cases hname' : name = m'
            · rw [if_pos hname'] at hq ⊢
              by_cases hms' : ms' = []
              · rw [if_pos hms'] at hq ⊢
                rw [← hq]
                exact congrArg some hp
              · rw [if_neg hms'] at hq ⊢
                exact hbelow ms' (by rw [hms,← hname,← hname']; rfl) hq
            · rw [if_neg hname'] at hq ⊢
              exact hq
          · rw [if_neg hms] at hfind ⊢
            rw [pointerAt,find]
            by_cases hname' : name = m'
            · rw [if_pos hname'] at hq ⊢
              by_cases hms' : ms' = []
              · rw [if_pos hms'] at hq ⊢
                exact hq
              · rw [if_neg hms'] at hq ⊢
                refine ihBelow hfind hp (fun s hs => hbelow s ?_) hq
                rw [hs,← hname,← hname']
                rfl
            · rw [if_neg hname'] at hq ⊢
              exact hq
        · rw [if_neg hname] at hfind ⊢
          rw [pointerAt,find]
          by_cases hname' : name = m'
          · rw [if_pos hname'] at hq ⊢
            exact hq
          · rw [if_neg hname'] at hq ⊢
            exact ihRest hfind hp hbelow hq

theorem pointerAt_push {name : N} {value : ℕ × A} (t : NameTree N (ℕ × A)) {q : ℕ}
    (hq : t.pointerAt ns = some q) :
    (t.push name value).pointerAt ns = some q := by
  induction t with
  | nil => cases hq
  | cons m b below rest _ ih =>
    cases ns with
    | nil => rw [pointerAt,find_nil] at hq; cases hq
    | cons n ns =>
      rw [pointerAt,find] at hq
      rw [push,pointerAt,find]
      split
      · rename_i hname
        rw [if_pos hname] at hq
        exact hq
      · rename_i hname
        rw [if_neg hname] at hq
        exact ih hq

theorem find_push {name : N} {value : ℕ × A} (t : NameTree N (ℕ × A)) (h : t.find [name] = none) :
    (t.push name value).find [name] = some (value,nil) := by
  induction t with
  | nil => rw [push,find,if_pos rfl,if_pos rfl]
  | cons m b below rest _ ih =>
    rw [find] at h
    by_cases hname : m = name
    · rw [if_pos hname,if_pos rfl] at h
      cases h
    · rw [if_neg hname] at h
      rw [push,find,if_neg hname]
      exact ih h

variable {n : N} {c : ℕ}

/-- The pointer of an entry that nothing is below goes, the others stay. -/
theorem pointers_erase (t : NameTree N (ℕ × A)) (h : t.find [n] = some ((c,a),nil)) :
    ∃ l r, t.pointers = l++c :: r ∧ (t.erase n).pointers = l++r := by
  induction t with
  | nil => cases h
  | cons name value below rest _ ih =>
    rw [find] at h
    rw [erase]
    by_cases hname : name = n
    · rw [if_pos hname,if_pos rfl] at h
      obtain ⟨rfl,rfl⟩ := Prod.mk.inj (Option.some.inj h)
      rw [if_pos hname]
      exact ⟨[],rest.pointers,rfl,rfl⟩
    · rw [if_neg hname] at h ⊢
      obtain ⟨l,r,hold,hnew⟩ := ih h
      refine ⟨value.1 :: (below.pointers++l),r,?_,?_⟩
      · rw [pointers,hold]
        simp only [List.cons_append,List.append_assoc]
      · rw [pointers,hnew]
        simp only [List.cons_append,List.append_assoc]

theorem tops_erase (t : NameTree N (ℕ × A)) (hnodup : t.pointers.Nodup)
    (h : t.find [n] = some ((c,a),nil)) :
    (t.erase n).tops = t.tops.erase c := by
  induction t with
  | nil => cases h
  | cons name value below rest _ ih =>
    rw [find] at h
    rw [erase,tops_cons]
    by_cases hname : name = n
    · rw [if_pos hname,if_pos rfl] at h
      obtain ⟨rfl,-⟩ := Prod.mk.inj (Option.some.inj h)
      rw [if_pos hname,List.erase_cons_head]
    · rw [if_neg hname] at h ⊢
      rw [pointers,List.nodup_cons,List.nodup_append] at hnodup
      obtain ⟨l,r,hold,-⟩ := pointers_erase rest h
      have hne : value.1 ≠ c := by
        rintro rfl
        apply hnodup.1
        rw [hold]
        exact List.mem_append_right _ (List.mem_append_right _ List.mem_cons_self)
      rw [tops_cons,ih hnodup.2.2.1 h,List.erase_cons_tail (by simpa using hne)]

theorem Laid.erase (t : NameTree N (ℕ × A)) (h : Laid R heap parent t) :
    Laid R heap parent (t.erase n) := by
  induction t with
  | nil => trivial
  | cons name value below rest _ ih =>
    rw [NameTree.erase]
    split
    · exact h.2.2
    · exact ⟨h.1,h.2.1,ih h.2.2⟩

theorem pointerAt_erase (t : NameTree N (ℕ × A)) (h : t.find [n] = some ((c,a),nil)) {q : ℕ}
    (hne : ns ≠ [n]) (hq : t.pointerAt ns = some q) : (t.erase n).pointerAt ns = some q := by
  induction t with
  | nil => cases h
  | cons name value below rest _ ih =>
    cases ns with
    | nil => rw [pointerAt,find_nil] at hq; cases hq
    | cons m ms =>
      rw [find] at h
      rw [pointerAt,find] at hq
      rw [erase]
      by_cases hname : name = n
      · rw [if_pos hname,if_pos rfl] at h
        obtain ⟨rfl,rfl⟩ := Prod.mk.inj (Option.some.inj h)
        rw [if_pos hname]
        by_cases hname' : name = m
        · rw [if_pos hname'] at hq
          by_cases hms : ms = []
          · exact absurd (by rw [hms,← hname,← hname']) hne
          · rw [if_neg hms] at hq
            cases hq
        · rw [if_neg hname'] at hq
          exact hq
      · rw [if_neg hname] at h ⊢
        rw [pointerAt,find]
        by_cases hname' : name = m
        · rw [if_pos hname'] at hq ⊢
          exact hq
        · rw [if_neg hname'] at hq ⊢
          exact ih h hq

end Paths
end NameTree
