import ScalesOS.Loader
import ScalesOS.SearchOrder

/-! The initialisers of the loaded objects: `init_objects` of `user/ld/ld.c` calls them
in the order in which the objects were loaded, the executable's after all others. -/
namespace ScalesOS.Ld
open DepthFirst

/-- The entries `DT_INIT_ARRAY` and `DT_INIT` of an object: the number of functions in
the array, if there is one, and whether there is a function besides. -/
structure Initialisers where
  initArray : Option ℕ
  init : Bool

/-- The call of an initialiser, by its object and its place there. -/
inductive Call
  | initArray (object : String) (j : ℕ)
  | init (object : String)
  deriving DecidableEq

/-- The body of the loop of `init_objects`. -/
def initObject (inits : String → Initialisers) (name : String) : List Call :=
  (match (inits name).initArray with
    | some size => (List.range size).map (Call.initArray name)
    | none => []) ++
  if (inits name).init then [Call.init name] else []

/-- The calls of `init_objects` one after the other. -/
def initObjects (inits : String → Initialisers) (main : Object)
    (loaded : List Object) : List Call :=
  (loaded.tail.flatMap fun lib => initObject inits lib.name)++initObject inits main.name

def Call.object : Call → String
  | initArray name _ => name
  | init name => name

section
variable {inits : String → Initialisers} {name : String} {c d : Call}

theorem initObject_object (h : c ∈ initObject inits name) : c.object = name := by
  rcases List.mem_append.mp h with h | h
  · split at h
    · obtain ⟨j,-,rfl⟩ := List.mem_map.mp h
      rfl
    · cases h
  · split at h
    · rw [List.mem_singleton.mp h]
      rfl
    · cases h

theorem initObject_nodup (inits : String → Initialisers) (name : String) :
    (initObject inits name).Nodup := by
  rw [initObject,List.nodup_append]
  refine ⟨?_,?_,?_⟩
  · split
    · exact List.nodup_range.map fun i j h => (Call.initArray.inj h).2
    · exact List.nodup_nil
  · split
    · exact List.nodup_singleton _
    · exact List.nodup_nil
  · intro x hx y hy
    split at hx
    · obtain ⟨j,-,rfl⟩ := List.mem_map.mp hx
      split at hy
      · rw [List.mem_singleton.mp hy]
        exact fun h => by cases h
      · cases hy
    · cases hx

theorem flatMap_nodup {order : List String} (h : order.Nodup) :
    (order.flatMap (initObject inits)).Nodup := by
  refine List.nodup_flatMap.mpr ⟨fun name _ => initObject_nodup inits name,
    h.imp fun hne c hc hd => hne ?_⟩
  exact (initObject_object hc).symm.trans (initObject_object hd)

theorem before_flatMap {order : List String} {a b : String} (hc : c ∈ initObject inits a)
    (hd : d ∈ initObject inits b) (hab : a ≠ b) (ha : a ∈ order) :
    d ∈ before (order.flatMap (initObject inits)) c ↔ b ∈ before order a := by
  induction order with
  | nil => cases ha
  | cons x order ih =>
    rw [List.flatMap_cons]
    by_cases hx : x = a
    · subst hx
      rw [before_append_of_mem hc]
      constructor
      · intro h
        exact absurd ((initObject_object (mem_before h).1).symm.trans (initObject_object hd)) hab
      · intro h
        simp [before] at h
    · have hnot : c ∉ initObject inits x := fun h =>
        hx ((initObject_object h).symm.trans (initObject_object hc))
      have hself : d ∈ initObject inits x ↔ b = x := by
        constructor
        · exact fun h => (initObject_object hd).symm.trans (initObject_object h)
        · rintro rfl
          exact hd
      have hcons : before (x::order) a = x::before order a := by simp [before,hx]
      rw [before_append_of_not_mem hnot,List.mem_append,hself,hcons,List.mem_cons,
        ih ((List.mem_cons.mp ha).resolve_left fun h => hx h.symm)]

end

/-- Each initialiser of each object runs once, those of the executable last, and those of
an object after those of all objects that it needs. -/
structure Initialised (files : Files) (inits : String → Initialisers) (path : String)
    (calls : List Call) :
    Prop where
  once : calls.Nodup
  all : ∀ c, c ∈ calls ↔ ∃ name, Reach (needed files) path name ∧ c ∈ initObject inits name
  last : initObject inits path <:+ calls
  ordered : ∀ a b, Reach (needed files) path a → Below (needed files) a b →
    ∀ c ∈ initObject inits a, ∀ d ∈ initObject inits b, d ∈ before calls c

/-- When two libraries below the executable have initialisers and the first needs the
second, every chain of `DT_NEEDED` entries from the executable to the first passes an
entry that leads to the second. -/
def ListedFirst (files : Files) (inits : String → Initialisers) (path : String) : Prop :=
  ∀ a b, Below (needed files) path a → Below (needed files) a b → initObject inits a ≠ [] →
    initObject inits b ≠ [] → ¬ Open (needed files) b (needed files path) a

section
variable {files : Files} {all : Finset String} {path : String}

theorem initObjects_eq (inits : String → Initialisers) (main : Object) (libs : List Object) :
    initObjects inits main (main::libs) =
      (names libs).flatMap (initObject inits)++initObject inits main.name := by
  simp only [initObjects,List.tail_cons,names,List.flatMap_map]

theorem loop_free (hall : Loadable files all) (hpath : path ∈ all)
    (hacyclic : ∀ name ∈ all, ¬ Below (needed files) name name) {name : String}
    (hreach : Reach (needed files) path name) : ¬ Below (needed files) name name := by
  refine hacyclic name ?_
  induction hreach with
  | refl => exact hpath
  | tail _ hstep ih => exact hall.needs _ ih _ hstep

theorem open_root {a b : String} (h : a ≠ path) :
    Open (needed files) b [path] a ↔ Open (needed files) b (needed files path) a := by
  constructor
  · intro hopen
    cases hopen with
    | here => exact absurd rfl h
    | down hopen => exact hopen
    | pass _ hopen => cases hopen
  · exact .down

/-- On every dependency graph without cycles: the objects are loaded with the executable
first, every initialiser runs exactly once and the executable's run last, and those of
the libraries run after those of the libraries they need exactly when the libraries are
listed that way. -/
theorem init_order_iff (hall : Loadable files all) (hpath : path ∈ all)
    (hacyclic : ∀ name ∈ all, ¬ Below (needed files) name name) (inits : String → Initialisers) :
    ∃ main libs, main.name = path ∧
      (∀ fuel, all.card ≤ fuel → loadExec files fuel path = .ok (true,main::libs)) ∧
      (initObjects inits main (main::libs)).Nodup ∧
      (∀ c, c ∈ initObjects inits main (main::libs) ↔
        ∃ name, Reach (needed files) path name ∧ c ∈ initObject inits name) ∧
      initObject inits path <:+ initObjects inits main (main::libs) ∧
      (Initialised files inits path (initObjects inits main (main::libs)) ↔
        ListedFirst files inits path) := by
  obtain ⟨loaded,hload,hvisits,hnodup,hhead,hmem,-⟩ := loadExec_order hall hpath
  obtain ⟨main,libs,rfl⟩ : ∃ main libs, loaded = main::libs := by
    cases loaded with
    | nil => cases hhead
    | cons main libs => exact ⟨main,libs,rfl⟩
  obtain rfl : main.name = path := Option.some.inj hhead
  have hnames : names (main::libs) = main.name::names libs := rfl
  rw [hnames] at hvisits hnodup hmem
  obtain ⟨hmain,hlibs⟩ := List.nodup_cons.mp hnodup
  have honce : ((names libs).flatMap (initObject inits)++initObject inits main.name).Nodup := by
    refine List.nodup_append.mpr ⟨flatMap_nodup hlibs,initObject_nodup _ _,fun c hc d hd => ?_⟩
    rintro rfl
    obtain ⟨name,hname,hc⟩ := List.mem_flatMap.mp hc
    exact hmain ((initObject_object hd).symm.trans (initObject_object hc) ▸ hname)
  have hcalls : ∀ c, c ∈ (names libs).flatMap (initObject inits)++initObject inits main.name ↔
      ∃ name, Reach (needed files) main.name name ∧ c ∈ initObject inits name := by
    intro c
    simp only [← hmem,List.mem_append,List.mem_flatMap,List.mem_cons]
    constructor
    · rintro (⟨name,hname,hc⟩ | hc)
      · exact ⟨name,.inr hname,hc⟩
      · exact ⟨main.name,.inl rfl,hc⟩
    · rintro ⟨name,rfl | hname,hc⟩
      · exact .inr hc
      · exact .inl ⟨name,hname,hc⟩
  refine ⟨main,libs,rfl,hload,?_⟩
  rw [initObjects_eq]
  refine ⟨honce,hcalls,List.suffix_append _ _,?_⟩
  have hlib : ∀ a, Below (needed files) main.name a → a ≠ main.name ∧ a ∈ names libs := by
    intro a ha
    have hne : a ≠ main.name := by
      rintro rfl
      exact hacyclic main.name hpath ha
    exact ⟨hne,(List.mem_cons.mp ((hmem a).mpr ha.to_reflTransGen)).resolve_left hne⟩
  -- for two libraries the calls stand in the order of the search
  have horder : ∀ a b, Below (needed files) main.name a → Below (needed files) a b →
      ∀ c ∈ initObject inits a, ∀ d ∈ initObject inits b,
        (d ∈ before ((names libs).flatMap (initObject inits)++initObject inits main.name) c ↔
          ¬ Open (needed files) b (needed files main.name) a) := by
    intro a b ha hab c hc d hd
    obtain ⟨hne,hin⟩ := hlib a ha
    obtain ⟨hnb,-⟩ := hlib b (ha.trans hab)
    have haa : a ≠ b := by
      rintro rfl
      exact loop_free hall hpath hacyclic ha.to_reflTransGen hab
    have hsearch :=
      hvisits.before_iff (S := all) (fun x hx y hy => hall.needs x hx y hy) hacyclic hpath
      (List.mem_cons_of_mem _ hin) hab
    have hcons : before (main.name::names libs) a = main.name::before (names libs) a := by
      simp [before,Ne.symm hne]
    rw [hcons,List.mem_cons] at hsearch
    rw [before_append_of_mem (List.mem_flatMap.mpr ⟨a,hin,hc⟩),before_flatMap hc hd haa hin,
      ← open_root hne,← hsearch]
    exact ⟨.inr,fun h => h.resolve_left hnb⟩
  constructor
  · intro h a b ha hab hca hdb
    obtain ⟨c,hc⟩ := List.exists_mem_of_ne_nil _ hca
    obtain ⟨d,hd⟩ := List.exists_mem_of_ne_nil _ hdb
    exact (horder a b ha hab c hc d hd).mp (h.ordered a b ha.to_reflTransGen hab c hc d hd)
  · intro h
    refine ⟨honce,hcalls,List.suffix_append _ _,fun a b ha hab c hc d hd => ?_⟩
    rcases Relation.reflTransGen_iff_eq_or_transGen.mp ha with rfl | ha
    · -- the executable's calls come after everything
      have hb := (hlib b hab).2
      have hnot : c ∉ (names libs).flatMap (initObject inits) := by
        intro hc'
        obtain ⟨name,hname,hc'⟩ := List.mem_flatMap.mp hc'
        exact hmain ((initObject_object hc).symm.trans (initObject_object hc') ▸ hname)
      rw [before_append_of_not_mem hnot]
      exact List.mem_append_left _ (List.mem_flatMap.mpr ⟨b,hb,hd⟩)
    · exact (horder a b ha hab c hc d hd).mpr
        (h a b ha hab (List.ne_nil_of_mem hc) (List.ne_nil_of_mem hd))

end

/-- A program that needs one library, which needs another; all three have a function to
call. -/
def chain : Files := fun name =>
  if name = "/bin/a" then some ⟨true,some ["b.so"]⟩
  else if name = "b.so" then some ⟨true,some ["c.so"]⟩
  else if name = "c.so" then some ⟨true,some []⟩
  else none

def oneEach : String → Initialisers := fun _ => ⟨none,true⟩

theorem chain_loadable : Loadable chain {"/bin/a","b.so","c.so"} := by
  constructor
  · intro name hname
    simp only [Finset.mem_insert,Finset.mem_singleton] at hname
    rcases hname with rfl | rfl | rfl
    · exact ⟨["b.so"],by decide⟩
    · exact ⟨["c.so"],by decide⟩
    · exact ⟨[],by decide⟩
  · intro name hname
    simp only [Finset.mem_insert,Finset.mem_singleton] at hname
    rcases hname with rfl | rfl | rfl <;> decide

theorem chain_acyclic (name : String) : ¬ Below (needed chain) name name := by
  let rank : String → ℕ := fun name => if name = "/bin/a" then 2 else if name = "b.so" then 1 else 0
  have hstep : ∀ a b, b ∈ needed chain a → rank b < rank a := by
    intro a b hb
    simp only [needed,chain] at hb
    split_ifs at hb with h1 h2 h3
    · obtain rfl : b = "b.so" := by simpa using hb
      subst h1
      decide
    · obtain rfl : b = "c.so" := by simpa using hb
      subst h2
      decide
    · simp at hb
    · simp at hb
  have hbelow : ∀ b, Below (needed chain) name b → rank b < rank name := by
    intro b hb
    induction hb with
    | single h => exact hstep _ _ h
    | tail _ h ih => exact (hstep _ _ h).trans ih
  exact fun h => lt_irrefl _ (hbelow name h)

theorem init_order_iff_chain :
    ∃ main libs, main.name = "/bin/a" ∧
      (∀ fuel, ({"/bin/a","b.so","c.so"} : Finset String).card ≤ fuel →
        loadExec chain fuel "/bin/a" = .ok (true,main::libs)) ∧
      (initObjects oneEach main (main::libs)).Nodup ∧
      (∀ c, c ∈ initObjects oneEach main (main::libs) ↔
        ∃ name, Reach (needed chain) "/bin/a" name ∧ c ∈ initObject oneEach name) ∧
      initObject oneEach "/bin/a" <:+ initObjects oneEach main (main::libs) ∧
      (Initialised chain oneEach "/bin/a" (initObjects oneEach main (main::libs)) ↔
        ListedFirst chain oneEach "/bin/a") :=
  init_order_iff chain_loadable (by decide) (fun name _ => chain_acyclic name) oneEach

/-- `c.so` is initialised after `b.so`, which needs it. -/
theorem dependency_initialised_late :
    Loadable chain {"/bin/a","b.so","c.so"} ∧ (∀ name, ¬ Below (needed chain) name name) ∧
    ∃ main libs, loadExec chain 3 "/bin/a" = .ok (true,main::libs) ∧ main.name = "/bin/a" ∧
      initObjects oneEach main (main::libs) = [.init "b.so",.init "c.so",.init "/bin/a"] ∧
      ¬ Initialised chain oneEach "/bin/a" (initObjects oneEach main (main::libs)) := by
  refine ⟨chain_loadable,chain_acyclic,⟨"/bin/a",⟨true,some ["b.so"]⟩⟩,
    [⟨"b.so",⟨true,some ["c.so"]⟩⟩,⟨"c.so",⟨true,some []⟩⟩],by decide,rfl,by decide,fun h => ?_⟩
  have hlate := h.ordered "b.so" "c.so" (.single (by decide)) (.single (by decide))
    (.init "b.so") (by decide) (.init "c.so") (by decide)
  revert hlate
  decide

end ScalesOS.Ld
