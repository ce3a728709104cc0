import ScalesOS.Machine
import ScalesOS.DepthFirst

/-! The dynamic loader of `user/ld/ld.c` as far as it follows `DT_NEEDED` entries:
`load_exec`, `load_library` and `load_object`, and the order in which they leave the
objects in `loaded_libraries`. -/
namespace ScalesOS.Ld
open DepthFirst

/-- What the loader looks at in a file: whether it is an ELF file, and the names of its
`DT_NEEDED` entries if it has a dynamic section. -/
structure Elf where
  magic : Bool
  dynamic : Option (List String)
  deriving DecidableEq

structure Object where
  name : String
  file : Elf
  deriving DecidableEq

/-- `find_library` and `open_object`: the files, under the names they are asked for by. -/
abbrev Files := String → Option Elf

def isLibraryLoaded (loaded : List Object) (name : String) : Bool :=
  loaded.any fun lib => lib.name = name

def addLoadedLibrary (loaded : List Object) (lib : Object) : List Object := loaded++[lib]

/-- What `load_object` and its callers return: whether there is an object, and the loaded
libraries. -/
abbrev Loaded := Result (Bool × List Object)

/-- `load` stands for the call of `load_object`. -/
def loadLibrary (files : Files) (load : Object → List Object → Loaded) (path : String)
    (loaded : List Object) : Loaded :=
  match files path with
  | none => pure (false,loaded)
  | some file => load ⟨path,file⟩ loaded

def loadDependencies (library : String → List Object → Loaded) : List String → List Object →
    Result (List Object)
  | [],loaded => pure loaded
  | name::names,loaded =>
    if isLibraryLoaded loaded name then loadDependencies library names loaded
    else do
      let r ← library name loaded
      if r.1 then loadDependencies library names r.2
      else throw (.panic ("LD: Failed to load library " ++ name))

/-- Without a dynamic section an object has no list of dependencies, and the loop over
them follows a null pointer. -/
def loadObject (files : Files) : ℕ → Object → List Object → Loaded
  | 0,_,_ => throw .loop
  | fuel+1,object,loaded =>
    if object.file.magic then
      match object.file.dynamic with
      | none => throw (.panic "page fault")
      | some dependencies => do
        let loaded ← loadDependencies (loadLibrary files (loadObject files fuel)) dependencies
          (addLoadedLibrary loaded object)
        pure (true,loaded)
    else pure (false,loaded)

/-- The calls nest at most `fuel` deep. -/
def loadExec (files : Files) (fuel : ℕ) (path : String) : Loaded :=
  loadLibrary files (loadObject files fuel) path []

/-- The `DT_NEEDED` names of the object that is found under a name. -/
def needed (files : Files) (name : String) : List String := ((files name).bind Elf.dynamic).getD []

/-- A finite set of names under which there are files that can be loaded, and that need
only files of the set. -/
structure Loadable (files : Files) (all : Finset String) : Prop where
  loads : ∀ name ∈ all, ∃ dependencies, files name = some ⟨true,some dependencies⟩
  needs : ∀ name ∈ all, ∀ dependency ∈ needed files name, dependency ∈ all

def names (loaded : List Object) : List String := loaded.map Object.name

theorem isLibraryLoaded_iff {loaded : List Object} {name : String} :
    isLibraryLoaded loaded name = true ↔ name ∈ names loaded := by
  simp [isLibraryLoaded,names]

theorem names_add (loaded : List Object) (lib : Object) :
    names (addLoadedLibrary loaded lib) = names loaded++[lib.name] := by
  simp [names,addLoadedLibrary]

section
variable {files : Files} {all : Finset String}

/-- What a loader of libraries does in `n` nested calls: as long as at most `n` names are
left, it visits a name that is not loaded yet, depth first. -/
def Follows (files : Files) (all : Finset String) (n : ℕ)
    (library : String → List Object → Loaded) : Prop :=
  ∀ name ∈ all, ∀ loaded, name ∉ names loaded → (all \ (names loaded).toFinset).card ≤ n →
    ∃ loaded', library name loaded = .ok (true,loaded') ∧
    Visits (needed files) (names loaded) [name] (names loaded') ∧
      (∀ lib ∈ loaded', lib ∈ loaded ∨ files lib.name = some lib.file)

theorem card_left_le {seen order : List String} (h : seen ⊆ order) :
    (all \ order.toFinset).card ≤ (all \ seen.toFinset).card := by
  apply Finset.card_le_card
  intro name hname
  rw [Finset.mem_sdiff,List.mem_toFinset] at hname ⊢
  exact ⟨hname.1,fun hin => hname.2 (h hin)⟩

theorem loadDependencies_follows {n : ℕ} {library : String → List Object → Loaded}
    (hlibrary : Follows files all n library) (dependencies : List String) :
    (∀ name ∈ dependencies, name ∈ all) → ∀ loaded, (all \ (names loaded).toFinset).card ≤ n →
      ∃ loaded', loadDependencies library dependencies loaded = .ok loaded' ∧
        Visits (needed files) (names loaded) dependencies (names loaded') ∧
        ∀ lib ∈ loaded', lib ∈ loaded ∨ files lib.name = some lib.file := by
  induction dependencies with
  | nil => exact fun _ loaded _ => ⟨loaded,rfl,.done,fun _ h => Or.inl h⟩
  | cons name dependencies ih =>
    intro hall loaded hleft
    have hrest := ih fun name hname => hall name (List.mem_cons_of_mem _ hname)
    by_cases hloaded : name ∈ names loaded
    · obtain ⟨loaded',hok,hvisits,hfiles⟩ := hrest loaded hleft
      refine ⟨loaded',?_,.skip hloaded hvisits,hfiles⟩
      rw [loadDependencies,if_pos (isLibraryLoaded_iff.mpr hloaded),hok]
    · obtain ⟨loaded1,hok1,hvisits1,hfiles1⟩ :=
        hlibrary name (hall name List.mem_cons_self) loaded hloaded hleft
      obtain ⟨loaded2,hok2,hvisits2,hfiles2⟩ :=
        hrest loaded1 ((card_left_le hvisits1.subset).trans hleft)
      refine ⟨loaded2,?_,hvisits1.append hvisits2,?_⟩
      · rw [loadDependencies,if_neg (fun h => hloaded (isLibraryLoaded_iff.mp h)),hok1]
        exact hok2
      · intro lib hlib
        rcases hfiles2 lib hlib with h | h
        · exact hfiles1 lib h
        · exact Or.inr h

theorem card_left_lt {name : String} {seen : List String} (hname : name ∈ all)
    (hnew : name ∉ seen) :
    (all \ (seen++[name]).toFinset).card < (all \ seen.toFinset).card := by
  apply Finset.card_lt_card
  refine ⟨?_,?_⟩
  · intro x hx
    rw [Finset.mem_sdiff,List.mem_toFinset] at hx ⊢
    exact ⟨hx.1,fun hin => hx.2 (List.mem_append_left _ hin)⟩
  · intro hsub
    have hin := hsub (Finset.mem_sdiff.mpr ⟨hname,fun h => hnew (List.mem_toFinset.mp h)⟩)
    rw [Finset.mem_sdiff,List.mem_toFinset] at hin
    exact hin.2 (List.mem_append_right _ (List.mem_singleton_self name))

theorem loadLibrary_follows (hall : Loadable files all) (fuel : ℕ) :
    Follows files all fuel (loadLibrary files (loadObject files fuel)) := by
  induction fuel with
  | zero =>
    intro name hname loaded hnew hleft
    have hlt := card_left_lt hname hnew
    omega
  | succ fuel ih =>
    intro name hname loaded hnew hleft
    obtain ⟨dependencies,hfile⟩ := hall.loads name hname
    have hneeded : needed files name = dependencies := by rw [needed,hfile]; rfl
    have hlt := card_left_lt hname hnew
    have hadd :
        names (addLoadedLibrary loaded ⟨name,⟨true,some dependencies⟩⟩) = names loaded++[name] :=
      names_add loaded _
    obtain ⟨loaded',hok,hvisits,hfiles⟩ := loadDependencies_follows ih dependencies
      (fun d hd => hall.needs name hname d (hneeded ▸ hd)) (addLoadedLibrary loaded ⟨name,
        ⟨true,some dependencies⟩⟩)
      (by rw [hadd]; omega)
    rw [hadd] at hvisits
    refine ⟨loaded',?_,.visit hnew (hneeded.symm ▸ hvisits) .done,?_⟩
    · rw [loadLibrary,hfile]
      dsimp only
      rw [loadObject,if_pos rfl]
      dsimp only
      rw [hok]
      rfl
    · intro lib hlib
      rcases hfiles lib hlib with hold | hfound
      · rcases List.mem_append.mp hold with hold | hself
        · exact Or.inl hold
        · rw [List.mem_singleton.mp hself]
          exact Or.inr hfile
      · exact Or.inr hfound

theorem eq_of_names {loaded loaded' : List Object} (h : names loaded = names loaded')
    (hfiles : ∀ lib ∈ loaded, files lib.name = some lib.file)
    (hfiles' : ∀ lib ∈ loaded', files lib.name = some lib.file) :
    loaded = loaded' := by
  induction loaded generalizing loaded' with
  | nil => exact (List.map_eq_nil_iff.mp h.symm).symm
  | cons lib loaded ih =>
    cases loaded' with
    | nil => cases h
    | cons lib' loaded' =>
      obtain ⟨hname,hrest⟩ := List.cons.inj h
      have hfile := (hfiles lib List.mem_cons_self).symm.trans
        ((congrArg files hname).trans (hfiles' lib' List.mem_cons_self))
      have hlib : lib = lib' := by
        cases lib
        cases lib'
        exact congr (congrArg Object.mk hname) (Option.some.inj hfile)
      rw [hlib,ih hrest (fun l hl => hfiles l (List.mem_cons_of_mem _ hl))
        (fun l hl => hfiles' l (List.mem_cons_of_mem _ hl))]

/-- Loading a program ends. It leaves the objects that the program reaches through
`DT_NEEDED`, each once, the program first, in the order of a depth-first search. -/
theorem loadExec_order (hall : Loadable files all) {path : String} (hpath : path ∈ all) :
    ∃ loaded, (∀ fuel, all.card ≤ fuel → loadExec files fuel path = .ok (true,loaded)) ∧
      Visits (needed files) [] [path] (names loaded) ∧ (names loaded).Nodup ∧
      (names loaded).head? = some path ∧ (∀ name, name ∈ names loaded ↔
        Relation.ReflTransGen (fun a b => b ∈ needed files a) path name) ∧
      ∀ lib ∈ loaded, files lib.name = some lib.file := by
  have hruns : ∀ fuel, all.card ≤ fuel → ∃ loaded, loadExec files fuel path = .ok (true,loaded) ∧
      Visits (needed files) [] [path] (names loaded) ∧ ∀ lib ∈ loaded,
      files lib.name = some lib.file := by
    intro fuel hfuel
    have hleft : (all \ (names ([] : List Object)).toFinset).card ≤ fuel :=
      (Finset.card_le_card Finset.sdiff_subset).trans hfuel
    obtain ⟨loaded,hok,hvisits,hfiles⟩ :=
      loadLibrary_follows hall fuel path hpath [] (List.not_mem_nil) hleft
    exact ⟨loaded,hok,hvisits,fun lib hlib => (hfiles lib hlib).resolve_left (List.not_mem_nil)⟩
  obtain ⟨loaded,_,hvisits,hfiles⟩ := hruns all.card le_rfl
  refine ⟨loaded,?_,hvisits,hvisits.nodup List.nodup_nil,hvisits.head,
    fun _ => hvisits.mem_iff,hfiles⟩
  intro fuel hfuel
  obtain ⟨loaded',hok,hvisits',hfiles'⟩ := hruns fuel hfuel
  rw [hok,eq_of_names (hvisits'.unique hvisits) hfiles' hfiles]

end

def cyclic : Files := fun name =>
  if name = "/bin/a" then some ⟨true,some ["b.so","c.so"]⟩
  else if name = "b.so" then some ⟨true,some ["c.so"]⟩
  else if name = "c.so" then some ⟨true,some ["b.so"]⟩
  else none

theorem cyclic_loadable : Loadable cyclic {"/bin/a","b.so","c.so"} := by
  constructor
  · intro name hname
    simp only [Finset.mem_insert,Finset.mem_singleton] at hname
    rcases hname with rfl | rfl | rfl
    · exact ⟨["b.so","c.so"],by decide⟩
    · exact ⟨["c.so"],by decide⟩
    · exact ⟨["b.so"],by decide⟩
  · intro name hname
    simp only [Finset.mem_insert,Finset.mem_singleton] at hname
    rcases hname with rfl | rfl | rfl <;> decide

theorem loadExec_cyclic :
    ∃ loaded, (∀ fuel, ({"/bin/a","b.so","c.so"} : Finset String).card ≤ fuel →
        loadExec cyclic fuel "/bin/a" = .ok (true,loaded)) ∧
      Visits (needed cyclic) [] ["/bin/a"] (names loaded) ∧ (names loaded).Nodup ∧
      (names loaded).head? = some "/bin/a" ∧
      (∀ name, name ∈ names loaded ↔
        Relation.ReflTransGen (fun a b => b ∈ needed cyclic a) "/bin/a" name) ∧
      ∀ lib ∈ loaded, cyclic lib.name = some lib.file :=
  loadExec_order cyclic_loadable (by decide)

end ScalesOS.Ld
