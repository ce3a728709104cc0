import ScalesOS.Paths
import ScalesOS.Cancelling

/-!
# Canonical paths

`k_util_path_canonize` against the normal form of a path. The function takes the segments
between two slashes as they are, also the empty ones, and repeats the last segment of a string
that ends in two slashes.
-/

namespace ScalesOS

/-- A string in memory, and how many bytes of the memory have been written. -/
structure StringBuffer where
  string : Path
  written : ℕ

namespace StringBuffer

def strcpy (s : Path) : StringBuffer := ⟨s,s.length+1⟩

/-- `strncat`: at most `n` characters, and the terminator. -/
def strncat (b : StringBuffer) (s : Path) (n : ℕ) : StringBuffer :=
  ⟨b.string++s.take n,max b.written (b.string.length+(s.take n).length+1)⟩

end StringBuffer

namespace Path

/-- What the two loops of `k_util_path_canonize` do with a segment. -/
def canonizeSegment (stack : List Path) (seg : Path) : List Path :=
  if seg = ['.'] then stack
  else if seg = ['.','.'] then (if 0 < stack.length then stack.dropLast else stack)
  else stack++[seg]

def canonizeStack (root relative : Path) : List Path :=
  let stack :=
    if relative = [] ∨ relative.head? ≠ some '/' then (names root).foldl canonizeSegment [] else []
  if relative ≠ [] then (names relative).foldl canonizeSegment stack else stack

def joinLoop : List Path → StringBuffer → StringBuffer
  | [], path => path
  | [seg], path => path.strncat seg 255
  | seg :: rest, path => joinLoop rest ((path.strncat seg 255).strncat ['/'] 255)

def canonizeBuffer (root relative : Path) : Option StringBuffer :=
  if root = ['/'] ∧ relative = [] then none
  else some (joinLoop (canonizeStack root relative) (.strcpy ['/']))

def kUtilPathCanonize (root relative : Path) : Path :=
  (canonizeBuffer root relative).elim root StringBuffer.string

def components (path : Path) : List Path := (path.splitOn '/').filter fun c => c ≠ [] ∧ c ≠ ['.']

def resolve (cs : List Path) (c : Path) : List Path :=
  if c = ['.','.'] then cs.dropLast else cs++[c]

/-- What `k_util_path_canonize` is for. -/
def normalForm (root relative : Path) : Path :=
  absolute ((if relative.head? = some '/' then components relative
    else components root++components relative).foldl resolve [])

/-- The strings that are looked at. -/
def looked (root relative : Path) : List Path :=
  if relative = [] then [root] else if relative.head? = some '/' then [relative]
  else [root,relative]

/-- What a segment does to the segments before it. -/
def effect (seg : Path) : Effect := if seg = ['.'] then .skip else if seg = ['.','.'] then
    .takeBack else .put

/-- A segment that is a component. -/
def solid (seg : Path) : Bool := seg ≠ []

theorem effect_of_not_solid {seg : Path} (h : solid seg = false) : effect seg = .put := by
  have hnil : seg = [] := by simpa [solid] using h
  rw [hnil]
  rfl

theorem canonizeSegment_eq : canonizeSegment = Cancelling.step effect := by
  funext stack seg
  rw [canonizeSegment,Cancelling.step,effect]
  split
  · rfl
  · split
    · cases stack <;> rfl
    · rfl

theorem canonizeStack_eq (root relative : Path) :
    canonizeStack root relative =
    Cancelling.left effect ((looked root relative).flatMap names) := by
  rw [canonizeStack,looked,canonizeSegment_eq,← Cancelling.foldl_nil]
  by_cases hnil : relative = []
  · rw [if_neg (not_not_intro hnil),if_pos (.inl hnil),if_pos hnil,List.flatMap_singleton]
  · rw [if_pos hnil,if_neg hnil]
    by_cases hhead : relative.head? = some '/'
    · rw [if_neg (not_or.mpr ⟨hnil,not_not_intro hhead⟩),if_pos hhead,List.flatMap_singleton]
    · rw [if_pos (.inr hhead),if_neg hhead,List.flatMap_cons,List.flatMap_singleton,
        List.foldl_append]

theorem resolve_eq (l : List Path) : (l.filter fun c => c ≠ [] ∧ c ≠ ['.']).foldl resolve [] =
    Cancelling.left effect (l.filter solid) := by
  have hstep :
    (fun (cs : List Path) (c : Path) => if (decide (c ≠ ['.'])) = true then resolve cs c else cs) =
      Cancelling.step effect := by
    funext cs c
    rw [Cancelling.step,effect,resolve]
    by_cases hdot : c = ['.']
    · simp [hdot]
    · by_cases hdots : c = ['.','.'] <;> simp [hdot,hdots]
  have hfilter : (l.filter fun c => c ≠ [] ∧ c ≠ ['.']) = (l.filter solid).filter fun c =>
      c ≠ ['.'] := by
    rw [List.filter_filter]
    congr 1
    funext c
    simp [solid,Bool.and_comm]
  rw [hfilter,List.foldl_filter,hstep,Cancelling.foldl_nil]

theorem append_joined (c : Path) (cs : List Path) : c++joined cs = ['/'].intercalate (c :: cs) := by
  induction cs generalizing c with
  | nil => simp [joined]
  | cons c' cs ih =>
    rw [joined,ih c',List.intercalate_cons_cons]
    simp

theorem absolute_eq (cs : List Path) : absolute cs = '/' :: ['/'].intercalate cs := by
  cases cs with
  | nil => rfl
  | cons c cs => rw [absolute,if_neg (List.cons_ne_nil _ _),joined,append_joined]

theorem splitOn_clean (s : Path) : ∀ x ∈ s.splitOn '/', '/' ∉ x := by
  induction s with
  | nil => simp
  | cons c s ih =>
    rw [List.splitOn_cons_eq_if_modifyHead]
    by_cases hc : c = '/'
    · rw [if_pos (by simp [hc])]
      simpa using ih
    · rw [if_neg (by simp [hc])]
      obtain ⟨x,l,hl⟩ := List.exists_cons_of_ne_nil (List.splitOn_ne_nil '/' s)
      rw [hl] at ih ⊢
      rw [List.modifyHead_cons,List.forall_mem_cons]
      rw [List.forall_mem_cons] at ih
      exact ⟨List.not_mem_cons_of_ne_of_not_mem (fun h => hc h.symm) ih.1,ih.2⟩

theorem leading_spec {path : Path} (hpath : path ≠ ['/']) (hne : path ≠ []) :
    withoutLeading path ≠ [] ∧ withoutLeading path <:+ path ∧
      ((withoutLeading path).splitOn '/').filter solid = (path.splitOn '/').filter solid ∧
      ((withoutLeading path).head? = some '/' → ['/','/'] <+: path) := by
  rw [withoutLeading]
  split
  · rename_i hhead
    obtain ⟨c,q,rfl⟩ := List.exists_cons_of_ne_nil hne
    obtain rfl : c = '/' := by simpa using hhead
    refine ⟨fun hq => hpath (congrArg _ hq),List.suffix_cons _ _,?_,fun hq => ?_⟩
    · rw [List.tail_cons,List.splitOn_cons_eq_if_modifyHead,if_pos (by simp)]
      rfl
    · obtain ⟨c,q,rfl⟩ : ∃ c q', q = c :: q' := List.exists_cons_of_ne_nil fun hnil => by
        rw [hnil] at hq
        cases hq
      obtain rfl : c = '/' := by simpa using hq
      exact ⟨q,rfl⟩
  · rename_i hhead
    exact ⟨hne,List.suffix_refl _,rfl,fun h => absurd h hhead⟩

theorem trailing_spec {q : Path} (hne : q ≠ []) (hq : q ≠ ['/']) (hend : ¬ ['/','/'] <:+ q) :
    withoutTrailing q ≠ [] ∧ withoutTrailing q <+: q ∧
      ((withoutTrailing q).splitOn '/').filter solid = (q.splitOn '/').filter solid ∧
      (withoutTrailing q).getLast? ≠ some '/' := by
  rw [withoutTrailing]
  split
  · rename_i hlast
    obtain ⟨q',rfl⟩ := List.getLast?_eq_some_iff.mp hlast
    rw [List.dropLast_concat]
    refine ⟨fun h => hq (by rw [h]; rfl),List.prefix_append _ _,?_,fun h => hend ?_⟩
    · rw [List.splitOn_append_cons_self,List.filter_append]
      simp [solid]
    · obtain ⟨q'',rfl⟩ := List.getLast?_eq_some_iff.mp h
      exact ⟨q'',by simp⟩
  · rename_i hlast
    exact ⟨hne,List.prefix_refl _,rfl,hlast⟩

/-- The string that is left between the slash at the front and the one at the end. -/
structure Stripped (path s : Path) : Prop where
  ne_nil : s ≠ []
  last : s.getLast? ≠ some '/'
  isInfix : s <:+: path
  head : s.head? = some '/' → ['/','/'] <:+: path
  solid_eq : (s.splitOn '/').filter solid = (path.splitOn '/').filter solid

theorem strip_spec {path : Path} (hpath : path ≠ ['/']) (hne : path ≠ [])
    (hend : ¬ ['/','/'] <:+ path) :
    Stripped path (kUtilPathStrip path) := by
  obtain ⟨hlead,hsuffix,hsolid,hhead⟩ := leading_spec hpath hne
  have hq : withoutLeading path ≠ ['/'] := fun h =>
    hend ((hhead (by rw [h]; rfl)).eq_of_length_le ?_ ▸ List.suffix_refl _)
  · obtain ⟨htrail,hpre,hsolid',hlast⟩ := trailing_spec hlead hq fun h => hend (h.trans hsuffix)
    rw [kUtilPathStrip,if_neg hpath]
    refine ⟨htrail,hlast,hpre.isInfix.trans hsuffix.isInfix,fun h => (hhead ?_).isInfix,
      hsolid'.trans hsolid⟩
    obtain ⟨rest,hrest⟩ := hpre
    rw [← hrest,List.head?_append,h]
    rfl
  · have hle : path.length ≤ (withoutLeading path).length+1 := by
      rw [withoutLeading]
      split
      · rw [List.length_tail]
        omega
      · omega
    rw [h] at hle
    exact hle

theorem names_spec {path : Path} (hpath : path ≠ ['/']) (hne : path ≠ [])
    (hend : ¬ ['/','/'] <:+ path) :
    names path = (kUtilPathStrip path).splitOn '/' := by
  have hstrip := strip_spec hpath hne hend
  obtain ⟨c,cs,hsplit⟩ := List.exists_cons_of_ne_nil (List.splitOn_ne_nil '/' (kUtilPathStrip path))
  have hjoined : kUtilPathStrip path = c++joined cs := by
    rw [append_joined,← hsplit,List.intercalate_splitOn]
  rw [hsplit]
  refine names_of_strip hpath (hsplit ▸ splitOn_clean _) (fun _ hlast => hstrip.last ?_) hjoined
  obtain ⟨l,rfl⟩ := List.getLast?_eq_some_iff.mp hlast
  rw [hjoined,joined_append,← List.append_assoc,List.getLast?_append]
  rfl

theorem names_solid {path : Path} (hne : path ≠ []) (hend : ¬ ['/','/'] <:+ path) :
    (names path).filter solid = (path.splitOn '/').filter solid := by
  by_cases hpath : path = ['/']
  · rw [hpath]
    decide
  · rw [names_spec hpath hne hend,(strip_spec hpath hne hend).solid_eq]

theorem names_nil {path : Path} (hne : path ≠ []) (hend : ¬ ['/','/'] <:+ path)
    (hnil : [] ∈ names path) :
    ['/','/'] <:+: path := by
  have hpath : path ≠ ['/'] := fun h => by
    rw [h] at hnil
    cases hnil
  have hstrip := strip_spec hpath hne hend
  rw [names_spec hpath hne hend] at hnil
  obtain ⟨c,cs,hsplit⟩ := List.exists_cons_of_ne_nil (List.splitOn_ne_nil '/' (kUtilPathStrip path))
  have hjoined : kUtilPathStrip path = c++joined cs := by
    rw [append_joined,← hsplit,List.intercalate_splitOn]
  rw [hsplit] at hnil
  rcases List.mem_cons.mp hnil with rfl | hcs
  · refine hstrip.head ?_
    have hs := hstrip.ne_nil
    rw [hjoined,List.nil_append] at hs ⊢
    cases cs with
    | nil => exact absurd rfl hs
    | cons c cs => rfl
  · obtain ⟨l,l',rfl⟩ := List.append_of_mem hcs
    cases l' with
    | nil =>
      refine absurd ?_ hstrip.last
      rw [hjoined,joined_append,← List.append_assoc,List.getLast?_append]
      rfl
    | cons c' l' =>
      refine List.IsInfix.trans ⟨c++joined l,c'++joined l',?_⟩ hstrip.isInfix
      rw [hjoined,joined_append]
      simp [joined]

theorem names_clean {path seg : Path} (h : seg ∈ names path) : '/' ∉ seg := by
  have hsome : some seg ∈ segments path := by
    rw [segments_eq]
    exact List.mem_map_of_mem h
  obtain ⟨i,-,hseg⟩ := List.mem_map.mp hsome
  obtain ⟨iter,-,rfl⟩ := Option.map_eq_some_iff.mp hseg
  exact fun hslash => by simpa using List.all_eq_true.mp List.all_takeWhile _ hslash

theorem joinLoop_string (l : List Path) : ∀ b : StringBuffer,
    (joinLoop l b).string = b.string++['/'].intercalate (l.map (List.take 255)) := by
  induction l with
  | nil => exact fun b => (List.append_nil _).symm
  | cons seg rest ih =>
    intro b
    cases rest with
    | nil => simp [joinLoop,StringBuffer.strncat]
    | cons seg' rest =>
      rw [joinLoop,ih,List.map_cons,List.map_cons,List.map_cons,List.intercalate_cons_cons]
      · simp [StringBuffer.strncat]
      · simp

theorem joinLoop_written (l : List Path) : ∀ b : StringBuffer, b.written = b.string.length+1 →
    (joinLoop l b).written = (joinLoop l b).string.length+1 := by
  have hcat : ∀ (b : StringBuffer) (s : Path) (n : ℕ), b.written = b.string.length+1 →
      (b.strncat s n).written = (b.strncat s n).string.length+1 := by
    intro b s n hb
    rw [StringBuffer.strncat,List.length_append,hb]
    dsimp only
    omega
  induction l with
  | nil => exact fun b hb => hb
  | cons seg rest ih =>
    intro b hb
    cases rest with
    | nil => exact hcat b seg 255 hb
    | cons seg' rest => exact ih _ (hcat _ _ _ (hcat _ _ _ hb))

theorem canonize_string (root relative : Path) : kUtilPathCanonize root relative =
    '/' :: ['/'].intercalate ((canonizeStack root relative).map (List.take 255)) := by
  rw [kUtilPathCanonize,canonizeBuffer]
  split
  · rename_i hroot
    obtain ⟨rfl,rfl⟩ := hroot
    rfl
  · exact joinLoop_string _ _

theorem canonizeStack_clean (root relative : Path) :
    ∀ seg ∈ canonizeStack root relative, '/' ∉ seg := by
  intro seg hseg
  rw [canonizeStack_eq] at hseg
  obtain ⟨path,-,hnames⟩ := List.mem_flatMap.mp (Cancelling.left_subset _ hseg)
  exact names_clean hnames

/-- Only no component and an empty one are the same between slashes. -/
theorem intercalate_eq_iff {l cs : List Path} (hl : ∀ seg ∈ l, '/' ∉ seg) (hcs : Names cs) :
    ['/'].intercalate l = ['/'].intercalate cs ↔ l = cs ∨ (l = [[]] ∧ cs = []) := by
  have hclean : ∀ c ∈ cs, '/' ∉ c := fun c hc => (hcs c hc).2
  constructor
  · intro heq
    by_cases hcs' : cs = []
    · by_cases hl' : l = []
      · exact .inl (hl'.trans hcs'.symm)
      · have hsplit := List.splitOn_intercalate '/' hl hl'
        rw [heq,hcs',List.intercalate_nil,List.splitOn_nil] at hsplit
        exact .inr ⟨hsplit.symm,hcs'⟩
    · have hsplit := List.splitOn_intercalate '/' hclean hcs'
      by_cases hl' : l = []
      · rw [← heq,hl',List.intercalate_nil,List.splitOn_nil] at hsplit
        exact absurd rfl (hcs [] (hsplit ▸ List.mem_cons_self)).1
      · rw [← heq,List.splitOn_intercalate '/' hl hl'] at hsplit
        exact .inl hsplit
  · rintro (rfl | ⟨rfl,rfl⟩) <;> rfl

theorem length_lt_absolute {cs : List Path} {c : Path} (h : c ∈ cs) :
    c.length < (absolute cs).length := by
  obtain ⟨l,l',rfl⟩ := List.append_of_mem h
  rw [absolute,if_neg (by simp),joined_append,joined,List.length_append,List.length_cons,
    List.length_append]
  omega

/-- The function writes a path that fits just if the stack holds its components. -/
theorem canonize_eq_iff {root relative : Path} {cs : List Path} (hcs : Names cs)
    (hfits : (absolute cs).length < 255) :
    kUtilPathCanonize root relative = absolute cs ↔
      canonizeStack root relative = cs ∨ (canonizeStack root relative = [[]] ∧ cs = []) := by
  have hshort : ∀ c ∈ cs, c.length < 255 := fun c hc => (length_lt_absolute hc).trans hfits
  have hclean : ∀ seg ∈ (canonizeStack root relative).map (List.take 255), '/' ∉ seg := by
    intro seg hseg
    obtain ⟨seg',hseg',rfl⟩ := List.mem_map.mp hseg
    exact fun hslash => canonizeStack_clean root relative seg' hseg' (List.mem_of_mem_take hslash)
  -- a segment that is cut is longer than the path
  have hcut : ∀ l : List Path, l.map (List.take 255) = cs ↔ l = cs := by
    intro l
    constructor
    · intro heq
      refine Eq.trans (Eq.symm ?_) heq
      refine (List.map_congr_left fun seg hseg => ?_).trans (List.map_id l)
      have hlt := hshort (seg.take 255) (heq ▸ List.mem_map_of_mem hseg)
      rw [List.length_take] at hlt
      exact List.take_of_length_le (by omega)
    · rintro rfl
      exact (List.map_congr_left fun seg hseg =>
        List.take_of_length_le (hshort seg hseg).le).trans (List.map_id _)
  have hempty : ∀ l : List Path, l.map (List.take 255) = [[]] ↔ l = [[]] := by
    intro l
    constructor
    · intro heq
      obtain ⟨seg,rfl,hseg⟩ := List.map_eq_singleton_iff.mp heq
      rcases List.take_eq_nil_iff.mp hseg with h | h
      · cases h
      · rw [h]
    · rintro rfl
      rfl
  rw [canonize_string,absolute_eq,List.cons_inj_right,intercalate_eq_iff hclean hcs,hcut,hempty]

theorem normalForm_eq (root relative : Path) : normalForm root relative =
    absolute (Cancelling.left effect
      (((looked root relative).flatMap (·.splitOn '/')).filter solid)) := by
  rw [normalForm,← resolve_eq,looked]
  congr 2
  by_cases hnil : relative = []
  · subst hnil
    simp [components]
  · rw [if_neg hnil]
    by_cases hhead : relative.head? = some '/'
    · rw [if_pos hhead,if_pos hhead,List.flatMap_singleton,components]
    · rw [if_neg hhead,if_neg hhead,List.flatMap_cons,List.flatMap_singleton,List.filter_append,
        components,components]

theorem canonize_absolute {cs : List Path} (hcs : Names cs) (hput : ∀ c ∈ cs, effect c = .put)
    (hfits : (absolute cs).length < 255) : kUtilPathCanonize (absolute cs) [] = absolute cs := by
  refine (canonize_eq_iff hcs hfits).mpr (.inl ?_)
  rw [canonizeStack_eq,looked,if_pos rfl,List.flatMap_singleton,names_absolute hcs,
    (Cancelling.left_of_put hput).2]

theorem looked_ne_nil {root relative path : Path} (hroot : root.head? = some '/')
    (h : path ∈ looked root relative) :
    path ≠ [] := by
  have hne : root ≠ [] := fun h => by
    rw [h] at hroot
    cases hroot
  rw [looked] at h
  split at h
  · rwa [List.mem_singleton.mp h]
  · rename_i hrel
    split at h
    · rwa [List.mem_singleton.mp h]
    · rcases List.mem_cons.mp h with rfl | h
      · exact hne
      · rwa [List.mem_singleton.mp h]

/-- The segments of the strings that are looked at. -/
def lookedSegments (root relative : Path) : List Path := (looked root relative).flatMap names

/-- For an absolute root and a result that fits: if no string that is looked at ends in two
slashes, the function returns the normal form, and the same again from there, just if the
empty segments are harmless, or only one of them is left; and so if there are no two slashes
behind one another at all. -/
theorem canonize_normal {root relative : Path} (hroot : root.head? = some '/')
    (hfits : (normalForm root relative).length < 255) :
    ((∀ path ∈ looked root relative, ¬ ['/','/'] <:+ path) →
      (kUtilPathCanonize root relative = normalForm root relative ∧
          kUtilPathCanonize (kUtilPathCanonize root relative) [] = kUtilPathCanonize root relative ↔
        Cancelling.Harmless effect solid (lookedSegments root relative) ∨
          Cancelling.left effect (lookedSegments root relative) = [[]])) ∧
    ((∀ path ∈ looked root relative, ¬ ['/','/'] <:+: path) →
      kUtilPathCanonize root relative = normalForm root relative ∧
        kUtilPathCanonize (kUtilPathCanonize root relative) [] =
        kUtilPathCanonize root relative) := by
  have hne : ∀ path ∈ looked root relative, path ≠ [] := fun path => looked_ne_nil hroot
  set cs :=
    Cancelling.left effect (((looked root relative).flatMap (·.splitOn '/')).filter solid) with hdef
  rw [normalForm_eq,← hdef] at hfits ⊢
  have hcs : Names cs := by
    intro c hc
    obtain ⟨hmem,hsolid⟩ := List.mem_filter.mp (Cancelling.left_subset _ hc)
    obtain ⟨path,-,hpiece⟩ := List.mem_flatMap.mp hmem
    exact ⟨by simpa [solid] using hsolid,splitOn_clean path c hpiece⟩
  have hput : ∀ c ∈ cs, effect c = .put := Cancelling.effect_left _
  have hagain : kUtilPathCanonize root relative = absolute cs →
      kUtilPathCanonize (kUtilPathCanonize root relative) [] =
      kUtilPathCanonize root relative := fun h => by
    rw [h,canonize_absolute hcs hput hfits]
  have hiff : (∀ path ∈ looked root relative, ¬ ['/','/'] <:+ path) →
    (kUtilPathCanonize root relative = absolute cs ↔
      Cancelling.Harmless effect solid (lookedSegments root relative) ∨
        Cancelling.left effect (lookedSegments root relative) = [[]]) := by
    intro hend
    have hreal : cs = Cancelling.left effect ((lookedSegments root relative).filter solid) := by
      rw [hdef,lookedSegments,List.filter_flatMap,List.filter_flatMap]
      congr 1
      refine List.flatMap_congr fun path hpath => ?_
      exact (names_solid (hne path hpath) (hend path hpath)).symm
    have hunreal : ∀ seg ∈ lookedSegments root relative, solid seg = false →
      effect seg = .put := fun _ _ => effect_of_not_solid
    rw [canonize_eq_iff hcs hfits,canonizeStack_eq,← lookedSegments,hreal,
      Cancelling.left_eq_iff hunreal]
    refine or_congr_right ⟨fun h => h.1,fun hleft => ⟨hleft,?_⟩⟩
    -- of one empty segment no component is left
    have hsub := (Cancelling.real_le hunreal).2
    rw [hleft] at hsub
    rw [← hreal] at hsub ⊢
    refine List.eq_nil_iff_forall_not_mem.mpr fun c hc => (hcs c hc).1 ?_
    exact List.mem_singleton.mp (hsub.subset hc)
  refine ⟨fun hend => (and_iff_left_of_imp hagain).trans (hiff hend),fun hno => ?_⟩
  have hend : ∀ path ∈ looked root relative, ¬ ['/','/'] <:+ path := fun path hpath h =>
    hno path hpath h.isInfix
  have hnormal : kUtilPathCanonize root relative = absolute cs := by
    refine (hiff hend).mpr (.inl (Cancelling.harmless_of_real fun seg hseg => ?_))
    obtain ⟨path,hpath,hnames⟩ := List.mem_flatMap.mp hseg
    by_contra hsolid
    obtain rfl : seg = [] := by simpa [solid] using hsolid
    exact hno path hpath (names_nil (hne path hpath) (hend path hpath) hnames)
  exact ⟨hnormal,hagain hnormal⟩

/-- A working directory, and a path through it. -/
theorem canonize_normal_dots :
    kUtilPathCanonize "/usr/lib/".toList "./x/../../bin".toList = "/usr/bin".toList ∧
    kUtilPathCanonize "/usr/bin".toList [] = "/usr/bin".toList := by
  have hform : normalForm "/usr/lib/".toList "./x/../../bin".toList = "/usr/bin".toList := by
    decide +kernel
  have hroot : "/usr/lib/".toList.head? = some '/' := by decide
  have hfits : (normalForm "/usr/lib/".toList "./x/../../bin".toList).length < 255 := by
    rw [hform]
    decide
  have h := (canonize_normal hroot hfits).2 (by decide +kernel)
  rw [hform] at h
  exact ⟨h.1,by rw [← h.1]; exact h.2⟩

/-- Two slashes stay in the path, and a string that ends in two slashes has its last segment
twice. -/
theorem canonize_slashes : ¬ ∀ root relative : Path, root.head? = some '/' →
    (normalForm root relative).length < 255 →
    kUtilPathCanonize root relative = normalForm root relative := by
  intro hall
  have h := hall "/".toList "a//b".toList (by decide) (by decide +kernel)
  exact absurd h (by decide +kernel)

/-- The buffer that `__sys_to_fullpath` has filled, if there is one. -/
def sysToFullpath (wd path : Path) : Option StringBuffer :=
  if path.head? ≠ some '/' then canonizeBuffer wd path else canonizeBuffer path []

/-- The segments that go into a full path. -/
def fullpathSegments (wd path : Path) : List Path :=
  if path.head? ≠ some '/' then lookedSegments wd path else lookedSegments path []

/-- What segments need in the buffer, each with a slash, and none with more than 255 characters. -/
def room (segs : List Path) : ℕ := (segs.map fun seg => (seg.take 255).length+1).sum

theorem length_intercalate {l : List Path} (h : l ≠ []) :
    (['/'].intercalate l).length+1 = (l.map fun seg => seg.length+1).sum := by
  obtain ⟨c,cs,rfl⟩ := List.exists_cons_of_ne_nil h
  rw [← append_joined,List.length_append,List.map_cons,List.sum_cons]
  have hjoined : (joined cs).length = (cs.map fun seg => seg.length+1).sum := by
    induction cs with
    | nil => rfl
    | cons c' cs ih =>
      rw [joined,List.length_cons,List.length_append,ih (List.cons_ne_nil _ _),
        List.map_cons,List.sum_cons]
      omega
  omega

theorem written_le_iff (root relative : Path) :
    (∀ b ∈ canonizeBuffer root relative, b.written ≤ 255) ↔
    room (Cancelling.left effect (lookedSegments root relative)) ≤ 254 := by
  rw [canonizeBuffer]
  split
  · rename_i hroot
    obtain ⟨rfl,rfl⟩ := hroot
    exact iff_of_true (fun b hb => by cases hb) (by decide)
  · simp only [Option.mem_some_iff,forall_eq']
    rw [joinLoop_written _ _ rfl,joinLoop_string,canonizeStack_eq,← lookedSegments,room,
      StringBuffer.strcpy]
    by_cases hnil : Cancelling.left effect (lookedSegments root relative) = []
    · rw [hnil]
      exact iff_of_true (by decide) (by decide)
    · have hlength :=
        length_intercalate (l:=(Cancelling.left effect (lookedSegments root relative)).map
          (List.take 255))
        (by simpa using hnil)
      rw [List.map_map] at hlength
      change _ = ((Cancelling.left effect (lookedSegments root relative)).map fun seg =>
        (seg.take 255).length+1).sum at hlength
      rw [List.length_append,List.length_singleton]
      omega

/-- The function stays inside the 255 bytes just if the segments that no `..` takes back need
no more than 254 of them. -/
theorem fullpath_buffer (wd path : Path) : (∀ b ∈ sysToFullpath wd path, b.written ≤ 255) ↔
    room (Cancelling.left effect (fullpathSegments wd path)) ≤ 254 := by
  rw [sysToFullpath,fullpathSegments]
  split
  · exact written_le_iff wd path
  · exact written_le_iff path []

/-- A name of 300 characters. -/
theorem fullpath_buffer_overrun : ¬ ∀ wd path : Path, path ≠ [] → ∀ b ∈ sysToFullpath wd path,
    b.written ≤ 255 := by
  intro hall
  have hroom := hall ['/'] (List.replicate 300 'a') (by decide)
  rw [sysToFullpath,if_pos (by decide),written_le_iff] at hroom
  exact absurd hroom (by decide +kernel)

/-- The components of a path: what its slashes separate, after one in front and one at the end
have been taken away. -/
def parts (path : Path) : List Path := (withoutTrailing (withoutLeading path)).splitOn '/'

theorem strip_parts {path : Path} (hparts : [] ∉ parts path) :
    path ≠ ['/'] ∧ ['/'].intercalate (parts path) = kUtilPathStrip path := by
  have hroot : path ≠ ['/'] := fun h => hparts (by rw [h]; decide)
  rw [kUtilPathStrip,if_neg hroot,parts,List.intercalate_splitOn]
  exact ⟨hroot,rfl⟩

theorem names_parts {path : Path} (hparts : [] ∉ parts path) : names path = parts path := by
  obtain ⟨hroot,hjoin⟩ := strip_parts hparts
  obtain ⟨c,cs,hsplit⟩ :=
    List.exists_cons_of_ne_nil (List.splitOn_ne_nil '/' (withoutTrailing (withoutLeading path)))
  rw [← parts] at hsplit
  rw [hsplit,← append_joined] at hjoin
  have hlast : cs.getLast? ≠ some [] := fun h =>
    hparts (hsplit ▸ List.mem_cons_of_mem c (List.mem_of_getLast? h))
  rw [hsplit]
  exact names_of_strip hroot (hsplit ▸ splitOn_clean _) (fun _ => hlast) hjoin.symm

/-- Counting, indexing and stripping agree on the components of a path. -/
theorem segments_parts {path : Path} (hparts : [] ∉ parts path) :
    kUtilPathLength path = (parts path).length ∧
      (∀ i, i < kUtilPathLength path → kUtilPathSegment path i = (parts path)[i]?) ∧
      ['/'].intercalate (names path) = kUtilPathStrip path := by
  have hnames := names_parts hparts
  have hsegments := segments_eq path
  have hlength : kUtilPathLength path = (parts path).length := by
    simpa [segments,hnames] using congrArg List.length hsegments
  refine ⟨hlength,fun i hi => ?_,hnames ▸ (strip_parts hparts).2⟩
  have hsegment := congrArg (·[i]?) hsegments
  have hpart : i < (parts path).length := hlength ▸ hi
  simpa [segments,hi,hnames,hpart] using hsegment

/-- `/abc/ade/` has two components. -/
theorem segments_parts_two : kUtilPathLength ['/','a','b','c','/','a','d','e','/'] = 2 ∧
    (∀ i, i < 2 → kUtilPathSegment ['/','a','b','c','/','a','d','e','/'] i =
      [['a','b','c'],['a','d','e']][i]?) ∧
    ['/'].intercalate (names ['/','a','b','c','/','a','d','e','/']) =
    ['a','b','c','/','a','d','e'] :=
  @segments_parts ['/','a','b','c','/','a','d','e','/'] (by decide)

end Path
end ScalesOS
