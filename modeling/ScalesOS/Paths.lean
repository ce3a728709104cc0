import ScalesOS.Machine

/-!
# Paths

`kernel/src/util/path.c`, as far as files are looked up by it. A string is the list of its
characters, without the terminator.
-/

namespace ScalesOS

abbrev Path := List Char

def pathOfBytes (bytes : List (BitVec 8)) : Path :=
  (bytes.takeWhile (· ≠ 0)).map fun c => Char.ofNat c.toNat

/-- An entry of a directory, as `readdir` gives it. -/
structure Dirent where
  name : Path
  ino : ℕ
  deriving DecidableEq

namespace Path

/-- `strcspn(s, "/")`. -/
def strcspn (s : Path) : ℕ := (s.takeWhile (· ≠ '/')).length

def withoutLeading (p : Path) : Path := if p.head? = some '/' then p.tail else p

def withoutTrailing (p : Path) : Path := if p.getLast? = some '/' then p.dropLast else p

/-- A leading slash and a trailing one are dropped. Of the empty string the source would
look at the byte before it. -/
def kUtilPathStrip (p : Path) : Path := if p = ['/'] then p else withoutTrailing (withoutLeading p)

def kUtilPathLength (path : Path) : ℕ :=
  if path = ['/'] then 0 else (kUtilPathStrip path).count '/'+1

/-- The loop of `k_util_path_segment`: where the segment begins that is `n` segments after
`iter`. If the string ends, the last step does not move on. -/
def segmentLoop (s : Path) : ℕ → ℕ → Option ℕ
  | 0, iter => some iter
  | n+1, iter =>
    let l := strcspn (s.drop iter)
    if iter+l+1 ≥ s.length then (if n = 0 then some iter else none)
    else segmentLoop s n (iter+l+1)

def kUtilPathSegment (path : Path) (seg : ℕ) : Option Path :=
  let s := kUtilPathStrip path
  (segmentLoop s seg 0).map fun iter => (s.drop iter).takeWhile (· ≠ '/')

def kUtilPathFilename (path : Path) : Option Path :=
  if path = ['/'] then some path
  else if kUtilPathLength path = 0 then none
  else kUtilPathSegment path (kUtilPathLength path-1)

/-- The segments that a loop over a path sees. -/
def segments (path : Path) : List (Option Path) :=
  (List.range (kUtilPathLength path)).map (kUtilPathSegment path)

theorem strcspn_spec (s : Path) : '/' ∉ s.take (strcspn s) ∧
    (strcspn s < s.length → s[strcspn s]? = some '/') := by
  rw [strcspn]
  induction s with
  | nil => simp
  | cons c s ih =>
    by_cases hc : c = '/'
    · simp [hc]
    · have htake : (c :: s).takeWhile (· ≠ '/') = c :: s.takeWhile (· ≠ '/') := by simp [hc]
      rw [htake,List.length_cons,List.take_succ_cons,List.length_cons]
      refine ⟨?_,fun hlt => ?_⟩
      · rw [List.mem_cons,not_or]
        exact ⟨fun h => hc h.symm,ih.1⟩
      · rw [List.getElem?_cons_succ]
        exact ih.2 (by omega)

theorem count_drop_strcspn (s : Path) : (s.drop (strcspn s+1)).count '/' = s.count '/'-1 ∧
    (s.length ≤ strcspn s+1 → s.count '/' ≤ 1) := by
  obtain ⟨hnot,hslash⟩ := strcspn_spec s
  have hsplit : s.count '/' = (s.drop (strcspn s)).count '/' := by
    conv_lhs => rw [← List.take_append_drop (strcspn s) s]
    rw [List.count_append,List.count_eq_zero_of_not_mem hnot,Nat.zero_add]
  by_cases hlt : strcspn s < s.length
  · have hget : s[strcspn s] = '/' := by
      have h := hslash hlt
      rw [List.getElem?_eq_getElem hlt] at h
      exact Option.some.inj h
    rw [hsplit,List.drop_eq_getElem_cons hlt,hget,List.count_cons_self]
    refine ⟨rfl,fun hle => ?_⟩
    rw [List.drop_eq_nil_of_le (by omega)]
    simp
  · rw [List.drop_eq_nil_of_le (by omega)] at hsplit
    rw [List.drop_eq_nil_of_le (by omega),hsplit]
    simp

theorem segmentLoop_isSome (s : Path) (n : ℕ) : ∀ iter, n ≤ (s.drop iter).count '/' →
    (segmentLoop s n iter).isSome := by
  induction n with
  | zero => exact fun _ _ => rfl
  | succ n ih =>
    intro iter hn
    obtain ⟨hcount,hlast⟩ := count_drop_strcspn (s.drop iter)
    rw [segmentLoop]
    split
    · rename_i hend
      rw [List.length_drop] at hlast
      have hle := hlast (by omega)
      rw [if_pos (by omega)]
      rfl
    · refine ih _ ?_
      rw [List.drop_drop,← Nat.add_assoc] at hcount
      omega

theorem segment_isSome {path : Path} {i : ℕ} (hi : i < kUtilPathLength path) :
    (kUtilPathSegment path i).isSome := by
  rw [kUtilPathLength] at hi
  split at hi
  · omega
  · rw [kUtilPathSegment,Option.isSome_map]
    exact segmentLoop_isSome _ _ _ (by rw [List.drop_zero]; omega)

/-- The names on the way of a path. -/
def names (path : Path) : List Path := (segments path).filterMap id

theorem segments_eq (path : Path) : segments path = (names path).map some := by
  have hall : ∀ x ∈ segments path, x.isSome := by
    intro x hx
    obtain ⟨i,hi,rfl⟩ := List.mem_map.mp hx
    exact segment_isSome (List.mem_range.mp hi)
  rw [names]
  generalize segments path = l at hall
  induction l with
  | nil => rfl
  | cons x l ih =>
    obtain ⟨y,rfl⟩ := Option.isSome_iff_exists.mp (hall _ List.mem_cons_self)
    rw [List.filterMap_cons_some (f:=id) (a:=some y) (b:=y) rfl,List.map_cons,← ih fun z hz =>
      hall z (List.mem_cons_of_mem _ hz)]

theorem filename_eq {path : Path} (h : path ≠ ['/']) :
    kUtilPathFilename path = (names path).getLast? ∧ names path ≠ [] := by
  have hlen : kUtilPathLength path = (kUtilPathStrip path).count '/'+1 := if_neg h
  have hsegments :
      (segments path).getLast? =
      some (kUtilPathSegment path ((kUtilPathStrip path).count '/')) := by
    rw [segments,hlen,List.range_succ,List.map_append,List.map_singleton,List.getLast?_append]
    rfl
  rw [segments_eq,List.getLast?_map] at hsegments
  rw [kUtilPathFilename,if_neg h,if_neg (by omega),hlen,Nat.add_sub_cancel]
  cases hlast : (names path).getLast? with
  | none =>
    rw [hlast] at hsegments
    cases hsegments
  | some f =>
    rw [hlast] at hsegments
    refine ⟨(Option.some.inj hsegments).symm,fun hnil => ?_⟩
    rw [hnil] at hlast
    cases hlast

@[simp] theorem names_root : names ['/'] = [] := rfl

def joined : List Path → Path
  | [] => []
  | c :: cs => '/' :: (c++joined cs)

/-- The absolute path of some names. -/
def absolute (cs : List Path) : Path := if cs = [] then ['/'] else joined cs

/-- Names of files. -/
def Names (cs : List Path) : Prop := ∀ c ∈ cs, c ≠ [] ∧ '/' ∉ c

instance (cs : List Path) : Decidable (Names cs) :=
  inferInstanceAs (Decidable (∀ c ∈ cs, c ≠ [] ∧ '/' ∉ c))

theorem joined_last {cs : List Path} (h : Names cs) (c : Path) (hc : c ≠ [] ∧ '/' ∉ c) :
    (c++joined cs).getLast? ≠ some '/' := by
  induction cs generalizing c with
  | nil =>
    rw [joined,List.append_nil]
    exact fun hlast => hc.2 (List.mem_of_getLast? hlast)
  | cons c' cs ih =>
    have hrest := ih (fun x hx => h x (List.mem_cons_of_mem _ hx)) c' (h c' List.mem_cons_self)
    have hne : c'++joined cs ≠ [] := fun hnil =>
      (h c' List.mem_cons_self).1 (List.append_eq_nil_iff.mp hnil).1
    obtain ⟨x,l,hx⟩ := List.exists_cons_of_ne_nil hne
    rw [joined,hx]
    rw [hx] at hrest
    rwa [List.getLast?_append_cons,List.getLast?_cons_cons]

theorem count_joined {cs : List Path} (h : ∀ c ∈ cs, '/' ∉ c) :
    (joined cs).count '/' = cs.length := by
  induction cs with
  | nil => rfl
  | cons c cs ih =>
    rw [joined,List.count_cons_self,List.count_append,
      List.count_eq_zero_of_not_mem (h c List.mem_cons_self),
      ih fun x hx => h x (List.mem_cons_of_mem _ hx),List.length_cons]
    omega

theorem strip_absolute {c : Path} {cs : List Path} (h : Names (c :: cs)) :
    kUtilPathStrip (absolute (c :: cs)) = c++joined cs := by
  have hc := h c List.mem_cons_self
  have hne : joined (c :: cs) ≠ ['/'] := by
    rw [joined]
    intro heq
    exact hc.1 (List.append_eq_nil_iff.mp (List.cons.inj heq).2).1
  have hlead : withoutLeading (joined (c :: cs)) = c++joined cs := if_pos rfl
  rw [absolute,if_neg (List.cons_ne_nil _ _),kUtilPathStrip,if_neg hne,hlead]
  exact if_neg (joined_last (fun x hx => h x (List.mem_cons_of_mem _ hx)) c hc)

theorem takeWhile_joined {c : Path} (hc : '/' ∉ c) (cs : List Path) :
    (c++joined cs).takeWhile (· ≠ '/') = c := by
  have hall : ∀ x ∈ c, (decide (x ≠ '/')) = true := fun x hx => by
    rw [decide_eq_true_eq]
    exact fun heq => hc (heq ▸ hx)
  rw [List.takeWhile_append_of_pos hall]
  cases cs with
  | nil => rw [joined,List.takeWhile_nil,List.append_nil]
  | cons c' cs => simp [joined]

/-- Every segment of a string is found, unless the last one is empty. -/
theorem segmentLoop_joined {s : Path} (cs : List Path) : ∀ (c : Path)
    (iter : ℕ), (∀ x ∈ c :: cs, '/' ∉ x) →
    (cs ≠ [] → cs.getLast? ≠ some []) → s.drop iter = c++joined cs → ∀ n
    (hn : n < (c :: cs).length),
      ((segmentLoop s n iter).map fun i => (s.drop i).takeWhile (· ≠ '/')) =
      some ((c :: cs)[n]) := by
  induction cs with
  | nil =>
    intro c iter h _ hdrop n hn
    obtain rfl : n = 0 := by simpa using hn
    rw [segmentLoop,Option.map_some,hdrop,takeWhile_joined (h c List.mem_cons_self)]
    rfl
  | cons c' cs ih =>
    intro c iter h hlast hdrop n hn
    have hc := h c List.mem_cons_self
    cases n with
    | zero =>
      rw [segmentLoop,Option.map_some,hdrop,takeWhile_joined hc]
      rfl
    | succ n =>
      have hl : strcspn (s.drop iter) = c.length := by
        rw [strcspn,hdrop,takeWhile_joined hc]
      have hlen : s.length-iter = c.length+1+(c'.length+(joined cs).length) := by
        rw [← List.length_drop,hdrop,joined,List.length_append,List.length_cons,List.length_append]
        omega
      -- something comes behind the slash
      have hpos : 0 < c'.length+(joined cs).length := by
        cases cs with
        | nil => exact Nat.lt_add_right _ (List.length_pos_of_ne_nil fun hnil =>
          hlast (List.cons_ne_nil _ _) (by rw [hnil]; rfl))
        | cons c'' cs =>
          rw [joined,List.length_cons]
          omega
      have hnext : s.drop (iter+c.length+1) = c'++joined cs := by
        rw [Nat.add_assoc,← List.drop_drop,hdrop,joined,List.drop_append,
          List.drop_eq_nil_of_le (by omega)]
        simp
      rw [segmentLoop,hl,if_neg (by omega)]
      refine ih c' _ (fun x hx => h x (List.mem_cons_of_mem _ hx)) (fun hne =>
        ?_) hnext n (by simpa using hn)
      obtain ⟨c'',cs,rfl⟩ := List.exists_cons_of_ne_nil hne
      exact hlast (List.cons_ne_nil _ _)

theorem names_of_strip {path c : Path} {cs : List Path} (hpath : path ≠ ['/'])
    (h : ∀ x ∈ c :: cs, '/' ∉ x)
    (hlast : cs ≠ [] → cs.getLast? ≠ some []) (hstrip : kUtilPathStrip path = c++joined cs) :
    names path = c :: cs := by
  have hlen : kUtilPathLength path = (c :: cs).length := by
    rw [kUtilPathLength,if_neg hpath,hstrip,List.count_append,
      List.count_eq_zero_of_not_mem (h c List.mem_cons_self),
      count_joined fun x hx => h x (List.mem_cons_of_mem _ hx)]
    simp
  have hmap : (names path).map some = (c :: cs).map some := by
    rw [← segments_eq,segments,hlen]
    refine List.ext_getElem (by simp) fun n hn _ => ?_
    have hn' : n < (c :: cs).length := by simpa using hn
    rw [List.getElem_map,List.getElem_range,List.getElem_map,kUtilPathSegment,hstrip]
    exact segmentLoop_joined cs c 0 h hlast rfl n hn'
  exact List.map_injective_iff.mpr (Option.some_injective _) hmap

theorem names_absolute {cs : List Path} (h : Names cs) : names (absolute cs) = cs := by
  cases cs with
  | nil => rfl
  | cons c cs =>
    have hne : absolute (c :: cs) ≠ ['/'] := by
      rw [absolute,if_neg (List.cons_ne_nil _ _),joined]
      intro heq
      exact (h c List.mem_cons_self).1 (List.append_eq_nil_iff.mp (List.cons.inj heq).2).1
    refine names_of_strip hne (fun x hx => (h x hx).2) (fun hcs hlast => ?_) (strip_absolute h)
    exact (h [] (List.mem_cons_of_mem _ (List.mem_of_getLast? hlast))).1 rfl

theorem strip_of_not_mem {p : Path} (h : '/' ∉ p) : kUtilPathStrip p = p := by
  have hhead : p.head? ≠ some '/' := fun heq => h (List.mem_of_mem_head? heq)
  have hlast : p.getLast? ≠ some '/' := fun heq => h (List.mem_of_getLast? heq)
  rw [kUtilPathStrip,withoutLeading,if_neg hhead,withoutTrailing,if_neg hlast,ite_self]

theorem names_single {p : Path} (h : '/' ∉ p) : names p = [p] := by
  refine names_of_strip (fun heq => h (heq ▸ List.mem_singleton_self _)) (fun x hx =>
    ?_) (fun hne => absurd rfl hne) ?_
  · rwa [List.mem_singleton.mp hx]
  · rw [strip_of_not_mem h,joined,List.append_nil]

theorem filename_single {p : Path} (h : '/' ∉ p) : kUtilPathFilename p = some p := by
  have hne : p ≠ ['/'] := fun heq => h (heq ▸ List.mem_singleton_self _)
  rw [(filename_eq hne).1,names_single h]
  rfl

def relative : List Path → Path
  | [] => []
  | c :: cs => c++joined cs

theorem joined_append (cs ds : List Path) : joined (cs++ds) = joined cs++joined ds := by
  induction cs with
  | nil => rfl
  | cons c cs ih => rw [List.cons_append,joined,joined,ih,List.cons_append,List.append_assoc]

theorem relative_append {cs : List Path} (hne : cs ≠ []) (c : Path) :
    relative (cs++[c]) = relative cs++ '/' :: c := by
  obtain ⟨d,ds,rfl⟩ := List.exists_cons_of_ne_nil hne
  rw [List.cons_append,relative,relative,joined_append,joined,joined,List.append_nil,
    List.append_assoc]

section
variable {cs ds : List Path} {name : Path}

theorem relative_ends (h : Names cs) (hne : cs ≠ []) :
    (relative cs).head? ≠ some '/' ∧ (relative cs).getLast? ≠ some '/' ∧
    relative cs ≠ [] := by
  obtain ⟨c,cs,rfl⟩ := List.exists_cons_of_ne_nil hne
  obtain ⟨hc,hslash⟩ := h c List.mem_cons_self
  obtain ⟨x,l,rfl⟩ := List.exists_cons_of_ne_nil hc
  refine ⟨fun hhead => ?_,joined_last (fun x hx => h x (List.mem_cons_of_mem _ hx)) (x::l) ⟨hc,
    hslash⟩,List.cons_ne_nil _ _⟩
  rw [relative,List.cons_append,List.head?_cons] at hhead
  exact hslash (by rw [Option.some.inj hhead]; exact List.mem_cons_self)

def IsRelative (name : Path) (cs : List Path) : Prop :=
  cs ≠ [] ∧ Names cs ∧ (name = relative cs ∨ name = relative cs++['/'])

theorem IsRelative.ne_nil (h : IsRelative name cs) : name ≠ [] := by
  obtain ⟨hne,hnames,rfl | rfl⟩ := h
  · exact (relative_ends hnames hne).2.2
  · exact List.append_ne_nil_of_right_ne_nil _ (List.cons_ne_nil _ _)

theorem IsRelative.strip (h : IsRelative name cs) : kUtilPathStrip name = relative cs := by
  obtain ⟨hne,hnames,hname⟩ := h
  obtain ⟨hhead,hlast,hpos⟩ := relative_ends hnames hne
  obtain ⟨x,l,hx⟩ := List.exists_cons_of_ne_nil hpos
  have hslash : x ≠ '/' := fun heq => hhead (by rw [hx,heq]; rfl)
  have hlead : withoutLeading name = name := by
    refine if_neg ?_
    rcases hname with rfl | rfl
    · exact hhead
    · rw [hx]
      exact fun heq => hslash (Option.some.inj heq)
  have hroot : name ≠ ['/'] := by
    rcases hname with rfl | rfl
    · rw [hx]
      exact fun heq => hslash (List.cons.inj heq).1
    · rw [hx]
      exact fun heq => hslash (List.cons.inj heq).1
  rw [kUtilPathStrip,if_neg hroot,hlead,withoutTrailing]
  rcases hname with rfl | rfl
  · exact if_neg hlast
  · rw [if_pos (by simp),List.dropLast_concat]

theorem IsRelative.names (h : IsRelative name cs) : names name = cs := by
  have hstrip := h.strip
  obtain ⟨hne,hnames,hname⟩ := h
  obtain ⟨c,cs,rfl⟩ := List.exists_cons_of_ne_nil hne
  refine names_of_strip (fun hroot => ?_) (fun x hx => (hnames x hx).2) (fun _ hlast => ?_) hstrip
  · rw [hroot] at hstrip
    have hhead := (relative_ends hnames hne).1
    rw [← hstrip] at hhead
    exact hhead rfl
  · exact (hnames [] (List.mem_cons_of_mem _ (List.mem_of_getLast? hlast))).1 rfl

theorem IsRelative.length (h : IsRelative name cs) : kUtilPathLength name = cs.length := by
  have hsegments := congrArg List.length (segments_eq name)
  rw [h.names,segments,List.length_map,List.length_map,List.length_range] at hsegments
  exact hsegments

theorem IsRelative.filename (h : IsRelative name cs) : kUtilPathFilename name = cs.getLast? := by
  have hroot : name ≠ ['/'] := fun hroot => h.1 (by rw [← h.names,hroot]; rfl)
  rw [(filename_eq hroot).1,h.names]

theorem IsRelative.of_names (hne : cs ≠ []) (hnames : Names cs) : IsRelative (relative cs) cs :=
  ⟨hne,hnames,.inl rfl⟩

theorem relative_inj (hcs : cs ≠ []) (hds : ds ≠ []) (hc : Names cs) (hd : Names ds)
    (h : relative cs = relative ds) : cs = ds := by
  rw [← (IsRelative.of_names hcs hc).names,h,(IsRelative.of_names hds hd).names]

end

end Path
end ScalesOS
