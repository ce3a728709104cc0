import ScalesOS.Tar

/-!
# Well-formed archives

The listing of a directory of an archive goes by the number of segments and by a prefix without a
slash behind it. It agrees with the lookup of names up to directories whose name begins another.
-/

namespace ScalesOS
open Storage ByteMemory ScalesOS.Path

namespace Tar
variable {dev : Device} {o : ℕ} {l : List ℕ} {fresh : List (BitVec 8)}
    {cs ps : List Path} {n : Path}

/-- The name in a header of the device. -/
def nameAt (dev : Device) (o : ℕ) : Path := pathOfBytes (load dev.byte o 100)

/-- The headers of an archive from an offset on. They are on the device as a whole, and have the
relative name of a file or a directory, with a zero at the end. There is no header at the end of
the device or where a zero is. -/
inductive Headers (dev : Device) : ℕ → List ℕ → Prop
  | ended {o : ℕ} : (o < dev.size → dev.byte o = 0) → Headers dev o []
  | cons {o : ℕ} {l : List ℕ} : o+HEADER_SIZE ≤ dev.size → (0 : BitVec 8) ∈ load dev.byte o 100 →
      (∃ cs, IsRelative (nameAt dev o) cs) → o+step (load dev.byte o HEADER_SIZE) < W32 →
      Headers dev (o+step (load dev.byte o HEADER_SIZE)) l → Headers dev o (o::l)

/-- An archive with headers at these offsets. No two names are the same up to slashes. -/
structure Archive (dev : Device) (l : List ℕ) : Prop where
  headers : Headers dev 0 l
  distinct : (l.map fun o => kUtilPathStrip (nameAt dev o)).Nodup

theorem takeWhile_append_of_mem {data rest : List (BitVec 8)} (h : (0 : BitVec 8) ∈ data) :
    (data++rest).takeWhile (· ≠ 0) = data.takeWhile (· ≠ 0) := by
  induction data with
  | nil => cases h
  | cons c data ih =>
    rw [List.cons_append,List.takeWhile_cons,List.takeWhile_cons]
    by_cases hc : c = 0
    · simp [hc]
    · rw [ih ((List.mem_cons.mp h).resolve_left fun heq => hc heq.symm)]

theorem filename_readHeader (hin : o+HEADER_SIZE ≤ dev.size)
    (hzero : (0 : BitVec 8) ∈ load dev.byte o 100)
    (fresh : List (BitVec 8)) : filename (readHeader dev fresh o) = nameAt dev o := by
  rw [filename,readHeader_eq hin,show HEADER_SIZE = 100+57 from rfl,load_add,
    List.append_assoc,pathOfBytes,takeWhile_append_of_mem hzero]
  rfl

theorem Headers.relative (h : Headers dev o l) : ∀ a ∈ l, ∃ cs, IsRelative (nameAt dev a) cs := by
  induction h with
  | ended _ => exact fun a ha => absurd ha List.not_mem_nil
  | cons _ _ hname _ _ ih =>
    intro a ha
    rcases List.mem_cons.mp ha with rfl | ha
    · exact hname
    · exact ih a ha

theorem Headers.filename (h : Headers dev o l) :
    ∀ a ∈ l, ∀ fresh, filename (readHeader dev fresh a) = nameAt dev a := by
  induction h with
  | ended _ => exact fun a ha => absurd ha List.not_mem_nil
  | cons hin hzero _ _ _ ih =>
    intro a ha
    rcases List.mem_cons.mp ha with rfl | ha
    · exact filename_readHeader hin hzero
    · exact ih a ha

theorem Headers.length_lt (h : Headers dev o l) (ho : o < W32) : 512*l.length+o < W32 := by
  induction h with
  | ended _ => simpa using ho
  | @cons o l _ _ _ hnext _ ih =>
    have hstep : 512 ≤ step (load dev.byte o HEADER_SIZE) := by
      rw [step]
      exact Nat.le_add_right_of_le (by rw [Nat.succ_mul]; exact Nat.le_add_left _ _)
    have hrest := ih hnext
    rw [List.length_cons]
    omega

section
variable {γ κ : Type} {wanted : List (BitVec 8) → Prop} [DecidablePred wanted]
    {found : List (BitVec 8) → ℕ → γ}
  {W : Path → Prop} [DecidablePred W] {key : γ → κ} {k : ℕ → κ}

/-- A walk that looks for names comes to all headers with such a name. -/
theorem Headers.trail (h : Headers dev o l)
    (hwanted : ∀ header, wanted header ↔ W (Tar.filename header))
    (hkey : ∀ header o, Tar.filename header = nameAt dev o → key (found header o) = k o) :
    Scans.Trail (look dev wanted found) (fun r d => r.map key = d) none o
      (l.map fun o => if W (nameAt dev o) then some (some (k o)) else none) := by
  induction h with
  | @ended o hend =>
    refine .ended (fun _ => none) fun fresh => ⟨?_,rfl⟩
    rw [look]
    refine if_pos ?_
    rcases Nat.lt_or_ge o dev.size with hin | hout
    · exact .inr (filename_eq_nil hin (hend hin) fresh)
    · exact .inl hout
  | @cons o l hin hzero hname hnext _ ih =>
    have hlook : ∀ fresh, look dev wanted found fresh o =
        if W (nameAt dev o) then
          .listed (some (found (readHeader dev fresh o) o)) (o+step (load dev.byte o HEADER_SIZE))
        else .passed (o+step (load dev.byte o HEADER_SIZE)) := by
      intro fresh
      have hfile := filename_readHeader hin hzero fresh
      obtain ⟨cs,hcs⟩ := hname
      have hgoes : ¬ (dev.size ≤ o ∨ Tar.filename (readHeader dev fresh o) = []) := by
        rw [hfile]
        have hsize : HEADER_SIZE = 157 := rfl
        exact not_or.mpr ⟨by omega,hcs.ne_nil⟩
      rw [look,if_neg hgoes,step_readHeader hin,Nat.mod_eq_of_lt hnext]
      by_cases hw : W (nameAt dev o)
      · rw [if_pos hw,if_pos ((hwanted _).mpr (by rwa [hfile]))]
      · rw [if_neg hw,if_neg fun h => hw (by rw [← hfile]; exact (hwanted _).mp h)]
    rw [List.map_cons]
    by_cases hw : W (nameAt dev o)
    · rw [if_pos hw]
      refine .listed (fun fresh => some (found (readHeader dev fresh o) o)) (fun _ =>
        o+step (load dev.byte o HEADER_SIZE))
        (fun fresh => ⟨by rw [hlook,if_pos hw],?_⟩) fun _ => ih
      exact congrArg some (hkey _ _ (filename_readHeader hin hzero fresh))
    · rw [if_neg hw]
      exact .passed (fun _ =>
        o+step (load dev.byte o HEADER_SIZE)) (fun fresh => by rw [hlook,if_neg hw]) fun _ => ih

theorem Headers.nth_eq (h : Headers dev o l)
    (hwanted : ∀ header, wanted header ↔ W (Tar.filename header))
    (hkey : ∀ header o, Tar.filename header = nameAt dev o → key (found header o) = k o)
    {turns : ℕ} (hturns : l.length < turns) (fresh : ℕ → List (BitVec 8)) (index : ℕ) :
    ∃ r, Scans.nth (look dev wanted found) turns fresh index o = some r ∧
      r.map key = ((l.filter fun o => W (nameAt dev o))[index]?).map k := by
  obtain ⟨r,hr,heq⟩ :=
    (h.trail (k:=k) hwanted hkey).nth_eq fresh index turns (by simpa using hturns)
  refine ⟨r,hr,heq.trans ?_⟩
  have hall : ∀ l :
    List ℕ, (l.map fun o => if W (nameAt dev o) then some (some (k o)) else none).filterMap id =
      (l.filter fun o => W (nameAt dev o)).map fun o => some (k o) := by
    intro l
    induction l with
    | nil => rfl
    | cons a l ih =>
      by_cases hw : W (nameAt dev a)
      · simpa [hw] using ih
      · simpa [hw] using ih
  rw [hall,List.getElem?_map]
  cases (l.filter fun o => W (nameAt dev o))[index]? <;> rfl

end

/-- The last segment of the name in a header. -/
def lastAt (dev : Device) (o : ℕ) : Path := (kUtilPathFilename (nameAt dev o)).getD []

theorem relative_child (hps : ps ≠ []) (hnames : Names ps) (hn : n ≠ [] ∧ '/' ∉ n) {name : Path}
    (h : IsRelative name cs) (heq : kUtilPathStrip name = relative ps++ '/'::n) : cs = ps++[n] := by
  have hall : Names (ps++[n]) := by
    intro c hc
    rcases List.mem_append.mp hc with hc | hc
    · exact hnames c hc
    · rwa [List.mem_singleton.mp hc]
  refine relative_inj h.1 (List.append_ne_nil_of_left_ne_nil hps _) h.2.1 hall ?_
  rw [relative_append hps,← heq,h.strip]

/-- A name with one segment more than that of a directory, which begins with that of the directory
and a slash, is in the directory. -/
theorem relative_of_prefix (hps : ps ≠ []) (hnames : Names ps) {name : Path}
    (h : IsRelative name cs)
    (hlength : cs.length = ps.length+1) (hfront : relative ps++['/'] <+: name) :
    ∃ n, kUtilPathStrip name = relative ps++ '/'::n ∧ cs = ps++[n] := by
  obtain ⟨rest,hrest⟩ := hfront
  have hcount : ∀ ds : List Path, ds ≠ [] → Names ds → (relative ds).count '/'+1 = ds.length := by
    intro ds hds hd
    have hlen := (IsRelative.of_names hds hd).length
    rw [kUtilPathLength,(IsRelative.of_names hds hd).strip] at hlen
    split at hlen
    · exact absurd (List.length_eq_zero_iff.mp hlen.symm) hds
    · exact hlen
  have hcs := hcount cs h.1 h.2.1
  have hps' := hcount ps hps hnames
  obtain ⟨n,hn⟩ : ∃ n, relative cs = relative ps++ '/'::n := by
    rcases h.2.2 with hname | hname
    · exact ⟨rest,by rw [← hname,← hrest]; simp⟩
    · rw [hname] at hrest
      rcases List.eq_nil_or_concat rest with rfl | ⟨rest,c,rfl⟩
      · have heq : relative ps = relative cs := by simpa using hrest
        rw [heq] at hps'
        omega
      · rw [List.concat_eq_append,← List.append_assoc] at hrest
        obtain ⟨heq,-⟩ := List.append_inj' hrest rfl
        exact ⟨rest,by rw [← heq]; simp⟩
  have hslash : '/' ∉ n := by
    have htotal := congrArg (List.count '/') hn
    rw [List.count_append,List.count_cons_self] at htotal
    exact List.count_eq_zero.mp (by omega)
  have hne : n ≠ [] := by
    rintro rfl
    have hlast := (relative_ends h.2.1 h.1).2.1
    rw [hn] at hlast
    exact hlast (by simp)
  have hstrip : kUtilPathStrip name = relative ps++ '/'::n := h.strip.trans hn
  exact ⟨n,hstrip,relative_child hps hnames ⟨hne,hslash⟩ h hstrip⟩

/-- The header with a name is the first one with it if no two names are the same. -/
theorem head?_filter_eq_some {α β : Type} [DecidableEq β] {f : α → β} {x : β} {l : List α}
    (h : (l.map f).Nodup) (a : α) :
    (l.filter fun a => f a = x)[0]? = some a ↔ a ∈ l ∧ f a = x := by
  induction l with
  | nil => simp
  | cons b l ih =>
    rw [List.map_cons,List.nodup_cons] at h
    by_cases hb : f b = x
    · rw [List.filter_cons_of_pos (by simpa using hb),List.getElem?_cons_zero,Option.some.injEq]
      constructor
      · rintro rfl
        exact ⟨List.mem_cons_self,hb⟩
      · rintro ⟨hmem,ha⟩
        rcases List.mem_cons.mp hmem with rfl | hmem
        · rfl
        · exact absurd (List.mem_map.mpr ⟨a,hmem,ha.trans hb.symm⟩) h.1
    · rw [List.filter_cons_of_neg (by simpa using hb),ih h.2,List.mem_cons]
      refine and_congr_left fun ha => ⟨.inr,fun hmem => hmem.resolve_left ?_⟩
      rintro rfl
      exact hb ha

section
variable {node turns : ℕ} {parent : List (BitVec 8)} {new : ℕ → List (BitVec 8)}

/-- What `__k_fs_tar_readdir` lists, apart from the directory itself and its parent. -/
theorem readdir_iff (harchive : Archive dev l) (hnode : node ∈ l) (hturns : l.length < turns)
    (hdot : n ≠ ['.']) (hdots : n ≠ ['.', '.']) :
    (∃ index < W32, readdir dev turns parent new node index = some (some ⟨n,o⟩)) ↔
      o ∈ l ∧ Listed (kUtilPathStrip (nameAt dev node)) (nameAt dev o) ∧ lastAt dev o = n := by
  have hfolder := harchive.headers.filename node hnode parent
  have hlist :=
    @Headers.nth_eq dev 0 l Dirent Dirent (fun header =>
      Listed (kUtilPathStrip (nameAt dev node)) (filename header)) _
    (fun header offs => ⟨lastName header,offs⟩) (Listed (kUtilPathStrip (nameAt dev node))) _ id
    (fun o => ⟨lastAt dev o,o⟩)
    harchive.headers (fun _ =>
      Iff.rfl) (fun header o h => by rw [id,lastName,h,lastAt]) _ hturns new
  have hcall : ∀ index, 2 ≤ index → index < W32 → readdir dev turns parent new node index =
      some (((l.filter fun o =>
        Listed (kUtilPathStrip (nameAt dev node)) (nameAt dev o))[index-2]?).map
        fun o => ⟨lastAt dev o,o⟩) := by
    intro index hlow hhigh
    obtain ⟨r,hr,heq⟩ := hlist (index-2)
    rw [readdir,if_neg (by omega),if_neg (by omega),hfolder,
      readdirLoop_eq (by omega) _ _ _ _ (Nat.zero_le _),Nat.sub_zero,
      lookListed,hr]
    rw [Option.map_id] at heq
    exact congrArg some heq
  have hbound := harchive.headers.length_lt (by decide)
  constructor
  · rintro ⟨index,hindex,hget⟩
    rcases Nat.lt_or_ge index 2 with hsmall | hlarge
    · rw [readdir] at hget
      split_ifs at hget
      · exact absurd (Dirent.mk.inj (Option.some.inj (Option.some.inj hget))).1.symm hdot
      · exact absurd (Dirent.mk.inj (Option.some.inj (Option.some.inj hget))).1.symm hdots
      · omega
    · rw [hcall index hlarge hindex] at hget
      obtain ⟨a,ha,heq⟩ := Option.map_eq_some_iff.mp (Option.some.inj hget)
      obtain ⟨rfl,rfl⟩ := Dirent.mk.inj heq
      obtain ⟨hmem,hlisted⟩ := List.mem_filter.mp (List.mem_of_getElem? ha)
      exact ⟨hmem,of_decide_eq_true hlisted,rfl⟩
  · rintro ⟨hmem,hlisted,rfl⟩
    have hin : o ∈ l.filter fun o => Listed (kUtilPathStrip (nameAt dev node)) (nameAt dev o) :=
      List.mem_filter.mpr ⟨hmem,decide_eq_true hlisted⟩
    obtain ⟨i,hi⟩ := List.mem_iff_getElem?.mp hin
    have hlt : i < l.length :=
      (List.getElem?_eq_some_iff.mp hi).1.trans_le (List.length_filter_le _ _)
    refine ⟨i+2,by omega,?_⟩
    rw [hcall (i+2) (by omega) (by omega),Nat.add_sub_cancel,hi]
    rfl

theorem finddir_iff (harchive : Archive dev l) (hnode : node ∈ l) (hturns : l.length < turns)
    (hn : '/' ∉ n) :
    (∃ f, finddir dev turns parent new node n = some (some f) ∧ f.inode = o) ↔
      o ∈ l ∧ kUtilPathStrip (nameAt dev o) = kUtilPathStrip (nameAt dev node)++ '/'::n := by
  have hfolder := harchive.headers.filename node hnode parent
  obtain ⟨r,hr,heq⟩ := @Headers.nth_eq dev 0 l Node ℕ
    (fun header => kUtilPathStrip (filename header) =
      kUtilPathStrip (nameAt dev node)++ '/'::n) _ createNode
    (fun name => kUtilPathStrip name = kUtilPathStrip (nameAt dev node)++ '/'::n) _
    Node.inode (fun o => o)
    harchive.headers (fun _ => Iff.rfl) (fun _ _ _ => rfl) _ hturns new 0
  have hcall : finddir dev turns parent new node n = some r := by
    rw [finddir,hfolder,kUtilPathJoin,strip_of_not_mem hn,finddirLoop_eq,lookNamed,hr]
  rw [hcall,← head?_filter_eq_some harchive.distinct]
  rw [Option.map_id'] at heq
  rw [← heq,Option.map_eq_some_iff]
  constructor
  · rintro ⟨f,hf,hinode⟩
    exact ⟨f,Option.some.inj hf,hinode⟩
  · rintro ⟨f,hf,hinode⟩
    exact ⟨f,congrArg some hf,hinode⟩

end

/-- For all well-formed archives and all directories in them, the names that `__k_fs_tar_readdir`
lists are those that `__k_fs_tar_finddir` finds, at the same headers, exactly if behind the name of
the directory there is a slash in all names that begin with it and have one segment more. -/
theorem readdir_agrees_iff (harchive : Archive dev l) {node turns : ℕ} (hnode : node ∈ l)
    (hturns : l.length < turns) (parent : List (BitVec 8)) (new : ℕ → List (BitVec 8)) :
    (∀ n o, n ≠ [] → '/' ∉ n → n ≠ ['.'] → n ≠ ['.', '.'] →
      ((∃ index < W32, readdir dev turns parent new node index = some (some ⟨n,o⟩)) ↔
        ∃ f, finddir dev turns parent new node n = some (some f) ∧ f.inode = o)) ↔
    ∀ o ∈ l, kUtilPathLength (nameAt dev o) = kUtilPathLength (kUtilPathStrip (nameAt dev node))+1 →
      kUtilPathStrip (nameAt dev node) <+: nameAt dev o → lastAt dev o ≠ ['.'] →
      lastAt dev o ≠ ['.', '.'] → kUtilPathStrip (nameAt dev node)++['/'] <+: nameAt dev o := by
  obtain ⟨ps,hps⟩ := harchive.headers.relative node hnode
  have hfolder : kUtilPathLength (relative ps) = ps.length :=
    (IsRelative.of_names hps.1 hps.2.1).length
  have hlast : ∀ {o cs n}, IsRelative (nameAt dev o) cs → cs = ps++[n] → lastAt dev o = n := by
    rintro o cs n hcs rfl
    rw [lastAt,hcs.filename,List.getLast?_concat]
    rfl
  constructor
  · intro hagree o hmem hlength hfront hdot hdots
    obtain ⟨cs,hcs⟩ := harchive.headers.relative o hmem
    have hlastmem : lastAt dev o ∈ cs := by
      rw [lastAt,hcs.filename,List.getLast?_eq_some_getLast hcs.1]
      exact List.getLast_mem hcs.1
    obtain ⟨hne,hslash⟩ := hcs.2.1 _ hlastmem
    obtain ⟨-,heq⟩ :=
      (finddir_iff harchive hnode hturns hslash).mp ((hagree _ o hne hslash hdot hdots).mp
      ((readdir_iff harchive hnode hturns hdot hdots).mpr ⟨hmem,⟨hlength,hfront⟩,rfl⟩))
    -- the name of the header is the stripped one, and perhaps a slash
    have hstrip : kUtilPathStrip (nameAt dev o) <+: nameAt dev o := by
      rw [hcs.strip]
      rcases hcs.2.2 with hname | hname
      · rw [← hname]
      · rw [hname]
        exact List.prefix_append _ _
    rw [heq] at hstrip
    exact List.IsPrefix.trans ⟨lastAt dev o,by simp⟩ hstrip
  · intro hclean n o hne hslash hdot hdots
    rw [readdir_iff harchive hnode hturns hdot hdots,finddir_iff harchive hnode hturns hslash]
    refine and_congr_right fun hmem => ?_
    obtain ⟨cs,hcs⟩ := harchive.headers.relative o hmem
    rw [hps.strip] at hclean ⊢
    constructor
    · rintro ⟨⟨hlength,hfront⟩,rfl⟩
      have hfull := hclean o hmem hlength hfront hdot hdots
      rw [hcs.length,hfolder] at hlength
      obtain ⟨n,heq,hchild⟩ := relative_of_prefix hps.1 hps.2.1 hcs hlength hfull
      rw [hlast hcs hchild]
      exact heq
    · intro heq
      have hchild := relative_child hps.1 hps.2.1 ⟨hne,hslash⟩ hcs heq
      refine ⟨⟨?_,?_⟩,hlast hcs hchild⟩
      · rw [hcs.length,hfolder,hchild,List.length_append,List.length_singleton]
      · rcases hcs.2.2 with hname | hname
        · rw [hname,hchild,relative_append hps.1]
          exact List.prefix_append _ _
        · rw [hname,hchild,relative_append hps.1,List.append_assoc]
          exact List.prefix_append _ _

def emptyFiles (names : List (List (BitVec 8))) : Device where
  size := 512*names.length
  byte := fun x =>
    if x%512 < 100 then (names.getD (x/512) []).getD (x%512) 0 else if 124 ≤ x%512 ∧
      x%512 < 135 then 48 else 0

theorem Headers.of_name (cs : List Path) (hin : o+HEADER_SIZE ≤ dev.size)
    (hzero : (0 : BitVec 8) ∈ load dev.byte o 100)
    (hname : IsRelative (nameAt dev o) cs) (hstep : step (load dev.byte o HEADER_SIZE) = 512)
    (hnext : o+512 < W32) (h : Headers dev (o+512) l) : Headers dev o (o::l) := by
  rw [← hstep] at hnext h
  exact .cons hin hzero ⟨cs,hname⟩ hnext h

/-- The directories a and b, and a file x in a. -/
theorem readdir_agrees_two :
    (∃ index < W32, readdir (emptyFiles [[97,47],[97,47,120],[98,47]]) 4 [] (fun _ => []) 0 index =
      some (some ⟨['x'],512⟩)) ↔
      ∃ f, finddir (emptyFiles [[97,47],[97,47,120],[98,47]]) 4 [] (fun _ => []) 0 ['x'] =
      some (some f) ∧ f.inode = 512 := by
  have harchive : Archive (emptyFiles [[97,47],[97,47,120],[98,47]]) [0,512,1024] := by
    refine ⟨.of_name [['a']] ?_ ?_ ?_ ?_ ?_ (.of_name [['a'],['x']] ?_ ?_ ?_ ?_ ?_
      (.of_name [['b']] ?_ ?_ ?_ ?_ ?_ (.ended fun _ => ?_))),?_⟩
    all_goals first | decide +kernel | exact ⟨by decide,by decide,by decide +kernel⟩
  exact (readdir_agrees_iff harchive (show 0 ∈ _ by decide) (show _ < 4 by decide) [] (fun _ =>
    [])).mpr
    (by decide +kernel) ['x'] 512 (by decide) (by decide) (by decide) (by decide)

/-- The directory a lists the file x of the directory ab, which cannot be found in a. -/
theorem readdir_disagrees :
    Archive (emptyFiles [[97,47],[97,98,47],[97,98,47,120]]) [0,512,1024] ∧
      readdir (emptyFiles [[97,47],[97,98,47],[97,98,47,120]]) 4 [] (fun _ => []) 0 2 =
      some (some ⟨['x'],1024⟩) ∧
      finddir (emptyFiles [[97,47],[97,98,47],[97,98,47,120]]) 4 [] (fun _ =>
        []) 0 ['x'] = some none := by
  refine ⟨⟨.of_name [['a']] ?_ ?_ ?_ ?_ ?_ (.of_name [['a','b']] ?_ ?_ ?_ ?_ ?_
    (.of_name [['a','b'],['x']] ?_ ?_ ?_ ?_ ?_ (.ended fun _ => ?_))),?_⟩,
    by decide +kernel,by decide +kernel⟩
  all_goals first | decide +kernel | exact ⟨by decide,by decide,by decide +kernel⟩

end Tar
end ScalesOS
