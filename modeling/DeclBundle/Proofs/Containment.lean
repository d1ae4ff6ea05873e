import DeclBundle.Proofs.TidyPath

/-!
# What lies in a directory

Whether a path lies in a directory is judged by how its normal form begins, and its id by the way from the
directory to it. Both are read off the steps: those of the path begin with those of the directory, or the
way goes up first (`isUnder_iff_isPrefix`, `exists_lead_eq_up_cons`). In the first case the way is what
stands behind the entrance to the directory, that is its normal form with a slash
(`normal_eq_entrance_append`), so the id is made of that (`isUnder_agrees_idOf`). With two slashes in front
a path may have the steps of a directory that begins with one, hence `HasOneSlash`.
-/

namespace DeclBundle

namespace Path

/-- The normal form of a path begins with exactly one slash. -/
def HasOneSlash (p : String) : Prop :=
  ∃ cs, (normalize p).toList = '/' :: cs ∧ cs.head? ≠ some '/'

/-- What the paths in a directory begin with: its normal form, and a slash unless that is the root. -/
def entrance (dir : String) : String := if normalize dir = "/" then "/" else normalize dir ++ "/"

def LeadsUp (p : String) : Prop := p = ".." ∨ "../".toList <+: p.toList

variable {cwd dir p : String} {steps psteps way : List (List Char)}

theorem HasOneSlash.isAbsolute (h : HasOneSlash p) : isAbsolute p = true := by
  obtain ⟨cs, hcs, -⟩ := h
  rw [normalize, String.toList_ofList] at hcs
  have hhead : p.toList.head? = some '/' := by
    by_contra hne
    exact head?_normal_ne_slash hne (by rw [hcs, List.head?_cons])
  obtain ⟨rest, hrest⟩ := List.head?_eq_some_iff.1 hhead
  exact isAbsolute_iff.2 ⟨rest, hrest⟩

theorem HasOneSlash.anchor_normal (h : HasOneSlash p) : anchor (normal p.toList) = ['/'] := by
  obtain ⟨cs, hcs, hhead⟩ := h
  rw [normalize, String.toList_ofList] at hcs
  rw [hcs]
  exact anchor_append_of_ne_slash (.inl rfl) hhead

/-- The way to a place that does not lie below another one goes up first. -/
theorem exists_lead_eq_up_cons (h : ¬ steps <+: psteps) : ∃ rest, lead steps psteps = up :: rest := by
  induction steps generalizing psteps with
  | nil => exact absurd List.nil_prefix h
  | cons s steps ih =>
      cases psteps with
      | nil => exact ⟨_, rfl⟩
      | cons t psteps =>
          by_cases hst : s = t
          · subst hst
            rw [List.prefix_cons_inj] at h
            obtain ⟨rest, hrest⟩ := ih h
            exact ⟨rest, by rw [lead, if_pos rfl, hrest]⟩
          · exact ⟨_, by rw [lead, if_neg hst, List.map_cons, List.cons_append]⟩

theorem leadsUp_up_cons (rest : List (List Char)) : LeadsUp (String.ofList (write [] (up :: rest))) := by
  cases rest with
  | nil => exact .inl rfl
  | cons s rest =>
      refine .inr ⟨Text.join ['/'] (s :: rest), ?_⟩
      rw [String.toList_ofList]
      simp [write, Text.join_cons_cons, up]

theorem not_leadsUp (h : ∀ s ∈ way, Ordinary s ∧ '/' ∉ s) :
    ¬ LeadsUp (String.ofList (write [] way)) := by
  have hup : (Text.pieces '/' (write [] way)).head? ≠ some up := by
    cases way with
    | nil => decide
    | cons s way =>
        have hwrite : write [] (s :: way) = Text.join ['/'] (s :: way) :=
          write_nil_of_forall (by simp) fun t ht => (h t ht).1.1
        rw [hwrite, Text.pieces_join (by simp) fun t ht => (h t ht).2]
        simpa using (h s List.mem_cons_self).1.2.2
  rintro (heq | ⟨t, ht⟩)
  · rw [← String.toList_inj, String.toList_ofList] at heq
    rw [heq] at hup
    exact hup rfl
  · have hcons : up ++ '/' :: t = write [] way := ht.trans String.toList_ofList
    rw [← hcons, Text.pieces_append_cons (by decide)] at hup
    exact hup rfl

theorem lead_append_self (steps way : List (List Char)) : lead steps (steps ++ way) = way := by
  have hlead := lead_append steps [] way
  rwa [List.append_nil, lead_nil] at hlead

theorem relative_eq (hdir : isAbsolute dir = true) (hp : isAbsolute p = true)
    (hd : Rooted (normal dir.toList) steps) (hrooted : Rooted (normal p.toList) psteps) (cwd : String) :
    relative cwd p dir = String.ofList (write [] (lead steps psteps)) := by
  rw [relative, absolute_of_isAbsolute hdir, absolute_of_isAbsolute hp, normalize, normalize,
    String.toList_ofList, String.toList_ofList, hd.stepsOf_eq, hrooted.stepsOf_eq]

theorem head?_join_way (hrooted : Rooted (normal p.toList) (steps ++ way)) :
    (Text.join ['/'] way).head? ≠ some '/' :=
  head?_join_ne_slash_of_trodden fun s hs =>
    have hs := hrooted.1 s (List.mem_append_right steps hs)
    ⟨hs.1.1, hs.1.2.1, hs.2⟩

section OneSlash

variable (hdir : HasOneSlash dir) (hd : Rooted (normal dir.toList) steps)
include hdir hd

theorem toList_entrance : (entrance dir).toList = dropSlashes (normal dir.toList) ++ ['/'] := by
  have hnormal := hd.eq_anchor_append
  rw [hdir.anchor_normal] at hnormal
  rcases List.eq_nil_or_concat steps with rfl | ⟨steps, s, rfl⟩
  · have hroot : normalize dir = "/" := congrArg String.ofList hnormal
    rw [entrance, if_pos hroot, hd.dropSlashes_nil]
    rfl
  · rw [List.concat_eq_append] at hd
    obtain ⟨cs, c, hcs, hc⟩ := hd.exists_append_ne_slash
    have hroot : normalize dir ≠ "/" := by
      intro heq
      have hlast := congrArg (fun q => q.toList.getLast?) heq
      rw [normalize, String.toList_ofList, hcs, List.getLast?_concat] at hlast
      exact hc (Option.some.inj hlast)
    rw [entrance, if_neg hroot, String.toList_append, normalize, String.toList_ofList, hcs,
      dropSlashes_append_of_ne hc]
    rfl

variable (hp : HasOneSlash p)
include hp

theorem normal_eq_entrance_append (hrooted : Rooted (normal p.toList) (steps ++ way)) (hway : way ≠ []) :
    normal p.toList = (entrance dir).toList ++ Text.join ['/'] way := by
  have hnormal := hrooted.eq_anchor_append
  have hbase := hd.eq_anchor_append
  rw [hp.anchor_normal] at hnormal
  rw [hdir.anchor_normal] at hbase
  rw [toList_entrance hdir hd, hnormal]
  rcases List.eq_nil_or_concat steps with rfl | ⟨steps, s, rfl⟩
  · rw [hd.dropSlashes_nil]
    rfl
  · rw [List.concat_eq_append] at hd hbase ⊢
    obtain ⟨cs, c, hcs, hc⟩ := hd.exists_append_ne_slash
    rw [hcs, dropSlashes_append_of_ne hc, ← hcs, hbase, Text.join_append '/' (by simp) hway]
    simp

/-- A path lies in a directory exactly if its steps begin with those of the directory. -/
theorem isUnder_iff_isPrefix (hrooted : Rooted (normal p.toList) psteps) :
    isUnder dir p = true ↔ steps <+: psteps := by
  constructor
  · intro h
    by_cases hsame : normalize p = normalize dir
    · rw [← String.toList_inj, normalize, normalize, String.toList_ofList, String.toList_ofList] at hsame
      rw [hsame] at hrooted
      exact ⟨[], by rw [List.append_nil, ← hd.stepsOf_eq, hrooted.stepsOf_eq]⟩
    · obtain ⟨way, rfl, -⟩ := hd.exists_append_of_isUnder hrooted h hsame
      exact List.prefix_append steps way
  · rintro ⟨way, rfl⟩
    rw [isUnder, Bool.or_eq_true, decide_eq_true_iff, List.isPrefixOf_iff_prefix]
    by_cases hway : way = []
    · subst hway
      rw [List.append_nil] at hrooted
      exact .inl ((hrooted.eq_iff hd).2 ⟨hp.anchor_normal.trans hdir.anchor_normal.symm, rfl⟩)
    · rw [normal_eq_entrance_append hdir hd hp hrooted hway, toList_entrance hdir hd]
      exact .inr (List.prefix_append _ _)

/-- The way to what lies below a directory, written behind the directory, leads there. -/
theorem join_eq_normalize (hrooted : Rooted (normal p.toList) (steps ++ way)) (hway : way ≠ []) :
    join (normalize dir) (String.ofList (Text.join ['/'] way)) = normalize p := by
  have hhead := head?_join_way hrooted
  have hbelow : below (normal dir.toList) (Text.join ['/'] way) =
      (entrance dir).toList ++ Text.join ['/'] way := by
    rw [below_of_ne_slash hhead, toList_entrance hdir hd]
    have hnormal := hd.eq_anchor_append
    rw [hdir.anchor_normal] at hnormal
    rcases List.eq_nil_or_concat steps with rfl | ⟨steps, s, rfl⟩
    · rw [hd.dropSlashes_nil, hnormal]
      rfl
    · rw [List.concat_eq_append] at hd
      obtain ⟨cs, c, hcs, hc⟩ := hd.exists_append_ne_slash
      rw [hcs, dropSlashes_append_of_ne hc, if_neg (by simp [hc])]
      simp
  rw [join, normalize, String.toList_ofList, String.toList_ofList, hbelow,
    ← normal_eq_entrance_append hdir hd hp hrooted hway, normalize]

theorem StrictlyUnder.exists_way (h : StrictlyUnder dir p) (cwd : String) :
    ∃ way, way ≠ [] ∧ Rooted (normal p.toList) (steps ++ way) ∧
      relative cwd p dir = String.ofList (Text.join ['/'] way) := by
  obtain ⟨psteps, hrooted⟩ := exists_rooted_of_isAbsolute hp.isAbsolute
  obtain ⟨way, rfl⟩ := (isUnder_iff_isPrefix hdir hd hp hrooted).1 h.1
  have hway : way ≠ [] := by
    rintro rfl
    rw [List.append_nil] at hrooted
    exact h.2 (congrArg String.ofList ((hrooted.eq_iff hd).2
      ⟨hp.anchor_normal.trans hdir.anchor_normal.symm, rfl⟩))
  have hwrite : write [] way = Text.join ['/'] way :=
    write_nil_of_forall hway fun s hs => (hrooted.1 s (List.mem_append_right steps hs)).1.1
  refine ⟨way, hway, hrooted, ?_⟩
  rw [relative_eq hdir.isAbsolute hp.isAbsolute hd hrooted, lead_append_self, hwrite]

end OneSlash

theorem normalize_join (hdir : HasOneSlash dir) (hp : HasOneSlash p) {v : String}
    (hv : isAbsolute v = false) (h : join (normalize dir) v = normalize p) :
    normalize (join dir v) = normalize p := by
  obtain ⟨psteps, hrooted⟩ := exists_rooted_of_isAbsolute hp.isAbsolute
  have hjoin := isAbsolute_join_of_left hdir.isAbsolute v
  rw [← absolute_of_isAbsolute hjoin dir, absolute_join hdir.isAbsolute dir hv,
    absolute_of_isAbsolute hdir.isAbsolute, absolute, h]
  exact Rooted.normalize_eq (by rwa [normalize, String.toList_ofList])

end Path

namespace Module

open DeclBundle.Path

variable {baseDir p : String}

theorem idOf_eq (hb : HasOneSlash baseDir) (hp : HasOneSlash p) (cwd name : String) :
    idOf cwd baseDir p name = name ++ "/" ++ stripExtension (relative cwd p baseDir) := by
  obtain ⟨steps, hd⟩ := exists_rooted_of_isAbsolute hb.isAbsolute
  obtain ⟨psteps, hrooted⟩ := exists_rooted_of_isAbsolute hp.isAbsolute
  have hnormal : relative cwd (Path.normalize p) (Path.normalize baseDir) = relative cwd p baseDir := by
    rw [relative, relative, absolute_of_isAbsolute hb.isAbsolute, absolute_of_isAbsolute hp.isAbsolute,
      Path.normalize, Path.normalize, absolute_of_rooted hd, absolute_of_rooted hrooted]
  rw [idOf, hnormal]

/-- A path lies in a directory exactly if the way from there does not go up. If it lies below the
directory, the way leads there again, the id of the path is made of what stands behind the entrance to the
directory, and two such paths share an id exactly if their ways are the same but for the extension. -/
theorem isUnder_agrees_idOf (cwd name : String) (hb : HasOneSlash baseDir) (hp : HasOneSlash p) :
    (isUnder baseDir p = true ↔ ¬ LeadsUp (relative cwd p baseDir)) ∧
    (StrictlyUnder baseDir p →
      Path.join (Path.normalize baseDir) (relative cwd p baseDir) = Path.normalize p ∧
      Path.normalize (Path.join baseDir (relative cwd p baseDir)) = Path.normalize p ∧
      (∃ rest, Path.normalize p = entrance baseDir ++ rest ∧
        idOf cwd baseDir p name = name ++ "/" ++ stripExtension rest) ∧
      ∀ q, HasOneSlash q → StrictlyUnder baseDir q →
        (idOf cwd baseDir p name = idOf cwd baseDir q name ↔
          stripExtension (relative cwd p baseDir) = stripExtension (relative cwd q baseDir))) := by
  obtain ⟨steps, hd⟩ := exists_rooted_of_isAbsolute hb.isAbsolute
  refine ⟨?_, fun hstrict => ?_⟩
  · obtain ⟨psteps, hrooted⟩ := exists_rooted_of_isAbsolute hp.isAbsolute
    rw [isUnder_iff_isPrefix hb hd hp hrooted, relative_eq hb.isAbsolute hp.isAbsolute hd hrooted]
    constructor
    · rintro ⟨way, rfl⟩
      rw [lead_append_self]
      exact not_leadsUp fun s hs => hrooted.1 s (List.mem_append_right steps hs)
    · contrapose!
      intro hnot
      obtain ⟨rest, hrest⟩ := exists_lead_eq_up_cons hnot
      rw [hrest]
      exact leadsUp_up_cons rest
  · obtain ⟨way, hway, hrooted, hrelative⟩ := hstrict.exists_way hb hd hp cwd
    have hjoin := join_eq_normalize hb hd hp hrooted hway
    rw [← hrelative] at hjoin
    have hfalse : isAbsolute (relative cwd p baseDir) = false := by
      rw [isAbsolute_eq, hrelative, String.toList_ofList, anchor_of_ne_slash (head?_join_way hrooted)]
      rfl
    refine ⟨hjoin, normalize_join hb hp hfalse hjoin,
      ⟨relative cwd p baseDir, ?_, idOf_eq hb hp cwd name⟩, fun q hq _ => ?_⟩
    · rw [← String.toList_inj, String.toList_append, hrelative, String.toList_ofList, Path.normalize,
        String.toList_ofList, normal_eq_entrance_append hb hd hp hrooted hway]
    · rw [idOf_eq hb hp, idOf_eq hb hq, String.append_right_inj]

/-- A directory that is not written in its normal form, and two names that begin with a step up. -/
theorem isUnder_agrees_idOf_dotted :
    HasOneSlash "/a/./b/" ∧ HasOneSlash "///a//b/x/../..c.d.ts" ∧
      StrictlyUnder "/a/./b/" "///a//b/x/../..c.d.ts" ∧ HasOneSlash "/a/b/..c.tsx" ∧
      StrictlyUnder "/a/./b/" "/a/b/..c.tsx" ∧
      ¬ LeadsUp (relative "/" "///a//b/x/../..c.d.ts" "/a/./b/") ∧
      Path.join (Path.normalize "/a/./b/") (relative "/" "///a//b/x/../..c.d.ts" "/a/./b/") =
        Path.normalize "///a//b/x/../..c.d.ts" ∧
      (∃ rest, Path.normalize "///a//b/x/../..c.d.ts" = entrance "/a/./b/" ++ rest ∧
        idOf "/" "/a/./b/" "///a//b/x/../..c.d.ts" "pkg" = "pkg" ++ "/" ++ stripExtension rest) ∧
      idOf "/" "/a/./b/" "///a//b/x/../..c.d.ts" "pkg" = idOf "/" "/a/./b/" "/a/b/..c.tsx" "pkg" := by
  have hb : HasOneSlash "/a/./b/" := ⟨"a/b".toList, by decide, by decide⟩
  have hp : HasOneSlash "///a//b/x/../..c.d.ts" := ⟨"a/b/..c.d.ts".toList, by decide, by decide⟩
  have hq : HasOneSlash "/a/b/..c.tsx" := ⟨"a/b/..c.tsx".toList, by decide, by decide⟩
  have hstrict : StrictlyUnder "/a/./b/" "///a//b/x/../..c.d.ts" := ⟨by decide, by decide⟩
  have hstrict' : StrictlyUnder "/a/./b/" "/a/b/..c.tsx" := ⟨by decide, by decide⟩
  obtain ⟨hunder, hrest⟩ := isUnder_agrees_idOf "/" "pkg" hb hp
  obtain ⟨hjoin, -, hid, hshared⟩ := hrest hstrict
  exact ⟨hb, hp, hstrict, hq, hstrict', hunder.1 hstrict.1, hjoin, hid,
    (hshared _ hq hstrict').2 (by decide +kernel)⟩

end Module

end DeclBundle
