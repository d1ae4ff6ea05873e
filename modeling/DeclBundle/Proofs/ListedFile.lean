import DeclBundle.Proofs.MergedSettings
import DeclBundle.Proofs.TidyPath

/-!
# Files that settings list

The declaration files that a settings file lists are relative to the directory of that file, but they are
seen from the base directory (`Settings.resolve_listed`). These are the same files if the settings file lies
in the base directory, as it does unless another one is named. Otherwise it depends on the names: in effect
a relative path goes up some steps (`Path.ascent`) and then down, and from two directories it leads to the
same place exactly if the steps up do (`Path.normalize_join_eq_iff`).
-/

namespace DeclBundle

namespace Path

/-- The steps up that a relative path takes in effect, as a path of their own. -/
def ascent (p : String) : String := String.ofList (Text.join ['/'] (List.replicate (climb p.toList) up))

variable {d d' v : String} {anchored : Bool} {s : List Char} {steps stack : List (List Char)}

/-! ### Up and down -/

/-- A walk comes to its way down on top of what its steps up leave of the stack. -/
theorem foldl_push_climb (anchored : Bool) (stack steps : List (List Char)) {w : Climb}
    (hw : ∀ t ∈ w.way, Ordinary t) :
    steps.foldl (push anchored) (w.way ++ (List.replicate w.height up).foldl (push anchored) stack) =
      (steps.foldl Climb.tread w).way ++
        (List.replicate (steps.foldl Climb.tread w).height up).foldl (push anchored) stack := by
  induction steps generalizing w with
  | nil => rfl
  | cons s steps ih =>
      rw [List.foldl_cons, List.foldl_cons, ← ih (Climb.ordinary_tread hw s)]
      congr 1
      rcases Climb.stay_or_up_or_ordinary s with hstay | rfl | hs
      · rw [Climb.tread_of_stay hstay, push_of_stay hstay]
      · cases hway : w.way with
        | nil =>
            rw [Climb.tread_up_nil hway, List.replicate_succ', List.foldl_append]
            rfl
        | cons top rest =>
            have htop : Ordinary top := hw top (hway ▸ List.mem_cons_self)
            rw [Climb.tread_up_cons hway, List.cons_append, push_up_cons htop.2.2]
      · rw [Climb.tread_of_ordinary hs, push_of_ne hs.1 hs.2.1 hs.2.2, List.cons_append]

theorem stepsOf_ascent (v : String) : stepsOf (ascent v).toList = List.replicate (climb v.toList) up := by
  rw [ascent, String.toList_ofList]
  refine stepsOf_join fun s hs => ?_
  rw [List.eq_of_mem_replicate hs]
  decide

theorem isAbsolute_ascent (v : String) : isAbsolute (ascent v) = false := by
  rw [isAbsolute_eq, ascent, String.toList_ofList, anchor_of_ne_slash]
  · rfl
  · refine head?_join_ne_slash_of_trodden fun s hs => ?_
    rw [List.eq_of_mem_replicate hs]
    unfold Trodden
    decide

/-- Behind some steps a path leads where its steps up lead and then down. -/
theorem settle_append_ascent (anchored : Bool) (steps : List (List Char)) (v : String) :
    settle anchored (steps ++ stepsOf v.toList) =
      settle anchored (steps ++ stepsOf (ascent v).toList) ++ descent v.toList := by
  have hwalk := foldl_push_climb anchored (steps.foldl (push anchored) []) (Text.pieces '/' v.toList)
    (w := ⟨0, []⟩) (List.forall_mem_nil _)
  rw [List.nil_append, List.replicate_zero, List.foldl_nil] at hwalk
  rw [settle, settle, List.foldl_append, List.foldl_append, stepsOf_ascent, stepsOf, foldl_push_filter,
    hwalk, List.reverse_append]
  rfl

theorem trodden_of_mem_settled (h : Settled anchored stack) (hslash : ∀ s ∈ stack, '/' ∉ s)
    (hs : s ∈ stack) : Trodden s := by
  induction stack with
  | nil => cases hs
  | cons t stack ih =>
      obtain ⟨hne, hhere, -, hrest⟩ := h
      obtain ⟨ht, hslash⟩ := List.forall_mem_cons.1 hslash
      rcases List.mem_cons.1 hs with rfl | hs
      · exact ⟨hne, hhere, ht⟩
      · exact ih hrest hslash hs

theorem trodden_of_mem_settle (hslash : ∀ s ∈ steps, '/' ∉ s) (hs : s ∈ settle anchored steps) :
    Trodden s :=
  trodden_of_mem_settled (settled_foldl (by simp [Settled]) steps)
    (fun _ ht => hslash _ (mem_of_mem_settle (List.mem_reverse.2 ht))) (List.mem_reverse.1 hs)

theorem write_eq_write_iff {p q : List Char} {steps' : List (List Char)} (h : ∀ s ∈ steps, Trodden s)
    (h' : ∀ s ∈ steps', Trodden s) :
    write (anchor p) steps = write (anchor q) steps' ↔ anchor p = anchor q ∧ steps = steps' := by
  constructor
  · intro heq
    have hanchor := congrArg anchor heq
    have hsteps := congrArg tidySteps heq
    rw [anchor_write p h, anchor_write q h'] at hanchor
    rw [tidySteps_write p h, tidySteps_write q h'] at hsteps
    exact ⟨hanchor, hsteps⟩
  · rintro ⟨hanchor, rfl⟩
    rw [hanchor]

theorem normal_below (d : List Char) (hv : isAbsolute v = false) :
    normal (below d v.toList) =
      write (anchor d) (settle (anchor d ≠ []) (stepsOf d ++ stepsOf v.toList)) := by
  rw [normal, anchor_below d (head?_ne_slash hv), ← settle_stepsOf, stepsOf_below d (head?_ne_slash hv)]

/-- From two directories a relative path leads to the same place exactly if its steps up do. -/
theorem normalize_join_eq_iff (hv : isAbsolute v = false) :
    normalize (join d v) = normalize (join d' v) ↔
      normalize (join d (ascent v)) = normalize (join d' (ascent v)) := by
  have hslash : ∀ (d : List Char) (v : String), ∀ s ∈ stepsOf d ++ stepsOf v.toList, '/' ∉ s := by
    intro d v s hs
    rcases List.mem_append.1 hs with hs | hs
    · exact (stepsOf_of_mem hs).2
    · exact (stepsOf_of_mem hs).2
  have htrodden : ∀ (d v : String), ∀ s ∈ settle (anchor d.toList ≠ [])
      (stepsOf d.toList ++ stepsOf v.toList), Trodden s :=
    fun d v s => trodden_of_mem_settle (hslash d.toList v)
  have hnormal : ∀ d v : String, isAbsolute v = false → (normalize (join d v)).toList =
      write (anchor d.toList) (settle (anchor d.toList ≠ []) (stepsOf d.toList ++ stepsOf v.toList)) := by
    intro d v hv
    rw [normalize, join, String.toList_ofList, String.toList_ofList, normal_below _ hv]
  rw [← String.toList_inj, ← String.toList_inj, hnormal d v hv, hnormal d' v hv,
    hnormal d _ (isAbsolute_ascent v), hnormal d' _ (isAbsolute_ascent v),
    write_eq_write_iff (htrodden d v) (htrodden d' v),
    write_eq_write_iff (htrodden d (ascent v)) (htrodden d' (ascent v)),
    settle_append_ascent, settle_append_ascent _ (stepsOf d'.toList), List.append_cancel_right_eq]

theorem parent_tidy (p : String) : parent (tidy p) = parent p := by
  rw [parent, parent, anchor_tidy, tidySteps_tidy]

/-- The parent of a file below a directory is the directory in tidy form. -/
theorem parent_join (dir : String) {n : List Char} (hv : isAbsolute v = false)
    (hsteps : tidySteps v.toList = [n]) : parent (join dir v) = tidy dir := by
  rw [parent, join, String.toList_ofList, anchor_below _ (head?_ne_slash hv),
    tidySteps_below _ (head?_ne_slash hv), hsteps, List.dropLast_concat, tidy]

theorem absolute_tidy_left {dir : String} (hdir : isAbsolute dir = true) (p : String) :
    absolute (tidy dir) p = absolute dir p := by
  have htidy : isAbsolute (tidy dir) = true := (isAbsolute_tidy dir).trans hdir
  rw [absolute_eq_iff htidy hdir, anchor_absolute htidy, anchor_absolute hdir, anchor_tidy, reach, reach,
    origin, origin, tidySteps_tidy]
  exact ⟨rfl, rfl⟩

end Path

namespace Settings

variable {cwd baseDir path : String} {project : Value} {config options : Record} {listed : List Value}
  {fs : FileSystem}

/-- The names of the declaration files among listed values. -/
def declarationNames (listed : List Value) : List String :=
  (listed.filterMap Value.text?).filter Module.isDeclaration

/-- The files with some names, as they are seen from a directory. -/
def namedFrom (dir : String) (names : List String) : List String :=
  names.map fun name => Path.normalize (Path.join dir name)

/-- From two directories the same files have some names exactly if none of the relative names climbs to
different places. -/
theorem namedFrom_eq_iff {dir dir' : String} (names : List String) :
    namedFrom dir names = namedFrom dir' names ↔
      ∀ name ∈ names, Path.isAbsolute name = false →
        Path.normalize (Path.join dir (Path.ascent name)) =
          Path.normalize (Path.join dir' (Path.ascent name)) := by
  rw [namedFrom, namedFrom, List.map_inj_left]
  refine forall₂_congr fun name _ => ?_
  cases hname : Path.isAbsolute name with
  | true =>
      have hself : ∀ d, Path.join d name = name := fun d => by
        rw [Path.join, Path.below_of_isAbsolute _ hname, String.ofList_toList]
      exact iff_of_true (by rw [hself, hself]) fun h => Bool.noConfusion h
  | false => rw [Path.normalize_join_eq_iff hname, forall_prop_of_true rfl]

/-- Unless another settings file is named, it lies in the base directory. -/
theorem parent_of_locate (hpath : locate baseDir project = .ok path) (hproject : project.isTruthy = false)
    (hbase : Path.isAbsolute baseDir = true) : Path.parent path = Path.tidy baseDir := by
  have hnamed : named baseDir project = .ok (Path.tidyJoin baseDir "tsconfig.json") := by
    simp [named, hproject]
  rw [locate, hnamed] at hpath
  obtain rfl := Except.ok.inj hpath
  have habsolute : Path.isAbsolute (Path.tidyJoin baseDir "tsconfig.json") = true :=
    (Path.isAbsolute_tidy _).trans (Path.isAbsolute_join_of_left hbase _)
  rw [Path.tidyJoin, Path.join, Path.below_of_isAbsolute _ habsolute, String.ofList_toList,
    Path.parent_tidy, Path.tidyJoin, Path.parent_tidy]
  exact Path.parent_join baseDir (n := "tsconfig.json".toList) (by decide) (by decide)

theorem result_resolve_of_holds (hpath : locate baseDir project = .ok path)
    (hread : read cwd path fs = .ok config) (hholds : Holds config options listed) (files : List String)
    (eol : Option String) (target : Value) :
    (resolve cwd baseDir files eol target project fs).result =
      .ok ⟨namedFrom baseDir (declarationNames listed) ++ files, (merge options eol target).1,
        (merge options eol target).2, some path⟩ := by
  obtain ⟨bytes, hbytes⟩ := exists_bytes_of_read hread
  rw [result_resolve_of_read hpath hbytes, result_resolveFrom, hread]
  simp only [Except.bind, Except.map, hholds.optionsOf, hholds.listedFiles, declarationFiles_eq]
  rfl

/-- The settings of a run begin with the declaration files that the settings file lists, seen from the base
directory. They are the files that the names denote next to the settings file exactly if no relative name
climbs from the two directories to different places, so always if no other settings file is named. -/
theorem resolve_listed (hpath : locate baseDir project = .ok path) (hread : read cwd path fs = .ok config)
    (hholds : Holds config options listed) (files : List String) (eol : Option String) (target : Value) :
    ∃ s, (resolve cwd baseDir files eol target project).Ends fs s fs ∧
      s.files = namedFrom baseDir (declarationNames listed) ++ files ∧
      (s.files = namedFrom (Path.parent path) (declarationNames listed) ++ files ↔
        ∀ name ∈ declarationNames listed, Path.isAbsolute name = false →
          Path.normalize (Path.join baseDir (Path.ascent name)) =
            Path.normalize (Path.join (Path.parent path) (Path.ascent name))) ∧
      (project.isTruthy = false → Path.isAbsolute baseDir = true →
        s.files = namedFrom (Path.parent path) (declarationNames listed) ++ files) := by
  refine ⟨_, ⟨result_resolve_of_holds hpath hread hholds files eol target,
    (looks_resolve cwd baseDir files eol target project fs).1⟩, rfl, ?_, fun hproject hbase => ?_⟩
  · rw [List.append_cancel_right_eq, namedFrom_eq_iff]
  · rw [List.append_cancel_right_eq, namedFrom, namedFrom, List.map_inj_left,
      parent_of_locate hpath hproject hbase]
    exact fun name _ => (Path.absolute_tidy_left hbase name).symm

/-- A settings file that lists a file beside it and one above. -/
def listedConfig : Record :=
  [(.text "files", .list [.text "a.d.ts", .text "../../b.d.ts"])]

def listedText : String := "\x7b\"files\": [\"a.d.ts\", \"../../b.d.ts\"]\x7d"

/-- The settings file in the base directory, and in a directory below it. -/
def listedFs : FileSystem := ⟨[
  (["p"], .directory), (["p", "tsconfig.json"], .file (Text.encode listedText)),
  (["p", "conf"], .directory), (["p", "conf", "tsconfig.json"], .file (Text.encode listedText))]⟩

/-- Where the settings files are, what they hold, and which files their names denote. -/
theorem listedFs_spec :
    (locate "/p" .null = .ok "/p/tsconfig.json" ∧
      read "/p" "/p/tsconfig.json" listedFs = .ok listedConfig) ∧
    (locate "/p" (.text "conf/tsconfig.json") = .ok "/p/conf/tsconfig.json" ∧
      read "/p" "/p/conf/tsconfig.json" listedFs = .ok listedConfig) ∧
    namedFrom "/p" ["a.d.ts", "../../b.d.ts"] = ["/p/a.d.ts", "/b.d.ts"] ∧
    namedFrom (Path.parent "/p/conf/tsconfig.json") ["a.d.ts", "../../b.d.ts"] =
      ["/p/conf/a.d.ts", "/b.d.ts"] := by
  have htext : textOf? (Text.encode listedText) = some listedText := by decide +kernel
  have hclean : Json.withoutTrailingCommas (Json.withoutComments listedText) = listedText := by
    decide +kernel
  have hjson : Json.read listedText = .ok (.map listedConfig) := by cbv
  have hread : ∀ {path : String} {l : Place}, listedFs.place "/p" path = .ok l →
      listedFs.get? l = some (.file (Text.encode listedText)) →
      read "/p" path listedFs = .ok listedConfig := by
    intro path l hplace hfile
    refine read_of_json ?_ htext hclean hjson
    rw [FileSystem.read, hplace]
    simp only [hfile]
  have hbeside : listedFs.place "/p" "/p/tsconfig.json" = .ok ["p", "tsconfig.json"] := by
    decide +kernel
  have hbelow : listedFs.place "/p" "/p/conf/tsconfig.json" = .ok ["p", "conf", "tsconfig.json"] := by
    decide +kernel
  exact ⟨⟨eq_ok_of_toOption (by decide +kernel), hread hbeside rfl⟩,
    ⟨eq_ok_of_toOption (by decide +kernel), hread hbelow rfl⟩, by decide +kernel, by decide +kernel⟩

theorem holds_listedConfig : Holds listedConfig [] [.text "a.d.ts", .text "../../b.d.ts"] :=
  ⟨.inr ⟨rfl, rfl⟩, .inl rfl⟩

/-- A file that lies beside the named settings file is looked for in the base directory. -/
theorem exists_settings_not_beside :
    locate "/p" (.text "conf/tsconfig.json") = .ok "/p/conf/tsconfig.json" ∧
    read "/p" "/p/conf/tsconfig.json" listedFs = .ok listedConfig ∧
    ∃ s, (resolve "/p" "/p" ["/p/m.ts"] none .null (.text "conf/tsconfig.json")).Ends listedFs s
        listedFs ∧
      s.files = ["/p/a.d.ts", "/b.d.ts", "/p/m.ts"] ∧
      namedFrom (Path.parent "/p/conf/tsconfig.json") ["a.d.ts", "../../b.d.ts"] =
        ["/p/conf/a.d.ts", "/b.d.ts"] := by
  obtain ⟨-, ⟨hlocate, hread⟩, hbase, hbelow⟩ := listedFs_spec
  have hresult := result_resolve_of_holds hlocate hread holds_listedConfig ["/p/m.ts"] none .null
  exact ⟨hlocate, hread, _, ⟨hresult, (looks_resolve "/p" "/p" _ _ _ _ _).1⟩,
    congrArg (· ++ ["/p/m.ts"]) hbase, hbelow⟩

theorem resolve_listed_below :
    (∃ s, (resolve "/p" "/p" ["/p/m.ts"] none .null (.text "conf/tsconfig.json")).Ends listedFs s
        listedFs ∧
      s.files = ["/p/a.d.ts", "/b.d.ts", "/p/m.ts"] ∧
      ¬ ∀ name ∈ ["a.d.ts", "../../b.d.ts"], Path.isAbsolute name = false →
        Path.normalize (Path.join "/p" (Path.ascent name)) =
          Path.normalize (Path.join (Path.parent "/p/conf/tsconfig.json") (Path.ascent name))) ∧
    ∃ s, (resolve "/p" "/p" ["/p/m.ts"] none .null .null).Ends listedFs s listedFs ∧
      s.files = namedFrom (Path.parent "/p/tsconfig.json") ["a.d.ts", "../../b.d.ts"] ++ ["/p/m.ts"] := by
  obtain ⟨⟨hlocate, hread⟩, ⟨hlocateBelow, hreadBelow⟩, hbase, hbelow⟩ := listedFs_spec
  constructor
  · obtain ⟨s, hends, hfiles, hiff, -⟩ :=
      resolve_listed hlocateBelow hreadBelow holds_listedConfig ["/p/m.ts"] none .null
    have hs : s.files = ["/p/a.d.ts", "/b.d.ts", "/p/m.ts"] :=
      hfiles.trans (congrArg (· ++ ["/p/m.ts"]) hbase)
    refine ⟨s, hends, hs, fun hsame => ?_⟩
    have heq := hs.symm.trans ((hiff.2 hsame).trans (congrArg (· ++ ["/p/m.ts"]) hbelow))
    exact absurd heq (by decide)
  · obtain ⟨s, hends, -, -, hdefault⟩ :=
      resolve_listed hlocate hread holds_listedConfig ["/p/m.ts"] none .null
    exact ⟨s, hends, hdefault rfl (by decide)⟩

end Settings

end DeclBundle
