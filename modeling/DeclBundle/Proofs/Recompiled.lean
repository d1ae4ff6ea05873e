import DeclBundle.Proofs.Compilation
import DeclBundle.Proofs.Revisited

/-!
# Compiling again

While the compiler runs, the files of a first run and of a second one change alike (`Revisited`), if the
output of the first lies apart from all that is looked for (`Probes`). So a run that came to a program comes
to the same program again and tells the same (`Compiler.repeats_create`).
-/

namespace DeclBundle

variable {α : Type}

open DeclBundle.Action FileSystem

namespace Compiler

variable {site : Site} {fs fs' : FileSystem} {out : Place} {baseDir dir p : String}
  {steps : List (List Char)}

/-- The steps from the directory for declarations to the declarations of a file. -/
def wayTo (site : Site) (baseDir p : String) : List String :=
  FileSystem.steps (Path.relative site.cwd (Module.declarationPath p) baseDir)

variable {ss ts : List (List Char)}

theorem mem_lead (htarget : Path.Rooted (Path.absolute site.cwd (Module.declarationPath p)).toList ts) :
    ∀ s ∈ Path.lead ss ts, s ≠ [] ∧ '/' ∉ s := by
  intro s hs
  obtain ⟨n, rest, hlead, hrest⟩ := Path.lead_eq ss ts
  rw [hlead] at hs
  rcases List.mem_append.1 hs with hs | hs
  · rw [List.eq_of_mem_replicate hs]
    decide
  · obtain ⟨hordinary, hslash⟩ := htarget.1 s (hrest s hs)
    exact ⟨hordinary.1, hslash⟩

theorem wayTo_eq (hbase : Path.Rooted (Path.absolute site.cwd baseDir).toList ss)
    (htarget : Path.Rooted (Path.absolute site.cwd (Module.declarationPath p)).toList ts) :
    wayTo site baseDir p =
      if Path.lead ss ts = [] then ["."] else (Path.lead ss ts).map String.ofList := by
  rw [wayTo, FileSystem.steps, Path.relative, String.toList_ofList, hbase.stepsOf_eq, htarget.stepsOf_eq,
    Path.pieces_write (mem_lead htarget)]
  split <;> rfl

/-- The way to the declarations of a file leads through the directory for declarations. -/
theorem steps_emittedPath (hcwd : Path.isAbsolute site.cwd = true) (hdir : Path.Rooted dir.toList steps)
    (hne : steps ≠ []) (baseDir p : String) :
    FileSystem.steps (emittedPath site baseDir dir p) = FileSystem.steps dir ++ wayTo site baseDir p := by
  obtain ⟨ss, hbase⟩ := Path.rooted_absolute hcwd baseDir
  obtain ⟨ts, htarget⟩ := Path.rooted_absolute hcwd (Module.declarationPath p)
  obtain ⟨above, s, rfl⟩ := (List.eq_nil_or_concat steps).resolve_left hne
  rw [List.concat_eq_append] at hdir
  obtain ⟨cs, c, hcs, hc⟩ := hdir.exists_append_ne_slash
  have hbelow : ¬ (dir.toList = [] ∨ dir.toList.getLast? = some '/') := by simp [hcs, hc]
  have hhead : (Path.relative site.cwd (Module.declarationPath p) baseDir).toList.head? ≠ some '/' := by
    rw [Path.relative, String.toList_ofList, hbase.stepsOf_eq, htarget.stepsOf_eq]
    exact Path.head?_write_ne_slash (mem_lead htarget)
  rw [wayTo, FileSystem.steps, FileSystem.steps, FileSystem.steps, emittedPath, Path.join,
    String.toList_ofList, Path.below_of_ne_slash hhead, if_neg hbelow, Text.pieces_append, List.map_append]

theorem exists_wayTo_eq (hcwd : Path.isAbsolute site.cwd = true) (baseDir p : String) :
    ∃ n rest, wayTo site baseDir p = List.replicate n ".." ++ rest ∧ ".." ∉ rest := by
  obtain ⟨ss, hbase⟩ := Path.rooted_absolute hcwd baseDir
  obtain ⟨ts, htarget⟩ := Path.rooted_absolute hcwd (Module.declarationPath p)
  rw [wayTo_eq hbase htarget]
  split
  case isTrue => exact ⟨0, ["."], rfl, by decide⟩
  case isFalse =>
    obtain ⟨n, rest, hlead, hrest⟩ := Path.lead_eq ss ts
    refine ⟨n, rest.map String.ofList, ?_, up_not_mem_of_ordinary fun s hs => (htarget.1 s (hrest s hs)).1⟩
    rw [hlead, List.map_append, List.map_replicate]
    rfl

/-- The declarations of a file are found again, if they were found, and only then. -/
theorem find?_emittedPath (hcwd : Path.isAbsolute site.cwd = true) (hdir : Path.Rooted dir.toList steps)
    (hne : steps ≠ []) (h : Revisited out (placeOf dir) fs fs') (htop : ¬ placeOf dir <+: out)
    (hoff : ¬ placeOf (Path.normalize (emittedPath site baseDir dir p)) <+: out) :
    fs'.find? site.cwd (emittedPath site baseDir dir p) =
      fs.find? site.cwd (emittedPath site baseDir dir p) := by
  have habsolute : Path.isAbsolute (emittedPath site baseDir dir p) = true :=
    Path.isAbsolute_join_of_left (Path.isAbsolute_iff.2 hdir.exists_cons) _
  have hjoin : Path.join site.cwd (emittedPath site baseDir dir p) = emittedPath site baseDir dir p := by
    rw [Path.join, Path.below_of_isAbsolute _ habsolute, String.ofList_toList]
  have hagree : ∀ q, q <+: placeOf dir → fs'.get? q = fs.get? q := fun q hq =>
    h.get?_eq_of_prefix htop hq
  obtain ⟨n, rest, hway, hup⟩ := exists_wayTo_eq hcwd baseDir p
  have hsteps : FileSystem.steps (emittedPath site baseDir dir p) =
      FileSystem.steps dir ++ List.replicate n ".." ++ rest := by
    rw [steps_emittedPath hcwd hdir hne, hway, List.append_assoc]
  have hdown : fs'.follow [] (FileSystem.steps dir) = fs.follow [] (FileSystem.steps dir) := by
    refine follow_congr hagree (up_not_mem_steps hdir) ?_
    simp only [filter_steps hdir, List.nil_append, List.prefix_rfl]
  refine find?_eq_of_append h.touches h.gap (hjoin.symm ▸ hsteps) ?_ hup fun l hl => ?_
  · rw [follow_append, follow_append, hdown]
    cases hm : fs.follow [] (FileSystem.steps dir) with
    | error c => rfl
    | ok m =>
        refine follow_replicate_congr hagree n ?_
        simp only [follow_eq_ok (up_not_mem_steps hdir) hm, filter_steps hdir, List.nil_append,
          List.prefix_rfl]
  · rwa [place_eq_placeOf_absolute hcwd hl, Path.absolute_of_isAbsolute habsolute]

theorem repeats_readDeclaration (hfind : Path.isUnder baseDir p = true → Module.isDeclaration p = false →
      fs'.find? site.cwd (emittedPath site baseDir dir p) =
        fs.find? site.cwd (emittedPath site baseDir dir p))
    {R : FileSystem → FileSystem → Prop} (h : R fs fs') (found : List (String × String)) :
    (readDeclaration site baseDir dir found p fs).Repeats R
      (readDeclaration site baseDir dir found p fs') := by
  unfold readDeclaration
  split
  case isTrue => exact repeats_pure found h
  case isFalse hprobed =>
    simp only [Bool.or_eq_true, Bool.not_eq_true', not_or, Bool.not_eq_true, Bool.not_eq_false] at hprobed
    have hnone : ((do
        note .debug ("No declaration emitted for " ++ p)
        pure found) fs).Repeats R ((do
        note .debug ("No declaration emitted for " ++ p)
        pure found) fs') :=
      repeats_bind (repeats_note _ _ h) fun _ _ _ _ hrel => repeats_pure found hrel
    rw [bind_of_untold (files_apply fs), bind_of_untold (files_apply fs'), hfind hprobed.2 hprobed.1]
    match fs.find? site.cwd (emittedPath site baseDir dir p) with
    | some (.file content) =>
        dsimp only
        cases Text.decode? content with
        | some text => exact repeats_pure _ h
        | none => exact repeats_fail _ _
    | some .directory => exact hnone
    | none => exact hnone

theorem repeats_readDeclarations (hcwd : Path.isAbsolute site.cwd = true)
    (hdir : Path.Rooted dir.toList steps) (hne : steps ≠ []) (htop : ¬ placeOf dir <+: out)
    {files : List String} (hoff : ∀ p ∈ files, Path.isUnder baseDir p = true → Module.isDeclaration p = false →
      ¬ placeOf (Path.normalize (emittedPath site baseDir dir p)) <+: out)
    (h : Revisited out (placeOf dir) fs fs') (found : List (String × String)) :
    (readDeclarations site baseDir dir found files fs).Repeats (Revisited out (placeOf dir))
      (readDeclarations site baseDir dir found files fs') := by
  induction files generalizing found fs fs' with
  | nil => exact repeats_pure found h
  | cons p files ih =>
      obtain ⟨hp, hfiles⟩ := List.forall_mem_cons.1 hoff
      refine repeats_bind (R := Revisited out (placeOf dir)) ?_ fun found _ _ _ hrel => ih hfiles hrel found
      exact repeats_readDeclaration (fun hunder hdecl =>
        find?_emittedPath hcwd hdir hne h htop (hp hunder hdecl)) h found

theorem revisited_plantAll {written : List (String × Option ByteArray)} (h : Revisited out (placeOf dir) fs fs')
    (htop : ¬ placeOf dir <+: out)
    (hw : ∀ w ∈ written, placeOf dir <+: placeOf (Path.normalize (Path.join dir w.1))) :
    Revisited out (placeOf dir) (plantAll dir written fs) (plantAll dir written fs') := by
  have hne : placeOf dir ≠ [] := fun hnil => htop (hnil ▸ List.nil_prefix)
  have hoff : ∀ q, placeOf dir <+: q → ¬ q <+: out := fun q hq hout => htop (hq.trans hout)
  refine plantAll_rel hw hne (fun c c' q hc hq => ?_) (fun c c' hc r hr hr' => ?_) (fun c c' q e hc hq => ?_) h
  · rcases hq with hq | hq
    · rw [hc.touches.off q (hoff q hq)]
    · rw [hc.get?_eq_of_prefix htop hq]
  · rw [hc.above r hr hr']
    exact Option.some_ne_none _
  · refine hc.put (hoff q hq) (fun hq' => hq'.eq_of_length_le hq.length_le) (fun m hm hout => ?_) e
    have habove : m <+: placeOf dir :=
      (List.prefix_or_prefix_of_prefix hq hm).resolve_left fun hle => htop (hle.trans hout)
    rw [hc.above m habove fun heq => htop (heq ▸ hout)]
    exact Option.some_ne_none _

theorem repeats_perform (hw : site.WritesBelow) (htop : ¬ placeOf (declarationDir site) <+: out)
    (h : Revisited out (placeOf (declarationDir site)) fs fs') (c : CompilerCall) :
    (perform site (declarationDir site) c fs).Repeats (Revisited out (placeOf (declarationDir site)))
      (perform site (declarationDir site) c fs') := by
  have hfiles := revisited_plantAll h htop (hw c)
  rw [← files_perform, ← files_perform] at hfiles
  have hsame : (perform site (declarationDir site) c fs').result =
        (perform site (declarationDir site) c fs).result ∧
      (perform site (declarationDir site) c fs').events =
        (perform site (declarationDir site) c fs).events := by
    unfold perform
    rw [bind_of_told (tell_apply _ fs), bind_of_told (tell_apply _ fs')]
    cases site.answer c with
    | timedOut written => exact ⟨rfl, rfl⟩
    | refused code text => exact ⟨rfl, rfl⟩
    | finished output errors status written =>
        dsimp only
        split
        · exact ⟨rfl, rfl⟩
        · exact ⟨rfl, rfl⟩
  exact fun output houtput => ⟨hsame.1.trans houtput, hsame.2, hfiles⟩

theorem repeats_readReport {R : FileSystem → FileSystem → Prop} (h : R fs fs') (baseDir output : String) :
    (readReport baseDir output fs).Repeats R (readReport baseDir output fs') := by
  unfold readReport
  obtain ⟨report, bad⟩ := Report.read baseDir output
  refine repeats_bind (R := R) ?_ fun _ _ _ _ hrel => ?_
  · rw [List.forM_eq_forM]
    exact repeats_forM (f := fun l => note .debug ("Ignoring compiler output line: " ++ l))
      (fun _ _ _ hrel => repeats_note _ _ hrel) _ h
  · cases bad with
    | some b => exact repeats_fail _ _
    | none => exact repeats_pure _ hrel

/-- The path of the program in a base directory, under one of its names. -/
def localPath (baseDir n : String) : String :=
  Path.join (Path.join (Path.join baseDir "node_modules") ".bin") n

/-- The paths at which a run that found some files and told some events looked for the compiler, at which it
put something temporary, and at which it looked for declarations. -/
inductive Probes (site : Site) (executable : Value) (baseDir : String) (fs : FileSystem)
    (events : List Event) : String → Prop
  | program {before after : List String} {n : String}
      (hset : (configured site executable).isTruthy = false) (hnames : localNames = before ++ n :: after)
      (hmissing : ∀ m ∈ before, fs.isFile site.cwd (localPath baseDir m) = false) :
      Probes site executable baseDir fs events (localPath baseDir n)
  | directory : Probes site executable baseDir fs events (declarationDir site)
  | configuration : Probes site executable baseDir fs events (configPath site baseDir)
  | declarations {c : CompilerCall} {output errors : String} {status : Int}
      {written : List (String × Option ByteArray)} {p : String} (hcall : Event.call c ∈ events)
      (hanswer : site.answer c = .finished output errors status written)
      (hp : p ∈ (Report.read baseDir output).1.files) (hunder : Path.isUnder baseDir p = true)
      (hdecl : Module.isDeclaration p = false) :
      Probes site executable baseDir fs events (emittedPath site baseDir (declarationDir site) p)

variable {executable timeout : Value} {options : Record} {files : List String} {words : List String}
  {found : FileSystem} {events : List Event}

theorem place_of_createFile {path text : String} {ss : List (List Char)} {configured : FileSystem}
    (hpath : Path.Rooted path.toList ss) (h : createFile site path text fs = .ok configured) :
    fs.place site.cwd path = .ok (placeOf path) := by
  unfold createFile at h
  split at h
  · cases h
  case h_2 l hplace => rwa [← place_eq_placeOf hpath hplace]

theorem revisited_createFile {path text : String} {ss : List (List Char)} {configured : FileSystem}
    (hpath : Path.Rooted path.toList ss) (h : Revisited out top fs fs') (hout : ¬ placeOf path <+: out)
    (hcreate : createFile site path text fs = .ok configured) :
    (placeOf path <+: top → placeOf path = top) ∧ ∃ configured',
      createFile site path text fs' = .ok configured' ∧ Revisited out top configured configured' := by
  obtain ⟨hnone, hput⟩ := eq_put_of_createFile hpath hcreate
  have hplace := place_of_createFile hpath hcreate
  have htop : placeOf path <+: top → placeOf path = top := by
    intro hle
    by_contra hne
    rw [h.above _ hle hne] at hnone
    cases hnone
  have hplace' := place_mono (fun q => h.touches.directory) hplace
  have hnone' := (h.touches.off _ hout).trans hnone
  refine ⟨htop, fs'.put (placeOf path) (.file (Text.encode text)), ?_, ?_⟩
  · simp [createFile, hplace', hnone']
  · rw [hput]
    refine h.put hout htop (fun m hm hout' => ?_) _
    rw [directory_of_place hplace hm fun heq => hout (heq ▸ hout')]
    exact Option.some_ne_none _

/-- The compiler comes to the same program again, once the directory for declarations is there. -/
theorem repeats_createIn (hsite : site.IsRegular) (hw : site.WritesBelow)
    (hapart : IsApart (Probes site executable baseDir found events) out)
    (hcall : Event.call (callOf site words baseDir (declarationDir site) options files timeout) ∈ events)
    (h : Revisited out (placeOf (declarationDir site)) fs fs') :
    (createIn site words baseDir (declarationDir site) options files timeout fs).Repeats
      (Revisited out (placeOf (declarationDir site)))
      (createIn site words baseDir (declarationDir site) options files timeout fs') := by
  obtain ⟨ss, hdir⟩ := rooted_declarationDir hsite
  obtain ⟨ss', hpath⟩ := rooted_configPath hsite baseDir
  have htop := hapart _ .directory
  rw [hdir.normalize_eq] at htop
  have hconfig := hapart _ .configuration
  rw [hpath.normalize_eq] at hconfig
  have hne : ss ≠ [] := by
    rintro rfl
    exact htop (by rw [placeOf_eq hdir]; exact List.nil_prefix)
  unfold createIn
  refine repeats_bind (R := Revisited out (placeOf (declarationDir site))) (repeats_change fun left hleft => ?_)
    fun _ left left' hleft hrel => ?_
  · obtain ⟨-, hagain⟩ := revisited_createFile hpath h hconfig hleft
    exact hagain
  have hplace := (revisited_createFile hpath h hconfig (ends_change_iff.1 hleft)).1
  refine repeats_bind (R := Revisited out (placeOf (declarationDir site)))
    (repeats_ofExcept (fun _ hu => hu) hrel) fun _ whole whole' hwhole hrel => ?_
  obtain ⟨-, rfl⟩ := ends_ofExcept_iff.1 hwhole
  refine repeats_bind (R := Revisited out (placeOf (declarationDir site)))
    (repeats_tidying (R := Revisited out (placeOf (declarationDir site))) ?_ fun c c' hc => ?_)
    fun output c c' houtput hc => ?_
  · exact repeats_bind (repeats_note _ _ hrel) fun _ _ _ _ hrel' => repeats_perform hw htop hrel' _
  · refine hc.without (fun q hq => ?_) fun q hq => ?_
    · rwa [eq_of_beq hq]
    · rwa [eq_of_beq hq]
  · obtain ⟨_, hperform, -⟩ := ends_tidying_iff.1 houtput
    simp only [ends_bind_iff, ends_perform_iff] at hperform
    obtain ⟨_, _, -, errors, status, written, hanswer, -, -⟩ := hperform
    refine repeats_bind (R := Revisited out (placeOf (declarationDir site))) (repeats_readReport hc _ _)
      fun report d d' hreport hd => ?_
    rw [ends_readReport_iff] at hreport
    simp only [programOf]
    split
    case isFalse => exact repeats_fail _ _
    case isTrue =>
      refine repeats_bind (R := Revisited out (placeOf (declarationDir site))) ?_
        fun _ _ _ _ hrel' => repeats_pure _ hrel'
      refine repeats_readDeclarations hsite.cwd hdir hne htop (fun p hp hunder hdecl => ?_) hd []
      exact hapart _ (.declarations hcall hanswer (by rwa [hreport.1]) hunder hdecl)

theorem rooted_localPath {n : String} (hn : n ∈ localNames) {ss : List (List Char)}
    (hbase : Path.Rooted baseDir.toList ss) :
    ∃ ss', Path.Rooted (localPath baseDir n).toList ss' := by
  have hnames : ∀ n ∈ "node_modules" :: ".bin" :: localNames,
      Path.Ordinary n.toList ∧ '/' ∉ n.toList := by
    unfold Path.Ordinary
    decide
  simp only [List.forall_mem_cons] at hnames
  obtain ⟨hmodules, hbin, hnames⟩ := hnames
  simp only [localPath, Path.join, String.toList_ofList]
  exact ⟨_, ((hbase.rooted_below hmodules.1 hmodules.2).rooted_below hbin.1 hbin.2).rooted_below
    (hnames n hn).1 (hnames n hn).2⟩

/-- The first of some things with a property is found again if the property is tested alike up to there. -/
theorem find?_congr_upto {p q : α → Bool} {l : List α} (h : ∀ before a after, l = before ++ a :: after →
    (∀ m ∈ before, p m = false) → q a = p a) : l.find? q = l.find? p := by
  induction l with
  | nil => rfl
  | cons a l ih =>
      rw [List.find?_cons, List.find?_cons, h [] a l rfl nofun]
      cases hp : p a with
      | true => rfl
      | false =>
          refine ih fun before b after hl hbefore => h (a :: before) b after (by rw [hl, List.cons_append]) ?_
          exact List.forall_mem_cons.2 ⟨hp, hbefore⟩

theorem command_revisited {ss : List (List Char)} (hbase : Path.Rooted baseDir.toList ss)
    (hapart : IsApart (Probes site executable baseDir fs events) out) (h : TouchesOnly out fs fs')
    (hgap : fs.HasNoGap out) :
    command site fs' baseDir executable = command site fs baseDir executable := by
  simp only [command]
  split
  case isTrue => rfl
  case isFalse hset =>
    have hlocal : local? site fs' baseDir = local? site fs baseDir := by
      rw [local?, local?, List.find?_map, List.find?_map]
      refine congrArg _ (find?_congr_upto fun before n after hnames hmissing => ?_)
      have hn : n ∈ localNames := hnames ▸ List.mem_append_right before List.mem_cons_self
      obtain ⟨ss', hpath⟩ := rooted_localPath hn hbase
      have hoff := hapart _ (.program (by simpa using hset) hnames hmissing)
      rw [hpath.normalize_eq] at hoff
      have hfind := find?_eq_of_rooted site.cwd h hgap hpath hoff
      rw [localPath] at hfind
      simp only [Function.comp_apply, isFile, hfind]
    rw [hlocal]

/-- The compiler comes to the same program again, if it is called as was told. -/
theorem repeats_create_of_called (hsite : site.IsRegular) (hw : site.WritesBelow) {ss : List (List Char)}
    (hbase : Path.Rooted baseDir.toList ss)
    (hapart : IsApart (Probes site executable baseDir fs events) out)
    (hcall : ∀ words, command site fs baseDir executable = .ok words →
      Event.call (callOf site words baseDir (declarationDir site) options files timeout) ∈ events)
    (h : TouchesOnly out fs fs') (hgap : fs.HasNoGap out) :
    (create site executable timeout baseDir options files fs).Repeats (fun _ _ => True)
      (create site executable timeout baseDir options files fs') := by
  obtain ⟨ss', hdir⟩ := rooted_declarationDir hsite
  have htop := hapart _ .directory
  rw [hdir.normalize_eq] at htop
  unfold create
  rw [bind_of_untold (files_apply fs), bind_of_untold (files_apply fs'), command_revisited hbase hapart h hgap]
  refine repeats_bind (R := fun c c' => c = fs ∧ c' = fs') (repeats_ofExcept (fun _ ha => ha) ⟨rfl, rfl⟩)
    fun words c c' hwords hc => ?_
  rw [hc.1, hc.2]
  refine repeats_bind (R := Revisited out (placeOf (declarationDir site))) (repeats_change fun made hmade => ?_)
    fun _ made made' _ hmade => ?_
  · obtain ⟨hplace, hnone, rfl⟩ := eq_put_of_makeDirectory hdir hmade
    have hplace' := place_mono (fun q => h.directory) hplace
    have hnone' := (h.off _ htop).trans hnone
    have habove : ∀ r, r <+: placeOf (declarationDir site) → r ≠ placeOf (declarationDir site) →
        fs.get? r = some .directory := fun r hr hne => directory_of_place hplace hr hne
    have hrevisited : Revisited out (placeOf (declarationDir site)) fs fs' := ⟨h, habove, hgap⟩
    refine ⟨fs'.put (placeOf (declarationDir site)) .directory, ?_, ?_⟩
    · simp [makeDirectory, hplace', hnone']
    · refine hrevisited.put htop (fun _ => rfl) (fun m hm hout => ?_) _
      rw [habove m hm fun heq => htop (heq ▸ hout)]
      exact Option.some_ne_none _
  · refine repeats_bind (R := fun _ _ => True) (repeats_tidying
      (repeats_createIn hsite hw hapart (hcall words hwords.1) hmade) fun _ _ _ => trivial) fun p _ _ _ _ => ?_
    exact repeats_bind (R := fun _ _ => True) (repeats_note _ _ trivial) fun _ _ _ _ _ =>
      repeats_pure p trivial

theorem repeats_create (hsite : site.IsRegular) (hw : site.WritesBelow) {ss : List (List Char)}
    (hbase : Path.Rooted baseDir.toList ss)
    (hapart : IsApart (Probes site executable baseDir fs events) out)
    (hevents : ∀ e ∈ (create site executable timeout baseDir options files fs).events, e ∈ events)
    (h : TouchesOnly out fs fs') (hgap : fs.HasNoGap out) :
    (create site executable timeout baseDir options files fs).Repeats (fun _ _ => True)
      (create site executable timeout baseDir options files fs') := by
  intro p hp
  refine repeats_create_of_called hsite hw hbase hapart (fun words hwords => ?_) h hgap p hp
  obtain ⟨w⟩ := exists_compilation ⟨hp, rfl⟩
  obtain rfl : w.words = words := Except.ok.inj (w.command_eq.symm.trans hwords)
  exact hevents _ (w.call_mem_events_iff.2 rfl)

end Compiler

end DeclBundle
