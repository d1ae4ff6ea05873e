import DeclBundle.Proofs.Alike
import DeclBundle.Proofs.Renamed
import DeclBundle.Proofs.Repeated

/-!
# Running again under other names

Two runs on the same files that draw different names for what is temporary do the same but for the names
(`Bundler.run_alike`): they make their directories and configurations or fail to for the same cause, the
compiler answers both calls alike, and below either directory lie the same declarations. So a run on the
files that another one left, which does what it would have done on the files that the other one found
(`Bundler.run_again`), is like the other one; by induction all runs are alike, however many there are
(`Bundler.run_repeats`).
-/

namespace DeclBundle

open DeclBundle.Action FileSystem

namespace Compiler

variable {site : Site} {t t' : Tokens} {baseDir p : String} {fs made made' c c' : FileSystem}
  {ss : List (List Char)}

/-- Names that are drawn and that nothing has. The base directory does not go by them either. -/
structure IsFresh (site : Site) (baseDir : String) (fs : FileSystem) (t : Tokens) : Prop where
  drawn : t.AreDrawn
  directory : fs.get? (placeOf (declarationDir (site.named t))) = none
  configuration : fs.get? (placeOf (configPath (site.named t) baseDir)) = none
  apart : ¬ placeOf (declarationDir (site.named t)) <+: placeOf baseDir

/-- The compiler answers calls in the same way that differ in names alone. -/
def AnswersAlike (site : Site) (baseDir : String) (t t' : Tokens) : Prop :=
  ∀ words options files timeout,
    site.answer (callOf (site.named t) words baseDir (declarationDir (site.named t)) options files timeout) =
      site.answer
        (callOf (site.named t') words baseDir (declarationDir (site.named t')) options files timeout)

theorem configPath_eq (hbase : Path.Rooted baseDir.toList ss) (site : Site) (t : Tokens) :
    configPath (site.named t) baseDir = Path.join baseDir (configurationName t) := by
  have habsolute : Path.absolute site.cwd baseDir = baseDir := by
    rw [Path.absolute_of_isAbsolute (Path.isAbsolute_iff.2 hbase.exists_cons), hbase.normalize_eq]
  change Path.join (Path.absolute site.cwd baseDir) (configurationName t) = _
  rw [habsolute]

theorem placeOf_configPath (hbase : Path.Rooted baseDir.toList ss) (site : Site) (ht : t.AreDrawn) :
    placeOf (configPath (site.named t) baseDir) = placeOf baseDir ++ [configurationName t] := by
  rw [configPath_eq hbase, placeOf_join hbase (isName_configurationName ht)]

/-- The paths of both directories for declarations lead to them, or to one fault. -/
theorem place_declarationDir_cases (hsite : site.IsRegular) (ht : t.AreDrawn) (ht' : t'.AreDrawn)
    (fs : FileSystem) :
    (∃ fault, fs.place site.cwd (declarationDir (site.named t)) = .error fault ∧
        fs.place site.cwd (declarationDir (site.named t')) = .error fault) ∨
      fs.place site.cwd (declarationDir (site.named t)) = .ok (placeOf (declarationDir (site.named t))) ∧
        fs.place site.cwd (declarationDir (site.named t')) =
          .ok (placeOf (declarationDir (site.named t'))) := by
  obtain ⟨ss, htemporary⟩ := rooted_temporary hsite
  rw [placeOf_declarationDir hsite ht, placeOf_declarationDir hsite ht']
  exact place_join_cases htemporary (isName_directoryName ht) (isName_directoryName ht') (fun _ _ => rfl) _

/-- Both directories for declarations are made, or neither is for one cause. -/
theorem alike_makeDirectory (hsite : site.IsRegular) (ht : IsFresh site baseDir fs t)
    (ht' : IsFresh site baseDir fs t') :
    (change (fun fs => fs.makeDirectory site.cwd (declarationDir (site.named t))) fs).Alike (site.named t)
      (site.named t') baseDir
      (change (fun fs => fs.makeDirectory site.cwd (declarationDir (site.named t'))) fs) := by
  refine alike_change ?_
  rcases place_declarationDir_cases hsite ht.drawn ht'.drawn fs with
    ⟨fault, hplace, hplace'⟩ | ⟨hplace, hplace'⟩
  · simp only [makeDirectory, hplace, hplace']
    exact .inl ⟨_, rfl, _, rfl, .directory fault⟩
  · simp only [makeDirectory, hplace, hplace', ht.directory, ht'.directory]
    exact .inr ⟨⟨_, rfl⟩, _, rfl⟩

/-- The directories are all that the runs differ in once they are made. -/
theorem renamed_makeDirectory (hsite : site.IsRegular) (hfs : fs.WellFormed)
    (ht : t.AreDrawn) (ht' : t'.AreDrawn)
    (hmade : fs.makeDirectory site.cwd (declarationDir (site.named t)) = .ok made)
    (hmade' : fs.makeDirectory site.cwd (declarationDir (site.named t')) = .ok made') :
    Renamed (placeOf site.temporary) (directoryName t) (directoryName t') made made' := by
  obtain ⟨ss, hdir⟩ := rooted_declarationDir (isRegular_named hsite ht)
  obtain ⟨ss', hdir'⟩ := rooted_declarationDir (isRegular_named hsite ht')
  obtain ⟨hplace, hnone, rfl⟩ := eq_put_of_makeDirectory hdir hmade
  obtain ⟨-, hnone', rfl⟩ := eq_put_of_makeDirectory hdir' hmade'
  rw [placeOf_declarationDir hsite ht] at hplace hnone ⊢
  rw [placeOf_declarationDir hsite ht'] at hnone' ⊢
  have hne : ∀ x, placeOf site.temporary ++ [x] ≠ [] := fun x => by simp
  refine ⟨fun r => ?_, fun q hq hq' => ?_, fun q hq => ?_⟩
  · rw [get?_put _ (hne _), get?_put _ (hne _)]
    by_cases hr : r = []
    · subst hr
      simp
    · rw [if_neg (by simpa using Ne.symm hr), if_neg (by simpa using Ne.symm hr),
        hfs.get?_eq_none hnone (List.prefix_append _ r), hfs.get?_eq_none hnone' (List.prefix_append _ r)]
  · have hother : ∀ {x}, ¬ placeOf site.temporary ++ [x] <+: q → placeOf site.temporary ++ [x] ≠ q :=
      fun hnot heq => hnot (heq ▸ List.prefix_rfl)
    rw [get?_put _ (hne _), get?_put _ (hne _), if_neg (hother hq), if_neg (hother hq')]
  · have hother : placeOf site.temporary ++ [directoryName t] ≠ q := fun heq =>
      not_below_above hq (directoryName t) (heq ▸ List.prefix_rfl)
    rw [get?_put _ (hne _), if_neg hother]
    exact directory_of_place hplace (hq.trans (List.prefix_append _ _)) hother.symm

theorem concat_configurationName_ne (above above' : Place) (t t' : Tokens) :
    above ++ [configurationName t] ≠ above' ++ [directoryName t'] := fun heq =>
  configurationName_ne_directoryName t t' (List.singleton_inj.1 (List.append_inj' heq rfl).2)

/-- With the directory for declarations made, the name of the configuration is free. -/
theorem free_configPath (hsite : site.IsRegular) (hbase : Path.Rooted baseDir.toList ss)
    (ht : IsFresh site baseDir fs t)
    (hmade : fs.makeDirectory site.cwd (declarationDir (site.named t)) = .ok made) :
    made.get? (placeOf (configPath (site.named t) baseDir)) = none := by
  obtain ⟨ss, hdir⟩ := rooted_declarationDir (isRegular_named hsite ht.drawn)
  obtain ⟨-, hnone, rfl⟩ := eq_put_of_makeDirectory hdir hmade
  have hother : placeOf (declarationDir (site.named t)) ≠ placeOf (configPath (site.named t) baseDir) := by
    rw [placeOf_declarationDir hsite ht.drawn, placeOf_configPath hbase site ht.drawn]
    exact (concat_configurationName_ne _ _ t t).symm
  rw [get?_put _ (ne_nil_of_free hnone), if_neg hother, ht.configuration]

/-- The base directory lies outside the directory for declarations, and so do those above it. -/
theorem IsFresh.not_prefix (ht : IsFresh site baseDir fs t) (hsite : site.IsRegular) {q : Place}
    (hq : q <+: placeOf baseDir) : ¬ placeOf site.temporary ++ [directoryName t] <+: q := by
  intro hle
  refine ht.apart ?_
  rw [placeOf_declarationDir hsite ht.drawn]
  exact hle.trans hq

/-- Both configurations are put in place, or neither is for one cause. -/
theorem alike_createFile (hsite : site.IsRegular) (hbase : Path.Rooted baseDir.toList ss)
    (ht : IsFresh site baseDir fs t) (ht' : IsFresh site baseDir fs t')
    (hmade : fs.makeDirectory site.cwd (declarationDir (site.named t)) = .ok made)
    (hmade' : fs.makeDirectory site.cwd (declarationDir (site.named t')) = .ok made')
    (hrenamed : Renamed (placeOf site.temporary) (directoryName t) (directoryName t') made made')
    (text text' : String) :
    (change (createFile (site.named t) (configPath (site.named t) baseDir) text) made).Alike (site.named t)
      (site.named t') baseDir
      (change (createFile (site.named t') (configPath (site.named t') baseDir) text') made') := by
  have hnone := free_configPath hsite hbase ht hmade
  have hnone' := free_configPath hsite hbase ht' hmade'
  have hagree : ∀ q, q <+: placeOf baseDir → made'.get? q = made.get? q := fun q hq =>
    (hrenamed.off q (ht.not_prefix hsite hq) (ht'.not_prefix hsite hq)).symm
  have hcases := place_join_cases hbase (isName_configurationName ht.drawn)
    (isName_configurationName ht'.drawn) hagree site.cwd
  rw [← configPath_eq hbase site t, ← configPath_eq hbase site t', ← placeOf_configPath hbase site ht.drawn,
    ← placeOf_configPath hbase site ht'.drawn] at hcases
  refine alike_change ?_
  rcases hcases with ⟨fault, hplace, hplace'⟩ | ⟨hplace, hplace'⟩
  · simp only [createFile, Site.named_cwd, hplace, hplace']
    exact .inl ⟨_, rfl, _, rfl, .configuration fault⟩
  · simp only [createFile, Site.named_cwd, hplace, hplace', hnone, hnone']
    exact .inr ⟨⟨_, rfl⟩, _, rfl⟩

theorem alike_perform (hanswers : AnswersAlike site baseDir t t') (words : List String) (options : Record)
    (files : List String) (timeout : Value) :
    (perform (site.named t) (declarationDir (site.named t))
      (callOf (site.named t) words baseDir (declarationDir (site.named t)) options files timeout) c).Alike
        (site.named t) (site.named t') baseDir
      (perform (site.named t') (declarationDir (site.named t'))
        (callOf (site.named t') words baseDir (declarationDir (site.named t')) options files timeout) c') := by
  have hanswer : (site.named t).answer
      (callOf (site.named t) words baseDir (declarationDir (site.named t)) options files timeout) =
      (site.named t').answer
        (callOf (site.named t') words baseDir (declarationDir (site.named t')) options files timeout) :=
    hanswers words options files timeout
  have hhead : (callWords (site.named t) baseDir words).head? =
      (callWords (site.named t') baseDir words).head? := by
    cases words with
    | nil => rfl
    | cons w words => rfl
  have hplanted {dir dir' : String} {written : List (String × Option ByteArray)} (left left' : FileSystem) :
      (change (fun fs => .ok (plantAll dir written fs)) left).Alike (site.named t) (site.named t') baseDir
        (change (fun fs => .ok (plantAll dir' written fs)) left') := alike_change (.inr ⟨⟨_, rfl⟩, _, rfl⟩)
  unfold perform
  refine alike_bind (alike_tell (.call words options files timeout)) fun _ left left' _ _ => ?_
  rw [hanswer]
  cases (site.named t').answer
    (callOf (site.named t') words baseDir (declarationDir (site.named t')) options files timeout) with
  | timedOut written =>
      exact alike_bind (hplanted left left') fun _ _ _ _ _ => alike_fail (.invocation words _ _)
  | refused code text =>
      refine alike_fail ?_
      have hfault : (callOf (site.named t) words baseDir (declarationDir (site.named t)) options files
          timeout).command.head? = (callOf (site.named t') words baseDir (declarationDir (site.named t'))
            options files timeout).command.head? := hhead
      rw [hfault]
      exact .invocation words _ _
  | finished output errors status written =>
      refine alike_bind (hplanted left left') fun _ _ _ _ _ => ?_
      split
      · exact alike_pure output
      · exact alike_fail (.invocation words _ _)

theorem alike_readReport {s s' : Site} (baseDir dir output : String) (c c' : FileSystem) :
    (readReport dir output c).Alike s s' baseDir (readReport dir output c') := by
  unfold readReport
  obtain ⟨report, bad⟩ := Report.read dir output
  refine alike_bind ?_ fun _ left left' _ _ => ?_
  · rw [List.forM_eq_forM]
    exact alike_forM (f := fun l => .entry .debug ("Ignoring compiler output line: " ++ l)) report.ignored
  · cases bad with
    | some b => exact alike_fail (.same _)
    | none => exact alike_pure report

theorem alike_readDeclaration (hfind : Path.isUnder baseDir p = true → Module.isDeclaration p = false →
      c.find? site.cwd (emittedPath (site.named t) baseDir (declarationDir (site.named t)) p) =
        c'.find? site.cwd (emittedPath (site.named t') baseDir (declarationDir (site.named t')) p))
    (found : List (String × String)) :
    (readDeclaration (site.named t) baseDir (declarationDir (site.named t)) found p c).Alike (site.named t)
      (site.named t') baseDir
      (readDeclaration (site.named t') baseDir (declarationDir (site.named t')) found p c') := by
  unfold readDeclaration
  split
  case isTrue => exact alike_pure found
  case isFalse hprobed =>
    simp only [Bool.or_eq_true, Bool.not_eq_true', not_or, Bool.not_eq_true, Bool.not_eq_false] at hprobed
    have hnone : ((do
        note .debug ("No declaration emitted for " ++ p)
        pure found) c).Alike (site.named t) (site.named t') baseDir ((do
        note .debug ("No declaration emitted for " ++ p)
        pure found) c') := alike_bind (alike_tell (.same _)) fun _ _ _ _ _ => alike_pure found
    rw [bind_of_untold (files_apply c), bind_of_untold (files_apply c'), Site.named_cwd, Site.named_cwd,
      hfind hprobed.2 hprobed.1]
    match c'.find? site.cwd (emittedPath (site.named t') baseDir (declarationDir (site.named t')) p) with
    | some (.file content) =>
        dsimp only
        cases Text.decode? content with
        | some text => exact alike_pure _
        | none => exact alike_fail (.same _)
    | some .directory => exact hnone
    | none => exact hnone

theorem alike_readDeclarations (hsite : site.IsRegular) (hbase : Path.Rooted baseDir.toList ss)
    (ht : t.AreDrawn) (ht' : t'.AreDrawn)
    (hc : c.place site.cwd (declarationDir (site.named t)) = .ok (placeOf (declarationDir (site.named t))))
    (hc' : c'.place site.cwd (declarationDir (site.named t')) = .ok (placeOf (declarationDir (site.named t'))))
    (hrenamed : Renamed (placeOf site.temporary) (directoryName t) (directoryName t') c c')
    {files : List String} (hfiles : ∀ p ∈ files, ∃ ps, Path.Rooted p.toList ps)
    (found : List (String × String)) :
    (readDeclarations (site.named t) baseDir (declarationDir (site.named t)) found files c).Alike
      (site.named t) (site.named t') baseDir
      (readDeclarations (site.named t') baseDir (declarationDir (site.named t')) found files c') := by
  induction files generalizing found with
  | nil => exact alike_pure found
  | cons p files ih =>
      obtain ⟨⟨ps, hp⟩, hrest⟩ := List.forall_mem_cons.1 hfiles
      refine alike_bind (alike_readDeclaration (fun hunder _ =>
        find?_emittedPath_renamed hsite ht ht' hbase hp hunder hc hc' hrenamed) found)
        fun found left left' hleft hleft' => ?_
      obtain rfl : c = left := (looks_readDeclaration _ _ _ _ _ c).1.symm.trans hleft.2
      obtain rfl : c' = left' := (looks_readDeclaration _ _ _ _ _ c').1.symm.trans hleft'.2
      exact ih hrest found

variable {options : Record} {files words : List String} {timeout executable : Value}

/-- The directory for declarations is where it was made while there are directories above it. -/
theorem place_of_directories (hsite : site.IsRegular) (ht : t.AreDrawn)
    (hmade : fs.makeDirectory site.cwd (declarationDir (site.named t)) = .ok made)
    (hc : ∀ q, q <+: placeOf site.temporary → c.get? q = some .directory) :
    c.place site.cwd (declarationDir (site.named t)) = .ok (placeOf (declarationDir (site.named t))) := by
  obtain ⟨ss, htemporary⟩ := rooted_temporary hsite
  obtain ⟨ss', hdir⟩ := rooted_declarationDir (isRegular_named hsite ht)
  obtain ⟨hplace, -, -⟩ := eq_put_of_makeDirectory hdir hmade
  have hagree : ∀ q, q <+: placeOf site.temporary → c.get? q = fs.get? q := by
    intro q hq
    rw [placeOf_declarationDir hsite ht] at hplace
    rw [hc q hq, directory_of_place hplace (hq.trans (List.prefix_append _ _))]
    rintro rfl
    exact not_below_above hq (directoryName t) List.prefix_rfl
  rw [placeOf_declarationDir hsite ht]
  rcases place_join_cases htemporary (isName_directoryName ht) (isName_directoryName ht) hagree site.cwd with
    ⟨fault, herror, -⟩ | ⟨-, hok⟩
  · rw [show Path.join site.temporary (directoryName t) = declarationDir (site.named t) from rfl, hplace]
      at herror
    cases herror
  · exact hok

/-- What a call leaves below the one directory it leaves below the other. -/
theorem renamed_called (hsite : site.IsRegular) (hbase : Path.Rooted baseDir.toList ss)
    (ht : IsFresh site baseDir fs t) (ht' : IsFresh site baseDir fs t')
    (hmade : fs.makeDirectory site.cwd (declarationDir (site.named t)) = .ok made)
    (hmade' : fs.makeDirectory site.cwd (declarationDir (site.named t')) = .ok made')
    (hrenamed : Renamed (placeOf site.temporary) (directoryName t) (directoryName t') made made')
    {written : List (String × Option ByteArray)}
    (hw : ∀ w ∈ written, ∃ r, placeOf (Path.normalize (Path.join (declarationDir (site.named t)) w.1)) =
        placeOf site.temporary ++ [directoryName t] ++ r ∧
      placeOf (Path.normalize (Path.join (declarationDir (site.named t')) w.1)) =
        placeOf site.temporary ++ [directoryName t'] ++ r) (e e' : Entry) :
    Renamed (placeOf site.temporary) (directoryName t) (directoryName t')
      ((plantAll (declarationDir (site.named t)) written
        (made.put (placeOf (configPath (site.named t) baseDir)) e)).without
          (· == placeOf (configPath (site.named t) baseDir)))
      ((plantAll (declarationDir (site.named t')) written
        (made'.put (placeOf (configPath (site.named t') baseDir)) e')).without
          (· == placeOf (configPath (site.named t') baseDir))) := by
  -- The configuration lies neither above what is planted nor in the directory.
  have hoff : ∀ {t made r}, IsFresh site baseDir fs t →
      fs.makeDirectory site.cwd (declarationDir (site.named t)) = .ok made →
      (∀ q, q <+: placeOf site.temporary → made.get? q = some .directory) →
      ¬ placeOf (configPath (site.named t) baseDir) <+: placeOf site.temporary ++ [directoryName t] ++ r := by
    intro t made r ht hmade hdir hle
    have hfree := free_configPath hsite hbase ht hmade
    rw [placeOf_configPath hbase site ht.drawn] at hfree hle
    rcases List.prefix_or_prefix_of_prefix hle (List.prefix_append _ r) with habove | hbelow
    · rcases List.prefix_concat_iff.1 habove with heq | habove
      · exact concat_configurationName_ne _ _ t t heq
      · rw [hdir _ habove] at hfree
        cases hfree
    · rcases List.prefix_concat_iff.1 hbelow with heq | hbelow
      · exact concat_configurationName_ne _ _ t t heq.symm
      · exact ht.not_prefix hsite List.prefix_rfl hbelow
  have hkept (r : Place) (name : String) : placeOf site.temporary ++ [name] ++ r ≠ [] := by simp
  refine (hrenamed.plantAll hw).congr (get?_plantAll_without (free_configPath hsite hbase ht hmade)
    (fun w hmem => ?_) e) (get?_plantAll_without (free_configPath hsite hbase ht' hmade') (fun w hmem => ?_) e')
  · obtain ⟨r, hr, -⟩ := hw w hmem
    rw [hr]
    exact ⟨hkept r _, hoff ht hmade hrenamed.directory⟩
  · obtain ⟨r, -, hr⟩ := hw w hmem
    rw [hr]
    exact ⟨hkept r _, hoff ht' hmade' fun q hq => hrenamed.directory' hq⟩

/-- The compiler comes to the same program under other names, once the directory for declarations is there. -/
theorem alike_createIn (hsite : site.IsRegular) (hbase : Path.Rooted baseDir.toList ss)
    (hfs : fs.WellFormed) (ht : IsFresh site baseDir fs t) (ht' : IsFresh site baseDir fs t')
    (hw : (site.named t).WritesBelow) (hw' : (site.named t').WritesBelow)
    (hanswers : AnswersAlike site baseDir t t')
    (hcomplete : ∀ dir, (configuration (declarationOptions options baseDir dir) files).obstacle = none)
    (hmade : fs.makeDirectory site.cwd (declarationDir (site.named t)) = .ok made)
    (hmade' : fs.makeDirectory site.cwd (declarationDir (site.named t')) = .ok made') :
    (createIn (site.named t) words baseDir (declarationDir (site.named t)) options files timeout made).Alike
      (site.named t) (site.named t') baseDir
      (createIn (site.named t') words baseDir (declarationDir (site.named t')) options files timeout made') := by
  have hwhole (dir : String) : completed (configuration (declarationOptions options baseDir dir) files) =
      .ok () := completed_eq_ok_iff.2 (hcomplete dir)
  have hrenamed := renamed_makeDirectory hsite hfs ht.drawn ht'.drawn hmade hmade'
  unfold createIn
  refine alike_bind (alike_createFile hsite hbase ht ht' hmade hmade' hrenamed _ _) fun _ left left' hleft
    hleft' => ?_
  rw [hwhole, hwhole]
  refine alike_bind (alike_ofExcept _) fun _ c c' hc hc' => ?_
  obtain ⟨-, rfl⟩ := ends_ofExcept_iff.1 hc
  obtain ⟨-, rfl⟩ := ends_ofExcept_iff.1 hc'
  refine alike_bind (alike_tidying (alike_bind (alike_tell (.running words)) fun _ c c' _ _ =>
    alike_perform hanswers words options files timeout) _ _) fun output c c' hc hc' => ?_
  obtain ⟨_, hconfig⟩ := rooted_configPath (isRegular_named hsite ht.drawn) baseDir
  obtain ⟨_, hconfig'⟩ := rooted_configPath (isRegular_named hsite ht'.drawn) baseDir
  obtain ⟨-, rfl⟩ := eq_put_of_createFile hconfig (ends_change_iff.1 hleft)
  obtain ⟨-, rfl⟩ := eq_put_of_createFile hconfig' (ends_change_iff.1 hleft')
  obtain ⟨_, hperform, rfl⟩ := ends_tidying_iff.1 hc
  obtain ⟨_, hperform', rfl⟩ := ends_tidying_iff.1 hc'
  simp only [ends_bind_iff, ends_note_iff, ends_perform_iff] at hperform hperform'
  obtain ⟨_, _, rfl, errors, status, written, hanswer, -, rfl⟩ := hperform
  obtain ⟨_, _, rfl, errors', status', written', hanswer', -, rfl⟩ := hperform'
  obtain ⟨-, -, -, rfl⟩ := CallOutcome.finished.inj
    (hanswer.symm.trans ((hanswers words options files timeout).trans hanswer'))
  have hwritten : ∀ w ∈ written, ∃ r,
      placeOf (Path.normalize (Path.join (declarationDir (site.named t)) w.1)) =
        placeOf site.temporary ++ [directoryName t] ++ r ∧
      placeOf (Path.normalize (Path.join (declarationDir (site.named t')) w.1)) =
        placeOf site.temporary ++ [directoryName t'] ++ r := fun w hmem =>
    exists_written hsite ht.drawn ht'.drawn (hw _ w (by rw [hanswer]; exact hmem))
      (hw' _ w (by rw [hanswer']; exact hmem))
  refine alike_bind (alike_readReport _ _ _ _ _) fun report d d' hreport hreport' => ?_
  rw [ends_readReport_iff] at hreport hreport'
  obtain ⟨hread, rfl⟩ := hreport
  obtain ⟨-, rfl⟩ := hreport'
  simp only [programOf]
  split
  case isFalse => exact alike_fail (.same _)
  case isTrue =>
    have hcalled := renamed_called hsite hbase ht ht' hmade hmade' hrenamed hwritten
      (.file (Text.encode (configuration (declarationOptions options baseDir
        (declarationDir (site.named t))) files).text))
      (.file (Text.encode (configuration (declarationOptions options baseDir
        (declarationDir (site.named t'))) files).text))
    exact alike_bind (alike_readDeclarations hsite hbase ht.drawn ht'.drawn
      (place_of_directories hsite ht.drawn hmade hcalled.directory)
      (place_of_directories hsite ht'.drawn hmade' fun q hq => hcalled.directory' hq) hcalled
      (fun p hp => Report.rooted_of_read hread hp) []) fun _ _ _ _ _ => alike_pure _

theorem command_named (site : Site) (t : Tokens) (fs : FileSystem) (baseDir : String) (executable : Value) :
    command (site.named t) fs baseDir executable = command site fs baseDir executable := by
  simp [command, configured, local?, Site.valueOf?]

theorem alike_create (hsite : site.IsRegular) (hbase : Path.Rooted baseDir.toList ss)
    (hfs : fs.WellFormed) (ht : IsFresh site baseDir fs t) (ht' : IsFresh site baseDir fs t')
    (hw : (site.named t).WritesBelow) (hw' : (site.named t').WritesBelow)
    (hanswers : AnswersAlike site baseDir t t')
    (hcomplete : ∀ dir, (configuration (declarationOptions options baseDir dir) files).obstacle = none)
    (executable timeout : Value) :
    (create (site.named t) executable timeout baseDir options files fs).Alike (site.named t) (site.named t')
      baseDir (create (site.named t') executable timeout baseDir options files fs) := by
  unfold create
  rw [bind_of_untold (files_apply fs), bind_of_untold (files_apply fs), command_named, command_named]
  refine alike_bind_same fun words left hleft => ?_
  obtain ⟨-, rfl⟩ := ends_ofExcept_iff.1 hleft
  refine alike_bind (alike_makeDirectory hsite ht ht') fun _ made made' hmade hmade' => ?_
  refine alike_bind (alike_tidying (alike_createIn hsite hbase hfs ht ht' hw hw' hanswers hcomplete
    (ends_change_iff.1 hmade) (ends_change_iff.1 hmade')) _ _) fun p _ _ _ _ => ?_
  exact alike_bind (alike_tell (.same _)) fun _ _ _ _ _ => alike_pure p

end Compiler

theorem eraseDups_append_of_subset {xs ys : List String} (h : ∀ y ∈ ys, y ∈ xs) :
    (xs ++ ys).eraseDups = xs.eraseDups := by
  have hnone : ys.removeAll xs = [] := List.filter_eq_nil_iff.2 fun y hy => by simpa using h y hy
  rw [List.eraseDups_append, hnone, List.eraseDups_nil, List.append_nil]

namespace Bundler

open Compiler (IsFresh AnswersAlike)

variable {b : Bundler} {site : Site} {fs : FileSystem} {t t' : Tokens} {ts : List Tokens} {o : Options}

/-- What some runs under names of their own need to come to the same: the names are fresh, the compiler writes
only below the directory that it is given and answers all runs alike, and the output file lies apart from what
a run looks for. -/
structure Repeatable (b : Bundler) (site : Site) (fs : FileSystem) (tokens : List Tokens) : Prop where
  regular : site.IsRegular
  wellFormed : fs.WellFormed
  fresh : ∀ t ∈ tokens, IsFresh site b.baseDir fs t
  writesBelow : ∀ t ∈ tokens, (site.named t).WritesBelow
  answers : ∀ t ∈ tokens, ∀ t' ∈ tokens, AnswersAlike site b.baseDir t t'
  apart : ∀ t ∈ tokens, ∀ out, b.outPath site.cwd = .ok out →
    IsApart (b.Probes (site.named t) fs) (placeOf out)

theorem settings_named (b : Bundler) (site : Site) (t : Tokens) :
    b.settings (site.named t) = b.settings site := by
  simp [settings]

theorem write_named (b : Bundler) (site : Site) (t : Tokens) (eol out : String) (p : Program) :
    b.write (site.named t) eol out p = b.write site eol out p := by
  simp [write, assembly]

/-- Until it comes to its output file, a run does the same under other names. -/
theorem alike_load (h : b.Repeatable site fs ts) (hwritable : b.HasWritableTarget)
    (hb : ofOptions site.cwd o = .ok b) (ht : t ∈ ts) (ht' : t' ∈ ts) :
    (b.load (site.named t) fs).Alike (site.named t) (site.named t') b.baseDir
      (b.load (site.named t') fs) := by
  obtain ⟨-, -, dir, hdir⟩ := of_ofOptions hb
  obtain ⟨ss, hbase⟩ := Path.rooted_absolute h.regular.cwd dir
  rw [← hdir] at hbase
  unfold load
  rw [settings_named, settings_named]
  refine alike_bind_same fun settings left hsettings => ?_
  obtain rfl : fs = left := (b.looks_settings site fs).1.symm.trans hsettings.2
  refine alike_bind_same fun _ left hleft => ?_
  obtain rfl := ends_note_iff.1 hleft
  refine alike_bind (Compiler.alike_create h.regular hbase h.wellFormed (h.fresh t ht) (h.fresh t' ht')
    (h.writesBelow t ht) (h.writesBelow t' ht') (h.answers t ht t' ht') (fun dir => ?_) _ _) fun p _ _ _ _ => ?_
  · exact (obstacle_configuration_eq_none_iff hsettings _ _ _).2 hwritable
  · exact alike_bind (alike_ofExcept _) fun out _ _ _ _ => alike_pure _

theorem run_alike (h : b.Repeatable site fs ts) (hwritable : b.HasWritableTarget)
    (hb : ofOptions site.cwd o = .ok b) (ht : t ∈ ts) (ht' : t' ∈ ts) :
    (b.run (site.named t) fs).Alike (site.named t) (site.named t') b.baseDir (b.run (site.named t') fs) ∧
      (b.run (site.named t') fs).files = (b.run (site.named t) fs).files := by
  have hloaded : ∀ {t}, t ∈ ts → (b.load (site.named t) fs).files = fs := fun ht =>
    files_load (Compiler.isRegular_named h.regular (h.fresh _ ht).drawn) (h.writesBelow _ ht) hwritable
      fun hnone _ hq => h.wellFormed.get?_eq_none hnone hq
  have halike := alike_load h hwritable hb ht ht'
  rw [run_eq, run_eq]
  simp only [write_named]
  generalize (fun x : Settings × Program × String => do
    b.write site x.1.eol x.2.2 x.2.1
    note .info ("Wrote declaration bundle to " ++ x.2.2)) = rest
  constructor
  · refine alike_bind halike fun x left left' hleft hleft' => ?_
    obtain rfl : fs = left := (hloaded ht).symm.trans hleft.2
    obtain rfl : fs = left' := (hloaded ht').symm.trans hleft'.2
    exact .refl _
  · have hresult := halike.result
    cases hfirst : (b.load (site.named t) fs).result with
    | error e =>
        rw [hfirst] at hresult
        generalize hsecond : (b.load (site.named t') fs).result = second at hresult
        cases hresult
        rw [bind_of_error hfirst, bind_of_error hsecond]
        exact (hloaded ht').trans (hloaded ht).symm
    | ok x =>
        rw [hfirst] at hresult
        generalize hsecond : (b.load (site.named t') fs).result = second at hresult
        cases hresult
        rw [bind_of_ok hfirst, bind_of_ok hsecond, hloaded ht, hloaded ht']

/-- The files after some runs, one after another whether they fail or not, each under names of its own. -/
def filesAfter (b : Bundler) (site : Site) (fs : FileSystem) (tokens : List Tokens) : FileSystem :=
  tokens.foldl (fun fs t => (b.run (site.named t) fs).files) fs

def efforts (b : Bundler) (site : Site) : FileSystem → List Tokens → List (Effect Unit)
  | _, [] => []
  | fs, t :: ts => b.run (site.named t) fs :: b.efforts site (b.run (site.named t) fs).files ts

/-- Some runs come to what the first of them came to. -/
structure RepeatsItself (b : Bundler) (site : Site) (fs : FileSystem) (t : Tokens) (ts : List Tokens) :
    Prop where
  files_eq : b.filesAfter site fs (t :: ts) = (b.run (site.named t) fs).files
  /-- The modules that were left out are those of the first run. -/
  excluded_eq : excludedIds ((b.efforts site fs (t :: ts)).flatMap Effect.events) =
    excludedIds (b.run (site.named t) fs).events
  messages_eq : ∀ e ∈ b.efforts site fs (t :: ts), e.events.filterMap Event.message? =
    (b.run (site.named t) fs).events.filterMap Event.message?
  /-- But for the names of what is temporary, every run comes to the result of the first, and it writes the
  same journal and calls the compiler by the same command with the same configuration. -/
  alike : List.Forall₂ (fun u e => (b.run (site.named t) fs).Alike (site.named t) (site.named u) b.baseDir e)
    (t :: ts) (b.efforts site fs (t :: ts))

/-- On the files that one run left, every run does what it would have done on the files that the one found. -/
theorem run_left (h : b.Repeatable site fs ts) (hwritable : b.HasWritableTarget)
    (hb : ofOptions site.cwd o = .ok b) (ht : t ∈ ts) (ht' : t' ∈ ts) :
    b.run (site.named t') (b.run (site.named t) fs).files = b.run (site.named t') fs := by
  rw [← (run_alike h hwritable hb ht ht').2]
  exact run_again (Compiler.isRegular_named h.regular (h.fresh t' ht').drawn) (h.writesBelow t' ht') hb
    hwritable h.wellFormed (h.apart t' ht')

theorem efforts_eq (h : b.Repeatable site fs ts) (hwritable : b.HasWritableTarget)
    (hb : ofOptions site.cwd o = .ok b) (ht : t ∈ ts) {us : List Tokens} (hus : us ⊆ ts) :
    b.efforts site (b.run (site.named t) fs).files us = us.map (fun u => b.run (site.named u) fs) ∧
      b.filesAfter site (b.run (site.named t) fs).files us = (b.run (site.named t) fs).files := by
  induction us with
  | nil => exact ⟨rfl, rfl⟩
  | cons u us ih =>
      obtain ⟨hu, hus⟩ := List.cons_subset.1 hus
      have hrun := run_left h hwritable hb ht hu
      have hleft := (run_alike h hwritable hb ht hu).2
      obtain ⟨hefforts, hfiles⟩ := ih hus
      refine ⟨?_, ?_⟩
      · rw [efforts, hrun, hleft, hefforts, List.map_cons]
      · rw [filesAfter, List.foldl_cons, hrun, hleft]
        exact hfiles

theorem excludedIds_eq (events : List Event) :
    excludedIds events = (events.filterMap Event.exclusion?).eraseDups := rfl

/-- However often a bundler runs, it comes to what it came to the first time, if the target that is asked for
can be written. -/
theorem run_repeats (h : b.Repeatable site fs (t :: ts)) (hwritable : b.HasWritableTarget)
    (hb : ofOptions site.cwd o = .ok b) : b.RepeatsItself site fs t ts := by
  have ht : t ∈ t :: ts := List.mem_cons_self
  obtain ⟨hefforts, hfiles⟩ := efforts_eq h hwritable hb ht (List.subset_cons_self t ts)
  have hall : b.efforts site fs (t :: ts) = (t :: ts).map fun u => b.run (site.named u) fs := by
    rw [efforts, hefforts, List.map_cons]
  have halike : ∀ u ∈ t :: ts,
      (b.run (site.named t) fs).Alike (site.named t) (site.named u) b.baseDir (b.run (site.named u) fs) :=
    fun u hu => (run_alike h hwritable hb ht hu).1
  refine ⟨hfiles, ?_, fun e he => ?_, ?_⟩
  · rw [hall, List.map_cons, List.flatMap_cons, excludedIds_eq, excludedIds_eq, List.filterMap_append]
    refine eraseDups_append_of_subset fun id hid => ?_
    obtain ⟨e, he, hid⟩ := List.mem_filterMap.1 hid
    obtain ⟨x, hx, he⟩ := List.mem_flatMap.1 he
    obtain ⟨u, hu, rfl⟩ := List.mem_map.1 hx
    rw [← filterMap_eq_of_alike (f := Event.exclusion?) (fun _ _ => rfl) (fun _ => rfl)
      (halike u (List.mem_cons_of_mem t hu)).events]
    exact List.mem_filterMap.2 ⟨e, he, hid⟩
  · rw [hall] at he
    obtain ⟨u, hu, rfl⟩ := List.mem_map.1 he
    exact filterMap_eq_of_alike (fun _ _ => rfl) (fun _ => rfl) (halike u hu).events
  · rw [hall, List.forall₂_map_right_iff, List.forall₂_same]
    exact halike

/-- A bundler that makes the directory of its output file and leaves a file out. -/
def oneScript (target : Value) : Bundler :=
  { twoScripts with
    options := { twoScripts.options with
      out := .text "/p/dist/pkg.d.ts"
      excludes := [.text "b.d.ts"]
      target } }

/-- A site at which the compiler writes the declarations of a source. -/
def emittingSite : Site :=
  { twoScriptsSite with
    answer := fun _ => .finished "/p/a.ts\n/p/b.d.ts\n" "" 0 [("a.d.ts", some (Text.encode "// a"))] }

def threeNames : List Tokens := [⟨"k3v_0qz1", "a81hd_2x"⟩, ⟨"p0__b7yt", "mm4c2e9u"⟩, ⟨"zz1x8w_d", "q7r5t3_n"⟩]

theorem isApart_oneScript (target : Value) : ∀ t ∈ threeNames, ∀ out,
    (oneScript target).outPath emittingSite.cwd = .ok out →
      IsApart ((oneScript target).Probes (emittingSite.named t) twoScriptsFiles) (placeOf out) := by
  intro t ht out hout
  obtain rfl : Path.absolute "/p" "/p/dist/pkg.d.ts" = out := Except.ok.inj hout
  intro path hpath
  cases hpath with
  | settings hlocate =>
      obtain rfl : Path.tidyJoin "/p" (Path.tidyJoin "/p" "tsconfig.json") = path := Except.ok.inj hlocate
      decide +kernel
  | compiler hpath =>
      have hplaces : ∀ t ∈ threeNames,
          ¬ placeOf (Path.normalize (Compiler.declarationDir (emittingSite.named t))) <+:
              placeOf (Path.absolute "/p" "/p/dist/pkg.d.ts") ∧
            ¬ placeOf (Path.normalize (Compiler.configPath (emittingSite.named t) "/p")) <+:
              placeOf (Path.absolute "/p" "/p/dist/pkg.d.ts") ∧
            ∀ p ∈ (Report.read "/p" "/p/a.ts\n/p/b.d.ts\n").1.files,
              ¬ placeOf (Path.normalize (Compiler.emittedPath (emittingSite.named t) "/p"
                (Compiler.declarationDir (emittingSite.named t)) p)) <+:
                  placeOf (Path.absolute "/p" "/p/dist/pkg.d.ts") := by
        decide +kernel
      obtain ⟨hdirectory, hconfiguration, hemitted⟩ := hplaces t ht
      cases hpath with
      | @program before after n _ hnames _ =>
          have hlocal : ∀ n ∈ Compiler.localNames, ¬ placeOf (Path.normalize (Compiler.localPath "/p" n)) <+:
              placeOf (Path.absolute "/p" "/p/dist/pkg.d.ts") := by
            decide +kernel
          exact hlocal n (hnames ▸ List.mem_append_right before List.mem_cons_self)
      | directory => exact hdirectory
      | configuration => exact hconfiguration
      | declarations _ hanswer hp _ _ =>
          obtain ⟨rfl, -, -, -⟩ := CallOutcome.finished.inj hanswer
          exact hemitted _ hp

theorem repeatable_oneScript (target : Value) :
    (oneScript target).Repeatable emittingSite twoScriptsFiles threeNames where
  regular := ⟨by decide, by decide, by decide +kernel, by decide, by decide⟩
  wellFormed := wellFormed_of_entries (by decide +kernel)
  fresh := by
    intro t ht
    have hlengths : ∀ t ∈ threeNames,
        t.directory.toList.length ≤ 8 ∧ t.configuration.toList.length ≤ 8 := by
      decide +kernel
    have hcharacters : ∀ t ∈ threeNames, t.directory.toList.all nameCharacters.contains = true ∧
        t.configuration.toList.all nameCharacters.contains = true := by
      decide +kernel
    have hfree : ∀ t ∈ threeNames,
        twoScriptsFiles.get? (placeOf (Compiler.declarationDir (emittingSite.named t))) = none ∧
          twoScriptsFiles.get? (placeOf (Compiler.configPath (emittingSite.named t) "/p")) = none ∧
            ¬ placeOf (Compiler.declarationDir (emittingSite.named t)) <+: placeOf "/p" := by
      decide +kernel
    have hmem {s : String} (hs : s.toList.all nameCharacters.contains = true) :
        ∀ c ∈ s.toList, c ∈ nameCharacters := fun c hc => List.contains_iff_mem.1 (List.all_eq_true.1 hs c hc)
    obtain ⟨hdirectory, hconfiguration, hapart⟩ := hfree t ht
    exact ⟨⟨⟨(hlengths t ht).1, hmem (hcharacters t ht).1⟩, ⟨(hlengths t ht).2, hmem (hcharacters t ht).2⟩⟩,
      hdirectory, hconfiguration, hapart⟩
  writesBelow := by
    intro t ht c w hw
    have hwritten : ((emittingSite.named t).answer c).written = [("a.d.ts", some (Text.encode "// a"))] := rfl
    rw [hwritten, List.mem_singleton] at hw
    have hbelow : ∀ t ∈ threeNames, placeOf (Compiler.declarationDir (emittingSite.named t)) <+:
        placeOf (Path.normalize (Path.join (Compiler.declarationDir (emittingSite.named t)) "a.d.ts")) := by
      decide +kernel
    rw [hw]
    exact hbelow t ht
  answers := fun _ _ _ _ _ _ _ _ => rfl
  apart := isApart_oneScript target

theorem ofOptions_oneScript (target : Value) :
    ofOptions emittingSite.cwd (oneScript target).options = .ok (oneScript target) := by
  -- A target is not looked at.
  have hproblem : (oneScript target).options.problem? = (oneScript .null).options.problem? := rfl
  have hbase : Path.absolute "/p" "/p" = "/p" := by decide +kernel
  refine ofOptions_eq_ok ?_ rfl hbase
  rw [hproblem]
  decide +kernel

/-- Every run on a target that cannot be written leaves a configuration of its own. -/
theorem not_run_repeats_newYear :
    (oneScript newYear).Repeatable emittingSite twoScriptsFiles threeNames ∧
      ofOptions emittingSite.cwd (oneScript newYear).options = .ok (oneScript newYear) ∧
      ¬ (oneScript newYear).RepeatsItself emittingSite twoScriptsFiles ⟨"k3v_0qz1", "a81hd_2x"⟩
        threeNames.tail := by
  refine ⟨repeatable_oneScript _, ofOptions_oneScript _, fun hrepeats => ?_⟩
  have hleft : ((oneScript newYear).filesAfter emittingSite twoScriptsFiles threeNames).get?
        ["p", ".dts-bundler-q7r5t3_n.json"] ≠ none ∧
      ((oneScript newYear).run (emittingSite.named ⟨"k3v_0qz1", "a81hd_2x"⟩) twoScriptsFiles).files.get?
        ["p", ".dts-bundler-q7r5t3_n.json"] = none := by
    decide +kernel
  refine hleft.1 ?_
  rw [← hleft.2, ← hrepeats.files_eq]
  rfl

theorem run_repeats_oneScript :
    (oneScript .null).Repeatable emittingSite twoScriptsFiles threeNames ∧
      (oneScript .null).HasWritableTarget ∧
      ofOptions emittingSite.cwd (oneScript .null).options = .ok (oneScript .null) ∧
      (oneScript .null).RepeatsItself emittingSite twoScriptsFiles ⟨"k3v_0qz1", "a81hd_2x"⟩
        threeNames.tail ∧
      excludedIds ((oneScript .null).run emittingSite twoScriptsFiles).events = ["pkg/b"] := by
  have hb := ofOptions_oneScript .null
  have hwritable : (oneScript .null).HasWritableTarget := hasWritableTarget_of_null rfl
  exact ⟨repeatable_oneScript _, hwritable, hb, run_repeats (repeatable_oneScript _) hwritable hb,
    by decide +kernel⟩

end Bundler

end DeclBundle
