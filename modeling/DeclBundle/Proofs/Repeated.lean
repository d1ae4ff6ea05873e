import DeclBundle.Proofs.Heeded
import DeclBundle.Proofs.Recompiled
import DeclBundle.Proofs.Reopened

/-!
# Running again

A run that comes to its output file leaves that file and the directories above it, and nothing else. Unless
the file lies where a run looks for something, or below, the next run finds the settings, the compiler and
the declarations that it found before, and writes the same bundle over the old one; and a run that fails
before it comes to the file leaves nothing at all. So a run does the same on the files that it left
(`Bundler.run_again`), if what is temporary gets the same names.
-/

namespace DeclBundle

namespace Path

variable {dir name p : String} {ss : List (List Char)}

theorem tidy_of_rooted (hp : Rooted p.toList ss) : tidy p = p := by
  have hsteps : tidySteps p.toList = ss := by
    rw [tidySteps_eq, hp.stepsOf_eq]
    exact List.filter_eq_self.2 fun s hs => by simpa using (hp.1 s hs).1.2.1
  have hwrite : write (anchor p.toList) ss = p.toList := by
    obtain ⟨cs, hcs⟩ := hp.exists_cons
    rw [write, ← hp.eq_anchor_append, if_neg (by simp [hcs])]
  rw [tidy, hsteps, hwrite, String.ofList_toList]

end Path

namespace FileSystem

open DeclBundle.Path (Rooted)

variable {fs fs' : FileSystem} {out : Place} {cwd p : String} {ss : List (List Char)}

theorem read_of_taken (hcwd : Path.isAbsolute cwd = true) (hp : Path.isAbsolute p = true)
    (h : TouchesOnly out fs fs') (hoff : ¬ placeOf (Path.normalize p) <+: out)
    (htaken : fs.isTaken cwd p = .ok true) :
    fs'.isTaken cwd p = .ok true ∧ fs'.read cwd p = fs.read cwd p := by
  unfold isTaken at htaken
  split at htaken
  case h_1 l hplace =>
    have hplace' := place_mono (fun q => h.directory) hplace
    have hl := place_eq_placeOf_absolute hcwd hplace
    rw [Path.absolute_of_isAbsolute hp] at hl
    have hsame := h.off l (hl ▸ hoff)
    rw [isTaken, read, read, hplace, hplace']
    simp only [hsame]
    exact ⟨htaken, trivial⟩
  case h_2 => cases htaken
  case h_3 => cases htaken

/-- Where nothing was found at the end of a path of ordinary steps, nothing is found. -/
theorem isTaken_of_free (hp : Rooted p.toList ss) (h : TouchesOnly out fs fs') (hgap : fs.HasNoGap out)
    (hoff : ¬ placeOf p <+: out) (hshort : ∀ s ∈ placeOf p, s.utf8ByteSize ≤ nameLimit)
    (hfree : fs.isTaken cwd p = .ok false) : fs'.isTaken cwd p = .ok false := by
  have hsteps : ∀ s ∈ steps p, s.utf8ByteSize ≤ nameLimit := fun s hs =>
    (steps_eq_empty_or_mem hs).elim (fun heq => by rw [heq]; decide) (hshort s)
  have hnone : fs.find? cwd p = none := by
    unfold isTaken at hfree
    rw [find?]
    split at hfree
    case h_1 l hplace => simpa [hplace] using hfree
    case h_2 => cases hfree
    case h_3 c hplace => simp [hplace]
  rw [← find?_eq_of_rooted cwd h hgap hp hoff, find?] at hnone
  unfold isTaken
  split
  case h_1 l hplace => simpa [hplace] using hnone
  case h_2 hplace =>
    rw [place_of_rooted hp] at hplace
    split at hplace
    · cases hplace
    · exact absurd hplace (follow_ne_longName hsteps)
  case h_3 => rfl

end FileSystem

theorem Action.repeats_of_error {α : Type} {R : FileSystem → FileSystem → Prop} {first again : Effect α}
    {e : Failure} (h : first.result = .error e) : first.Repeats R again := by
  intro a ha
  rw [h] at ha
  cases ha

theorem Action.bind_again {α β : Type} {x : Action α} {f : α → Action β} {fs left : FileSystem} {a : α}
    (hx : x.Ends fs a fs) (hleft : x.Ends left a left) (hevents : (x left).events = (x fs).events)
    (hf : f a left = f a fs) : (x >>= f) left = (x >>= f) fs := by
  rw [hx.bind_eq, hleft.bind_eq, hevents, hf]

open DeclBundle.Action FileSystem

namespace Settings

variable {fs fs' : FileSystem} {out : Place} {cwd baseDir : String} {ss : List (List Char)} {files : List String}
  {eol : Option String} {target project : Value}

def usualPath (baseDir : String) : String := Path.join baseDir "tsconfig.json"

theorem rooted_usualPath (hbase : Path.Rooted baseDir.toList ss) :
    Path.Rooted (usualPath baseDir).toList (ss ++ ["tsconfig.json".toList]) := by
  have hname : Path.Ordinary "tsconfig.json".toList ∧ '/' ∉ "tsconfig.json".toList := by
    unfold Path.Ordinary
    decide
  rw [usualPath, Path.join, String.toList_ofList]
  exact hbase.rooted_below hname.1 hname.2

theorem locate_usual (hbase : Path.Rooted baseDir.toList ss) (hproject : project.isTruthy = false) :
    locate baseDir project = .ok (usualPath baseDir) := by
  have hpath := rooted_usualPath hbase
  have htidy : Path.tidyJoin baseDir "tsconfig.json" = usualPath baseDir := Path.tidy_of_rooted hpath
  have hnamed : named baseDir project = .ok (usualPath baseDir) := by
    unfold named
    rw [if_neg (by simp [hproject]), htidy]
  rw [locate, hnamed, Except.map, Path.tidyJoin, join_of_rooted hpath, Path.tidy_of_rooted hpath]

theorem isAbsolute_of_locate (hbase : Path.Rooted baseDir.toList ss) {path : String}
    (h : locate baseDir project = .ok path) : Path.isAbsolute path = true := by
  have habsolute := Path.isAbsolute_iff.2 hbase.exists_cons
  unfold locate at h
  cases hnamed : named baseDir project with
  | error e =>
      rw [hnamed] at h
      cases h
  | ok p =>
      rw [hnamed] at h
      obtain rfl := Except.ok.inj h
      rw [Path.tidyJoin, Path.isAbsolute_tidy]
      exact Path.isAbsolute_join_of_left habsolute p

theorem repeats_resolveFrom {path : String} (hread : read cwd path fs' = read cwd path fs) :
    (resolveFrom cwd path baseDir files eol target fs).Repeats (fun c c' => c = fs ∧ c' = fs')
      (resolveFrom cwd path baseDir files eol target fs') := by
  unfold resolveFrom
  refine repeats_bind (R := fun c c' => c = fs ∧ c' = fs') (repeats_note _ _ ⟨rfl, rfl⟩) fun _ c c' _ hc => ?_
  rw [hc.1, hc.2, bind_of_untold (files_apply fs), bind_of_untold (files_apply fs'), hread]
  refine repeats_bind (R := fun c c' => c = fs ∧ c' = fs') (repeats_ofExcept (fun _ h => h) ⟨rfl, rfl⟩)
    fun config d d' _ hd => ?_
  refine repeats_bind (R := fun c c' => c = fs ∧ c' = fs') (repeats_ofExcept (fun _ h => h) hd)
    fun options d d' _ hd => ?_
  obtain ⟨merged, lineEnd⟩ := merge options eol target
  refine repeats_bind (R := fun c c' => c = fs ∧ c' = fs') (repeats_ofExcept (fun _ h => h) hd)
    fun listed d d' _ hd => ?_
  split
  · exact repeats_bind (repeats_note _ _ hd) fun _ _ _ _ hd => repeats_pure _ hd
  · exact repeats_pure _ hd

theorem repeats_resolve (hcwd : Path.isAbsolute cwd = true) (hbase : Path.Rooted baseDir.toList ss)
    (h : TouchesOnly out fs fs') (hgap : fs.HasNoGap out)
    (hoff : ∀ path, locate baseDir project = .ok path → ¬ placeOf (Path.normalize path) <+: out)
    (hshort : ∀ s ∈ placeOf baseDir, s.utf8ByteSize ≤ nameLimit) :
    (resolve cwd baseDir files eol target project fs).Repeats (fun c c' => c = fs ∧ c' = fs')
      (resolve cwd baseDir files eol target project fs') := by
  unfold resolve
  refine repeats_bind (R := fun c c' => c = fs ∧ c' = fs') (repeats_ofExcept (fun _ h => h) ⟨rfl, rfl⟩)
    fun path c c' hpath hc => ?_
  have hlocate := (ends_ofExcept_iff.1 hpath).1
  rw [hc.1, hc.2, bind_of_untold (files_apply fs), bind_of_untold (files_apply fs')]
  have hfound (found : Bool) (c : FileSystem) :
      ofExcept ((Except.ok found : Except Fault Bool).mapError Failure.system) c = ⟨c, [], .ok found⟩ := rfl
  cases htaken : fs.isTaken cwd path with
  | error fault => exact repeats_bind (R := fun _ _ => True) nofun fun _ _ _ hends => nomatch hends.1
  | ok found =>
      cases found with
      | true =>
          obtain ⟨hagain, hread⟩ := read_of_taken hcwd (isAbsolute_of_locate hbase hlocate) h
            (hoff path hlocate) htaken
          rw [hagain, bind_of_untold (hfound true fs), bind_of_untold (hfound true fs'), if_pos rfl]
          exact repeats_resolveFrom (by rw [read, read, hread])
      | false =>
          cases hproject : project.isTruthy with
          | true => exact repeats_of_error rfl
          | false =>
              -- The usual file is not there again.
              obtain rfl : usualPath baseDir = path :=
                Except.ok.inj ((locate_usual hbase hproject).symm.trans hlocate)
              have husual := rooted_usualPath hbase
              have hfree := hoff _ hlocate
              rw [husual.normalize_eq] at hfree
              have hnames : ∀ s ∈ placeOf (usualPath baseDir), s.utf8ByteSize ≤ nameLimit := by
                rw [placeOf_eq husual, List.map_append, ← placeOf_eq hbase]
                intro s hs
                rcases List.mem_append.1 hs with hs | hs
                · exact hshort s hs
                · rw [List.mem_singleton.1 hs]
                  decide
              rw [isTaken_of_free husual h hgap hfree hnames htaken, bind_of_untold (hfound false fs),
                bind_of_untold (hfound false fs'), if_neg Bool.false_ne_true, if_neg Bool.false_ne_true]
              exact repeats_bind (R := fun c c' => c = fs ∧ c' = fs') (repeats_note _ _ ⟨rfl, rfl⟩)
                fun _ _ _ _ hd => repeats_pure _ hd

end Settings

namespace Compiler

variable {site : Site} {executable timeout : Value} {baseDir : String} {options : Record} {files : List String}
  {fs fs' : FileSystem} {p : Program} {ss : List (List Char)}

/-- Where there is a program, the base directory has names that a file system holds. -/
theorem Compilation.short (w : Compilation site executable timeout baseDir options files fs p fs')
    (hsite : site.IsRegular) (hbase : Path.Rooted baseDir.toList ss) :
    ∀ s ∈ placeOf baseDir, s.utf8ByteSize ≤ nameLimit := by
  have habsolute : Path.absolute site.cwd baseDir = baseDir := by
    rw [Path.absolute_of_isAbsolute (Path.isAbsolute_iff.2 hbase.exists_cons), hbase.normalize_eq]
  have hpath := rooted_configPath_below hsite (habsolute.symm ▸ hbase)
  have hplace := place_of_createFile hpath w.configure_eq
  have hshort : ∀ s ∈ FileSystem.steps (configPath site baseDir), s.utf8ByteSize ≤ nameLimit := by
    rw [place_of_rooted hpath] at hplace
    split at hplace
    · cases hplace
    · exact short_of_follow hplace
  intro s hs
  refine hshort s (mem_steps_of_mem_placeOf ?_)
  rw [placeOf_eq hpath, List.map_append, ← placeOf_eq hbase]
  exact List.mem_append_left _ hs

end Compiler

namespace Bundler

variable {b : Bundler} {site : Site} {fs fs' : FileSystem} {place : Place} {ss : List (List Char)}

/-- The paths at which a run that found some files looks for something, or puts something temporary. -/
inductive Probes (b : Bundler) (site : Site) (fs : FileSystem) : String → Prop
  | settings {path : String} (hpath : Settings.locate b.baseDir b.options.project = .ok path) :
      Probes b site fs path
  | compiler {path : String}
      (hpath : Compiler.Probes site b.options.tsc b.baseDir fs (b.run site fs).events path) :
      Probes b site fs path

theorem repeats_load (hsite : site.IsRegular) (hw : site.WritesBelow) (hbase : Path.Rooted b.baseDir.toList ss)
    (hapart : IsApart (b.Probes site fs) place) (h : TouchesOnly place fs fs') (hgap : fs.HasNoGap place) :
    (b.load site fs).Repeats (fun _ _ => True) (b.load site fs') := by
  intro x hx
  obtain ⟨settings, p, out⟩ := x
  have hends : (b.load site).Ends fs (settings, p, out) (b.load site fs).files := ⟨hx, rfl⟩
  obtain ⟨settled, -, hcreate, -⟩ := ends_load_iff.1 hends
  obtain ⟨w⟩ := Compiler.exists_compilation hcreate
  refine (?_ : Effect.Repeats (fun _ _ => True) (b.load site fs) (b.load site fs')) _ hx
  unfold load
  refine repeats_bind (R := fun c c' => c = fs ∧ c' = fs') (Settings.repeats_resolve hsite.cwd hbase h hgap
    (fun path hpath => hapart path (.settings hpath)) (w.short hsite hbase)) fun settings c c' hsettings hc => ?_
  rw [hc.1, hc.2]
  rw [hc.1] at hsettings
  refine repeats_bind (R := fun c c' => c = fs ∧ c' = fs') (repeats_note _ _ ⟨rfl, rfl⟩) fun _ c c' hnote hc => ?_
  rw [hc.1, hc.2]
  rw [hc.1] at hnote
  refine repeats_bind (R := fun _ _ => True) (Compiler.repeats_create hsite hw hbase
    (fun path hpath => hapart path (.compiler hpath)) (fun e he => ?_) h hgap) fun p c c' _ _ => ?_
  · rw [run_eq]
    refine mem_events_bind _ (hsettings.mem_events_bind_iff.2 (.inr ?_))
    exact hnote.mem_events_bind_iff.2 (.inr (mem_events_bind _ he))
  · exact repeats_bind (R := fun _ _ => True) (repeats_ofExcept (fun _ h => h) trivial) fun _ _ _ _ _ =>
      repeats_pure _ trivial

variable {o : Options}

/-- A run does the same on the files that it left, whether it failed or not. -/
theorem run_again (hsite : site.IsRegular) (hw : site.WritesBelow) (hb : ofOptions site.cwd o = .ok b)
    (htarget : b.HasWritableTarget)
    (hfs : fs.WellFormed)
    (hapart : ∀ out, b.outPath site.cwd = .ok out → IsApart (b.Probes site fs) (placeOf out)) :
    b.run site (b.run site fs).files = b.run site fs := by
  have hloaded : (b.load site fs).files = fs :=
    files_load hsite hw htarget fun hnone _ hq => hfs.get?_eq_none hnone hq
  cases hload : (b.load site fs).result with
  | error e =>
      -- The output file was not reached, so there is nothing that was left.
      have hfiles : (b.run site fs).files = fs := by rw [run_eq, bind_of_error hload, hloaded]
      rw [hfiles]
  | ok x =>
      obtain ⟨settings, p, out⟩ := x
      have hends : (b.load site).Ends fs (settings, p, out) fs := ⟨hload, hloaded⟩
      have hout := outPath_of_load hends
      obtain ⟨steps, hrooted⟩ := rooted_outPath hsite hout
      obtain ⟨-, -, dir, hdir⟩ := of_ofOptions hb
      obtain ⟨ss, hbase⟩ := Path.rooted_absolute hsite.cwd dir
      rw [← hdir] at hbase
      obtain ⟨-, hfiles, -⟩ := run_of_load hends
      have htouches : TouchesOnly (placeOf out) fs (b.run site fs).files := by
        rw [hfiles]
        exact b.along_write hrooted site settings.eol p fs
      obtain ⟨hsame, hevents, -⟩ := repeats_load hsite hw hbase (hapart out hout) htouches
        (fun _ _ _ hnone hl => hfs.get?_eq_none hnone hl) _ hload
      have hreloaded : (b.load site (b.run site fs).files).files = (b.run site fs).files := by
        refine files_load hsite hw htarget fun hnone q hq => ?_
        obtain ⟨ss', htemporary⟩ := Compiler.rooted_declarationDir hsite
        have hoff := hapart out hout _ (.compiler .directory)
        rw [htemporary.normalize_eq] at hoff
        rw [htouches.off _ hoff] at hnone
        rw [htouches.off q fun hle => hoff (hq.trans hle), hfs.get?_eq_none hnone hq]
      have hwritten : b.write site settings.eol out p (b.run site fs).files =
          b.write site settings.eol out p fs := by
        rw [hfiles, write_again hrooted hfs]
      generalize (b.run site fs).files = left at hsame hreloaded hevents hwritten
      rw [run_eq]
      refine bind_again hends ⟨hsame, hreloaded⟩ hevents ?_
      rw [bind_apply, hwritten, ← bind_apply]

end Bundler

end DeclBundle
