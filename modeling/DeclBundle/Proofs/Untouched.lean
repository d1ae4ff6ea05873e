import DeclBundle.Proofs.Restored
import DeclBundle.Proofs.Stopping
import Mathlib.Order.Defs.Unbundled

/-!
# What a run leaves alone

`Action.Along R x` says that `x` takes the files along a relation, however it ends; for a relation that
can be composed it holds of actions one after another. Before the output file is opened, the files are
those that were there (`files_load`). From then on a run touches only its output file and the directories
above it, and does not fail because of the settings or the compiler any more (`run_touchesOnlyOutput`).
-/

namespace DeclBundle

namespace FileSystem

instance (out : Place) : IsPreorder FileSystem (TouchesOnly out) where
  refl _ := .of_get?_eq fun _ => rfl
  trans _ _ _ h h' := h.trans h'

instance (l : Place) : IsPreorder FileSystem (AddsDirectories l) where
  refl := AddsDirectories.refl l
  trans _ _ _ h h' := h.trans h'

end FileSystem

namespace Action

variable {α β : Type} {R : FileSystem → FileSystem → Prop} [IsPreorder FileSystem R]

/-- Whatever the files are and however an action ends, it takes them along a relation. -/
def Along (R : FileSystem → FileSystem → Prop) (x : Action α) : Prop := ∀ fs, R fs (x fs).files

theorem Looks.along {x : Action α} (h : x.Looks) : x.Along R := by
  intro fs
  rw [(h fs).1]
  exact refl fs

theorem along_tell (e : Event) : (tell e).Along R := fun fs => refl fs

theorem along_change {f : FileSystem → Except FileSystem.Fault FileSystem}
    (h : ∀ fs fs', f fs = .ok fs' → R fs fs') : (change f).Along R := by
  intro fs
  rw [change]
  split
  case h_1 fs' hfs' => exact h fs fs' hfs'
  case h_2 => exact refl fs

theorem Along.bind {x : Action α} {f : α → Action β} (hx : x.Along R) (hf : ∀ a, (f a).Along R) :
    (x >>= f).Along R := by
  intro fs
  rw [bind_apply]
  split
  · exact hx fs
  · exact IsTrans.trans _ _ _ (hx fs) (hf _ _)

theorem Along.forM {ι : Type} {f : ι → Action Unit} (hf : ∀ i, (f i).Along R) (is : List ι) :
    (forM is f : Action Unit).Along R :=
  forM_induction (looks_pure ()).along (fun hx hy => hx.bind fun _ => hy) hf is

/-! ### Making directories -/

section Directories

open FileSystem
open DeclBundle.Path (Rooted)

variable {cwd anchor p : String} {above : List String} {ss : List (List Char)} {l : Place}

theorem rooted_pathOf (ha : anchor.toList = ['/'] ∨ anchor.toList = ['/', '/'])
    (habove : ∀ s ∈ above, Path.Ordinary s.toList ∧ '/' ∉ s.toList) :
    Rooted (pathOf anchor above).toList (above.reverse.map String.toList) := by
  refine ⟨fun t ht => ?_, anchor.toList, ha, ?_⟩
  · obtain ⟨r, hr, rfl⟩ := List.mem_map.1 ht
    exact habove r (List.mem_reverse.1 hr)
  · rw [pathOf, String.toList_append, toList_intercalate_slash]

theorem placeOf_pathOf (ha : anchor.toList = ['/'] ∨ anchor.toList = ['/', '/'])
    (habove : ∀ s ∈ above, Path.Ordinary s.toList ∧ '/' ∉ s.toList) :
    placeOf (pathOf anchor above) = above.reverse := by
  rw [placeOf_eq (rooted_pathOf ha habove), List.map_map]
  simp [Function.comp_def]

/-- Of the directories on the way to a path only those are made that are missing. -/
theorem along_makeDirectoriesTo (ha : anchor.toList = ['/'] ∨ anchor.toList = ['/', '/'])
    (habove : ∀ s ∈ above, Path.Ordinary s.toList ∧ '/' ∉ s.toList) (hl : above.reverse <+: l) :
    (makeDirectoriesTo cwd anchor above).Along (AddsDirectories l) := by
  induction above with
  | nil => exact (looks_pure ()).along
  | cons s above ih =>
      have hmore : above.reverse <+: (s :: above).reverse := by simp
      have hrest := ih (fun t ht => habove t (List.mem_cons_of_mem _ ht)) (hmore.trans hl)
      have hlast : (change fun fs => fs.ensureDirectory cwd (pathOf anchor (s :: above))).Along
          (AddsDirectories l) := along_change fun fs fs' h => by
        refine (addsDirectories_ensureDirectory (rooted_pathOf ha habove) h).mono ?_
        rwa [placeOf_pathOf ha habove]
      unfold makeDirectoriesTo
      refine looks_files.along.bind fun fs => Along.bind ?_ fun _ => hlast
      split
      · exact (looks_pure ()).along
      · exact hrest

theorem rooted_directory {out : String} (hout : Rooted out.toList ss) :
    Rooted (Path.directory out).toList ss.dropLast := by
  rw [Path.directory, String.toList_ofList]
  exact hout.rooted_directoryChars

theorem anchor_of_rooted (hp : Rooted p.toList ss) : (String.ofList (Path.anchor p.toList)).toList = ['/'] ∨
    (String.ofList (Path.anchor p.toList)).toList = ['/', '/'] := by
  obtain ⟨cs, hcs⟩ := hp.exists_cons
  rw [hcs, String.toList_ofList]
  exact Path.anchor_cons_slash cs

theorem ordinary_of_rooted (hp : Rooted p.toList ss) :
    ∀ s ∈ (placeOf p).reverse, Path.Ordinary s.toList ∧ '/' ∉ s.toList := by
  intro s hs
  rw [List.mem_reverse, placeOf_eq hp] at hs
  obtain ⟨t, ht, rfl⟩ := List.mem_map.1 hs
  rw [String.toList_ofList]
  exact hp.1 t ht

/-- Making the directory of a file ready touches only places above the file, whether it can be made or
not. -/
theorem along_makeDirectories {out : String} (hout : Rooted out.toList ss) (cwd : String) :
    (makeDirectories cwd (Path.directory out)).Along (TouchesOnly (placeOf out)) := by
  have hdir := rooted_directory hout
  have hplace : placeOf (Path.directory out) = (placeOf out).dropLast := by
    rw [placeOf_eq hdir, placeOf_eq hout, List.map_dropLast]
  intro fs
  have hadds : AddsDirectories (placeOf out).dropLast fs
      (makeDirectories cwd (Path.directory out) fs).files := by
    refine along_makeDirectoriesTo (anchor_of_rooted hdir) (ordinary_of_rooted hdir) ?_ fs
    simp only [List.reverse_reverse, hplace, List.prefix_rfl]
  refine ⟨fun q hq => ?_, fun q _ _ => (hadds q).imp_right fun h => h.2, ?_⟩
  · exact (hadds q).resolve_right fun h => hq (h.1.trans (List.dropLast_prefix _))
  · refine Or.inl ((hadds _).resolve_right fun h => ?_)
    -- Only the root is above itself, and it is taken.
    obtain ⟨habove, hnone, -⟩ := h
    have hroot : placeOf out = [] := by
      have hlength := habove.length_le
      rw [List.length_dropLast] at hlength
      exact List.eq_nil_of_length_eq_zero (by omega)
    rw [hroot, get?_root] at hnone
    cases hnone

end Directories

end Action

open DeclBundle.Action FileSystem

/-- Whether a failure is one of the options, the settings or the compiler as a whole. -/
def Failure.precedesOutput : Failure → Bool
  | .configuration _ => true
  | .invocation _ _ _ => true
  | _ => false

namespace Assembly

variable {a : Assembly} {fs : FileSystem} {p : Program} {path : String} {e : Failure}

theorem parsed_failure_cases {text : String} (h : (a.parsed path text).failure = some e) :
    e.precedesParsing = true ∨ e = .outside ∨ e = .wrongKind ∧ a.indent = none :=
  Or.inr ((parsed_failure h).imp And.left id)

theorem precedesParsing_of_failed {ds : List Diagnostic} (h : (failed path ds).failure = some e) :
    e.precedesParsing = true := by
  rw [failed_failure] at h
  split at h
  · cases h
  · obtain rfl := Option.some.inj h
    rfl

theorem made_failure_cases (h : (a.made fs p path).failure = some e) :
    e.precedesParsing = true ∨ e = .outside ∨ e = .wrongKind ∧ a.indent = none := by
  unfold made at h
  split at h
  · unfold declared at h
    split at h
    case h_1 htext =>
      obtain rfl := Option.some.inj h
      rcases sourceText_eq_error htext with ⟨fault, rfl⟩ | rfl
      · exact Or.inl rfl
      · exact Or.inl rfl
    case h_2 => exact parsed_failure_cases h
  · simp only [compiled] at h
    split at h
    · split at h
      · exact parsed_failure_cases h
      · exact Or.inl (precedesParsing_of_failed h)
    · exact Or.inl (precedesParsing_of_failed h)

/-- A bundle fails for a file that cannot be parsed, or because a unit of indentation is missing. -/
theorem bundle_failure_cases (h : (a.bundle fs p).failure = some e) :
    e.precedesParsing = true ∨ e = .outside ∨ e = .wrongKind ∧ a.indent = none := by
  have hbanner : a.banner.failure ≠ some e := by simp [banner, Fragment.ofText]
  have hreferences : (Fragment.chain a.reference a.externs).failure = none :=
    (Fragment.chain_failure_eq_none_iff _ _).2 fun _ _ => rfl
  rw [bundle] at h
  simp only [Fragment.followedBy_failure_eq_some_iff, hbanner, hreferences, false_or] at h
  obtain ⟨-, h⟩ := h
  rcases h with h | ⟨-, h⟩
  · cases h
  · rcases h with h | ⟨-, h⟩
    · obtain ⟨-, path, -, -, -, hpath⟩ := Fragment.chain_failure_eq_some_iff.1 h
      rw [fragment_failure_of_isBundled (isBundled_of_failure hpath)] at hpath
      exact made_failure_cases hpath
    · unfold mainBlock at h
      split at h
      · cases h
      · dsimp only at h
        split at h
        · next hindent => exact Or.inr (Or.inr ⟨(Option.some.inj h).symm, hindent⟩)
        · cases h

/-- No bundle fails because of the options, the settings or the compiler as a whole. -/
theorem not_precedesOutput_of_bundle (h : (a.bundle fs p).failure = some e) :
    e.precedesOutput = false := by
  rcases bundle_failure_cases h with he | rfl | ⟨rfl, -⟩
  · cases e with
    | compilation _ _ => rfl
    | system _ => rfl
    | undecodable => rfl
    | _ => cases he
  · rfl
  · rfl

end Assembly

namespace Bundler

variable {b : Bundler} {site : Site} {fs : FileSystem} {out : String}

theorem outPath_of_load {x : Settings × Program × String} {fs' : FileSystem}
    (h : (b.load site).Ends fs x fs') : b.outPath site.cwd = .ok x.2.2 := by
  simp only [load, ends_bind_iff, ends_ofExcept_iff, ends_pure_iff] at h
  obtain ⟨_, _, -, _, _, -, _, _, -, _, _, ⟨hout, -⟩, rfl, -⟩ := h
  exact hout

theorem rooted_outPath (hsite : site.IsRegular) (h : b.outPath site.cwd = .ok out) :
    ∃ ss, Path.Rooted out.toList ss := by
  unfold outPath at h
  split at h
  · obtain rfl := Except.ok.inj h
    exact Path.rooted_absolute hsite.cwd _
  · cases h

/-- Writing a bundle touches only its file and adds directories above it. -/
theorem along_write {ss : List (List Char)} (hout : Path.Rooted out.toList ss) (b : Bundler)
    (site : Site) (eol : String) (p : Program) :
    (b.write site eol out p).Along (TouchesOnly (placeOf out)) := by
  have hput (content : ByteArray) (fs fs' : FileSystem)
      (h : fs.write site.cwd out content = .ok fs') : TouchesOnly (placeOf out) fs fs' :=
    touchesOnly_write hout h
  unfold write
  refine (along_makeDirectories hout site.cwd).bind fun _ => (along_change (hput _)).bind fun _ => ?_
  refine looks_files.along.bind fun fs => ?_
  refine Along.bind (Along.forM along_tell _) fun _ => (along_change (hput _)).bind fun _ => ?_
  split
  · exact (looks_fail _).along
  · exact (looks_pure _).along

/-- Once the output file is opened, neither the settings nor the compiler as a whole are to blame. -/
theorem fails_write (b : Bundler) (site : Site) (eol out : String) (p : Program) :
    (b.write site eol out p).Fails fun e => e.precedesOutput = false := by
  unfold write
  refine (fails_makeDirectoriesTo (fun _ => rfl) _ _ _).bind fun _ => ?_
  refine (fails_change fun _ => rfl).bind fun _ => ?_
  refine fails_files.bind fun fs => ?_
  refine Fails.bind (Fails.forM fails_tell _) fun _ => (fails_change fun _ => rfl).bind fun _ => ?_
  split
  case h_1 e he => exact fails_fail (Assembly.not_precedesOutput_of_bundle he)
  case h_2 => exact fails_pure ()

def IsTemporary (b : Bundler) (site : Site) (q : Place) : Prop :=
  q = placeOf (Compiler.configPath site b.baseDir) ∨ placeOf (Compiler.declarationDir site) <+: q

/-- However a run ends, it touched nothing but its output. -/
structure TouchesOnlyOutput (b : Bundler) (site : Site) (fs : FileSystem) : Prop where
  /-- Only the output file may be another one, and only above it there may be new directories. -/
  output : ∀ out, b.outPath site.cwd = .ok out → TouchesOnly (placeOf out) fs (b.run site fs).files
  no_output : ∀ e, b.outPath site.cwd = .error e → ∀ q, (b.run site fs).files.get? q = fs.get? q
  /-- Where nothing lay before, nothing temporary remains. -/
  temporary : ∀ q, b.IsTemporary site q → fs.get? q = none →
    (∀ out, b.outPath site.cwd = .ok out → ¬ q <+: placeOf out) →
    (b.run site fs).files.get? q = none
  /-- If the settings or the compiler as a whole are to blame, everything is as it was. -/
  refused : ∀ e, (b.run site fs).result = .error e → e.precedesOutput = true →
    ∀ q, (b.run site fs).files.get? q = fs.get? q

/-- A run leaves everything as it is, or opens its output file and then fails, if at all, for neither the
settings nor the compiler as a whole. -/
theorem run_unchanged_or (hsite : site.IsRegular) (hw : site.WritesBelow) (hb : b.HasWritableTarget)
    (hfs : fs.WellFormed) :
    (∀ q, (b.run site fs).files.get? q = fs.get? q) ∨
      ∃ out, b.outPath site.cwd = .ok out ∧
        TouchesOnly (placeOf out) fs (b.run site fs).files ∧
        ∀ e, (b.run site fs).result = .error e → e.precedesOutput = false := by
  have hload : (b.load site fs).files = fs := files_load hsite hw hb fun hnone _ hq => hfs.get?_eq_none hnone hq
  rw [run_eq]
  cases hx : (b.load site fs).result with
  | error e =>
      rw [bind_of_error hx]
      exact Or.inl fun q => congrArg (FileSystem.get? · q) hload
  | ok x =>
      obtain ⟨settings, p, out⟩ := x
      have hends : (b.load site).Ends fs (settings, p, out) fs := ⟨hx, hload⟩
      have hout := outPath_of_load hends
      obtain ⟨ss, hrooted⟩ := rooted_outPath hsite hout
      have halong : (do
          b.write site settings.eol out p
          note .info ("Wrote declaration bundle to " ++ out)).Along (TouchesOnly (placeOf out)) :=
        (b.along_write hrooted site settings.eol p).bind fun _ => along_tell _
      have hfails : (do
          b.write site settings.eol out p
          note .info ("Wrote declaration bundle to " ++ out)).Fails fun e => e.precedesOutput = false :=
        (b.fails_write site settings.eol out p).bind fun _ => fails_tell _
      rw [hends.bind_eq]
      dsimp only
      exact Or.inr ⟨out, hout, halong _, hfails _⟩

/-- If the target can be written, a run touches nothing but its output, whatever the other options are and
however the compiler ends. -/
theorem touchesOnlyOutput (hsite : site.IsRegular) (hw : site.WritesBelow) (hb : b.HasWritableTarget)
    (hfs : fs.WellFormed) : b.TouchesOnlyOutput site fs := by
  rcases run_unchanged_or (b := b) hsite hw hb hfs with hsame | ⟨out, hout, htouches, hfails⟩
  · exact ⟨fun _ _ => .of_get?_eq hsame, fun _ _ => hsame, fun q _ hq _ => (hsame q).trans hq,
      fun _ _ _ => hsame⟩
  · refine ⟨fun out' hout' => ?_, fun e he => ?_, fun q _ hq hoff => ?_, fun e he hblame => ?_⟩
    · obtain rfl : out = out' := Except.ok.inj (hout.symm.trans hout')
      exact htouches
    · rw [hout] at he
      cases he
    · exact (htouches.off q (hoff out hout)).trans hq
    · rw [hfails e he] at hblame
      cases hblame

theorem run_of_create_error {settings : Settings} {e : Failure}
    (hsettings : (b.settings site).Ends fs settings fs)
    (hcreate : (Compiler.create site b.options.tsc b.options.timeout b.baseDir settings.options
      settings.files fs).result = .error e) :
    (b.run site fs).result = .error e ∧ (b.run site fs).files = (Compiler.create site b.options.tsc
      b.options.timeout b.baseDir settings.options settings.files fs).files := by
  have hnote (text : String) : (note .info text).Ends fs () fs := ⟨rfl, rfl⟩
  have hload : (b.load site fs).result = .error e ∧ (b.load site fs).files = (Compiler.create site
      b.options.tsc b.options.timeout b.baseDir settings.options settings.files fs).files := by
    rw [load, hsettings.bind_eq, (hnote _).bind_eq, bind_of_error hcreate]
    exact ⟨rfl, rfl⟩
  rw [run_eq, bind_of_error hload.1]
  exact ⟨rfl, hload.2⟩

/-- A run stopped when it wrote its configuration, and leaves what was written of it in the base directory,
with everything else as it was. -/
structure LeavesConfiguration (b : Bundler) (site : Site) (fs : FileSystem) (settings : Settings)
    (o : Json.Obstacle) : Prop where
  settings_eq : (b.settings site).Ends fs settings fs
  obstacle_eq : (Compiler.configuration (Compiler.declarationOptions settings.options b.baseDir
    (Compiler.declarationDir site)) settings.files).obstacle = some o
  result_eq : (b.run site fs).result = .error (Compiler.unwritable o)
  free : fs.get? (placeOf (Compiler.configPath site b.baseDir)) = none
  get?_eq : ∀ q, (b.run site fs).files.get? q = if placeOf (Compiler.configPath site b.baseDir) = q then
    some (.file (Text.encode (Compiler.configuration (Compiler.declarationOptions settings.options b.baseDir
      (Compiler.declarationDir site)) settings.files).text)) else fs.get? q

/-- If the target cannot be written, a run fails, and leaves everything as it is or what was written of its
configuration. -/
theorem run_of_unwritable (hsite : site.IsRegular) (hb : ¬ b.HasWritableTarget) (hfs : fs.WellFormed) :
    (∃ e, (b.run site fs).result = .error e) ∧ ((∀ q, (b.run site fs).files.get? q = fs.get? q) ∨
      ∃ settings o, b.LeavesConfiguration site fs settings o) := by
  have hfiles : (b.settings site fs).files = fs := (b.looks_settings site fs).1
  cases hresult : (b.settings site fs).result with
  | error e =>
      have hload : (b.load site fs).result = .error e ∧ (b.load site fs).files = fs := by
        rw [load, bind_of_error hresult]
        exact ⟨rfl, hfiles⟩
      rw [run_eq, bind_of_error hload.1]
      exact ⟨⟨e, rfl⟩, .inl fun q => congrArg (FileSystem.get? · q) hload.2⟩
  | ok settings =>
      have hsettings : (b.settings site).Ends fs settings fs := ⟨hresult, hfiles⟩
      obtain ⟨o, hobstacle⟩ := Option.ne_none_iff_exists'.1 <| mt (obstacle_configuration_eq_none_iff hsettings
        b.baseDir (Compiler.declarationDir site) settings.files).1 hb
      obtain ⟨e, hcreate, hleft⟩ := Compiler.create_of_obstacle hsite
        (fun hnone _ hq => hfs.get?_eq_none hnone hq) b.options.tsc b.options.timeout hobstacle
      obtain ⟨hrun, hsame⟩ := run_of_create_error hsettings hcreate
      rw [← hsame] at hleft
      refine ⟨⟨e, hrun⟩, hleft.imp_right ?_⟩
      rintro ⟨rfl, hfree, hget⟩
      exact ⟨settings, o, hsettings, hobstacle, hrun, hfree, hget⟩

/-- However a run ends, it touches nothing but its output, if the target that is asked for can be written. If
not, it fails before it comes to its output, and what was written of the configuration may remain, but
nothing else. -/
theorem run_touchesOnlyOutput (b : Bundler) (hsite : site.IsRegular) (hw : site.WritesBelow)
    (hfs : fs.WellFormed) : (b.HasWritableTarget → b.TouchesOnlyOutput site fs) ∧
      (¬ b.HasWritableTarget → (∃ e, (b.run site fs).result = .error e) ∧
        ((∀ q, (b.run site fs).files.get? q = fs.get? q) ∨
          ∃ settings o, b.LeavesConfiguration site fs settings o)) :=
  ⟨fun hb => touchesOnlyOutput hsite hw hb hfs, fun hb => run_of_unwritable hsite hb hfs⟩

/-- A compiler that writes declarations and then breaks. -/
def brokenSite : Site where
  cwd := "/p"
  temporary := "/tmp"
  tokens := ⟨"x", "y"⟩
  environment := []
  installed := some "/bin/tsc"
  answer _ := .finished "/p/a.d.ts\n" "out of memory" 134 [("lib/b.d.ts", some (Text.encode "x"))]
  tree := twoScriptsSite.tree
  yaml := Yaml.simpleReader

theorem isRegular_brokenSite : brokenSite.IsRegular :=
  ⟨by decide, by decide, by decide +kernel, by decide, by decide⟩

theorem writesBelow_brokenSite : brokenSite.WritesBelow := by
  intro c w hw
  have hwritten : (brokenSite.answer c).written = [("lib/b.d.ts", some (Text.encode "x"))] := rfl
  rw [hwritten, List.mem_singleton] at hw
  rw [hw]
  decide +kernel

/-- A date, which has no form in a configuration. -/
def newYear : Value := .other ⟨"datetime.date(2020, 1, 1)", "2020-01-01", true, none⟩

/-- A bundler that asks for a date as its target. -/
def datedScripts : Bundler :=
  { twoScripts with options := { twoScripts.options with target := newYear } }

/-- A date cannot be written, and the configuration remains. -/
theorem not_touchesOnlyOutput_datedScripts : brokenSite.IsRegular ∧ brokenSite.WritesBelow ∧
    twoScriptsFiles.WellFormed ∧ ¬ datedScripts.TouchesOnlyOutput brokenSite twoScriptsFiles := by
  have hleft : twoScriptsFiles.get? (placeOf (Compiler.configPath brokenSite "/p")) = none ∧
      (datedScripts.run brokenSite twoScriptsFiles).files.get?
        (placeOf (Compiler.configPath brokenSite "/p")) ≠ none := by
    decide +kernel
  refine ⟨isRegular_brokenSite, writesBelow_brokenSite, wellFormed_of_entries (by decide +kernel),
    fun htouches => ?_⟩
  refine hleft.2 (htouches.temporary _ (.inl rfl) hleft.1 fun out hout => ?_)
  obtain rfl : Path.absolute "/p" "/p/pkg.d.ts" = out := Except.ok.inj hout
  decide +kernel

theorem run_touchesOnlyOutput_brokenSite :
    brokenSite.IsRegular ∧ brokenSite.WritesBelow ∧ twoScriptsFiles.WellFormed ∧
      twoScripts.TouchesOnlyOutput brokenSite twoScriptsFiles ∧
      ∀ q, (twoScripts.run brokenSite twoScriptsFiles).files.get? q = twoScriptsFiles.get? q := by
  have hfiles : twoScriptsFiles.WellFormed := wellFormed_of_entries (by decide +kernel)
  have htouches := (run_touchesOnlyOutput twoScripts isRegular_brokenSite writesBelow_brokenSite hfiles).1
    (hasWritableTarget_of_null rfl)
  have hrefused : ((twoScripts.run brokenSite twoScriptsFiles).result matches
      .error (.invocation _ _ _)) = true := by
    decide +kernel
  refine ⟨isRegular_brokenSite, writesBelow_brokenSite, hfiles, htouches, ?_⟩
  split at hrefused
  case h_1 hresult => exact htouches.refused _ hresult rfl
  case h_2 => cases hrefused

end Bundler

end DeclBundle
