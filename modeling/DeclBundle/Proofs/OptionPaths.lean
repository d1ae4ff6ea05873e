import DeclBundle.Bundle.Run
import DeclBundle.Proofs.Overriding
import DeclBundle.Proofs.TidyPath

/-!
# Paths in an options file

An options file may be named by a relative path or by the absolute one. A run on the options goes by the
same base directory and the same output file then: the paths in the file as they are seen from its
directory. The path of the settings file is seen from the directory of the file when that is found by an
absolute path; but when it is found by a relative one, the path is still relative and is seen from the base
directory after that (`load_runPaths`). It leads to the same file only if the base directory and the
working directory are the same as far as it does not climb.
-/

namespace DeclBundle.Options

open DeclBundle.Path

/-- The paths that a run on options goes by: the base directory, the output file, and the settings file in
normal form. -/
structure RunPaths where
  baseDir : String
  out : String
  settings : String

def runPaths (cwd : String) (o : Options) : Except Failure RunPaths := do
  let b ← Bundler.ofOptions cwd o
  let out ← b.outPath cwd
  let settings ← Settings.locate b.baseDir b.options.project
  pure ⟨b.baseDir, out, normalize settings⟩

/-- The directory of a file, as it is seen from a working directory. -/
def home (cwd file : String) : String := absolute cwd (parent (tidy file))

/-- A relative and an absolute path that lead to one file. -/
structure NameOneFile (fs : FileSystem) (cwd file other : String) : Prop where
  isRelative : isAbsolute file = false
  isRooted : isAbsolute other = true
  sameAnchor : Path.anchor other.toList = Path.anchor cwd.toList
  samePlace : ∃ l, fs.place cwd (tidy file) = .ok l ∧ fs.place cwd (tidy other) = .ok l

/-- An options file holds relative paths, and no others are given apart from it. -/
structure HoldsPaths (es overrides : Record) (base out project : String) : Prop where
  holdsBase : spelt? es "base_dir" = some (.text base)
  holdsOut : spelt? es "out" = some (.text out)
  holdsProject : spelt? es "project" = some (.text project)
  areRelative : ∀ p ∈ [base, out, project], p ≠ "" ∧ isAbsolute p = false
  notGiven : ∀ key ∈ pathKeys, given? overrides key = none

def seenFrom (directory base out project : String) (o : Options) : Options :=
  { o with
    baseDir := .text (tidyJoin directory base)
    out := .text (tidyJoin directory out)
    project := .text (tidyJoin directory project) }

variable {site : Site} {cwd file other base out project : String} {fs : FileSystem}
  {es overrides : Record} {o : Options}

theorem absolute_home (hcwd : isAbsolute cwd = true) (file : String) {p : String}
    (hp : isAbsolute p = false) :
    absolute cwd (tidyJoin (parent (tidy file)) p) = absolute (home cwd file) p :=
  absolute_tidyJoin hcwd _ hp

theorem isAbsolute_home (hcwd : isAbsolute cwd = true) (file : String) :
    isAbsolute (home cwd file) = true :=
  isAbsolute_absolute hcwd _

/-! ### One file under two names -/

theorem exists_file_of_readValue {path : String} {v : Value} (h : readValue site path fs = .ok v) :
    ∃ l content, fs.place site.cwd path = .ok l ∧ fs.get? l = some (.file content) ∧
      parse site.yaml path content = .ok v := by
  unfold readValue at h
  split at h
  · cases h
  case h_2 content hread =>
    unfold FileSystem.read at hread
    split at hread
    · cases hread
    case h_2 l hplace =>
      split at hread
      · cases hread
      · cases hread
      case h_3 hfile =>
        obtain rfl := Except.ok.inj hread
        exact ⟨l, _, hplace, hfile, h⟩

/-- The path of a file counts for its extension and for what is said of it when it is not read. -/
theorem parse_congr {yaml : Yaml.Reader} {path path' : String} {bytes : ByteArray} {v : Value}
    (hyaml : isYaml path = isYaml path') (h : parse yaml path bytes = .ok v) :
    parse yaml path' bytes = .ok v := by
  unfold parse at h ⊢
  rw [← hyaml]
  split
  case isTrue hpath =>
    rw [if_pos hpath, parseYaml] at h
    split at h
    case h_1 hread => rw [parseYaml, yaml.read_renamed hread path', ← h]
    · cases h
    · cases h
  case isFalse hpath =>
    rw [if_neg hpath, parseJson] at h
    split at h
    · cases h
    case h_2 text htext =>
      split at h
      case h_1 hread => simp only [parseJson, htext, hread, ← h]
      · cases h
      · cases h

theorem NameOneFile.readValue_eq (hcwd : isAbsolute site.cwd = true)
    (h : NameOneFile fs site.cwd file other) {v : Value} (hread : readValue site (tidy file) fs = .ok v) :
    home site.cwd file = home site.cwd other ∧ readValue site (tidy other) fs = .ok v := by
  obtain ⟨l, content, hplace, hfile, hparse⟩ := exists_file_of_readValue hread
  obtain ⟨l', hl, hplace'⟩ := h.samePlace
  obtain rfl : l = l' := Except.ok.inj (hplace.symm.trans hl)
  have hanchor : Path.anchor (absolute site.cwd file).toList =
      Path.anchor (absolute site.cwd other).toList := by
    rw [anchor_absolute hcwd, anchor_absolute hcwd, h.isRelative, h.isRooted, if_neg Bool.false_ne_true,
      if_pos rfl, h.sameAnchor]
  obtain ⟨hparent, hlast⟩ := FileSystem.absolute_parent_eq hcwd hanchor hplace hplace' hfile
  refine ⟨hparent, ?_⟩
  have hyaml : isYaml (tidy file) = isYaml (tidy other) := by
    rw [isYaml, isYaml, extension, extension, hlast]
  have hbytes : fs.read site.cwd (tidy other) = .ok content := by
    simp only [FileSystem.read, hplace', hfile]
  simp only [readValue, hbytes, parse_congr hyaml hparse]

/-! ### What a run goes by -/

theorem HoldsPaths.chosen? (h : HoldsPaths es overrides base out project) (directory : String) :
    chosen? directory es overrides "base_dir" = some (.text (tidyJoin directory base)) ∧
      chosen? directory es overrides "out" = some (.text (tidyJoin directory out)) ∧
      chosen? directory es overrides "project" = some (.text (tidyJoin directory project)) := by
  have hplaced : ∀ key ∈ pathKeys, ∀ p ∈ [base, out, project], spelt? es key = some (.text p) →
      Options.chosen? directory es overrides key = some (.text (tidyJoin directory p)) := by
    intro key hkey p hp hspelt
    obtain ⟨hne, hrelative⟩ := h.areRelative p hp
    simp [Options.chosen?, h.notGiven key hkey, hspelt, placed, hkey, Options.anchor, hne, hrelative]
  exact ⟨hplaced _ (by simp [pathKeys]) base (by simp) h.holdsBase,
    hplaced _ (by simp [pathKeys]) out (by simp) h.holdsOut,
    hplaced _ (by simp [pathKeys]) project (by simp) h.holdsProject⟩

/-- The options of the file under another name are the same but for the paths, which are seen from the
directory that the other name gives the file. -/
theorem HoldsPaths.result_load (h : HoldsPaths es overrides base out project)
    (hoverrides : AreOverrides overrides) (hread : readValue site (tidy file) fs = .ok (.map es))
    (hread' : readValue site (tidy other) fs = .ok (.map es))
    (ho : (load site (some file) overrides fs).result = .ok o) :
    (load site (some other) overrides fs).result =
      .ok (seenFrom (parent (tidy other)) base out project o) := by
  rw [result_load_eq hread hoverrides, validated_combined_eq_ok_iff] at ho
  rw [result_load_eq hread' hoverrides, validated_combined_eq_ok_iff]
  obtain ⟨hyields, hproblem⟩ := ho
  obtain ⟨hbase, hout, hproject⟩ := h.chosen? (parent (tidy other))
  have helse : ∀ key, key ∉ pathKeys → Options.chosen? (parent (tidy file)) es overrides key =
      Options.chosen? (parent (tidy other)) es overrides key := by
    intro key hkey
    have hid : ∀ directory, placed directory key = id := fun _ => funext fun _ => if_neg hkey
    rw [Options.chosen?, Options.chosen?, hid, hid]
  have hnonempty : ∀ p, (Value.text (tidyJoin (parent (tidy other)) p)).isTruthy = true := fun p =>
    Value.isTruthy_text.2 (tidy_ne_empty _)
  constructor
  · exact {
      baseDir := by rw [hbase]; rfl
      name := helse "name" (by decide) ▸ hyields.name
      out := by rw [hout]; rfl
      files := helse "files" (by decide) ▸ hyields.files
      excludes := helse "excludes" (by decide) ▸ hyields.excludes
      externs := helse "externs" (by decide) ▸ hyields.externs
      eol := helse "eol" (by decide) ▸ hyields.eol
      indent := helse "indent" (by decide) ▸ hyields.indent
      main := helse "main" (by decide) ▸ hyields.main
      target := helse "target" (by decide) ▸ hyields.target
      tsc := helse "tsc" (by decide) ▸ hyields.tsc
      project := by rw [hproject]; rfl
      timeout := helse "timeout" (by decide) ▸ hyields.timeout }
  · exact problem?_eq_none_iff.2 {
      problem?_eq_none_iff.1 hproblem with
      baseDir := hnonempty base
      out := hnonempty out }

theorem runPaths_of_text {settings : String} (hproblem : o.problem? = none)
    (hbase : o.baseDir = .text base) (hout : o.out = .text out)
    (hlocate : Settings.locate (absolute cwd base) o.project = .ok settings) :
    runPaths cwd o = .ok ⟨absolute cwd base, absolute cwd out, normalize settings⟩ := by
  have hready : Bundler.ofOptions cwd o = .ok ⟨o, absolute cwd base⟩ := by
    simp only [Bundler.ofOptions, validate, hproblem, bind, Except.bind, hbase, pure, Except.pure]
  have hpath : Bundler.outPath ⟨o, absolute cwd base⟩ cwd = .ok (absolute cwd out) := by
    simp only [Bundler.outPath, hout]
  simp only [runPaths, hready, bind, Except.bind, hpath, hlocate]
  rfl

/-- A run goes by the base directory and the output file as they are seen from the directory of the file,
and by the settings file as it is seen from there, the directory being seen from the base directory. -/
theorem HoldsPaths.runPaths_eq (file : String) (hcwd : isAbsolute cwd = true)
    (h : HoldsPaths es overrides base out project)
    (hproblem : (seenFrom (parent (tidy file)) base out project o).problem? = none) :
    runPaths cwd (seenFrom (parent (tidy file)) base out project o) = .ok
      ⟨absolute (home cwd file) base, absolute (home cwd file) out,
        absolute (absolute (absolute (home cwd file) base) (parent (tidy file))) project⟩ := by
  have hrelative : ∀ p ∈ [base, out, project], isAbsolute p = false := fun p hp => (h.areRelative p hp).2
  have hbase := absolute_home hcwd file (hrelative base (by simp))
  have hout := absolute_home hcwd file (hrelative out (by simp))
  have hroot := isAbsolute_absolute (isAbsolute_home hcwd file) base
  have hlocate : Settings.locate (absolute cwd (tidyJoin (parent (tidy file)) base))
      (.text (tidyJoin (parent (tidy file)) project)) =
        .ok (tidyJoin (absolute (home cwd file) base) (tidyJoin (parent (tidy file)) project)) := by
    have hgiven : (Value.text (tidyJoin (parent (tidy file)) project)).isTruthy = true :=
      Value.isTruthy_text.2 (tidy_ne_empty _)
    rw [Settings.locate, Settings.named, if_pos hgiven, hbase]
    rfl
  rw [runPaths_of_text hproblem rfl rfl hlocate, hbase, hout, normalize_tidyJoin hroot,
    absolute_tidyJoin hroot _ (hrelative project (by simp))]

/-- Under a relative and under an absolute name of an options file, a run on the options goes by the base
directory and the output file as they are seen from the directory of the file. Under the absolute name it
also goes by the settings file as it is seen from there. Under the relative name that is seen from the base
directory once more, and it is the same file exactly if the base directory and the working directory are
the same as far as the way to it does not climb. -/
theorem load_runPaths (hcwd : isAbsolute site.cwd = true) (hnames : NameOneFile fs site.cwd file other)
    (hread : readValue site (tidy file) fs = .ok (.map es))
    (hholds : HoldsPaths es overrides base out project) (hoverrides : AreOverrides overrides)
    (ho : (load site (some file) overrides fs).result = .ok o) :
    ∃ o', (load site (some other) overrides fs).result = .ok o' ∧
      runPaths site.cwd o = .ok
        ⟨absolute (home site.cwd file) base, absolute (home site.cwd file) out,
          absolute (absolute (absolute (home site.cwd file) base) (parent (tidy file))) project⟩ ∧
      runPaths site.cwd o' = .ok
        ⟨absolute (home site.cwd file) base, absolute (home site.cwd file) out,
          absolute (home site.cwd file) project⟩ ∧
      (runPaths site.cwd o = runPaths site.cwd o' ↔
        SameAbove (climb (tidyJoin (parent (tidy file)) project).toList)
          (absolute (home site.cwd file) base) (normalize site.cwd)) := by
  obtain ⟨hparent, hread'⟩ := hnames.readValue_eq hcwd hread
  have hload := hholds.result_load hoverrides hread hread ho
  have hload' := hholds.result_load hoverrides hread hread' ho
  have hproblem : ∀ {f : String} {o : Options}, readValue site (tidy f) fs = .ok (.map es) →
      (load site (some f) overrides fs).result = .ok o → o.problem? = none := by
    intro f o hf hf'
    rw [result_load_eq hf hoverrides, validated_combined_eq_ok_iff] at hf'
    exact hf'.2
  have hpaths := hholds.runPaths_eq _ hcwd (hproblem hread hload)
  have hpaths' := hholds.runPaths_eq _ hcwd (hproblem hread' hload')
  rw [← Except.ok.inj (ho.symm.trans hload)] at hpaths
  have hother : isAbsolute (parent (tidy other)) = true := by
    rw [isAbsolute_parent, isAbsolute_tidy, hnames.isRooted]
  have hsame : ∀ d, absolute d (parent (tidy other)) = home site.cwd file := fun d => by
    rw [hparent, home, absolute_of_isAbsolute hother, absolute_of_isAbsolute hother]
  rw [hsame, ← hparent] at hpaths'
  refine ⟨_, hload', hpaths, hpaths', ?_⟩
  -- Both ways to the settings file are one relative path, seen from the two directories.
  have hrelative : ∀ p ∈ [base, out, project], isAbsolute p = false := fun p hp =>
    (hholds.areRelative p hp).2
  have hway : ∀ p, isAbsolute p = false → isAbsolute (tidyJoin (parent (tidy file)) p) = false := by
    intro p hp
    rw [tidyJoin, isAbsolute_tidy, isAbsolute_join _ hp, isAbsolute_parent, isAbsolute_tidy,
      hnames.isRelative]
  have hbase := absolute_home hcwd file (hrelative base (by simp))
  have hanchor := anchor_absolute hcwd (tidyJoin (parent (tidy file)) base)
  have hnormal := (rooted_reach hcwd (tidyJoin (parent (tidy file)) base)).normalize_eq
  rw [hway base (hrelative base (by simp)), if_neg Bool.false_ne_true, hbase] at hanchor
  rw [hbase] at hnormal
  have hproject := hrelative project (by simp)
  have hroot := isAbsolute_absolute (isAbsolute_home hcwd file) base
  rw [hpaths, hpaths', Except.ok.injEq, RunPaths.mk.injEq, ← absolute_tidyJoin hroot _ hproject,
    ← absolute_home hcwd file hproject,
    absolute_eq_absolute_iff hroot hcwd hanchor (hway project hproject), hnormal]
  simp

/-- Entries with a base directory, an output file and a settings file. -/
def pathEntries : Record := [
  (.text "name", .text "pkg"), (.text "baseDir", .text "src"), (.text "out", .text "out.d.ts"),
  (.text "project", .text "t.json")]

def pathText : String :=
  "\x7b\"name\": \"pkg\", \"baseDir\": \"src\", \"out\": \"out.d.ts\", \"project\": \"t.json\"\x7d"

def pathFiles : FileSystem := ⟨[
  (["p"], .directory), (["p", "conf"], .directory),
  (["p", "conf", "o.json"], .file (Text.encode pathText))]⟩

def pathOptions : Options where
  baseDir := .null
  name := .text "pkg"
  out := .null
  files := []
  excludes := []
  externs := []
  eol := .null
  indent := .text "\t"
  main := .null
  target := .null
  tsc := .null
  project := .null
  timeout := .null

theorem holdsPaths_pathEntries : HoldsPaths pathEntries [] "src" "out.d.ts" "t.json" :=
  ⟨rfl, rfl, rfl, by decide, by decide⟩

theorem areOverrides_nil : AreOverrides [] := ⟨List.Pairwise.nil, nofun⟩

theorem readValue_pathFiles (hplace : pathFiles.place "/p" (tidy file) = .ok ["p", "conf", "o.json"])
    (hyaml : isYaml (tidy file) = false) :
    readValue Bundler.twoScriptsSite (tidy file) pathFiles = .ok (.map pathEntries) := by
  have hread : Json.read pathText = .ok (.map pathEntries) := by cbv
  exact readValue_of_json hplace rfl hyaml (by decide +kernel) hread

theorem problem?_pathOptions (directory : String) :
    (seenFrom directory "src" "out.d.ts" "t.json" pathOptions).problem? = none := by
  have hnonempty : ∀ p, (Value.text (tidyJoin directory p)).isTruthy = true := fun p =>
    Value.isTruthy_text.2 (tidy_ne_empty _)
  exact problem?_eq_none_iff.2
    ⟨hnonempty _, rfl, hnonempty _, nofun, nofun, nofun, .inl rfl, .inl rfl⟩

theorem result_load_pathFiles
    (hread : readValue Bundler.twoScriptsSite (tidy file) pathFiles = .ok (.map pathEntries)) :
    (load Bundler.twoScriptsSite (some file) [] pathFiles).result =
      .ok (seenFrom (parent (tidy file)) "src" "out.d.ts" "t.json" pathOptions) := by
  obtain ⟨hbase, hout, hproject⟩ := holdsPaths_pathEntries.chosen? (parent (tidy file))
  rw [result_load_eq hread areOverrides_nil, validated_combined_eq_ok_iff]
  refine ⟨⟨?_, rfl, ?_, rfl, rfl, rfl, rfl, rfl, rfl, rfl, rfl, ?_, rfl⟩, problem?_pathOptions _⟩
  · rw [hbase]
    rfl
  · rw [hout]
    rfl
  · rw [hproject]
    rfl

theorem nameOneFile_pathFiles : NameOneFile pathFiles "/p" "conf/o.json" "/p/conf/o.json" :=
  ⟨by decide, by decide, by decide, ["p", "conf", "o.json"], by decide +kernel, by decide +kernel⟩

theorem readValue_relative :
    readValue Bundler.twoScriptsSite (tidy "conf/o.json") pathFiles = .ok (.map pathEntries) :=
  readValue_pathFiles (by decide +kernel) (by decide +kernel)

theorem readValue_absolute :
    readValue Bundler.twoScriptsSite (tidy "/p/conf/o.json") pathFiles = .ok (.map pathEntries) :=
  readValue_pathFiles (by decide +kernel) (by decide +kernel)

/-- A settings file that is found beside the options file under the absolute name is looked for elsewhere
under the relative one. -/
theorem not_runPaths_eq_pathFiles :
    NameOneFile pathFiles "/p" "conf/o.json" "/p/conf/o.json" ∧
      HoldsPaths pathEntries [] "src" "out.d.ts" "t.json" ∧
      ∃ o o', (load Bundler.twoScriptsSite (some "conf/o.json") [] pathFiles).result = .ok o ∧
        (load Bundler.twoScriptsSite (some "/p/conf/o.json") [] pathFiles).result = .ok o' ∧
        runPaths "/p" o =
          .ok ⟨"/p/conf/src", "/p/conf/out.d.ts", "/p/conf/src/conf/t.json"⟩ ∧
        runPaths "/p" o' = .ok ⟨"/p/conf/src", "/p/conf/out.d.ts", "/p/conf/t.json"⟩ ∧
        runPaths "/p" o ≠ runPaths "/p" o' := by
  have hcwd : isAbsolute "/p" = true := by decide
  have hrelative := holdsPaths_pathEntries.runPaths_eq "conf/o.json" hcwd (problem?_pathOptions _)
  have habsolute :=
    holdsPaths_pathEntries.runPaths_eq "/p/conf/o.json" hcwd (problem?_pathOptions _)
  have hpaths : absolute (home "/p" "conf/o.json") "src" = "/p/conf/src" ∧
      absolute (home "/p" "conf/o.json") "out.d.ts" = "/p/conf/out.d.ts" ∧
      absolute (absolute "/p/conf/src" (parent (tidy "conf/o.json"))) "t.json" =
        "/p/conf/src/conf/t.json" := by
    decide +kernel
  have hpaths' : absolute (home "/p" "/p/conf/o.json") "src" = "/p/conf/src" ∧
      absolute (home "/p" "/p/conf/o.json") "out.d.ts" = "/p/conf/out.d.ts" ∧
      absolute (absolute "/p/conf/src" (parent (tidy "/p/conf/o.json"))) "t.json" = "/p/conf/t.json" := by
    decide +kernel
  rw [hpaths.1, hpaths.2.1, hpaths.2.2] at hrelative
  rw [hpaths'.1, hpaths'.2.1, hpaths'.2.2] at habsolute
  refine ⟨nameOneFile_pathFiles, holdsPaths_pathEntries, _, _, result_load_pathFiles readValue_relative,
    result_load_pathFiles readValue_absolute, hrelative, habsolute, ?_⟩
  rw [hrelative, habsolute]
  simp

theorem load_runPaths_pathFiles :
    isAbsolute "/p" = true ∧ NameOneFile pathFiles "/p" "conf/o.json" "/p/conf/o.json" ∧
      readValue Bundler.twoScriptsSite (tidy "conf/o.json") pathFiles = .ok (.map pathEntries) ∧
      HoldsPaths pathEntries [] "src" "out.d.ts" "t.json" ∧ AreOverrides [] ∧
      ∃ o o', (load Bundler.twoScriptsSite (some "conf/o.json") [] pathFiles).result = .ok o ∧
        (load Bundler.twoScriptsSite (some "/p/conf/o.json") [] pathFiles).result = .ok o' ∧
        runPaths "/p" o ≠ runPaths "/p" o' := by
  have hcwd : isAbsolute "/p" = true := by decide
  have hload := result_load_pathFiles readValue_relative
  obtain ⟨o', ho', -, -, hiff⟩ := load_runPaths hcwd nameOneFile_pathFiles readValue_relative
    holdsPaths_pathEntries areOverrides_nil hload
  have hother : ¬ SameAbove (climb (tidyJoin (parent (tidy "conf/o.json")) "t.json").toList)
      (absolute (home "/p" "conf/o.json") "src") (normalize "/p") := by
    unfold SameAbove
    decide +kernel
  exact ⟨hcwd, nameOneFile_pathFiles, readValue_relative, holdsPaths_pathEntries, areOverrides_nil, _, o',
    hload, ho', fun heq => hother (hiff.1 heq)⟩

end DeclBundle.Options
