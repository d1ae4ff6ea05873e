import DeclBundle.Proofs.Actions
import DeclBundle.Proofs.Stopping

/-!
# Runs that stop at a file

Once its output file is open, writing a bundle cannot fail for that file: what is left in it is the text
of the bundle as far as it came (`write_of_open`). So a run that stops at a file that cannot be read, or
that the compiler failed, leaves the top of the bundle and the contributions of the files before, whole,
and has told of them and of that file only; what stands behind it makes no difference (`Stopped`). When
all declaration files can be read, such a run ends with a fault of the compiler exactly if the program
has a faulty file (`write_failsFast`).
-/

namespace DeclBundle

namespace FileSystem

variable {fs fs' : FileSystem} {cwd p : String} {content : ByteArray}

theorem exists_write_of_write (h : fs.write cwd p content = .ok fs') (content' : ByteArray) :
    ∃ left, fs'.write cwd p content' = .ok left := by
  have hread := read_of_write h
  unfold read at hread
  unfold write writable
  split at hread
  case h_1 => cases hread
  case h_2 l hplace =>
    split at hread
    case h_1 => cases hread
    case h_2 => cases hread
    case h_3 old hfile =>
      refine ⟨fs'.put l (.file content'), ?_⟩
      simp [hfile, Except.map]

end FileSystem

namespace Bundler

variable {b : Bundler} {site : Site} {eol out : String} {p : Program} {fs opened : FileSystem}

/-- The output file is made, with the directories above it, and is empty. -/
def openOutput (site : Site) (out : String) : Action Unit := do
  Action.makeDirectories site.cwd (Path.directory out)
  Action.change fun fs => fs.write site.cwd out ByteArray.empty

def resultOf (x : Fragment) : Except Failure Unit :=
  match x.failure with
  | some e => .error e
  | none => .ok ()

theorem resultOf_eq_error_iff {x : Fragment} {e : Failure} :
    resultOf x = .error e ↔ x.failure = some e := by
  unfold resultOf
  cases x.failure with
  | none => simp
  | some e' => simp

/-- Once the output file is open, the bundle is written to it as far as it came. -/
theorem write_of_open (b : Bundler) (eol : String) (p : Program)
    (h : (openOutput site out).Ends fs () opened) :
    ∃ left, opened.write site.cwd out
        (Text.encode ((b.assembly site eol).bundle opened p).text) = .ok left ∧
      b.write site eol out p fs =
        ⟨left, ((b.assembly site eol).bundle opened p).events,
          resultOf ((b.assembly site eol).bundle opened p)⟩ := by
  obtain ⟨_, made, hmake, hempty⟩ := Action.ends_bind_iff.1 h
  rw [Action.ends_change_iff] at hempty
  obtain ⟨left, hleft⟩ := FileSystem.exists_write_of_write hempty
    (Text.encode ((b.assembly site eol).bundle opened p).text)
  refine ⟨left, hleft, ?_⟩
  have hemptied : Action.change (fun fs => fs.write site.cwd out ByteArray.empty) made =
      ⟨opened, [], .ok ()⟩ := Action.change_of_ok hempty
  have hwritten : Action.change (fun fs => fs.write site.cwd out
      (Text.encode ((b.assembly site eol).bundle opened p).text)) opened = ⟨left, [], .ok ()⟩ :=
    Action.change_of_ok hleft
  have hmade : Action.makeDirectories site.cwd (Path.directory out) fs = ⟨made, [], .ok ()⟩ :=
    Action.makeDirectoriesTo_of_ends hmake
  rw [write, Action.bind_of_untold hmade, Action.bind_of_untold hemptied,
    Action.bind_of_untold (Action.files_apply opened), List.forM_eq_forM,
    Action.bind_of_told (Action.forM_tell_apply _ opened), Action.bind_of_untold hwritten, resultOf]
  cases ((b.assembly site eol).bundle opened p).failure with
  | none => simp
  | some e => simp

def withTree (site : Site) (tree : String → SyntaxTree) : Site := { site with tree := tree }

/-- What is left and told when a bundle is written that stops at a file. -/
structure Stopped (b : Bundler) (site : Site) (eol out : String) (p : Program) (fs opened : FileSystem)
    (before : List String) (path : String) (e : Failure) : Prop where
  stopsAt : (b.assembly site eol).StopsAt opened p before path e
  /-- The output file holds the top of the bundle and the contributions of the files before. -/
  read_out : (b.write site eol out p fs).files.read site.cwd out =
    .ok (Text.encode ((b.assembly site eol).upTo opened p before))
  /-- The messages are those of the files before and one for the file itself. -/
  messages : (b.write site eol out p fs).events.filterMap Event.message? =
    ((b.assembly site eol).externs.map fun path => "Writing external dependency " ++ path) ++
      (before.filter (b.assembly site eol).isInside).map (b.assembly site eol).notice ++
      ["Processing " ++ path]
  /-- Whatever other files stand behind it, and however all but the files before it are parsed, the same
  is done and told. -/
  unaffected : ∀ (after : List String) (tree : String → SyntaxTree),
    (∀ q ∈ before, ∀ text, (b.assembly site eol).declarations? opened p q = some text →
      tree text = site.tree text) →
    b.write (withTree site tree) eol out { p with files := before ++ path :: after } fs =
      b.write site eol out p fs

theorem stopped_of_error {e : Failure} (h : (openOutput site out).Ends fs () opened)
    (he : e.precedesParsing = true) (hresult : (b.write site eol out p fs).result = .error e) :
    ∃ before path, b.Stopped site eol out p fs opened before path e := by
  obtain ⟨left, hleft, hwrite⟩ := write_of_open b eol p h
  rw [hwrite, resultOf_eq_error_iff, Assembly.bundle_failure_eq_some_iff he] at hresult
  obtain ⟨before, path, hstops⟩ := hresult
  refine ⟨before, path, hstops, ?_, ?_, ?_⟩
  · rw [hwrite, FileSystem.read_of_write hleft, hstops.text_eq he]
  · rw [hwrite]
    exact hstops.messages_eq
  · intro after tree htree
    have hbundle : (b.assembly (withTree site tree) eol).bundle opened
        { p with files := before ++ path :: after } = (b.assembly site eol).bundle opened p :=
      hstops.bundle_withTree he after htree
    have hopen' : (openOutput (withTree site tree) out).Ends fs () opened := h
    obtain ⟨left', hleft', hwrite'⟩ := write_of_open b eol
      { p with files := before ++ path :: after } hopen'
    rw [hbundle] at hleft' hwrite'
    obtain rfl : left = left' := Except.ok.inj (hleft.symm.trans hleft')
    rw [hwrite, hwrite']

/-- How writing the bundle of a program fails once its output file is open. -/
structure FailsFast (b : Bundler) (site : Site) (eol out : String) (p : Program)
    (fs opened : FileSystem) : Prop where
  /-- A failure that a file meets before it is parsed ends the bundle at that file. -/
  stopped : ∀ e, e.precedesParsing = true → (b.write site eol out p fs).result = .error e →
    ∃ before path, b.Stopped site eol out p fs opened before path e
  /-- If the unit of indentation is a text, the trees of the parser are trees of their texts, and all
  declaration files that go into the bundle can be read and decoded, then a fault of the compiler ends the
  bundle exactly if it has a faulty file, and it is the blame for the first of these. -/
  compilation_iff : (b.assembly site eol).indent.isSome = true →
    (∀ text, (site.tree text).root.fits text.toList = true) →
    (∀ path ∈ p.files, (b.assembly site eol).isBundled path = true →
      Module.isDeclaration path = true → (Assembly.sourceText opened site.cwd path).isOk = true) →
    ∀ file ds, (b.write site eol out p fs).result = .error (.compilation file ds) ↔
      ∃ path, p.files.find? ((b.assembly site eol).isFaulty p) = some path ∧
        file = Path.normalize path ∧ ds = (p.diagnosticsOf path).eraseDups
  /-- A run that comes to the program ends as the bundle does, and tells the same messages. -/
  run : ∀ start settings, settings.eol = eol → (b.load site).Ends start (settings, p, out) fs →
    (b.run site start).result = (b.write site eol out p fs).result ∧
      (b.run site start).files = (b.write site eol out p fs).files ∧
      (b.run site start).events.filterMap Event.message? =
        (b.write site eol out p fs).events.filterMap Event.message?

/-- An entry in the journal at the end changes nothing but the journal. -/
theorem note_behind (x : Action Unit) (level : Level) (text : String) (fs : FileSystem) :
    ((do x; Action.note level text : Action Unit) fs).result = (x fs).result ∧
      ((do x; Action.note level text : Action Unit) fs).files = (x fs).files ∧
      ((do x; Action.note level text : Action Unit) fs).events.filterMap Event.message? =
        (x fs).events.filterMap Event.message? := by
  cases h : (x fs).result with
  | error e =>
      rw [Action.bind_of_error h]
      exact ⟨rfl, rfl, rfl⟩
  | ok u =>
      rw [Action.bind_of_ok h, List.filterMap_append]
      exact ⟨rfl, rfl, List.append_nil _⟩

/-- A run that comes to a program ends as the writing of its bundle does, and tells the same messages. -/
theorem run_of_load {start : FileSystem} {settings : Settings}
    (h : (b.load site).Ends start (settings, p, out) fs) :
    (b.run site start).result = (b.write site settings.eol out p fs).result ∧
      (b.run site start).files = (b.write site settings.eol out p fs).files ∧
      (b.run site start).events.filterMap Event.message? =
        (b.write site settings.eol out p fs).events.filterMap Event.message? := by
  have haside : (b.load site start).events.filterMap Event.message? = [] :=
    List.filterMap_eq_nil_iff.2 (b.tells_load site start)
  obtain ⟨hresult, hfiles, hmessages⟩ := note_behind (b.write site settings.eol out p) .info
    ("Wrote declaration bundle to " ++ out) fs
  rw [b.run_eq site, h.bind_eq, List.filterMap_append, haside, List.nil_append]
  dsimp only
  exact ⟨hresult, hfiles, hmessages⟩

/-- A bundle that fails at a file that could not be read, or that the compiler failed, is finished up to
that file and no further; a fault of the compiler ends it at the first faulty file. -/
theorem write_failsFast (h : (openOutput site out).Ends fs () opened) :
    b.FailsFast site eol out p fs opened where
  stopped e he hresult := stopped_of_error h he hresult
  compilation_iff hindent htree hread file ds := by
    obtain ⟨left, -, hwrite⟩ := write_of_open b eol p h
    rw [hwrite, resultOf_eq_error_iff, Assembly.bundle_failure_eq_compilation_iff hindent htree hread]
    simp only [Assembly.blame, Failure.compilation.injEq]
  run start settings heol hload := by
    obtain rfl := heol
    exact run_of_load hload

/-- The trees of the text `// a` and of the empty text, which also stands for any other. -/
def commentTree (text : String) : SyntaxTree :=
  if text = "// a" then
    ⟨⟨⟨"program", true, none⟩, 0, 4, [⟨⟨"comment", true, none⟩, 0, 4, []⟩]⟩, false⟩
  else ⟨⟨⟨"program", true, none⟩, 0, 0, []⟩, false⟩

theorem fits_commentTree (text : String) : (commentTree text).root.fits text.toList = true := by
  unfold commentTree
  split
  case isTrue h =>
    rw [h]
    decide +kernel
  case isFalse =>
    have hzero : (Text.place? text.toList 0).isSome = true := by
      rw [Text.place?]
      split
      · rfl
      · rw [Text.charIndex?_zero]
        rfl
    simp [Cst.fits, Cst.fitAll, hzero]

/-- A fault in the second of three files, which is said twice. -/
def faultySecond : Program where
  files := ["/p/a.d.ts", "/p/b.ts", "/p/c.ts"]
  diagnostics := [⟨some "/p/b.ts", 1, 7, 2322, "no number", .error⟩,
    ⟨some "/p/c.ts", 1, 1, 2304, "no name", .error⟩, ⟨some "/p/b.ts", 1, 7, 2322, "no number", .error⟩]
  declarations := [("/p/b.ts", "")]

/-- The place of the run on the three files. -/
def faultySite : Site := withTree twoScriptsSite commentTree

def faultyOpened : FileSystem := (openOutput faultySite "/p/pkg.d.ts" twoScriptsFiles).files

theorem write_failsFast_faultySecond :
    (openOutput faultySite "/p/pkg.d.ts").Ends twoScriptsFiles () faultyOpened ∧
      twoScripts.FailsFast faultySite "\n" "/p/pkg.d.ts" faultySecond twoScriptsFiles faultyOpened ∧
      (twoScripts.write faultySite "\n" "/p/pkg.d.ts" faultySecond twoScriptsFiles).result =
        .error (.compilation "/p/b.ts" [⟨some "/p/b.ts", 1, 7, 2322, "no number", .error⟩]) := by
  have hopen : (openOutput faultySite "/p/pkg.d.ts").Ends twoScriptsFiles () faultyOpened := by
    have hok : (openOutput faultySite "/p/pkg.d.ts" twoScriptsFiles).result.toOption = some () := by
      decide +kernel
    refine ⟨?_, rfl⟩
    cases hresult : (openOutput faultySite "/p/pkg.d.ts" twoScriptsFiles).result with
    | ok u => rfl
    | error e => simp [hresult, Except.toOption] at hok
  have hfast : twoScripts.FailsFast faultySite "\n" "/p/pkg.d.ts" faultySecond twoScriptsFiles
      faultyOpened := write_failsFast hopen
  refine ⟨hopen, hfast, (hfast.compilation_iff (by decide +kernel) fits_commentTree ?_ _ _).2 ?_⟩
  · decide +kernel
  · exact ⟨"/p/b.ts", by decide +kernel, by decide +kernel, by decide +kernel⟩

end Bundler

end DeclBundle
