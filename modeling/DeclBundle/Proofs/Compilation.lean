import DeclBundle.Proofs.Actions

/-!
# What the compiler did

`Compilation` is what the compiler did in a run that came to a program: the one call that was made
(`Compilation.call_mem_events_iff`), the report in its output, and the declarations that were read. With
another report of the same files it would have come to the program of that report, unless that has an error
of the program as a whole (`Compilation.reporting`). It does not matter which of the regular statuses the
call ended with.
-/

namespace DeclBundle

namespace Action

variable {α : Type} {fs fs' : FileSystem}

theorem ends_tidying_iff {x : Action α} {tidy : FileSystem → FileSystem} {a : α} :
    (x.tidying tidy).Ends fs a fs' ↔ ∃ left, x.Ends fs a left ∧ tidy left = fs' := by
  constructor
  · rintro ⟨hresult, hfiles⟩
    exact ⟨(x fs).files, ⟨hresult, rfl⟩, hfiles⟩
  · rintro ⟨left, ⟨hresult, rfl⟩, htidy⟩
    exact ⟨hresult, htidy⟩

theorem events_tidying (x : Action α) (tidy : FileSystem → FileSystem) (fs : FileSystem) :
    (x.tidying tidy fs).events = (x fs).events := rfl

theorem ends_forM_note_iff {level : Level} {f : String → String} {texts : List String} {u : Unit} :
    (forM texts fun t => note level (f t) : Action Unit).Ends fs u fs' ↔ fs = fs' := by
  induction texts with
  | nil => exact ends_pure_iff.trans (and_iff_right rfl)
  | cons t texts ih =>
      rw [List.forM_cons, ends_bind_iff]
      simp [ih]

theorem Ends.mem_events_bind_iff {β : Type} {x : Action α} {a : α} (h : x.Ends fs a fs')
    {f : α → Action β} {e : Event} :
    e ∈ ((x >>= f) fs).events ↔ e ∈ (x fs).events ∨ e ∈ (f a fs').events := by
  rw [h.bind_eq, List.mem_append]

theorem mem_events_bind {β : Type} {x : Action α} (f : α → Action β) {e : Event}
    (he : e ∈ (x fs).events) : e ∈ ((x >>= f) fs).events := by
  rw [bind_apply]
  split
  · exact he
  · exact List.mem_append_left _ he

end Action

open DeclBundle.Action

/-- A site at which every call of the compiler comes to the same. -/
def Site.answering (site : Site) (outcome : CallOutcome) : Site := { site with answer := fun _ => outcome }

namespace Site

variable (site : Site) (outcome : CallOutcome)

@[simp] theorem answering_cwd : (site.answering outcome).cwd = site.cwd := rfl

@[simp] theorem answering_temporary : (site.answering outcome).temporary = site.temporary := rfl

@[simp] theorem answering_tokens : (site.answering outcome).tokens = site.tokens := rfl

@[simp] theorem answering_environment : (site.answering outcome).environment = site.environment := rfl

@[simp] theorem answering_installed : (site.answering outcome).installed = site.installed := rfl

@[simp] theorem answering_tree : (site.answering outcome).tree = site.tree := rfl

end Site

def Diagnostic.isOf (d : Diagnostic) (path : String) : Bool :=
  match d.file with
  | some f => Path.normalize f == Path.normalize path
  | none => false

namespace Compiler

variable {site : Site} {baseDir dir output : String} {fs fs' : FileSystem} {p : Program}

/-- Whether the compiler came to an end at which its report counts. -/
def IsRegular (status : Int) : Prop := status = 0 ∨ status = 1 ∨ status = 2

theorem ends_perform_iff {c : CompilerCall} :
    (perform site dir c).Ends fs output fs' ↔
      ∃ errors status written, site.answer c = .finished output errors status written ∧
        IsRegular status ∧ plantAll dir written fs = fs' := by
  rw [perform, ends_bind_iff]
  cases hanswer : site.answer c with
  | timedOut written => simp [ends_bind_iff]
  | refused code text => simp
  | finished output' errors status written =>
      by_cases hstatus : IsRegular status
      · have hregular : status = 0 ∨ status = 1 ∨ status = 2 := hstatus
        simp only [if_pos hregular, ends_bind_iff, ends_tell_iff, ends_change_iff, ends_pure_iff,
          CallOutcome.finished.injEq]
        constructor
        · rintro ⟨_, _, rfl, _, _, hplant, rfl, rfl⟩
          exact ⟨errors, status, written, ⟨rfl, rfl, rfl, rfl⟩, hstatus, Except.ok.inj hplant⟩
        · rintro ⟨_, _, _, ⟨rfl, rfl, rfl, rfl⟩, -, rfl⟩
          exact ⟨(), fs, rfl, (), _, rfl, rfl, rfl⟩
      · have hregular : ¬ (status = 0 ∨ status = 1 ∨ status = 2) := hstatus
        simp only [if_neg hregular, ends_bind_iff, ends_fail_iff, CallOutcome.finished.injEq]
        constructor
        · rintro ⟨_, _, -, _, _, -, hend⟩
          exact hend.elim
        · rintro ⟨_, _, _, ⟨rfl, rfl, rfl, rfl⟩, hend, -⟩
          exact absurd hend hstatus

theorem call_mem_perform (c : CompilerCall) (fs : FileSystem) :
    Event.call c ∈ (perform site dir c fs).events := by
  rw [perform]
  exact mem_events_bind _ (List.mem_singleton.2 rfl)

theorem call_mem_createIn_iff {words : List String} {options : Record} {files : List String}
    {timeout : Value} {c : CompilerCall} (h : createFile site (configPath site baseDir)
      (callOf site words baseDir dir options files timeout).config fs = .ok fs')
    (hcomplete : completed (configuration (declarationOptions options baseDir dir) files) = .ok ()) :
    Event.call c ∈ (createIn site words baseDir dir options files timeout fs).events ↔
      c = callOf site words baseDir dir options files timeout := by
  constructor
  · intro hc
    have htells : (createIn site words baseDir dir options files timeout).Tells fun e =>
        ∀ c, e = .call c → c = callOf site words baseDir dir options files timeout :=
      tells_createIn site (fun _ _ c hc => Event.noConfusion hc) fun c hc => (Event.call.inj hc).symm
    exact htells fs _ hc c rfl
  · rintro rfl
    have hconfigure : change (createFile site (configPath site baseDir)
        (configuration (declarationOptions options baseDir dir) files).text) fs = ⟨fs', [], .ok ()⟩ :=
      change_of_ok h
    have hwhole : ofExcept (completed (configuration (declarationOptions options baseDir dir) files)) fs' =
        ⟨fs', [], .ok ()⟩ := by
      rw [hcomplete]
      rfl
    have hnote (text : String) : (note .info text).Ends fs' () fs' := ⟨rfl, rfl⟩
    simp only [createIn]
    rw [bind_of_untold hconfigure, bind_of_untold hwhole]
    refine mem_events_bind _ ?_
    rw [events_tidying]
    exact (hnote _).mem_events_bind_iff.2 (.inr (call_mem_perform _ fs'))

theorem ends_readReport_iff {report : Report} :
    (readReport baseDir output).Ends fs report fs' ↔
      Report.read baseDir output = (report, none) ∧ fs = fs' := by
  unfold readReport
  obtain ⟨read, bad⟩ := Report.read baseDir output
  simp only [List.forM_eq_forM, ends_bind_iff, ends_forM_note_iff, Prod.mk.injEq]
  cases bad with
  | some b => simp
  | none =>
      simp only [ends_pure_iff, and_true]
      constructor
      · rintro ⟨_, _, rfl, hreport⟩
        exact hreport
      · rintro ⟨hreport, rfl⟩
        exact ⟨(), fs, rfl, hreport, rfl⟩

theorem ends_programOf_iff {report : Report} :
    (programOf site baseDir dir report).Ends fs p fs' ↔
      report.diagnostics.filter Diagnostic.isGlobalError = [] ∧
        (readDeclarations site baseDir dir [] report.files).Ends fs p.declarations fs' ∧
        p.files = report.files ∧ p.diagnostics = report.diagnostics := by
  simp only [programOf, List.isEmpty_iff]
  by_cases hglobal : report.diagnostics.filter Diagnostic.isGlobalError = []
  · rw [if_pos hglobal, ends_bind_iff]
    simp only [ends_pure_iff]
    constructor
    · rintro ⟨declarations, _, hends, rfl, rfl⟩
      exact ⟨hglobal, hends, rfl, rfl⟩
    · rintro ⟨-, hends, hfiles, hdiagnostics⟩
      exact ⟨p.declarations, fs', hends, by rw [← hfiles, ← hdiagnostics], rfl⟩
  · simp [hglobal]

/-- What the compiler did in a run that came to a program. -/
structure Compilation (site : Site) (executable timeout : Value) (baseDir : String) (options : Record)
    (files : List String) (fs : FileSystem) (p : Program) (fs' : FileSystem) where
  words : List String
  made : FileSystem
  configured : FileSystem
  output : String
  errors : String
  status : Int
  written : List (String × Option ByteArray)
  report : Report
  left : FileSystem
  command_eq : command site fs baseDir executable = .ok words
  make_eq : fs.makeDirectory site.cwd (declarationDir site) = .ok made
  configure_eq : createFile site (configPath site baseDir)
    (callOf site words baseDir (declarationDir site) options files timeout).config made = .ok configured
  complete_eq : completed (configuration (declarationOptions options baseDir (declarationDir site)) files) =
    .ok ()
  answer_eq : site.answer (callOf site words baseDir (declarationDir site) options files timeout) =
    .finished output errors status written
  isRegular : IsRegular status
  read_eq : Report.read baseDir output = (report, none)
  no_global : report.diagnostics.filter Diagnostic.isGlobalError = []
  reads : (readDeclarations site baseDir (declarationDir site) [] report.files).Ends
    ((plantAll (declarationDir site) written configured).without
      (· == FileSystem.placeOf (configPath site baseDir))) p.declarations left
  files_eq : p.files = report.files
  diagnostics_eq : p.diagnostics = report.diagnostics
  left_eq : left.without (FileSystem.isWithin (FileSystem.placeOf (declarationDir site))) = fs'

variable {executable timeout : Value} {options : Record} {files : List String}

theorem exists_compilation (h : (create site executable timeout baseDir options files).Ends fs p fs') :
    Nonempty (Compilation site executable timeout baseDir options files fs p fs') := by
  simp only [create, createIn, ends_bind_iff, ends_files_iff, ends_ofExcept_iff, ends_change_iff,
    ends_tidying_iff, ends_note_iff, ends_pure_iff, ends_perform_iff, ends_readReport_iff,
    ends_programOf_iff] at h
  obtain ⟨_, _, ⟨rfl, rfl⟩, words, _, ⟨hwords, rfl⟩, _, made, hmake, _, _, ⟨left, ⟨_, configured,
    hconfigure, _, _, ⟨hcomplete, rfl⟩, output, _, ⟨_, ⟨_, _, rfl, errors, status, written, hanswer, hstatus,
    rfl⟩, rfl⟩, report, _, ⟨hread, rfl⟩, hglobal, hreads, hfiles, hdiagnostics⟩, rfl⟩, _, _, rfl, rfl,
    rfl⟩ := h
  exact ⟨⟨words, made, configured, output, errors, status, written, report, left, hwords, hmake,
    hconfigure, hcomplete, hanswer, hstatus, hread, hglobal, hreads, hfiles, hdiagnostics, rfl⟩⟩

namespace Compilation

variable (w : Compilation site executable timeout baseDir options files fs p fs')

include w

theorem ends_createIn : (createIn site w.words baseDir (declarationDir site) options files timeout).Ends
    w.made p w.left := by
  simp only [createIn, ends_bind_iff, ends_change_iff, ends_ofExcept_iff, ends_tidying_iff, ends_note_iff,
    ends_perform_iff, ends_readReport_iff, ends_programOf_iff]
  exact ⟨(), w.configured, w.configure_eq, (), _, ⟨w.complete_eq, rfl⟩, w.output, _, ⟨_, ⟨(), _, rfl,
    w.errors, w.status, w.written, w.answer_eq, w.isRegular, rfl⟩, rfl⟩, w.report, _, ⟨w.read_eq, rfl⟩,
    w.no_global, w.reads, w.files_eq, w.diagnostics_eq⟩

theorem ends : (create site executable timeout baseDir options files).Ends fs p fs' := by
  simp only [create, ends_bind_iff, ends_files_iff, ends_ofExcept_iff, ends_change_iff,
    ends_tidying_iff, ends_note_iff, ends_pure_iff]
  exact ⟨fs, fs, ⟨rfl, rfl⟩, w.words, fs, ⟨w.command_eq, rfl⟩, (), w.made, w.make_eq, p, fs',
    ⟨w.left, w.ends_createIn, w.left_eq⟩, (), fs', rfl, rfl, rfl⟩

def call : CompilerCall := callOf site w.words baseDir (declarationDir site) options files timeout

theorem call_mem_events_iff {c : CompilerCall} :
    Event.call c ∈ (create site executable timeout baseDir options files fs).events ↔ c = w.call := by
  have hwords : ofExcept (command site fs baseDir executable) fs = ⟨fs, [], .ok w.words⟩ := by
    rw [w.command_eq]
    rfl
  have hmake : change (fun fs => fs.makeDirectory site.cwd (declarationDir site)) fs =
      ⟨w.made, [], .ok ()⟩ := change_of_ok w.make_eq
  have hcreate : ((createIn site w.words baseDir (declarationDir site) options files timeout).tidying
      fun fs => fs.without (FileSystem.isWithin (FileSystem.placeOf (declarationDir site)))).Ends
        w.made p fs' := ends_tidying_iff.2 ⟨w.left, w.ends_createIn, w.left_eq⟩
  rw [create, bind_of_untold (files_apply fs), bind_of_untold hwords, bind_of_untold hmake,
    hcreate.mem_events_bind_iff, events_tidying, call_mem_createIn_iff w.configure_eq w.complete_eq]
  refine or_iff_left fun hnote => ?_
  cases List.mem_singleton.1 hnote

end Compilation

section Answering

variable (site : Site) (outcome : CallOutcome) (baseDir dir : String)

theorem command_answering (fs : FileSystem) (executable : Value) :
    command (site.answering outcome) fs baseDir executable = command site fs baseDir executable := by
  simp [command, configured, local?, Site.valueOf?]

theorem callOf_answering (words : List String) (options : Record) (files : List String)
    (timeout : Value) :
    callOf (site.answering outcome) words baseDir dir options files timeout =
      callOf site words baseDir dir options files timeout := by
  simp [callOf, configPath]

theorem createFile_answering (p text : String) :
    createFile (site.answering outcome) p text = createFile site p text := by
  funext fs
  simp [createFile]

theorem readDeclaration_answering (found : List (String × String)) (path : String) :
    readDeclaration (site.answering outcome) baseDir dir found path =
      readDeclaration site baseDir dir found path := by
  simp [readDeclaration, emittedPath]

theorem readDeclarations_answering (found : List (String × String)) (files : List String) :
    readDeclarations (site.answering outcome) baseDir dir found files =
      readDeclarations site baseDir dir found files := by
  induction files generalizing found with
  | nil => rfl
  | cons path files ih =>
      rw [readDeclarations, readDeclarations, readDeclaration_answering]
      exact congrArg (readDeclaration site baseDir dir found path >>= ·) (funext ih)

end Answering

/-- With another report of the same files, and without an error of the program as a whole, the compiler
makes the program of that report. -/
def Compilation.reporting (w : Compilation site executable timeout baseDir options files fs p fs')
    {output' : String} {status' : Int} {report' : Report} (hstatus : IsRegular status')
    (hread : Report.read baseDir output' = (report', none)) (hfiles : report'.files = w.report.files)
    (hglobal : report'.diagnostics.filter Diagnostic.isGlobalError = []) (errors' : String) :
    Compilation (site.answering (.finished output' errors' status' w.written)) executable timeout baseDir
      options files fs { p with diagnostics := report'.diagnostics } fs' where
  words := w.words
  made := w.made
  configured := w.configured
  output := output'
  errors := errors'
  status := status'
  written := w.written
  report := report'
  left := w.left
  command_eq := (command_answering site _ baseDir fs executable).trans w.command_eq
  make_eq := w.make_eq
  configure_eq := by
    rw [createFile_answering, callOf_answering]
    exact w.configure_eq
  complete_eq := w.complete_eq
  answer_eq := rfl
  isRegular := hstatus
  read_eq := hread
  no_global := hglobal
  reads := by
    rw [readDeclarations_answering, hfiles]
    exact w.reads
  files_eq := w.files_eq.trans hfiles.symm
  diagnostics_eq := rfl
  left_eq := w.left_eq

end Compiler

theorem Bundler.Success.exists_compilation {b : Bundler} {site : Site} {fs fs' : FileSystem}
    (w : b.Success site fs fs') : ∃ settled left, (b.settings site).Ends fs w.settings settled ∧
      Nonempty (Compiler.Compilation site b.options.tsc b.options.timeout b.baseDir w.settings.options
        w.settings.files settled w.program left) := by
  obtain ⟨settled, left, hsettings, hcreate⟩ := w.exists_create
  exact ⟨settled, left, hsettings, Compiler.exists_compilation hcreate⟩

end DeclBundle
