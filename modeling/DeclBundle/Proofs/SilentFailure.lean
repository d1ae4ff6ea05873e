import DeclBundle.Proofs.Compilation
import DeclBundle.Proofs.LineStart

/-!
# A compiler that fails without a word

A call of the compiler counts if it ended well, or if it ended with a status that stands for diagnostics
and has reported some (`CallOutcome.IsAccounted`); otherwise the failure is to be said
(`Failure.IsComplaint`). Only the first of these is looked at: a call that ends with such a status and
reports nothing (`CallOutcome.IsSilent`) leads to a program, and it is the only kind of call that is taken
for something else than it is (`create_minds_iff`). Every call that is told was made after the same
preparations (`Called`), so the result follows from its outcome alone, but for the declarations.
-/

namespace DeclBundle

open DeclBundle.Action

namespace Action

variable {α β : Type} {fs : FileSystem}

/-- Actions one after another tell what the first tells, and what the others tell where it ends well. -/
theorem mem_events_bind_iff {x : Action α} {f : α → Action β} {e : Event} :
    e ∈ ((x >>= f) fs).events ↔
      e ∈ (x fs).events ∨ ∃ a fs', x.Ends fs a fs' ∧ e ∈ (f a fs').events := by
  cases hx : (x fs).result with
  | error failure =>
      rw [bind_of_error hx]
      refine ⟨.inl, fun h => h.resolve_right ?_⟩
      rintro ⟨a, _, ⟨hresult, -⟩, -⟩
      cases hx.symm.trans hresult
  | ok a =>
      have hends : x.Ends fs a (x fs).files := ⟨hx, rfl⟩
      rw [hends.mem_events_bind_iff]
      refine or_congr_right ⟨fun he => ⟨a, _, hends, he⟩, ?_⟩
      rintro ⟨a', _, ⟨hresult, rfl⟩, he⟩
      obtain rfl : a = a' := Except.ok.inj (hx.symm.trans hresult)
      exact he

theorem Ends.result_bind {x : Action α} {a : α} {fs' : FileSystem} (h : x.Ends fs a fs')
    (f : α → Action β) : ((x >>= f) fs).result = (f a fs').result := by
  rw [h.bind_eq]

theorem result_bind_of_error {x : Action α} {e : Failure} (h : (x fs).result = .error e)
    (f : α → Action β) : ((x >>= f) fs).result = .error e := by
  rw [bind_of_error h]

theorem result_tidying (x : Action α) (tidy : FileSystem → FileSystem) :
    (x.tidying tidy fs).result = (x fs).result := rfl

theorem result_noting (x : Action α) (level : Level) (text : α → String) :
    ((do
      let a ← x
      note level (text a)
      pure a) fs).result = (x fs).result := by
  cases hx : (x fs).result with
  | error e => exact result_bind_of_error hx _
  | ok a =>
      have hends : x.Ends fs a (x fs).files := ⟨hx, rfl⟩
      rw [hends.result_bind]
      rfl

end Action

/-- Whether a failure says that the compiler could not be used, or what it has found. -/
def Failure.IsComplaint : Failure → Prop
  | .configuration _ => True
  | .invocation _ _ _ => True
  | _ => False

/-- Whether a text, which was printed in a directory, can be read as a report with diagnostics in it. -/
def Report.HasDiagnostics (baseDir output : String) : Prop :=
  ∃ report, Report.read baseDir output = (report, none) ∧ report.diagnostics ≠ []

namespace CallOutcome

/-- Whether a call ended well, or with a status that stands for diagnostics and with some of them. -/
def IsAccounted (baseDir : String) : CallOutcome → Prop
  | .finished output _ status _ =>
    status = 0 ∨ (status = 1 ∨ status = 2) ∧ Report.HasDiagnostics baseDir output
  | _ => False

/-- Whether a call ended with a status that stands for diagnostics, but without any. -/
def IsSilent (baseDir : String) : CallOutcome → Prop
  | .finished output _ status _ =>
    (status = 1 ∨ status = 2) ∧ ¬ Report.HasDiagnostics baseDir output
  | _ => False

variable {baseDir : String} {outcome : CallOutcome}

theorem IsSilent.exists_finished (h : outcome.IsSilent baseDir) :
    ∃ output errors status written, outcome = .finished output errors status written := by
  cases outcome with
  | finished output errors status written => exact ⟨output, errors, status, written, rfl⟩
  | timedOut written => exact h.elim
  | refused code text => exact h.elim

theorem IsSilent.not_isAccounted (h : outcome.IsSilent baseDir) : ¬ outcome.IsAccounted baseDir := by
  obtain ⟨output, errors, status, written, rfl⟩ := h.exists_finished
  obtain ⟨hstatus, hnone⟩ := h
  rintro (hzero | ⟨-, hsome⟩)
  · omega
  · exact hnone hsome

/-- A call that is not accounted for, and is not silent, came to no regular end. -/
theorem not_isRegular (h : ¬ outcome.IsAccounted baseDir) (hsilent : ¬ outcome.IsSilent baseDir)
    {output errors : String} {status : Int} {written : List (String × Option ByteArray)}
    (houtcome : outcome = .finished output errors status written) : ¬ Compiler.IsRegular status := by
  subst houtcome
  simp only [IsAccounted, IsSilent, Compiler.IsRegular] at *
  tauto

end CallOutcome

namespace Compiler

variable {site : Site} {executable timeout : Value} {baseDir dir output errors : String}
  {options : Record} {files : List String} {fs : FileSystem} {c : CompilerCall} {status : Int}
  {written : List (String × Option ByteArray)}

/-- What was done before a call of the compiler. -/
structure Called (site : Site) (executable timeout : Value) (baseDir : String) (options : Record)
    (files : List String) (fs : FileSystem) (c : CompilerCall) where
  words : List String
  made : FileSystem
  configured : FileSystem
  command_eq : command site fs baseDir executable = .ok words
  make_eq : fs.makeDirectory site.cwd (declarationDir site) = .ok made
  configure_eq : createFile site (configPath site baseDir)
    (callOf site words baseDir (declarationDir site) options files timeout).config made = .ok configured
  complete_eq : completed (configuration (declarationOptions options baseDir (declarationDir site)) files) =
    .ok ()
  call_eq : c = callOf site words baseDir (declarationDir site) options files timeout

theorem createFile_of_mem_createIn {words : List String}
    (h : Event.call c ∈ (createIn site words baseDir dir options files timeout fs).events) :
    ∃ configured, createFile site (configPath site baseDir)
      (callOf site words baseDir dir options files timeout).config fs = .ok configured ∧
      completed (configuration (declarationOptions options baseDir dir) files) = .ok () := by
  simp only [createIn, mem_events_bind_iff, ends_change_iff, ends_ofExcept_iff] at h
  obtain hchange | ⟨_, configured, hconfigure, hcomplete | ⟨_, _, ⟨hcomplete, -⟩, -⟩⟩ := h
  · rw [change] at hchange
    split at hchange
    · cases hchange
    · cases hchange
  · cases hcomplete
  · exact ⟨configured, hconfigure, hcomplete⟩

theorem exists_called
    (h : Event.call c ∈ (create site executable timeout baseDir options files fs).events) :
    Nonempty (Called site executable timeout baseDir options files fs c) := by
  have hchange (f : FileSystem → Except FileSystem.Fault FileSystem) (fs : FileSystem) :
      Event.call c ∉ (change f fs).events := fun hc =>
    tells_change (P := fun _ => False) f fs _ hc
  have hnote (level : Level) (text : String) (fs : FileSystem) :
      Event.call c ∉ (note level text fs).events := by simp [note]
  have hofExcept {α : Type} (x : Except Failure α) (fs : FileSystem) :
      Event.call c ∉ (ofExcept x fs).events := List.not_mem_nil
  simp only [create, mem_events_bind_iff, ends_files_iff, ends_ofExcept_iff, ends_change_iff,
    events_tidying, hchange, hnote, hofExcept, files_apply, pure_apply, List.not_mem_nil, false_or,
    and_false, exists_false, or_false] at h
  obtain ⟨_, _, ⟨rfl, rfl⟩, words, _, ⟨hwords, rfl⟩, _, made, hmake, hcreate⟩ := h
  obtain ⟨configured, hconfigure, hcomplete⟩ := createFile_of_mem_createIn hcreate
  exact ⟨⟨words, made, configured, hwords, hmake, hconfigure, hcomplete,
    (call_mem_createIn_iff hconfigure hcomplete).1 hcreate⟩⟩

/-- The call of the compiler, its configuration being removed afterwards. -/
def performed (site : Site) (baseDir : String) (c : CompilerCall) : Action String :=
  Action.tidying
    (do
      note .info ("Running " ++ " ".intercalate c.command)
      perform site (declarationDir site) c)
    fun fs => fs.without (· == FileSystem.placeOf (configPath site baseDir))

def programIn (site : Site) (baseDir output : String) : Action Program := do
  let report ← readReport baseDir output
  programOf site baseDir (declarationDir site) report

theorem createIn_of_configured {words : List String} {configured : FileSystem}
    (h : createFile site (configPath site baseDir)
      (callOf site words baseDir (declarationDir site) options files timeout).config fs = .ok configured)
    (hcomplete : completed (configuration (declarationOptions options baseDir (declarationDir site)) files) =
      .ok ()) :
    createIn site words baseDir (declarationDir site) options files timeout fs =
      (performed site baseDir (callOf site words baseDir (declarationDir site) options files timeout) >>=
        programIn site baseDir) configured := by
  have hconfigure : change (createFile site (configPath site baseDir)
      (configuration (declarationOptions options baseDir (declarationDir site)) files).text) fs =
        ⟨configured, [], .ok ()⟩ := change_of_ok h
  have hwhole : ofExcept (completed (configuration (declarationOptions options baseDir (declarationDir site))
      files)) configured = ⟨configured, [], .ok ()⟩ := by
    rw [hcomplete]
    rfl
  rw [createIn, bind_of_untold hconfigure, bind_of_untold hwhole]
  rfl

namespace Called

theorem result_eq (w : Called site executable timeout baseDir options files fs c) :
    (create site executable timeout baseDir options files fs).result =
      ((performed site baseDir c >>= programIn site baseDir) w.configured).result := by
  obtain ⟨words, made, configured, hcommand, hmake, hconfigure, hcomplete, rfl⟩ := w
  have hwords : ofExcept (command site fs baseDir executable) fs = ⟨fs, [], .ok words⟩ := by
    rw [hcommand]
    rfl
  have hdirectory : change (fun fs => fs.makeDirectory site.cwd (declarationDir site)) fs =
      ⟨made, [], .ok ()⟩ := change_of_ok hmake
  rw [create, bind_of_untold (files_apply fs), bind_of_untold hwords, bind_of_untold hdirectory,
    result_noting, result_tidying, createIn_of_configured hconfigure hcomplete]

variable (w : Called site executable timeout baseDir options files fs c)

def left (written : List (String × Option ByteArray)) : FileSystem :=
  (plantAll (declarationDir site) written w.configured).without
    (· == FileSystem.placeOf (configPath site baseDir))

theorem ends_performed (hanswer : site.answer c = .finished output errors status written)
    (hstatus : IsRegular status) :
    (performed site baseDir c).Ends w.configured output (w.left written) := by
  simp only [performed, ends_tidying_iff, ends_bind_iff, ends_note_iff, ends_perform_iff]
  exact ⟨_, ⟨(), _, rfl, errors, status, written, hanswer, hstatus, rfl⟩, rfl⟩

/-- The report of a call that came to a regular end is read, and the program in it is the result. -/
theorem result_of_isRegular (hanswer : site.answer c = .finished output errors status written)
    (hstatus : IsRegular status) : (create site executable timeout baseDir options files fs).result =
      (programIn site baseDir output (w.left written)).result := by
  rw [w.result_eq, (w.ends_performed hanswer hstatus).result_bind]

end Called

theorem perform_of_not_isRegular (dir : String) (h : ∀ output errors status written,
      site.answer c = .finished output errors status written → ¬ IsRegular status)
    (fs : FileSystem) : ∃ reason status,
      (perform site dir c fs).result = .error (.invocation c.command reason status) := by
  rw [perform]
  cases hanswer : site.answer c with
  | timedOut written => exact ⟨_, _, rfl⟩
  | refused code text => exact ⟨_, _, rfl⟩
  | finished output errors status written =>
      have hstatus : ¬ (status = 0 ∨ status = 1 ∨ status = 2) := h output errors status written hanswer
      refine ⟨complaint errors output, some status, ?_⟩
      simp only [if_neg hstatus]
      rfl

theorem Called.result_of_not_isRegular (w : Called site executable timeout baseDir options files fs c)
    (h : ∀ output errors status written,
      site.answer c = .finished output errors status written → ¬ IsRegular status) :
    ∃ reason status, (create site executable timeout baseDir options files fs).result =
      .error (.invocation c.command reason status) := by
  obtain ⟨reason, status, hresult⟩ :=
    perform_of_not_isRegular (declarationDir site) h w.configured
  have hnote : (note .info ("Running " ++ " ".intercalate c.command)).Ends w.configured ()
      w.configured := ⟨rfl, rfl⟩
  have hperformed : (performed site baseDir c w.configured).result =
      .error (.invocation c.command reason status) := by
    rw [← hresult]
    exact hnote.result_bind fun _ => perform site (declarationDir site) c
  exact ⟨reason, status, w.result_eq.trans (result_bind_of_error hperformed _)⟩

theorem readReport_of_bad {report : Report} {bad : BadValue}
    (h : Report.read baseDir output = (report, some bad)) (fs : FileSystem) :
    (readReport baseDir output fs).result = .error (.badValue bad) := by
  have hnotes : (forM report.ignored fun l =>
      note .debug ("Ignoring compiler output line: " ++ l) : Action Unit).Ends fs () fs :=
    ends_forM_note_iff.2 rfl
  simp only [readReport, h]
  exact hnotes.result_bind _

/-- A report without diagnostics is one of a program, of which nothing is said. -/
theorem programOf_of_no_diagnostics {report : Report} (h : report.diagnostics = [])
    (fs : FileSystem) :
    (∃ declarations, (programOf site baseDir dir report fs).result =
        .ok ⟨report.files, [], declarations⟩) ∨
      report.files ≠ [] ∧ (programOf site baseDir dir report fs).result = .error .undecodable := by
  have hprogram : programOf site baseDir dir report = (do
      let declarations ← readDeclarations site baseDir dir [] report.files
      pure ⟨report.files, [], declarations⟩) := by
    simp [programOf, h]
  rw [hprogram]
  cases hread : (readDeclarations site baseDir dir [] report.files fs).result with
  | ok declarations =>
      have hends : (readDeclarations site baseDir dir [] report.files).Ends fs declarations
        (readDeclarations site baseDir dir [] report.files fs).files := ⟨hread, rfl⟩
      exact .inl ⟨declarations, hends.result_bind _⟩
  | error e =>
      obtain rfl : e = .undecodable :=
        fails_readDeclarations (P := (· = .undecodable)) rfl site baseDir dir _ _ fs e hread
      refine .inr ⟨fun hfiles => ?_, result_bind_of_error hread _⟩
      rw [hfiles] at hread
      cases hread

/-- Whether a result is right for a call: there is a program only if the call is accounted for, and
otherwise it is said what is wrong. -/
structure Minds (baseDir : String) (outcome : CallOutcome) (result : Except Failure Program) : Prop where
  accounted : ∀ p, result = .ok p → outcome.IsAccounted baseDir
  complains : ¬ outcome.IsAccounted baseDir → ∃ e, result = .error e ∧ e.IsComplaint

/-- What becomes of a call that failed without a word: a program of which nothing is said, unless its
declarations cannot be decoded or a number in its output has too many digits. -/
structure Overlooks (baseDir output : String) (result : Except Failure Program) : Prop where
  of_read : ∀ report, Report.read baseDir output = (report, none) →
    (∃ declarations, result = .ok ⟨report.files, [], declarations⟩) ∨
      report.files ≠ [] ∧ result = .error .undecodable
  of_bad : ∀ report bad, Report.read baseDir output = (report, some bad) →
    result = .error (.badValue bad)

theorem Overlooks.not_isComplaint {result : Except Failure Program} (h : Overlooks baseDir output result)
    {e : Failure} (he : result = .error e) : ¬ e.IsComplaint := by
  subst he
  obtain ⟨report, bad, hread⟩ : ∃ report bad, Report.read baseDir output = (report, bad) := ⟨_, _, rfl⟩
  cases bad with
  | none =>
      obtain ⟨_, hok⟩ | ⟨-, hundecodable⟩ := h.of_read report hread
      · cases hok
      · obtain rfl := Except.error.inj hundecodable
        exact id
  | some bad =>
      obtain rfl := Except.error.inj (h.of_bad report bad hread)
      exact id

theorem Called.overlooks (w : Called site executable timeout baseDir options files fs c)
    (hanswer : site.answer c = .finished output errors status written)
    (hsilent : (site.answer c).IsSilent baseDir) :
    Overlooks baseDir output (create site executable timeout baseDir options files fs).result := by
  rw [hanswer] at hsilent
  obtain ⟨hstatus, hnone⟩ := hsilent
  rw [w.result_of_isRegular hanswer (.inr hstatus)]
  constructor
  · intro report hread
    have hdiagnostics : report.diagnostics = [] := by
      by_contra hne
      exact hnone ⟨report, hread, hne⟩
    have hends : (readReport baseDir output).Ends (w.left written) report (w.left written) :=
      ends_readReport_iff.2 ⟨hread, rfl⟩
    rw [programIn, hends.result_bind]
    exact programOf_of_no_diagnostics hdiagnostics (w.left written)
  · intro report bad hread
    exact result_bind_of_error (readReport_of_bad hread _) _

/-- A call of the compiler is minded exactly if it did not fail without a word; what becomes of one that
did is a program of which nothing is said. -/
theorem create_minds_iff
    (h : Event.call c ∈ (create site executable timeout baseDir options files fs).events) :
    (Minds baseDir (site.answer c) (create site executable timeout baseDir options files fs).result ↔
        ¬ (site.answer c).IsSilent baseDir) ∧
      ∀ output errors status written, site.answer c = .finished output errors status written →
        (site.answer c).IsSilent baseDir →
          Overlooks baseDir output
            (create site executable timeout baseDir options files fs).result := by
  obtain ⟨w⟩ := exists_called h
  refine ⟨⟨fun hminds hsilent => ?_, fun hsilent => ?_⟩, fun output errors status written hanswer
    hsilent => w.overlooks hanswer hsilent⟩
  · obtain ⟨output, errors, status, written, hanswer⟩ := hsilent.exists_finished
    obtain ⟨e, he, hcomplaint⟩ := hminds.complains hsilent.not_isAccounted
    exact (w.overlooks hanswer hsilent).not_isComplaint he hcomplaint
  · by_cases haccounted : (site.answer c).IsAccounted baseDir
    · exact ⟨fun _ _ => haccounted, fun h => absurd haccounted h⟩
    · have hirregular : ∀ output errors status written,
          site.answer c = .finished output errors status written → ¬ IsRegular status :=
        fun _ _ _ _ hanswer => CallOutcome.not_isRegular haccounted hsilent hanswer
      obtain ⟨reason, status, hresult⟩ := w.result_of_not_isRegular hirregular
      refine ⟨fun p hp => ?_, fun _ => ⟨_, hresult, trivial⟩⟩
      cases hresult.symm.trans hp

/-- A site at which the compiler fails without a word in its output. -/
def silentSite : Site := Bundler.twoScriptsSite.answering (.finished "" "boom" 1 [])

def silentRun : Effect Program :=
  create silentSite (.text "tsc") .null "/p" [] ["/p/a.d.ts"] Bundler.twoScriptsFiles

theorem exists_program_silentRun : ∃ p, silentRun.result = .ok p := by
  have hsome : silentRun.result.toOption.isSome = true := by decide +kernel
  obtain ⟨p, hp⟩ := Option.isSome_iff_exists.1 hsome
  exact ⟨p, (ends_of_toOption_eq_some hp).1⟩

theorem exists_call_mem_silentRun : ∃ c, Event.call c ∈ silentRun.events := by
  obtain ⟨p, hp⟩ := exists_program_silentRun
  have hends : (create silentSite (.text "tsc") .null "/p" [] ["/p/a.d.ts"]).Ends
    Bundler.twoScriptsFiles p silentRun.files := ⟨hp, rfl⟩
  obtain ⟨w⟩ := exists_compilation hends
  exact ⟨w.call, w.call_mem_events_iff.2 rfl⟩

theorem not_hasDiagnostics_empty : ¬ Report.HasDiagnostics "/p" "" := by
  rintro ⟨report, hread, hdiagnostics⟩
  have hnone : (Report.read "/p" "").1.diagnostics = [] := by decide +kernel
  rw [hread] at hnone
  exact hdiagnostics hnone

/-- A compiler that ends with status 1 and prints nothing but an error of its own is taken for one that has
made a program. -/
theorem exists_call_not_minds : ∃ c, Event.call c ∈ silentRun.events ∧
    silentSite.answer c = .finished "" "boom" 1 [] ∧
    ¬ Minds "/p" (.finished "" "boom" 1 []) silentRun.result := by
  obtain ⟨c, hc⟩ := exists_call_mem_silentRun
  obtain ⟨p, hp⟩ := exists_program_silentRun
  refine ⟨c, hc, rfl, fun hminds => ?_⟩
  obtain hzero | ⟨-, hdiagnostics⟩ := hminds.accounted p hp
  · cases hzero
  · exact not_hasDiagnostics_empty hdiagnostics

/-- Its program is empty. -/
theorem create_minds_iff_silent : ∃ c declarations, Event.call c ∈ silentRun.events ∧
    (silentSite.answer c).IsSilent "/p" ∧ silentRun.result = .ok ⟨[], [], declarations⟩ := by
  obtain ⟨c, hc⟩ := exists_call_mem_silentRun
  have hsilent : (silentSite.answer c).IsSilent "/p" := ⟨.inl rfl, not_hasDiagnostics_empty⟩
  have hread : Report.read "/p" "" = (.empty, none) := rfl
  have hoverlooks := (create_minds_iff hc).2 "" "boom" 1 [] rfl hsilent
  obtain ⟨declarations, hprogram⟩ | ⟨hfiles, -⟩ := hoverlooks.of_read .empty hread
  · exact ⟨c, declarations, hc, hsilent, hprogram⟩
  · exact absurd rfl hfiles

end Compiler

end DeclBundle
