import DeclBundle.Proofs.MalformedFile
import DeclBundle.Proofs.Untouched

/-!
# Sound options

The checks of options say less than that every value is what it ought to be (`Sound`): nothing looks at the
kinds of some values (`HasKinds`), and only with these the options are sound (`sound_iff`). A number where a
record ought to give a list is found by no check at all, since making the list fails before
(`accept_cases`). Options that have their kinds misuse no value in a run, unless it stands in the settings
file (`Bundler.escapes_of_run`). All of this together is `accept_sound_iff`.
-/

namespace DeclBundle

namespace Value

def IsText (v : Value) : Prop := ∃ s, v = text s

/-- A value is a number greater than zero; truth values count as one and zero. -/
def IsPositive : Value → Prop
  | bool b => b = true
  | int n => 0 < n
  | float x => 0 < x
  | _ => False

/-- A value cannot be taken apart: it is a number, or foreign and without items. -/
def isWhole : Value → Bool
  | other x => x.items?.isNone
  | v => v.isNumber

theorem isText_iff {v : Value} : v.IsText ↔ v.text?.isSome = true := by
  cases v with
  | text s => exact ⟨fun _ => rfl, fun _ => ⟨s, rfl⟩⟩
  | _ => exact ⟨nofun, nofun⟩

theorem isTruthy_text {s : String} : (text s).isTruthy = true ↔ s ≠ "" := by
  simp [isTruthy]

open Float.Model in
/-- A binary fraction is greater than zero if it is not at most zero, unless it is no number at all. -/
theorem zero_lt_iff (x : Float) : 0 < x ↔ ¬ x ≤ 0 ∧ x.isNaN = false := by
  have hzero : (0 : Float).toModel.unpack = .zero .positive := rfl
  have hlt : 0 < x ↔ UnpackedFloat.lt (.zero .positive) x.toModel.unpack = true := by
    rw [← hzero]
    exact decide_eq_true_iff
  have hle : x ≤ 0 ↔ UnpackedFloat.le x.toModel.unpack (.zero .positive) = true := by
    rw [← hzero]
    exact decide_eq_true_iff
  have hnan : x.isNaN = x.toModel.unpack.isNaN := rfl
  rw [hlt, hle, hnan]
  cases x.toModel.unpack with
  | infinity s => cases s <;> decide
  | notANumber => decide
  | zero s => cases s <;> decide
  | finite s m e h =>
      cases s with
      | positive => exact iff_of_true rfl ⟨Bool.false_ne_true, rfl⟩
      | negative => exact iff_of_false Bool.false_ne_true fun hnot => hnot.1 rfl

end Value

namespace Options

open Value

/-- Options the values of which are what they ought to be. -/
structure Sound (o : Options) : Prop where
  baseDir : ∃ s, o.baseDir = .text s ∧ s ≠ ""
  name : ∃ s, o.name = .text s ∧ s ≠ ""
  out : ∃ s, o.out = .text s ∧ s ≠ ""
  files : ∀ v ∈ o.files, v.IsText
  excludes : ∀ v ∈ o.excludes, v.IsText
  externs : ∀ v ∈ o.externs, v.IsText
  eol : o.eol = .null ∨ o.eol = .text "\n" ∨ o.eol = .text "\r\n"
  indent : o.indent.IsText
  main : o.main = .null ∨ o.main.IsText
  target : o.target = .null ∨ o.target.IsText
  tsc : o.tsc = .null ∨ o.tsc.IsText
  project : o.project = .null ∨ o.project.IsText
  timeout : o.timeout = .null ∨ o.timeout.IsPositive

/-- The kinds of values that nothing looks at before the options are put to use. -/
structure HasKinds (o : Options) : Prop where
  baseDir : o.baseDir.IsText
  name : o.name.IsText
  out : o.out.IsText
  indent : o.indent.IsText
  main : o.main = .null ∨ o.main.IsText
  target : o.target = .null ∨ o.target.IsText
  tsc : o.tsc = .null ∨ o.tsc.IsText
  project : o.project = .null ∨ o.project.IsText
  timeout : ∀ x, o.timeout = .float x → x.isNaN = false

/-- What options that are in order have in common. -/
structure Checked (o : Options) : Prop where
  baseDir : o.baseDir.isTruthy = true
  name : o.name.isTruthy = true
  out : o.out.isTruthy = true
  files : ∀ v ∈ o.files, v.IsText
  excludes : ∀ v ∈ o.excludes, v.IsText
  externs : ∀ v ∈ o.externs, v.IsText
  eol : o.eol = .null ∨ o.eol = .text "\n" ∨ o.eol = .text "\r\n"
  timeout : o.timeout = .null ∨ isTime o.timeout = true

/-- Options are in order exactly if the checks that are made hold of them. -/
theorem problem?_eq_none_iff {o : Options} : o.problem? = none ↔ o.Checked := by
  have heol : (!isNull o.eol && !isEol o.eol) = false ↔
      o.eol = .null ∨ o.eol = .text "\n" ∨ o.eol = .text "\r\n" := by
    cases o.eol with
    | text s => simp [isNull, isEol, or_iff_not_imp_left]
    | _ => simp [isNull, isEol]
  have htimeout : (!isNull o.timeout && !isTime o.timeout) = false ↔
      o.timeout = .null ∨ isTime o.timeout = true := by
    cases o.timeout with
    | null => simp [isNull]
    | _ => simp [isNull]
  constructor
  · intro h
    unfold problem? at h
    dsimp only at h
    split at h
    case h_1 => cases h
    case h_2 hrequired =>
      split at h
      case h_1 => cases h
      case h_2 hlists =>
        split_ifs at h with hbad hlate
        simp only [List.find?_eq_none, List.forall_mem_cons, Bool.not_eq_true', Bool.not_eq_false,
          List.all_eq_true, ← isText_iff] at hrequired hlists
        obtain ⟨hbaseDir, hname, hout, -⟩ := hrequired
        obtain ⟨hfiles, hexcludes, hexterns, -⟩ := hlists
        exact ⟨hbaseDir, hname, hout, hfiles, hexcludes, hexterns, heol.1 (by simpa using hbad),
          htimeout.1 (by simpa using hlate)⟩
  · intro h
    have hfiles : (o.files.all fun v => v.text?.isSome) = true :=
      List.all_eq_true.2 fun v hv => isText_iff.1 (h.files v hv)
    have hexcludes : (o.excludes.all fun v => v.text?.isSome) = true :=
      List.all_eq_true.2 fun v hv => isText_iff.1 (h.excludes v hv)
    have hexterns : (o.externs.all fun v => v.text?.isSome) = true :=
      List.all_eq_true.2 fun v hv => isText_iff.1 (h.externs v hv)
    have hrequired : [("base_dir", o.baseDir), ("name", o.name), ("out", o.out)].find?
        (fun e => !e.2.isTruthy) = none := by
      simp [h.baseDir, h.name, h.out]
    have hlists : [("files", o.files), ("excludes", o.excludes), ("externs", o.externs)].find?
        (fun e => !e.2.all fun v => v.text?.isSome) = none := by
      simp only [List.find?_cons, hfiles, hexcludes, hexterns, Bool.not_true, List.find?_nil]
    unfold problem?
    dsimp only
    rw [hrequired, hlists, heol.2 h.eol, htimeout.2 h.timeout]
    rfl

theorem isText_and_isTruthy_iff {v : Value} :
    (∃ s, v = .text s ∧ s ≠ "") ↔ v.IsText ∧ v.isTruthy = true := by
  constructor
  · rintro ⟨s, rfl, hs⟩
    exact ⟨⟨s, rfl⟩, isTruthy_text.2 hs⟩
  · rintro ⟨⟨s, rfl⟩, hs⟩
    exact ⟨s, rfl, isTruthy_text.1 hs⟩

/-- A time is a number greater than zero, unless it is no number at all. -/
theorem isPositive_iff {v : Value} :
    v.IsPositive ↔ isTime v = true ∧ ∀ x, v = .float x → x.isNaN = false := by
  cases v with
  | float x => simp [IsPositive, isTime, zero_lt_iff]
  | _ => simp [IsPositive, isTime]

/-- The checks are sound but for the kinds of values that they do not look at. -/
theorem sound_iff {o : Options} : o.Sound ↔ o.Checked ∧ o.HasKinds := by
  constructor
  · intro h
    obtain ⟨hbaseDir, hbaseDir'⟩ := isText_and_isTruthy_iff.1 h.baseDir
    obtain ⟨hname, hname'⟩ := isText_and_isTruthy_iff.1 h.name
    obtain ⟨hout, hout'⟩ := isText_and_isTruthy_iff.1 h.out
    refine ⟨⟨hbaseDir', hname', hout', h.files, h.excludes, h.externs, h.eol, ?_⟩,
      ⟨hbaseDir, hname, hout, h.indent, h.main, h.target, h.tsc, h.project, ?_⟩⟩
    · exact h.timeout.imp id fun htimeout => (isPositive_iff.1 htimeout).1
    · intro x hx
      rcases h.timeout with hnull | htimeout
      · exact absurd (hx.symm.trans hnull) nofun
      · exact (isPositive_iff.1 htimeout).2 x hx
  · rintro ⟨h, hk⟩
    exact ⟨isText_and_isTruthy_iff.2 ⟨hk.baseDir, h.baseDir⟩,
      isText_and_isTruthy_iff.2 ⟨hk.name, h.name⟩, isText_and_isTruthy_iff.2 ⟨hk.out, h.out⟩,
      h.files, h.excludes, h.externs, h.eol, hk.indent, hk.main, hk.target, hk.tsc, hk.project,
      h.timeout.imp id fun htimeout => isPositive_iff.2 ⟨htimeout, hk.timeout⟩⟩

/-! ### Accepting a record -/

/-- The options of a record, once they are found in order. -/
def accept (r : Record) : Action Options := do
  let o ← ofRecord r
  Action.ofExcept o.validate

/-- A value that cannot be taken apart, such as a number, stands where a record ought to give a list. -/
def HasNumericList (r : Record) : Prop :=
  ∃ key ∈ ["files", "excludes", "externs"], (valueOf (normalized r) key).isWhole = true

theorem result_ofRecord (r : Record) (fs : FileSystem) :
    (ofRecord r fs).result = ofNormalized (normalized r) := by
  have hnotes : ∀ ks : List Value, ∃ events, (forM ks fun k =>
      Action.note .debug ("Ignoring unknown option '" ++ k.display ++ "'") : Action Unit) fs =
        ⟨fs, events, .ok ()⟩ := by
    intro ks
    induction ks with
    | nil => exact ⟨[], rfl⟩
    | cons k ks ih =>
        obtain ⟨events, h⟩ := ih
        exact ⟨_, by rw [List.forM_cons, Action.note, Action.bind_of_told (Action.tell_apply _ fs), h]⟩
  obtain ⟨events, h⟩ := hnotes (unknownKeys r)
  rw [ofRecord, List.forM_eq_forM, Action.bind_of_told h]
  rfl

theorem result_accept (r : Record) (fs : FileSystem) :
    (accept r fs).result = (ofNormalized (normalized r)).bind validate := by
  rw [accept, Action.bind_apply, ← result_ofRecord r fs]
  cases (ofRecord r fs).result with
  | error e => rfl
  | ok o => rfl

theorem listOf_cases (v : Value) : v.isWhole = true ∧ listOf v = .error .wrongKind ∨
    v.isWhole = false ∧ ∃ xs, listOf v = .ok xs := by
  cases v with
  | bool _ => exact .inl ⟨rfl, rfl⟩
  | int _ => exact .inl ⟨rfl, rfl⟩
  | float _ => exact .inl ⟨rfl, rfl⟩
  | null => exact .inr ⟨rfl, _, rfl⟩
  | text _ => exact .inr ⟨rfl, _, rfl⟩
  | list _ => exact .inr ⟨rfl, _, rfl⟩
  | map _ => exact .inr ⟨rfl, _, rfl⟩
  | other x =>
      cases hitems : x.items? with
      | none => exact .inl ⟨by simp [isWhole, hitems], by simp [listOf, hitems]⟩
      | some xs => exact .inr ⟨by simp [isWhole, hitems], xs, by simp [listOf, hitems]⟩

/-- Options are made of a record exactly if what stands where a list ought to be can be taken apart. -/
theorem ofNormalized_cases (r : Record) :
    HasNumericList r ∧ ofNormalized (normalized r) = .error .wrongKind ∨
      ¬ HasNumericList r ∧ ∃ o, ofNormalized (normalized r) = .ok o := by
  simp only [HasNumericList, List.mem_cons, List.not_mem_nil, or_false, exists_eq_or_imp,
    exists_eq_left]
  rw [ofNormalized]
  rcases listOf_cases (valueOf (normalized r) "files") with ⟨hfiles, h⟩ | ⟨hfiles, files, h⟩
  · exact .inl ⟨.inl hfiles, by rw [h]; rfl⟩
  rw [h]
  rcases listOf_cases (valueOf (normalized r) "excludes") with ⟨hexcludes, h⟩ | ⟨hexcludes, excludes, h⟩
  · exact .inl ⟨.inr (.inl hexcludes), by rw [h]; rfl⟩
  rw [h]
  rcases listOf_cases (valueOf (normalized r) "externs") with ⟨hexterns, h⟩ | ⟨hexterns, externs, h⟩
  · exact .inl ⟨.inr (.inr hexterns), by rw [h]; rfl⟩
  rw [h]
  exact .inr ⟨by simp [hfiles, hexcludes, hexterns], _, rfl⟩

/-- What comes of a record: a failure of its own if what stands for a list cannot be taken apart, and
otherwise the options if they are in order, and a configuration problem if they are not. -/
theorem accept_cases (r : Record) (fs : FileSystem) :
    HasNumericList r ∧ (accept r fs).result = .error .wrongKind ∨
      ¬ HasNumericList r ∧ ((∃ o, o.Checked ∧ (accept r fs).result = .ok o) ∨
        ∃ p, (accept r fs).result = .error (.configuration p)) := by
  rw [result_accept]
  rcases ofNormalized_cases r with ⟨hlist, h⟩ | ⟨hlist, o, h⟩
  · exact .inl ⟨hlist, by rw [h]; rfl⟩
  · refine .inr ⟨hlist, ?_⟩
    rw [h]
    cases hproblem : o.problem? with
    | none =>
        exact .inl ⟨o, problem?_eq_none_iff.1 hproblem, by simp [Except.bind, validate, hproblem]⟩
    | some p => exact .inr ⟨p, by simp [Except.bind, validate, hproblem]⟩

end Options

/-! ### Runs with sound options -/

/-- Whether a failure says that a value was used as what it is not. -/
def Failure.isMisuse : Failure → Bool
  | .wrongKind => true
  | .noSuchMember => true
  | _ => false

theorem Failure.not_isMisuse_of_precedesParsing (e : Failure) (h : e.precedesParsing = true) :
    e.isMisuse = false := by
  cases e with
  | wrongKind => cases h
  | noSuchMember => cases h
  | _ => rfl

namespace Action

variable {α : Type} {P : Failure → Prop}

theorem Fails.tidying {x : Action α} (hx : x.Fails P) (tidy : FileSystem → FileSystem) :
    (x.tidying tidy).Fails P := hx

theorem fails_ofExcept {x : Except Failure α} (h : ∀ e, x = .error e → P e) : (ofExcept x).Fails P :=
  fun _ => h

end Action

open DeclBundle.Action

namespace Compiler

theorem command_error {site : Site} {fs : FileSystem} {baseDir : String} {executable : Value}
    (hexecutable : executable = .null ∨ executable.IsText) {e : Failure}
    (h : command site fs baseDir executable = .error e) : e.isMisuse = false := by
  have htext : (configured site executable).isTruthy = true → (configured site executable).IsText := by
    unfold configured
    split
    · next htruthy =>
        intro _
        rcases hexecutable with rfl | htext
        · cases htruthy
        · exact htext
    · cases site.valueOf? commandVariable with
      | none => exact fun htruthy => by cases htruthy
      | some s => exact fun _ => ⟨s, rfl⟩
  unfold command at h
  dsimp only at h
  split at h
  · next hset =>
      obtain ⟨s, hs⟩ := htext hset
      rw [hs] at h
      dsimp only at h
      cases hsplit : ShellWord.split s with
      | ok words => rw [hsplit] at h; cases h
      | error f =>
          rw [hsplit] at h
          obtain rfl := Except.error.inj h
          rfl
  · split at h
    · cases h
    · split at h
      · obtain rfl := Except.error.inj h
        rfl
      · cases h
    · obtain rfl := Except.error.inj h
      rfl

theorem fails_perform (site : Site) (dir : String) (c : CompilerCall) :
    (perform site dir c).Fails fun e => e.isMisuse = false := by
  unfold perform
  refine (fails_tell _).bind fun _ => ?_
  split
  · exact (fails_change fun _ => rfl).bind fun _ => fails_fail rfl
  · exact fails_fail rfl
  · refine (fails_change fun _ => rfl).bind fun _ => ?_
    split
    · exact fails_pure _
    · exact fails_fail rfl

theorem fails_readReport (baseDir output : String) :
    (readReport baseDir output).Fails fun e => e.isMisuse = false := by
  unfold readReport
  obtain ⟨report, bad⟩ := Report.read baseDir output
  refine Fails.bind (Fails.forM (fun l => fails_tell _) _) fun _ => ?_
  split
  · exact fails_fail rfl
  · exact fails_pure _

theorem fails_programOf (site : Site) (baseDir dir : String) (report : Report) :
    (programOf site baseDir dir report).Fails fun e => e.isMisuse = false := by
  simp only [programOf]
  split
  · exact Fails.bind (fails_readDeclarations (by rfl) site baseDir dir _ _) fun _ => fails_pure _
  · exact fails_fail rfl

/-- A compiler that is called by a text, or by nothing, misuses no value if its configuration is written to its
end. -/
theorem fails_create (site : Site) {executable : Value}
    (hexecutable : executable = .null ∨ executable.IsText) (timeout : Value) {baseDir : String}
    {options : Record} {files : List String}
    (hcomplete : (configuration (declarationOptions options baseDir (declarationDir site)) files).obstacle =
      none) :
    (create site executable timeout baseDir options files).Fails fun e => e.isMisuse = false := by
  unfold create
  refine fails_files.bind fun fs => Fails.bind (fails_ofExcept fun e he => ?_) fun words => ?_
  · exact command_error hexecutable he
  · refine (fails_change fun _ => rfl).bind fun _ => Fails.bind (Fails.tidying ?_ _) fun p => ?_
    · unfold createIn
      refine (fails_change fun _ => rfl).bind fun _ => Fails.bind (fails_ofExcept fun e he => ?_) fun _ =>
        Fails.bind (Fails.tidying ?_ _) fun output => ?_
      · rw [(completed_eq_ok_iff (u := ())).2 hcomplete] at he
        cases he
      · exact (fails_tell _).bind fun _ => fails_perform _ _ _
      · exact (fails_readReport baseDir output).bind fun report => fails_programOf _ _ _ report
    · exact (fails_tell _).bind fun _ => fails_pure p

end Compiler

/-- If settings cannot be found because a value was misused, it stands in the settings file. -/
theorem Settings.escapes_of_isMisuse {cwd baseDir : String} {files : List String} {eol : Option String}
    {target project : Value} {fs : FileSystem} {e : Failure}
    (hproject : project = .null ∨ project.IsText)
    (h : (resolve cwd baseDir files eol target project fs).result = .error e)
    (he : e.isMisuse = true) : ∃ path bytes, locate baseDir project = .ok path ∧
      fs.read cwd path = .ok bytes ∧ Escapes path bytes e := by
  obtain ⟨path, hpath⟩ : ∃ path, locate baseDir project = .ok path := by
    unfold locate named
    rcases hproject with rfl | ⟨s, rfl⟩
    · exact ⟨_, rfl⟩
    · cases (Value.text s).isTruthy with
      | true => exact ⟨_, rfl⟩
      | false => exact ⟨_, rfl⟩
  cases hread : fs.read cwd path with
  | ok bytes =>
      obtain ⟨hsettled, hescapes⟩ := resolve_settlesUnless hpath hread files eol target
      refine ⟨path, bytes, hpath, hread, ?_⟩
      by_contra hnot
      have hnone : ∀ e', ¬ Escapes path bytes e' := by
        intro e' he'
        obtain rfl : e = e' := Except.error.inj (h.symm.trans (hescapes e' he'))
        exact hnot he'
      rcases hsettled.2 hnone with ⟨s, hs⟩ | ⟨p, hp, -⟩
      · rw [h] at hs
        cases hs
      · obtain rfl := Except.error.inj (h.symm.trans hp)
        cases he
  | error fault =>
      rw [resolve] at h
      simp only [result_bind_files, result_bind_ofExcept, hpath, Except.bind] at h
      cases htaken : fs.isTaken cwd path with
      | error fault' =>
          rw [htaken] at h
          obtain rfl := Except.error.inj h
          cases he
      | ok found =>
          rw [htaken] at h
          simp only [Except.mapError] at h
          split_ifs at h
          · rw [result_resolveFrom, Settings.read, hread] at h
            obtain rfl := Except.error.inj h
            split at he
            · cases he
            · cases he
          · obtain rfl := Except.error.inj h
            cases he
          · cases h

namespace Bundler

variable {b : Bundler} {site : Site}

/-- The bundle of a program fails for no value if the unit of indentation is a text. -/
theorem fails_write_of_isText (hindent : b.options.indent.IsText) (eol out : String) (p : Program) :
    (b.write site eol out p).Fails fun e => e.isMisuse = false := by
  unfold write
  refine (fails_makeDirectoriesTo (fun _ => rfl) _ _ _).bind fun _ => ?_
  refine (fails_change fun _ => rfl).bind fun _ => ?_
  refine fails_files.bind fun fs => ?_
  refine Fails.bind (Fails.forM fails_tell _) fun _ => (fails_change fun _ => rfl).bind fun _ => ?_
  split
  case h_1 e he =>
    refine fails_fail ?_
    rcases Assembly.bundle_failure_cases he with he | rfl | ⟨-, hnone⟩
    · exact e.not_isMisuse_of_precedesParsing he
    · rfl
    · obtain ⟨s, hs⟩ := hindent
      have hsome : (b.assembly site eol).indent = some s := by simp [assembly, hs, Value.text?]
      rw [hnone] at hsome
      cases hsome
  case h_2 => exact fails_pure ()

/-- A run misuses no value but those in the settings file, if the options have their kinds. -/
theorem escapes_of_run (hkinds : b.options.HasKinds) {fs : FileSystem} {e : Failure}
    (h : (b.run site fs).result = .error e) (he : e.isMisuse = true) : ∃ path bytes,
      Settings.locate b.baseDir b.options.project = .ok path ∧ fs.read site.cwd path = .ok bytes ∧
        Settings.Escapes path bytes e := by
  have htarget : b.HasWritableTarget := hkinds.target.elim hasWritableTarget_of_null fun ⟨_, hs⟩ =>
    hasWritableTarget_of_text hs
  have hrest : ∀ (settings : Settings) left, (b.settings site).Ends fs settings left → (do
      let p ← Compiler.create site b.options.tsc b.options.timeout b.baseDir settings.options
        settings.files
      let out ← ofExcept (b.outPath site.cwd)
      b.write site settings.eol out p
      note .info ("Wrote declaration bundle to " ++ out)).Fails fun e => e.isMisuse = false := by
    intro settings left hsettings
    refine Fails.bind (Compiler.fails_create site hkinds.tsc _
      ((obstacle_configuration_eq_none_iff hsettings _ _ _).2 htarget)) fun p => ?_
    refine Fails.bind (fails_ofExcept fun e he => ?_) fun out => ?_
    · obtain ⟨s, hs⟩ := hkinds.out
      rw [outPath, hs] at he
      cases he
    · exact (fails_write_of_isText hkinds.indent _ _ _).bind fun _ => fails_tell _
  rw [run, bind_apply] at h
  split at h
  case h_1 e' hsettings =>
    obtain rfl : e' = e := Except.error.inj h
    exact Settings.escapes_of_isMisuse hkinds.project hsettings he
  case h_2 settings hsettings =>
    have hfalse : e.isMisuse = false :=
      ((fails_tell _).bind fun _ => hrest settings _ ⟨hsettings, rfl⟩) _ e h
    rw [he] at hfalse
    cases hfalse

/-- No bundler is made of options the base directory of which is no text. -/
theorem ofOptions_of_not_isText {o : Options} (hchecked : o.Checked) (h : ¬ o.baseDir.IsText)
    (cwd : String) : ofOptions cwd o = .error .wrongKind := by
  rw [ofOptions, Options.validate, Options.problem?_eq_none_iff.2 hchecked]
  cases hdir : o.baseDir with
  | text s => exact absurd ⟨s, hdir⟩ h
  | _ => simp only [bind, Except.bind, hdir]; rfl

end Bundler

/-- Of whatever record, options are accepted or refused with a configuration problem, unless a value that
cannot be taken apart, such as a number, stands where a list ought to be. Accepted options are checked, they
are sound exactly if the values that no check looks at have their kinds, and no bundler is made of them if the
base directory is no text. A run with options that have their kinds misuses no value but one in its settings
file. -/
theorem Options.accept_sound_iff (r : Record) (fs : FileSystem) :
    ((accept r fs).result = .error .wrongKind ↔ HasNumericList r) ∧
      (∀ e, (accept r fs).result = .error e → e = .wrongKind ∨ ∃ p, e = .configuration p) ∧
      ∀ o, (accept r fs).result = .ok o →
        o.Checked ∧ (o.Sound ↔ o.HasKinds) ∧
        (¬ o.baseDir.IsText → ∀ cwd, Bundler.ofOptions cwd o = .error .wrongKind) ∧
        (o.HasKinds → ∀ site fs b e, Bundler.ofOptions site.cwd o = .ok b →
          (b.run site fs).result = .error e → e.isMisuse = true → ∃ path bytes,
            Settings.locate b.baseDir o.project = .ok path ∧ fs.read site.cwd path = .ok bytes ∧
              Settings.Escapes path bytes e) := by
  rcases accept_cases r fs with ⟨hlist, h⟩ | ⟨hlist, ⟨o', hchecked, h⟩ | ⟨p, h⟩⟩
  · refine ⟨⟨fun _ => hlist, fun _ => h⟩, fun e he => .inl ?_, fun o ho => ?_⟩
    · exact (Except.error.inj (h.symm.trans he)).symm
    · rw [h] at ho
      cases ho
  · refine ⟨⟨fun he => ?_, fun hlist' => absurd hlist' hlist⟩, fun e he => ?_, fun o ho => ?_⟩
    · rw [h] at he
      cases he
    · rw [h] at he
      cases he
    · obtain rfl : o' = o := Except.ok.inj (h.symm.trans ho)
      refine ⟨hchecked, sound_iff.trans (and_iff_right hchecked), fun hnot cwd => ?_,
        fun hkinds site fs b e hb he hmisuse => ?_⟩
      · exact Bundler.ofOptions_of_not_isText hchecked hnot cwd
      · obtain ⟨-, rfl, -⟩ := Bundler.of_ofOptions hb
        exact Bundler.escapes_of_run hkinds he hmisuse
  · refine ⟨⟨fun he => ?_, fun hlist' => absurd hlist' hlist⟩, fun e he => .inr ⟨p, ?_⟩,
      fun o ho => ?_⟩
    · rw [h] at he
      cases he
    · exact (Except.error.inj (h.symm.trans he)).symm
    · rw [h] at ho
      cases ho

namespace Options

/-- A number for the base directory, which no check looks at. -/
def numericBase : Record := [
  (.text "baseDir", .int 5), (.text "name", .text "n"), (.text "out", .text "o")
]

theorem exists_accept_numericBase :
    ∃ o, (accept numericBase .empty).result = .ok o ∧ ¬ o.baseDir.IsText := by
  have hnumber : ((accept numericBase .empty).result.toOption.filter
      fun o => o.baseDir.isNumber).isSome = true := by
    decide +kernel
  obtain ⟨o, ho⟩ := Option.isSome_iff_exists.1 hnumber
  obtain ⟨hresult, hbase⟩ := Option.filter_eq_some_iff.1 ho
  refine ⟨o, eq_ok_of_toOption hresult, ?_⟩
  rintro ⟨s, hs⟩
  rw [hs] at hbase
  cases hbase

/-- What every bundler needs, and nothing else. -/
def soundRecord : Record := [
  (.text "baseDir", .text "/p"), (.text "name", .text "n"), (.text "out", .text "/p/o.d.ts")
]

def soundOptions : Options where
  baseDir := .text "/p"
  name := .text "n"
  out := .text "/p/o.d.ts"
  files := []
  excludes := []
  externs := []
  eol := .null
  indent := .text "\t"
  main := .null
  target := .null
  tsc := .null
  project := .null
  timeout := .null

theorem accept_soundRecord : (accept soundRecord .empty).result = .ok soundOptions := by
  rw [result_accept]
  rfl

theorem hasKinds_soundOptions : soundOptions.HasKinds :=
  ⟨⟨_, rfl⟩, ⟨_, rfl⟩, ⟨_, rfl⟩, ⟨_, rfl⟩, .inl rfl, .inl rfl, .inl rfl, .inl rfl, fun _ => nofun⟩

theorem result_run_numericFiles :
    (Bundler.run ⟨soundOptions, "/p"⟩ Bundler.twoScriptsSite numericFiles).result = .error .wrongKind := by
  have hsettings := (Settings.resolve_settlesUnless locate_numericFiles read_numericFiles_settings
    (Module.entryPaths "/p" "/p" []) none .null).2 _ escapes_numericFiles
  exact congrArg Effect.result (bind_of_error hsettings _)

/-- Options that no bundler can be made of are accepted, and sound ones fail where the settings do. -/
theorem accept_sound_iff_records :
    (∃ o, (accept numericBase .empty).result = .ok o ∧ ¬ o.Sound ∧
      ∀ cwd, Bundler.ofOptions cwd o = .error .wrongKind) ∧
    (accept soundRecord .empty).result = .ok soundOptions ∧ soundOptions.Sound ∧
      Bundler.ofOptions "/p" soundOptions = .ok ⟨soundOptions, "/p"⟩ ∧
      (Bundler.run ⟨soundOptions, "/p"⟩ Bundler.twoScriptsSite numericFiles).result =
        .error .wrongKind ∧
      ∃ path bytes, Settings.locate "/p" .null = .ok path ∧ numericFiles.read "/p" path = .ok bytes ∧
        Settings.Escapes path bytes .wrongKind := by
  obtain ⟨o, ho, hbase⟩ := exists_accept_numericBase
  obtain ⟨-, hsound, hrefused, -⟩ := (accept_sound_iff numericBase .empty).2.2 o ho
  obtain ⟨-, hsound', -, hescapes⟩ := (accept_sound_iff soundRecord .empty).2.2 _ accept_soundRecord
  have hproblem : soundOptions.problem?.isNone = true := by decide +kernel
  have hbase' : Path.absolute "/p" "/p" = "/p" := by decide +kernel
  have hmade : Bundler.ofOptions "/p" soundOptions = .ok ⟨soundOptions, "/p"⟩ :=
    Bundler.ofOptions_eq_ok (b := ⟨soundOptions, "/p"⟩) hproblem rfl hbase'
  exact ⟨⟨o, ho, fun h => hbase (hsound.1 h).baseDir, hrefused hbase⟩, accept_soundRecord,
    hsound'.2 hasKinds_soundOptions, hmade, result_run_numericFiles,
    hescapes hasKinds_soundOptions Bundler.twoScriptsSite numericFiles ⟨soundOptions, "/p"⟩ .wrongKind
      hmade result_run_numericFiles rfl⟩

def numericList : Record := [
  (.text "baseDir", .text "b"), (.text "name", .text "n"), (.text "out", .text "o"),
  (.text "files", .int 5)
]

/-- A number for the files is no configuration problem. -/
theorem not_configuration_numericList : ¬ ((∃ o, (accept numericList .empty).result = .ok o) ∨
    ∃ p, (accept numericList .empty).result = .error (.configuration p)) := by
  have hlist : HasNumericList numericList := ⟨"files", by simp, by decide +kernel⟩
  rcases accept_cases numericList .empty with ⟨-, h⟩ | ⟨hnot, -⟩
  · rw [h]
    rintro (⟨o, ho⟩ | ⟨p, hp⟩)
    · cases ho
    · cases hp
  · exact absurd hlist hnot

end Options

end DeclBundle
