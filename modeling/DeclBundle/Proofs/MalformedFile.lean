import DeclBundle.Options.File
import DeclBundle.Proofs.Actions
import DeclBundle.Proofs.LineStart
import DeclBundle.Proofs.Obstacle
import DeclBundle.Proofs.StoppedReading
import DeclBundle.Yaml.Node

/-!
# Malformed files

Whatever an options file holds, it is read as a record or is to blame for a configuration problem, unless
its bytes are no text or a number in it is too long (`Options.loadRecord_settlesUnless`). Of a settings file
the same is true, but also a number may stand for its list of files, and is then used as a list
(`Settings.resolve_settlesUnless`). `configurationFiles_settle` is both, with what a number that is too long
tells of the file.
-/

namespace DeclBundle

namespace Value

def isNumber : Value → Bool
  | bool _ => true
  | int _ => true
  | float _ => true
  | _ => false

end Value

namespace Action

variable {α β : Type}

theorem result_bind_ofExcept (x : Except Failure α) (f : α → Action β) (fs : FileSystem) :
    ((ofExcept x >>= f) fs).result = x.bind fun a => (f a fs).result := by
  cases x with
  | ok a => rfl
  | error e => rfl

theorem result_bind_files (f : FileSystem → Action β) (fs : FileSystem) :
    ((files >>= f) fs).result = (f fs fs).result := rfl

theorem result_bind_note (level : Level) (text : String) (f : Unit → Action β) (fs : FileSystem) :
    ((note level text >>= f) fs).result = (f () fs).result := rfl

end Action

theorem eq_ok_of_toOption {α : Type} {x : Except Failure α} {a : α} (h : x.toOption = some a) :
    x = .ok a := by
  cases x with
  | error e => cases h
  | ok a' => exact congrArg Except.ok (Option.some.inj h)

/-- A value, or a problem that a file is to blame for. -/
def IsSettled {α : Type} (path : String) (x : Except Failure α) : Prop :=
  (∃ a, x = .ok a) ∨ ∃ p : Problem, x = .error (.configuration p) ∧ p.file? = some path

/-- A result is settled unless there is one of some failures, and if there is, it is that failure. -/
def SettlesUnless {α : Type} (path : String) (E : Failure → Prop) (x : Except Failure α) : Prop :=
  (IsSettled path x ↔ ∀ e, ¬ E e) ∧ ∀ e, E e → x = .error e

theorem settlesUnless_of {α : Type} {path : String} {E : Failure → Prop} {x : Except Failure α}
    (hE : ∀ e, E e → x = .error e ∧ ∀ p, e ≠ .configuration p)
    (hx : IsSettled path x ∨ ∃ e, E e) : SettlesUnless path E x := by
  refine ⟨⟨fun hsettled e he => ?_, fun hnone => hx.resolve_right fun ⟨e, he⟩ => hnone e he⟩,
    fun e he => (hE e he).1⟩
  obtain ⟨hfail, hnot⟩ := hE e he
  rcases hsettled with ⟨a, ha⟩ | ⟨p, hp, -⟩
  · exact absurd (hfail.symm.trans ha) (by simp)
  · exact hnot p (Except.error.inj (hfail.symm.trans hp))

namespace Options

/-- Why an options file that holds some bytes is refused without being to blame: in JSON its bytes are no
text or a number in it is too long, and in YAML the reader fails in a way of its own. -/
inductive Escapes (yaml : Yaml.Reader) (path : String) (bytes : ByteArray) : Failure → Prop
  | undecodable (hjson : isYaml path = false) (htext : Text.decode? bytes = none) :
      Escapes yaml path bytes .undecodable
  | longNumber {text : String} {n : Nat} (hjson : isYaml path = false)
      (htext : Text.decode? bytes = some text)
      (hread : Json.read (String.ofList (Text.unifyLineEnds text.toList)) = .error (.longNumber n)) :
      Escapes yaml path bytes (.badValue (.longNumber n))
  | reader {e : Failure} (hyaml : isYaml path = true) (hread : yaml.read path bytes = .error (.failure e)) :
      Escapes yaml path bytes e

variable {yaml : Yaml.Reader} {path : String} {bytes : ByteArray}

theorem parse_settled_or (yaml : Yaml.Reader) (path : String) (bytes : ByteArray) :
    IsSettled path (parse yaml path bytes) ∨ ∃ e, Escapes yaml path bytes e := by
  unfold parse
  cases hyaml : isYaml path with
  | true =>
      rw [if_pos rfl, parseYaml]
      split
      · exact .inl (.inl ⟨_, rfl⟩)
      · exact .inl (.inr ⟨_, rfl, rfl⟩)
      · next e hread => exact .inr ⟨e, .reader hyaml hread⟩
  | false =>
      rw [if_neg Bool.false_ne_true, parseJson]
      split
      · next htext => exact .inr ⟨_, .undecodable hyaml htext⟩
      · next text htext =>
          split
          · exact .inl (.inl ⟨_, rfl⟩)
          · exact .inl (.inr ⟨_, rfl, rfl⟩)
          · next n hread => exact .inr ⟨_, .longNumber hyaml htext hread⟩

theorem Escapes.parse_eq {e : Failure} (h : Escapes yaml path bytes e) : parse yaml path bytes = .error e := by
  cases h with
  | undecodable hjson htext => rw [parse, hjson, if_neg Bool.false_ne_true, parseJson, htext]
  | longNumber hjson htext hread =>
      simp only [parse, hjson, if_neg Bool.false_ne_true, parseJson, htext, hread]
  | reader hyaml hread => simp only [parse, hyaml, if_true, parseYaml, hread]

theorem Escapes.ne_configuration {e : Failure} (h : Escapes yaml path bytes e) (p : Problem) :
    e ≠ .configuration p := by
  intro heq
  cases h with
  | undecodable => cases heq
  | longNumber => cases heq
  | reader _ hread => exact yaml.not_configuration hread p heq

theorem result_loadRecord (site : Site) (file : String) (fs : FileSystem) :
    (loadRecord site file fs).result = (readValue site (Path.tidy file) fs).bind fun v =>
      match v with
      | .map es => .ok (resolved (Path.parent (Path.tidy file)) es)
      | _ => .error (.configuration (.optionsNotMap (Path.tidy file))) := by
  rw [loadRecord]
  simp only [Action.result_bind_files, Action.result_bind_ofExcept]
  congr 1
  funext v
  cases v with
  | map es => rfl
  | _ => rfl

theorem loadRecord_settlesUnless {site : Site} {file : String} {fs : FileSystem}
    (hread : fs.read site.cwd (Path.tidy file) = .ok bytes) :
    SettlesUnless (Path.tidy file) (Escapes site.yaml (Path.tidy file) bytes)
      (loadRecord site file fs).result := by
  have hvalue : readValue site (Path.tidy file) fs = parse site.yaml (Path.tidy file) bytes := by
    rw [readValue, hread]
  rw [result_loadRecord, hvalue]
  refine settlesUnless_of (fun e he => ⟨by rw [he.parse_eq]; rfl, he.ne_configuration⟩) ?_
  rcases parse_settled_or site.yaml (Path.tidy file) bytes with (⟨v, hv⟩ | ⟨p, hp, hfile⟩) | hescapes
  · refine .inl ?_
    rw [hv, Except.bind]
    split
    · exact .inl ⟨_, rfl⟩
    · exact .inr ⟨_, rfl, rfl⟩
  · exact .inl (.inr ⟨p, by rw [hp]; rfl, hfile⟩)
  · exact .inr hescapes

end Options

namespace Settings

/-- Why a settings file that holds some bytes is refused without being to blame. -/
inductive Escapes (path : String) (bytes : ByteArray) : Failure → Prop
  | undecodable (htext : textOf? bytes = none) : Escapes path bytes .undecodable
  | longNumber {text : String} {n : Nat} (htext : textOf? bytes = some text)
      (hparse : parse path text = .error (.badValue (.longNumber n))) :
      Escapes path bytes (.badValue (.longNumber n))
  | numericFiles {text : String} {config options : Record} {files : Value}
      (htext : textOf? bytes = some text) (hparse : parse path text = .ok config)
      (hoptions : optionsOf path config = .ok options) (hfiles : given? config "files" = some files)
      (hnumber : files.isNumber = true) : Escapes path bytes .wrongKind

theorem parse_settled_or (path text : String) : IsSettled path (parse path text) ∨
    ∃ n, parse path text = .error (.badValue (.longNumber n)) := by
  unfold parse
  dsimp only
  split
  · exact .inl (.inl ⟨_, rfl⟩)
  · exact .inl (.inr ⟨_, rfl, rfl⟩)
  · exact .inl (.inr ⟨_, rfl, rfl⟩)
  · exact .inr ⟨_, rfl⟩

theorem optionsOf_settled (path : String) (config : Record) :
    IsSettled path (optionsOf path config) := by
  unfold optionsOf
  split
  · exact .inl ⟨_, rfl⟩
  · exact .inl ⟨_, rfl⟩
  · exact .inr ⟨_, rfl, rfl⟩

theorem isTruthy_of_given? {config : Record} {key : String} {v : Value}
    (h : given? config key = some v) : v.isTruthy = true :=
  (Option.filter_eq_some_iff.1 h).2

theorem isFree_of_parse {path text : String} {config : Record} (h : parse path text = .ok config) :
    ∀ e ∈ config, Json.IsFree e := by
  unfold parse at h
  dsimp only at h
  split at h
  · next es hread =>
      obtain rfl := Except.ok.inj h
      exact Json.obstacleAmong_eq_none_iff.1 (Json.obstacleOf_of_read hread)
  · cases h
  · cases h
  · cases h

theorem listedFiles_cases (baseDir : String) {config : Record} (hfree : ∀ e ∈ config, Json.IsFree e) :
    (∃ listed, listedFiles baseDir config = .ok listed) ∨
      ∃ v, given? config "files" = some v ∧ v.isNumber = true := by
  cases hgiven : given? config "files" with
  | none => exact .inl ⟨[], by rw [listedFiles, hgiven]⟩
  | some v =>
      have htruthy := isTruthy_of_given? hgiven
      have hwritten := Json.isFree_of_get? hfree (Option.filter_eq_some_iff.1 hgiven).1
      cases v with
      | other _ => cases hwritten
      | null => cases htruthy
      | bool _ => exact .inr ⟨_, rfl, rfl⟩
      | int _ => exact .inr ⟨_, rfl, rfl⟩
      | float _ => exact .inr ⟨_, rfl, rfl⟩
      | text _ => exact .inl ⟨_, by rw [listedFiles, hgiven]; rfl⟩
      | list _ => exact .inl ⟨_, by rw [listedFiles, hgiven]; rfl⟩
      | map _ => exact .inl ⟨_, by rw [listedFiles, hgiven]; rfl⟩

theorem listedFiles_of_isNumber {config : Record} {v : Value} (h : given? config "files" = some v)
    (hnumber : v.isNumber = true) (baseDir : String) :
    listedFiles baseDir config = .error .wrongKind := by
  rw [listedFiles, h]
  cases v with
  | bool _ => rfl
  | int _ => rfl
  | float _ => rfl
  | _ => cases hnumber

theorem result_resolveFrom (cwd path baseDir : String) (files : List String) (eol : Option String)
    (target : Value) (fs : FileSystem) :
    (resolveFrom cwd path baseDir files eol target fs).result =
      (read cwd path fs).bind fun config => (optionsOf path config).bind fun options =>
        (listedFiles baseDir config).map fun listed =>
          ⟨listed ++ files, (merge options eol target).1, (merge options eol target).2, some path⟩ := by
  rw [resolveFrom]
  simp only [Action.result_bind_note, Action.result_bind_files, Action.result_bind_ofExcept]
  congr 1
  funext config
  congr 1
  funext options
  cases listedFiles baseDir config with
  | error e => rfl
  | ok listed =>
      simp only [Except.bind, Except.map]
      split
      · rfl
      · rfl

variable {cwd path baseDir : String} {project : Value} {fs : FileSystem} {bytes : ByteArray}

theorem result_resolve_of_read (hpath : locate baseDir project = .ok path)
    (hread : fs.read cwd path = .ok bytes) (files : List String) (eol : Option String)
    (target : Value) : (resolve cwd baseDir files eol target project fs).result =
      (resolveFrom cwd path baseDir files eol target fs).result := by
  have htaken : fs.isTaken cwd path = .ok true := by
    unfold FileSystem.read at hread
    unfold FileSystem.isTaken
    split at hread
    · cases hread
    · next l hplace =>
        rw [hplace]
        split at hread
        · cases hread
        · cases hread
        · next hget => simp [hget]
  rw [resolve]
  simp only [Action.result_bind_files, Action.result_bind_ofExcept, hpath, htaken, Except.bind,
    Except.mapError, if_true]

theorem Escapes.ne_configuration {e : Failure} (h : Escapes path bytes e) (p : Problem) :
    e ≠ .configuration p := by
  intro heq
  cases h with
  | undecodable => cases heq
  | longNumber => cases heq
  | numericFiles => cases heq

theorem resolve_settlesUnless (hpath : locate baseDir project = .ok path)
    (hread : fs.read cwd path = .ok bytes) (files : List String) (eol : Option String)
    (target : Value) : SettlesUnless path (Escapes path bytes)
      (resolve cwd baseDir files eol target project fs).result := by
  rw [result_resolve_of_read hpath hread, result_resolveFrom, read, hread]
  refine settlesUnless_of (fun e he => ⟨?_, he.ne_configuration⟩) ?_
  · cases he with
    | undecodable htext => simp [htext, Except.bind]
    | longNumber htext hparse => simp [htext, hparse, Except.bind]
    | numericFiles htext hparse hoptions hfiles hnumber =>
        have hlisted := listedFiles_of_isNumber hfiles hnumber baseDir
        simp [htext, hparse, hoptions, hlisted, Except.bind, Except.map]
  · cases htext : textOf? bytes with
    | none => exact .inr ⟨_, .undecodable htext⟩
    | some text =>
        rcases parse_settled_or path text with (⟨config, hparse⟩ | ⟨p, hp, hfile⟩) | ⟨n, hn⟩
        · rcases optionsOf_settled path config with ⟨options, hoptions⟩ | ⟨p, hp, hfile⟩
          · rcases listedFiles_cases baseDir (isFree_of_parse hparse) with ⟨listed, hlisted⟩ | ⟨v, hv, hnumber⟩
            · refine .inl (.inl ⟨⟨listed ++ files, (merge options eol target).1,
                (merge options eol target).2, some path⟩, ?_⟩)
              simp only [htext, hparse, hoptions, hlisted, Except.bind, Except.map]
            · exact .inr ⟨_, .numericFiles htext hparse hoptions hv hnumber⟩
          · exact .inl (.inr ⟨p, by simp only [htext, hparse, hp, Except.bind], hfile⟩)
        · exact .inl (.inr ⟨p, by simp only [htext, hp, Except.bind], hfile⟩)
        · exact .inr ⟨_, .longNumber htext hn⟩

end Settings

/-- A number that a settings file is refused for stands in what is left of it, digit by digit. -/
theorem Settings.hasLongRun_of_escapes {path : String} {bytes : ByteArray} {n : Nat}
    (h : Escapes path bytes (.badValue (.longNumber n))) : ∃ text, textOf? bytes = some text ∧
      Json.HasLongRun (Json.withoutTrailingCommas (Json.withoutComments text)).toList n := by
  cases h with
  | @longNumber text _ htext hparse =>
      refine ⟨text, htext, Json.hasLongRun_of_read ?_⟩
      unfold parse at hparse
      dsimp only at hparse
      split at hparse
      · cases hparse
      · cases hparse
      · cases hparse
      · next n' hread =>
          obtain rfl : n' = n := by simpa using hparse
          exact hread

/-- A number that an options file in JSON is refused for stands in it, digit by digit. -/
theorem Options.hasLongRun_of_escapes {yaml : Yaml.Reader} {path : String} {bytes : ByteArray} {n : Nat}
    (hjson : isYaml path = false) (h : Escapes yaml path bytes (.badValue (.longNumber n))) :
    ∃ text, Text.decode? bytes = some text ∧ Json.HasLongRun (Text.unifyLineEnds text.toList) n := by
  cases h with
  | @longNumber text _ _ htext hread =>
      have hrun := Json.hasLongRun_of_read hread
      rw [String.toList_ofList] at hrun
      exact ⟨text, htext, hrun⟩
  | reader hyaml =>
      rw [hjson] at hyaml
      cases hyaml

/-- Whatever an options file and a settings file hold, they end in a value or are to blame for a problem,
unless their bytes are no text, a number in them is too long, the reader of YAML fails in a way of its own, or
a number stands for the files of the settings; and each of these is a failure that blames no file. -/
theorem configurationFiles_settle (site : Site) (fs : FileSystem) (bytes : ByteArray) :
    (∀ file : String, fs.read site.cwd (Path.tidy file) = .ok bytes →
      SettlesUnless (Path.tidy file) (Options.Escapes site.yaml (Path.tidy file) bytes)
        (Options.loadRecord site file fs).result ∧
      ∀ n, Options.isYaml (Path.tidy file) = false →
        Options.Escapes site.yaml (Path.tidy file) bytes (.badValue (.longNumber n)) →
        ∃ text, Text.decode? bytes = some text ∧
          Json.HasLongRun (Text.unifyLineEnds text.toList) n) ∧
    ∀ (baseDir path : String) (files : List String) (eol : Option String) (target project : Value),
      Settings.locate baseDir project = .ok path → fs.read site.cwd path = .ok bytes →
        SettlesUnless path (Settings.Escapes path bytes)
          (Settings.resolve site.cwd baseDir files eol target project fs).result ∧
        ∀ n, Settings.Escapes path bytes (.badValue (.longNumber n)) →
          ∃ text, Settings.textOf? bytes = some text ∧
            Json.HasLongRun (Json.withoutTrailingCommas (Json.withoutComments text)).toList n := by
  constructor
  · exact fun file hread =>
      ⟨Options.loadRecord_settlesUnless hread, fun _ => Options.hasLongRun_of_escapes⟩
  · exact fun baseDir path files eol target project hpath hread =>
      ⟨Settings.resolve_settlesUnless hpath hread files eol target,
        fun _ => Settings.hasLongRun_of_escapes⟩

/-- Options that are no text and options with a date that is none, beside settings the files of which are a
number. -/
def numericFiles : FileSystem := ⟨[
  (["p"], .directory), (["p", "o.json"], .file ⟨#[0xff]⟩),
  (["p", "o.yaml"], .file (Text.encode "x: 2020-13-45")),
  (["p", "tsconfig.json"], .file (Text.encode "\x7b\"files\": 5\x7d"))]⟩

theorem read_numericFiles_options :
    numericFiles.read "/p" (Path.tidy "o.json") = .ok ⟨#[0xff]⟩ ∧
      numericFiles.read "/p" (Path.tidy "o.yaml") = .ok (Text.encode "x: 2020-13-45") := by
  have hplaces : numericFiles.place "/p" (Path.tidy "o.json") = .ok ["p", "o.json"] ∧
      numericFiles.place "/p" (Path.tidy "o.yaml") = .ok ["p", "o.yaml"] := by
    decide +kernel
  rw [FileSystem.read, FileSystem.read, hplaces.1, hplaces.2]
  exact ⟨rfl, rfl⟩

theorem read_numericFiles_settings :
    numericFiles.read "/p" "/p/tsconfig.json" = .ok (Text.encode "\x7b\"files\": 5\x7d") := by
  have hplace : numericFiles.place "/p" "/p/tsconfig.json" = .ok ["p", "tsconfig.json"] := by
    decide +kernel
  rw [FileSystem.read, hplace]
  rfl

theorem locate_numericFiles : Settings.locate "/p" .null = .ok "/p/tsconfig.json" :=
  eq_ok_of_toOption (by decide +kernel)

theorem escapes_numericFiles :
    Settings.Escapes "/p/tsconfig.json" (Text.encode "\x7b\"files\": 5\x7d") .wrongKind := by
  have hfacts : ((Settings.textOf? (Text.encode "\x7b\"files\": 5\x7d")).bind fun text =>
      (Settings.parse "/p/tsconfig.json" text).toOption.bind fun config =>
        (Settings.optionsOf "/p/tsconfig.json" config).toOption.bind fun _ =>
          (Settings.given? config "files").filter Value.isNumber).isSome = true := by
    decide +kernel
  obtain ⟨v, hv⟩ := Option.isSome_iff_exists.1 hfacts
  simp only [Option.bind_eq_some_iff, Option.filter_eq_some_iff] at hv
  obtain ⟨text, htext, config, hparse, options, hoptions, hfiles, hnumber⟩ := hv
  exact .numericFiles htext (eq_ok_of_toOption hparse) (eq_ok_of_toOption hoptions) hfiles hnumber

/-- A number for the files is no configuration problem. -/
theorem not_isSettled_numericFiles :
    Settings.locate "/p" .null = .ok "/p/tsconfig.json" ∧
      numericFiles.read "/p" "/p/tsconfig.json" = .ok (Text.encode "\x7b\"files\": 5\x7d") ∧
      ¬ IsSettled "/p/tsconfig.json"
        (Settings.resolve "/p" "/p" [] none .null .null numericFiles).result := by
  refine ⟨locate_numericFiles, read_numericFiles_settings, fun hsettled => ?_⟩
  have hsettles := Settings.resolve_settlesUnless locate_numericFiles read_numericFiles_settings []
    none .null
  exact hsettles.1.1 hsettled _ escapes_numericFiles

theorem read_date :
    Yaml.read "x: 2020-13-45" = .error (.badValue (.date "month must be in 1..12")) := by
  have hfacts : (match Yaml.read "x: 2020-13-45" with
      | .error (.badValue b) => some b
      | _ => none) = some (.date "month must be in 1..12") := by
    decide +kernel
  split at hfacts
  · next b hread => rw [hread, Option.some.inj hfacts]
  · cases hfacts

theorem read_date_site (name : String) :
    Bundler.twoScriptsSite.yaml.read name (Text.encode "x: 2020-13-45") =
      .error (.failure (.badValue (.date "month must be in 1..12"))) := by
  have hends : String.ofList (Text.unifyLineEnds "x: 2020-13-45".toList) = "x: 2020-13-45" := by decide
  have hyaml : Bundler.twoScriptsSite.yaml = Yaml.simpleReader := rfl
  simp only [hyaml, Yaml.simpleReader, Yaml.readBytes, Text.decode?_encode, hends, read_date]

theorem configurationFiles_settle_numericFiles :
    numericFiles.read "/p" (Path.tidy "o.json") = .ok ⟨#[0xff]⟩ ∧
      numericFiles.read "/p" (Path.tidy "o.yaml") = .ok (Text.encode "x: 2020-13-45") ∧
      Settings.locate "/p" .null = .ok "/p/tsconfig.json" ∧
      numericFiles.read "/p" "/p/tsconfig.json" = .ok (Text.encode "\x7b\"files\": 5\x7d") ∧
      (Options.loadRecord Bundler.twoScriptsSite "o.json" numericFiles).result = .error .undecodable ∧
      (Options.loadRecord Bundler.twoScriptsSite "o.yaml" numericFiles).result =
        .error (.badValue (.date "month must be in 1..12")) ∧
      (Settings.resolve "/p" "/p" [] none .null .null numericFiles).result = .error .wrongKind := by
  have hundecodable : Text.decode? ⟨#[0xff]⟩ = none := by decide +kernel
  have hjson := ((configurationFiles_settle Bundler.twoScriptsSite numericFiles _).1 "o.json"
    read_numericFiles_options.1).1.2 _ (.undecodable (by decide +kernel) hundecodable)
  have hyaml := ((configurationFiles_settle Bundler.twoScriptsSite numericFiles _).1 "o.yaml"
    read_numericFiles_options.2).1.2 _ (.reader (by decide +kernel) (read_date_site _))
  have hsettings := ((configurationFiles_settle Bundler.twoScriptsSite numericFiles _).2 "/p"
    "/p/tsconfig.json" [] none .null .null locate_numericFiles read_numericFiles_settings).1.2 _
    escapes_numericFiles
  exact ⟨read_numericFiles_options.1, read_numericFiles_options.2, locate_numericFiles,
    read_numericFiles_settings, hjson, hyaml, hsettings⟩

end DeclBundle
