import DeclBundle.Proofs.RecordOrder
import DeclBundle.Proofs.SoundOptions
import Mathlib

/-!
# Values that win over a file

The options that `load` ends with are those of one combination of values: for each option the value that
is given apart from the file, unless it is the absent one, and else what the file says of the option
under any of its spellings, a path being seen from the directory of the file (`chosen?`). What is
constructed and checked is the combination, and each option is what it says (`load_combined`).

A file says of an option what its last entry with a spelling of the key says. But a key that is written
twice is one entry, in the first place and with the last value, so that of three values under two
spellings the one written last need not count (`excludes_repeatedKeys`).
-/

namespace DeclBundle.Options

/-- What a record says of an option: the value of the last entry with a spelling of its key. -/
def spelt? (es : Record) (key : String) : Option Value :=
  Record.last? (es.map fun e => (canonical e.1, e.2)) key

def anchor (directory : String) : Value → Value
  | .text p => if p.isEmpty || Path.isAbsolute p then .text p else .text (Path.tidyJoin directory p)
  | v => v

def placed (directory key : String) (v : Value) : Value :=
  if key ∈ pathKeys then anchor directory v else v

/-- The value that is given for an option apart from the file. -/
def given? (overrides : Record) (key : String) : Option Value :=
  (Record.get? overrides key).filter fun v => !isNull v

def chosen? (directory : String) (es overrides : Record) (key : String) : Option Value :=
  (given? overrides key).or ((spelt? es key).map (placed directory key))

def combined (value? : String → Option Value) : Record :=
  keys.filterMap fun key => (value? key).map fun v => (.text key, v)

/-- Every option is the value for it, or its default. -/
structure Yields (value? : String → Option Value) (o : Options) : Prop where
  baseDir : o.baseDir = (value? "base_dir").getD (.text "")
  name : o.name = (value? "name").getD (.text "")
  out : o.out = (value? "out").getD (.text "")
  files : listOf ((value? "files").getD .null) = .ok o.files
  excludes : listOf ((value? "excludes").getD .null) = .ok o.excludes
  externs : listOf ((value? "externs").getD .null) = .ok o.externs
  eol : o.eol = (value? "eol").getD .null
  indent : o.indent =
    if isNull ((value? "indent").getD .null) then defaultIndent else (value? "indent").getD .null
  main : o.main = (value? "main").getD .null
  target : o.target = (value? "target").getD .null
  tsc : o.tsc = (value? "tsc").getD .null
  project : o.project = (value? "project").getD .null
  timeout : o.timeout = (value? "timeout").getD .null

/-! ### Combinations -/

theorem get?_filterMap_keys (value? : String → Option Value) (ks : List String) (hks : ks.Nodup)
    {key : String} (hkey : key ∈ ks) :
    Record.get? (ks.filterMap fun k => (value? k).map fun v => (Value.text k, v)) key = value? key := by
  have hnone : ∀ ks : List String, key ∉ ks →
      Record.get? (ks.filterMap fun k => (value? k).map fun v => (Value.text k, v)) key = none := by
    intro ks hnot
    induction ks with
    | nil => rfl
    | cons k ks ih =>
        rw [List.mem_cons, not_or] at hnot
        obtain ⟨hk, hks⟩ := hnot
        rw [List.filterMap_cons]
        cases value? k with
        | none => exact ih hks
        | some v =>
            rw [Option.map_some, Record.get?, if_neg (by simpa using Ne.symm hk), ih hks]
  induction ks with
  | nil => cases hkey
  | cons k ks ih =>
      obtain ⟨hk, hks⟩ := List.nodup_cons.1 hks
      rw [List.filterMap_cons]
      by_cases heq : k = key
      · subst heq
        cases value? k with
        | none => exact hnone ks hk
        | some v => rw [Option.map_some, Record.get?, if_pos (by simp)]
      · have hmem := (List.mem_cons.1 hkey).resolve_left (Ne.symm heq)
        cases value? k with
        | none => exact ih hks hmem
        | some v =>
            rw [Option.map_some, Record.get?, if_neg (by simpa using heq), ih hks hmem]

theorem get?_combined (value? : String → Option Value) {key : String} (hkey : key ∈ keys) :
    Record.get? (combined value?) key = value? key :=
  get?_filterMap_keys value? keys (by decide) hkey

theorem ofNormalized_congr {r r' : Record} (h : ∀ key ∈ keys, Record.get? r key = Record.get? r' key) :
    ofNormalized r = ofNormalized r' := by
  simp only [keys, List.forall_mem_cons, List.not_mem_nil, IsEmpty.forall_iff, implies_true,
    and_true] at h
  simp only [ofNormalized, valueOf, requiredOf, h]

theorem indent_eq (v : Value) :
    (match v with
      | .null => defaultIndent
      | v => v) = if isNull v then defaultIndent else v := by
  cases v <;> rfl

theorem ofNormalized_eq_ok_iff {r : Record} {o : Options} :
    ofNormalized r = .ok o ↔ Yields (Record.get? r) o := by
  constructor
  · intro h
    rw [ofNormalized] at h
    cases hfiles : listOf (valueOf r "files") with
    | error e => rw [hfiles] at h; cases h
    | ok files =>
    cases hexcludes : listOf (valueOf r "excludes") with
    | error e => rw [hfiles, hexcludes] at h; cases h
    | ok excludes =>
    cases hexterns : listOf (valueOf r "externs") with
    | error e => rw [hfiles, hexcludes, hexterns] at h; cases h
    | ok externs =>
    rw [hfiles, hexcludes, hexterns] at h
    obtain rfl := Except.ok.inj h
    exact ⟨rfl, rfl, rfl, hfiles, hexcludes, hexterns, rfl, indent_eq _, rfl, rfl, rfl, rfl, rfl⟩
  · intro h
    obtain ⟨baseDir, name, out, files, excludes, externs, eol, indent, main, target, tsc, project,
      timeout⟩ := o
    obtain ⟨rfl, rfl, rfl, hfiles, hexcludes, hexterns, rfl, rfl, rfl, rfl, rfl, rfl, rfl⟩ := h
    rw [← indent_eq, ofNormalized, valueOf, hfiles, valueOf, hexcludes, valueOf, hexterns]
    rfl

theorem Yields.congr {value? value?' : String → Option Value} {o : Options} (h : Yields value? o)
    (heq : ∀ key ∈ keys, value? key = value?' key) : Yields value?' o := by
  simp only [keys, List.forall_mem_cons, List.not_mem_nil, IsEmpty.forall_iff, implies_true,
    and_true] at heq
  obtain ⟨hbase, hname, hout, hfiles, hexcludes, hexterns, heol, hindent, hmain, htarget, htsc,
    hproject, htimeout⟩ := h
  simp only [heq] at *
  exact ⟨hbase, hname, hout, hfiles, hexcludes, hexterns, heol, hindent, hmain, htarget, htsc,
    hproject, htimeout⟩

/-! ### What is found under a key -/

@[simp] theorem canonical_canonical (k : Value) : canonical (canonical k) = canonical k := by
  have hnone : ∀ e ∈ aliases, aliases.lookup e.2 = none := by decide
  have hlookup : ∀ s, aliases.lookup ((aliases.lookup s).getD s) = none := by
    intro s
    cases h : aliases.lookup s with
    | none => exact h
    | some t =>
        obtain ⟨before, after, haliases, -⟩ := List.lookup_eq_some_iff.1 h
        exact hnone (s, t) (by rw [haliases]; simp)
  cases k with
  | text s => simp [canonical, hlookup]
  | _ => rfl

theorem get?_anchored (directory : String) (r : Record) (key k : String) :
    Record.get? (anchored directory r key) k =
      if k = key then (Record.get? r k).map (anchor directory) else Record.get? r k := by
  by_cases hk : k = key
  · subst hk
    rw [if_pos rfl, anchored]
    cases h : Record.get? r k with
    | none => simp [h]
    | some v =>
        cases v with
        | text p =>
            simp only [Option.map_some, anchor]
            split
            · rw [h]
            · rw [Record.get?_put_self]
        | _ => simpa [anchor] using h
  · rw [if_neg hk, anchored]
    split
    · split
      · rfl
      · rw [Record.get?_put_of_ne hk]
    · rfl

/-- A file says of an option what its last entry with a spelling of the key says. -/
theorem get?_resolved (directory : String) (es : Record) (key : String) :
    Record.get? (resolved directory es) key = (spelt? es key).map (placed directory key) := by
  have hbase : Record.get? (Record.ofEntries (es.map fun e => (canonical e.1, e.2))) key =
      spelt? es key := Record.get?_ofEntries _ key
  have hplaced : placed directory key =
      if key ∈ pathKeys then anchor directory else fun v => v := by
    funext v
    rw [placed]
    split <;> rfl
  rw [resolved, hplaced]
  simp only [pathKeys, List.foldl_cons, List.foldl_nil, get?_anchored, hbase, List.mem_cons,
    List.not_mem_nil, or_false]
  by_cases h1 : key = "base_dir"
  · subst h1
    simp
  by_cases h2 : key = "out"
  · subst h2
    simp
  by_cases h3 : key = "project"
  · subst h3
    simp
  simp [h1, h2, h3]

/-- What a record of entries has, and keeps when something is put under a key of a path, the record of
an options file has. -/
theorem resolved_induction {Q : Record → Prop} {directory : String} {es : Record}
    (hbase : Q (Record.ofEntries (es.map fun e => (canonical e.1, e.2))))
    (hput : ∀ r, Q r → ∀ key ∈ pathKeys, ∀ v, Q (Record.put r (.text key) v)) :
    Q (resolved directory es) := by
  have hanchored : ∀ r, Q r → ∀ key ∈ pathKeys, Q (anchored directory r key) := by
    intro r hr key hkey
    rw [anchored]
    split
    · split
      · exact hr
      · exact hput r hr key hkey _
    · exact hr
  have hfold : ∀ ks : List String, (∀ key ∈ ks, key ∈ pathKeys) → ∀ r, Q r →
      Q (ks.foldl (anchored directory) r) := by
    intro ks hks
    induction ks with
    | nil => exact fun r hr => hr
    | cons k ks ih =>
        obtain ⟨hk, hks⟩ := List.forall_mem_cons.1 hks
        exact fun r hr => ih hks _ (hanchored r hr k hk)
  exact hfold pathKeys (fun _ h => h) _ hbase

theorem canonical_of_mem_resolved (directory : String) (es : Record) :
    ∀ e ∈ resolved directory es, canonical e.1 = e.1 := by
  have hpaths : ∀ key ∈ pathKeys, aliases.lookup key = none := by decide
  refine resolved_induction (Q := fun r => ∀ e ∈ r, canonical e.1 = e.1) ?_ ?_
  · refine Record.forall_key_foldl_put (P := fun k => canonical k = k) ?_ nofun
    rw [List.forall_mem_map]
    exact fun e _ => canonical_canonical e.1
  · intro r hr key hkey v
    exact Record.forall_key_put (P := fun k => canonical k = k) hr (by simp [canonical, hpaths key hkey]) v

theorem distinct_resolved (directory : String) (es : Record) :
    Record.Distinct (resolved directory es) :=
  resolved_induction (Record.distinct_ofEntries _) fun _ hr _ _ _ => hr.put _ _

/-- Values for options apart from a file: under the keys that count, no key twice. -/
structure AreOverrides (overrides : Record) : Prop where
  distinct : Record.Distinct overrides
  isKey : ∀ e ∈ overrides, isKey e.1 = true

theorem canonical_of_isKey {k : Value} (h : isKey k = true) : canonical k = k := by
  have hkeys : ∀ key ∈ keys, aliases.lookup key = none := by decide
  cases k with
  | text s => simp [canonical, hkeys s (by simpa [isKey] using h)]
  | _ => rfl

/-- A value that is not absent wins, and otherwise what was there counts. -/
theorem get?_overridden {r overrides : Record} (h : AreOverrides overrides) (key : String) :
    Record.get? (overridden r overrides) key = (given? overrides key).or (Record.get? r key) := by
  have hfilter : Record.Distinct (overrides.filter fun e => !isNull e.2) := h.distinct.filter _
  rw [overridden, Record.get?_foldl_put, hfilter.last?_eq, h.distinct.get?_filter, given?]

/-- A record without two spellings of a key, its keys spelt as they count, is normalized by dropping
what is no option. -/
theorem normalized_eq_filter {r : Record} (hdistinct : Record.Distinct r)
    (hcanonical : ∀ e ∈ r, canonical e.1 = e.1) : normalized r = r.filter fun e => isKey e.1 := by
  have hmap : (r.map fun e => (canonical e.1, e.2)) = r := by
    conv_rhs => rw [← List.map_id r]
    exact List.map_congr_left fun e he => by rw [hcanonical e he]; rfl
  rw [normalized, hmap, Record.ofEntries_of_pairwise (hdistinct.filter _)]

/-- What counts is found under the keys of the options that a file and other values make up. -/
theorem get?_normalized_overridden {overrides : Record} (h : AreOverrides overrides)
    (directory : String) (es : Record) {key : String} (hkey : key ∈ keys) :
    Record.get? (normalized (overridden (resolved directory es) overrides)) key =
      chosen? directory es overrides key := by
  have hdistinct : Record.Distinct (overridden (resolved directory es) overrides) :=
    (distinct_resolved directory es).foldl_put _
  have hcanonical : ∀ e ∈ overridden (resolved directory es) overrides, canonical e.1 = e.1 :=
    Record.forall_key_foldl_put (P := fun k => canonical k = k)
      (fun e he => canonical_of_isKey (h.isKey e (List.mem_of_mem_filter he)))
      (canonical_of_mem_resolved directory es)
  have hkey' : isKey (.text key) = true := by simpa [isKey] using hkey
  rw [normalized_eq_filter hdistinct hcanonical, hdistinct.get?_filter, get?_overridden h,
    get?_resolved, chosen?]
  simp only [hkey']
  cases (given? overrides key).or ((spelt? es key).map (placed directory key)) <;> rfl

/-! ### Loading -/

variable {site : Site} {file : String} {fs : FileSystem} {es overrides : Record}

theorem result_load (site : Site) (file : String) (overrides : Record) (fs : FileSystem) :
    (load site (some file) overrides fs).result = (loadRecord site file fs).result.bind fun r =>
      (ofNormalized (normalized (overridden r overrides))).bind validate := by
  change ((loadRecord site file >>= fun r => accept (overridden r overrides)) fs).result = _
  rw [Action.bind_apply]
  cases (loadRecord site file fs).result with
  | error e => rfl
  | ok r => exact result_accept _ _

theorem result_load_of_read (hread : readValue site (Path.tidy file) fs = .ok (.map es))
    (overrides : Record) : (load site (some file) overrides fs).result =
      (ofNormalized (normalized (overridden (resolved (Path.parent (Path.tidy file)) es)
        overrides))).bind validate := by
  rw [result_load, result_loadRecord, hread]
  rfl

theorem result_load_eq (hread : readValue site (Path.tidy file) fs = .ok (.map es))
    (h : AreOverrides overrides) :
    (load site (some file) overrides fs).result =
      (ofNormalized (combined (chosen? (Path.parent (Path.tidy file)) es overrides))).bind validate := by
  rw [result_load_of_read hread, ofNormalized_congr fun key hkey => ?_]
  rw [get?_normalized_overridden h _ es hkey, get?_combined _ hkey]

/-- The options of values are found in order if every option is the value for it and nothing is wrong. -/
theorem validated_combined_eq_ok_iff {value? : String → Option Value} {o : Options} :
    (ofNormalized (combined value?)).bind validate = .ok o ↔ Yields value? o ∧ o.problem? = none := by
  have hcombined : ∀ key ∈ keys, Record.get? (combined value?) key = value? key :=
    fun key hkey => get?_combined _ hkey
  constructor
  · intro ho
    cases hmade : ofNormalized (combined value?) with
    | error e => rw [hmade] at ho; cases ho
    | ok o' =>
        have hyields := (ofNormalized_eq_ok_iff.1 hmade).congr hcombined
        simp only [hmade, Except.bind, validate] at ho
        split at ho
        · cases ho
        · next hproblem =>
            obtain rfl := Except.ok.inj ho
            exact ⟨hyields, hproblem⟩
  · rintro ⟨hyields, hproblem⟩
    rw [ofNormalized_eq_ok_iff.2 (hyields.congr fun key hkey => (hcombined key hkey).symm)]
    simp [Except.bind, validate, hproblem]

/-- The options of a file and of values that win over it are those of one combination of values: the
combination is constructed and checked, and nothing else is; every option is what counts for it. A key
that the file writes more than once stands where it was written first, with the value written last. -/
theorem load_combined (hread : readValue site (Path.tidy file) fs = .ok (.map es))
    (h : AreOverrides overrides) :
    (load site (some file) overrides fs).result =
        (ofNormalized (combined (chosen? (Path.parent (Path.tidy file)) es overrides))).bind validate ∧
      (∀ o, (load site (some file) overrides fs).result = .ok o ↔
        Yields (chosen? (Path.parent (Path.tidy file)) es overrides) o ∧ o.problem? = none) ∧
      ∀ written, es = Record.ofEntries written →
        Record.textKeys es = (Record.textKeys written).eraseDups ∧
          ∀ key, Record.get? es key = Record.last? written key := by
  refine ⟨result_load_eq hread h, fun o => ?_, ?_⟩
  · rw [result_load_eq hread h, validated_combined_eq_ok_iff]
  · rintro written rfl
    exact ⟨Record.textKeys_ofEntries written, Record.get?_ofEntries written⟩

theorem readValue_of_json {path text : String} {l : Place} {v : Value}
    (hplace : fs.place site.cwd path = .ok l) (hfile : fs.get? l = some (.file (Text.encode text)))
    (hyaml : isYaml path = false) (hends : String.ofList (Text.unifyLineEnds text.toList) = text)
    (hread : Json.read text = .ok v) : readValue site path fs = .ok v := by
  have hbytes : fs.read site.cwd path = .ok (Text.encode text) := by
    simp only [FileSystem.read, hplace, hfile]
  simp only [readValue, hbytes, parse, parseJson, Text.decode?_encode, hends, hyaml, Bool.false_eq_true,
    if_false, hread]

/-- The files to leave out are written three times under two spellings, and the settings file is the empty
text. -/
def repeatedKeys : Record := [
  (.text "baseDir", .text "b"), (.text "name", .text "n"), (.text "out", .text "o"),
  (.text "project", .text ""), (.text "exclude", .list [.text "a"]),
  (.text "excludes", .list [.text "b"]), (.text "exclude", .list [.text "c"])]

def repeatedText : String :=
  "\x7b\"baseDir\": \"b\", \"name\": \"n\", \"out\": \"o\", \"project\": \"\", \"exclude\": [\"a\"], " ++
    "\"excludes\": [\"b\"], \"exclude\": [\"c\"]\x7d"

def repeatedFiles : FileSystem := ⟨[
  (["p"], .directory), (["p", "conf"], .directory),
  (["p", "conf", "o.json"], .file (Text.encode repeatedText))]⟩

theorem read_repeatedText :
    Json.read repeatedText = .ok (.map (Record.ofEntries repeatedKeys)) := by
  cbv

theorem readValue_repeatedFiles : readValue Bundler.twoScriptsSite (Path.tidy "conf/o.json") repeatedFiles =
    .ok (.map (Record.ofEntries repeatedKeys)) := by
  have hplace : repeatedFiles.place "/p" (Path.tidy "conf/o.json") = .ok ["p", "conf", "o.json"] := by
    decide +kernel
  exact readValue_of_json hplace rfl (by decide +kernel) (by decide +kernel) read_repeatedText

def repeatedOptions (name : String) : Options where
  baseDir := .text "conf/b"
  name := .text name
  out := .text "conf/o"
  files := []
  excludes := [.text "b"]
  externs := []
  eol := .null
  indent := .text "\t"
  main := .null
  target := .null
  tsc := .null
  project := .text ""
  timeout := .null

/-- A value written last under one spelling gives way to one under another spelling, if its key was
written before that already; and the empty text is not taken for the directory of the file. -/
theorem excludes_repeatedKeys :
    readValue Bundler.twoScriptsSite (Path.tidy "conf/o.json") repeatedFiles =
        .ok (.map (Record.ofEntries repeatedKeys)) ∧
      (load Bundler.twoScriptsSite (some "conf/o.json") [] repeatedFiles).result = .ok (repeatedOptions "n") ∧
      spelt? repeatedKeys "excludes" = some (.list [.text "c"]) ∧
      (repeatedOptions "n").excludes = [.text "b"] ∧
      spelt? repeatedKeys "project" = some (.text "") ∧
      Path.tidyJoin (Path.parent (Path.tidy "conf/o.json")) "" = "conf" ∧
      (repeatedOptions "n").project = .text "" := by
  have hparent : Path.parent (Path.tidy "conf/o.json") = "conf" := by decide +kernel
  refine ⟨readValue_repeatedFiles, ?_, rfl, rfl, rfl, by decide +kernel, rfl⟩
  rw [result_load_of_read readValue_repeatedFiles, hparent]
  cbv

theorem load_combined_repeatedFiles :
    readValue Bundler.twoScriptsSite (Path.tidy "conf/o.json") repeatedFiles =
        .ok (.map (Record.ofEntries repeatedKeys)) ∧
      (load Bundler.twoScriptsSite (some "conf/o.json") [(.text "name", .text "m")] repeatedFiles).result =
        .ok (repeatedOptions "m") := by
  have hoverrides : AreOverrides [(.text "name", .text "m")] :=
    ⟨List.pairwise_singleton _ _, by decide⟩
  have hparent : Path.parent (Path.tidy "conf/o.json") = "conf" := by decide +kernel
  refine ⟨readValue_repeatedFiles, ?_⟩
  rw [(load_combined readValue_repeatedFiles hoverrides).1, hparent]
  cbv

end DeclBundle.Options
