import DeclBundle.Proofs.RecordOrder
import DeclBundle.Proofs.WrittenConfiguration
import Mathlib

/-!
# Merged settings

What is asked for is put over the options of a settings file, and the options that make no sense are dropped
(`Settings.merge_fst`). So all other options stay as they are, in their order (`Settings.filter_merge`,
`Settings.textKeys_merge`). The line end of the settings is the one that their own newline option names,
whether it is asked for, comes from the file or is the usual one (`Settings.Agree`): only a text names the
line end of two characters, since what a value of another kind is written as has a character that the name
does not have (`Settings.eolOf_eq_iff`). `Settings.resolve_merges` says this of the settings of a run,
together with the files in them.
-/

namespace DeclBundle

theorem Value.eq_text_of_text? {v : Value} {s : String} (h : v.text? = some s) : v = .text s := by
  cases v with
  | text t => exact congrArg Value.text (Option.some.inj h)
  | _ => cases h

namespace Record

variable {r : Record} {key : String}

/-- Putting a value under a key that is filtered out makes no difference. -/
theorem filter_put_of_not {keep : Value → Bool} {s : String} (h : keep (.text s) = false) (r : Record)
    (v : Value) : (put r (.text s) v).filter (fun e => keep e.1) = r.filter fun e => keep e.1 := by
  induction r with
  | nil => simp [put, h]
  | cons e r ih =>
      obtain ⟨k, v'⟩ := e
      rw [put]
      split
      case isTrue hsame =>
        obtain rfl := (isSameKey_text_iff k s).1 hsame
        simp [h]
      case isFalse => rw [List.filter_cons, List.filter_cons, ih]

theorem filter_foldl_put {keep : Value → Bool} {es : Record}
    (hes : ∀ e ∈ es, ∃ s, e.1 = .text s ∧ keep (.text s) = false) (r : Record) :
    (es.foldl (fun r e => put r e.1 e.2) r).filter (fun e => keep e.1) = r.filter fun e => keep e.1 := by
  induction es generalizing r with
  | nil => rfl
  | cons e es ih =>
      obtain ⟨⟨s, hs, hkeep⟩, hes⟩ := List.forall_mem_cons.1 hes
      rw [List.foldl_cons, ih hes, hs, filter_put_of_not hkeep]

theorem exists_textKeys_foldl_put (es r : Record) :
    ∃ added, textKeys (es.foldl (fun r e => put r e.1 e.2) r) = textKeys r ++ added ∧
      ∀ k ∈ added, k ∉ textKeys r ∧ k ∈ textKeys es := by
  induction es using List.reverseRecOn with
  | nil => exact ⟨[], by simp, List.forall_mem_nil _⟩
  | append_singleton es e ih =>
      obtain ⟨added, hkeys, hadded⟩ := ih
      rw [List.foldl_append, List.foldl_cons, List.foldl_nil, textKeys_append]
      have hleft : ∀ k ∈ added, k ∉ textKeys r ∧ k ∈ textKeys es ++ textKeys [e] := fun k hk =>
        ⟨(hadded k hk).1, List.mem_append_left _ (hadded k hk).2⟩
      cases hk : e.1.text? with
      | none => exact ⟨added, by rw [textKeys_put_of_none _ hk, hkeys], hleft⟩
      | some s =>
          rw [Value.eq_text_of_text? hk, textKeys_put_text, hkeys]
          split
          case isTrue => exact ⟨added, rfl, hleft⟩
          case isFalse hnew =>
            refine ⟨added ++ [s], by rw [List.append_assoc], fun k hmem => ?_⟩
            rcases List.mem_append.1 hmem with hmem | hmem
            · exact hleft k hmem
            · obtain rfl := List.mem_singleton.1 hmem
              exact ⟨fun hr => hnew (List.mem_append_left _ hr), by simp [textKeys, hk]⟩

theorem any_isSameKey_text (dropped : List String) (s : String) :
    (dropped.any fun i => (Value.text s).isSameKey (.text i)) = decide (s ∈ dropped) := by
  rw [Bool.eq_iff_iff, List.any_eq_true, decide_eq_true_eq]
  constructor
  · rintro ⟨i, hi, hsame⟩
    rw [Value.isSameKey_text, beq_iff_eq] at hsame
    exact hsame ▸ hi
  · exact fun hs => ⟨s, hs, by rw [Value.isSameKey_text, beq_iff_eq]⟩

theorem textKeys_without (r : Record) (dropped : List String) :
    textKeys (without r fun k => dropped.any fun i => k.isSameKey (.text i)) =
      (textKeys r).filter (· ∉ dropped) := by
  rw [without]
  induction r with
  | nil => rfl
  | cons e r ih =>
      obtain ⟨k, v⟩ := e
      rw [textKeys_cons, List.filter_append, ← ih, List.filter_cons]
      cases k with
      | text s =>
          simp only [any_isSameKey_text]
          by_cases hs : s ∈ dropped
          · simp [Value.text?, hs]
          · simp [Value.text?, hs, textKeys_cons]
      | _ =>
          split
          · simp [Value.text?, textKeys_cons]
          · simp [Value.text?]

end Record

namespace Value

/-- The text of a value has a character that is in no spelling of the name of a line end. -/
def IsForeign (s : String) : Prop := ∃ c ∈ s.toList, c.toLower ∉ "crlf".toList

theorem IsForeign.append_left {s : String} (h : IsForeign s) (t : String) : IsForeign (t ++ s) := by
  obtain ⟨c, hc, hout⟩ := h
  exact ⟨c, by rw [String.toList_append]; exact List.mem_append_right _ hc, hout⟩

theorem IsForeign.append_right {s : String} (h : IsForeign s) (t : String) : IsForeign (s ++ t) := by
  obtain ⟨c, hc, hout⟩ := h
  exact ⟨c, by rw [String.toList_append]; exact List.mem_append_left _ hc, hout⟩

theorem toLower_notMem_of_isDigit {c : Char} (h : c.isDigit = true) : c.toLower ∉ "crlf".toList := by
  have hletters : ("crlf".toList.all fun c => !c.isDigit) = true := by decide
  have hsame : c.toLower = c := by
    rw [Char.toLower]
    refine dif_neg fun hupper => ?_
    have hle := (Char.isDigit_iff_toNat.1 h).2
    have hge : 'A'.toNat ≤ c.toNat := hupper.1
    exact absurd (hge.trans hle) (by decide)
  rw [hsame]
  intro hmem
  have hletter := List.all_eq_true.1 hletters c hmem
  rw [h] at hletter
  cases hletter

theorem isForeign_natural (n : Nat) : IsForeign (toString n) := by
  rw [Nat.toString_eq_ofList_toDigits]
  obtain ⟨c, cs, hcs⟩ := List.exists_cons_of_ne_nil (Nat.toDigits_ne_nil (b := 10) (n := n))
  refine ⟨c, by rw [hcs]; simp, toLower_notMem_of_isDigit ?_⟩
  exact Nat.isDigit_of_mem_toDigits (by decide) (by decide) (hcs ▸ List.mem_cons_self)

theorem isForeign_int (n : Int) : IsForeign (toString n) := by
  cases n with
  | ofNat n => exact isForeign_natural n
  | negSucc n => exact (isForeign_natural (n + 1)).append_left "-"

theorem point_or_exponent_mem_render (d : Decimal.Digits) : '.' ∈ d.render ∨ 'e' ∈ d.render := by
  rw [Decimal.Digits.render]
  dsimp only
  split
  · split
    · simp
    · simp
  · simp

theorem isForeign_float (x : Float) : IsForeign (Decimal.ofFloat spelling x) := by
  rw [Decimal.ofFloat]
  dsimp only
  split
  · split
    · exact IsForeign.append_left ⟨'n', by decide, by decide⟩ _
    · exact ⟨'n', by decide, by decide⟩
  · split
    · exact IsForeign.append_left ⟨'.', by decide, by decide⟩ _
    · refine IsForeign.append_left ?_ _
      generalize Decimal.Digits.strip _ _ = d
      rcases point_or_exponent_mem_render d with h | h
      · exact ⟨'.', by rwa [String.toList_ofList], by decide⟩
      · exact ⟨'e', by rwa [String.toList_ofList], by decide⟩

/-- Of the values that can be written only texts spell the name of a line end. -/
theorem isForeign_display {v : Value} (h : v.text? = none) (hfree : Json.obstacleOf v = none) :
    IsForeign v.display := by
  cases v with
  | null => exact ⟨'n', by decide, by decide⟩
  | bool b =>
      cases b with
      | true => exact ⟨'e', by decide, by decide⟩
      | false => exact ⟨'e', by decide, by decide⟩
  | int n => exact isForeign_int n
  | float x => exact isForeign_float x
  | text s => cases h
  | list items =>
      change IsForeign (shown (list items))
      rw [shown]
      exact (IsForeign.append_right ⟨'[', by decide, by decide⟩ _).append_right _
  | map es =>
      change IsForeign (shown (map es))
      rw [shown]
      exact (IsForeign.append_right ⟨'\x7b', by decide, by decide⟩ _).append_right _
  | other x => cases hfree

end Value

namespace Settings

variable {options : Record} {eol : Option String} {target : Value}

/-- A value is a name of the line end of two characters, in whatever case. -/
def NamesCrlf (v : Option Value) : Prop :=
  ∃ s, v = some (.text s) ∧ s.toList.map Char.toLower = "crlf".toList

/-- The line end is the one of two characters if the options name it, and the usual one otherwise. -/
structure Agree (options : Record) (lineEnd : String) : Prop where
  isEol : IsEol lineEnd
  crlf_iff : lineEnd = "\r\n" ↔ NamesCrlf (options.get? "newLine")

theorem eolOf_eq_iff {v : Value} (hfree : Json.obstacleOf v = none) :
    eolOf v = "\r\n" ↔ NamesCrlf (some v) := by
  have hcrlf : eolOf v = "\r\n" ↔ v.display.toList.map Char.toLower = "crlf".toList := by
    rw [eolOf]
    split
    case isTrue h => exact iff_of_true rfl h
    case isFalse h => exact iff_of_false (by decide) h
  rw [hcrlf]
  constructor
  · intro h
    cases htext : v.text? with
    | some s =>
        obtain rfl := Value.eq_text_of_text? htext
        exact ⟨s, rfl, h⟩
    | none =>
        -- what a value of another kind is written as is no such name
        obtain ⟨c, hc, hforeign⟩ := Value.isForeign_display htext hfree
        exact absurd (h ▸ List.mem_map_of_mem hc) hforeign
  · rintro ⟨s, hs, hname⟩
    cases hs
    exact hname

theorem namesCrlf_eolName {e : String} (he : IsEol e) :
    e = "\r\n" ↔ NamesCrlf (some (.text (eolName e))) := by
  rcases he with rfl | rfl
  · refine iff_of_false (by decide) ?_
    rintro ⟨s, hs, hname⟩
    cases hs
    exact absurd hname (by decide)
  · exact iff_of_true rfl ⟨_, rfl, by decide⟩

theorem NamesCrlf.isTruthy {v : Value} (h : NamesCrlf (some v)) : v.isTruthy = true := by
  obtain ⟨s, hs, hname⟩ := h
  cases hs
  rw [Value.isTruthy, Bool.not_eq_true', String.isEmpty_eq_false_iff]
  rintro rfl
  cases hname

theorem eolOfOption?_eq_iff (hfree : ∀ e ∈ options, Json.IsFree e) :
    (eolOfOption? options).getD defaultEol = "\r\n" ↔ NamesCrlf (options.get? "newLine") := by
  have husual : ¬ defaultEol = "\r\n" := by decide
  rw [eolOfOption?]
  cases hline : options.get? "newLine" with
  | none =>
      refine iff_of_false husual ?_
      rintro ⟨s, hs, -⟩
      cases hs
  | some v =>
      dsimp only
      split
      case isTrue => exact eolOf_eq_iff (Json.isFree_of_get? hfree hline)
      case isFalse hfalse => exact iff_of_false husual fun hname => hfalse hname.isTruthy

/-! ### What is put over the options -/

theorem requestedEol?_eq (heol : ∀ e, eol = some e → IsEol e) : requestedEol? eol = eol := by
  cases eol with
  | none => rfl
  | some e => rcases heol e rfl with rfl | rfl <;> decide

def overrides (eol : Option String) (target : Value) : Record :=
  (.text "declaration", .bool true) ::
    ((eol.map fun e => (.text "newLine", .text (eolName e))).toList ++
      if target.isTruthy then [(.text "target", target)] else [])

def overridden (eol : Option String) (target : Value) : List String :=
  "declaration" ::
    ((eol.map fun _ => "newLine").toList ++ if target.isTruthy then ["target"] else [])

def isOther (eol : Option String) (target k : Value) : Bool :=
  !(overridden eol target ++ ignored).any fun i => k.isSameKey (.text i)

theorem textKeys_overrides (eol : Option String) (target : Value) :
    Record.textKeys (overrides eol target) = overridden eol target := by
  rw [overrides, overridden]
  cases eol <;> cases target.isTruthy <;> rfl

theorem isText_of_mem_overrides :
    ∀ e ∈ overrides eol target, ∃ s, e.1 = .text s ∧ s ∈ overridden eol target := by
  rw [overrides, overridden]
  cases eol <;> cases target.isTruthy <;> simp

theorem notMem_ignored_of_overridden : ∀ key ∈ overridden eol target, key ∉ ignored := by
  rw [overridden, ignored]
  cases eol <;> cases target.isTruthy <;> simp

theorem last?_overrides_declaration (eol : Option String) (target : Value) :
    Record.last? (overrides eol target) "declaration" = some (.bool true) := by
  rw [overrides]
  cases eol <;> cases target.isTruthy <;> rfl

theorem last?_overrides_newLine (eol : Option String) (target : Value) :
    Record.last? (overrides eol target) "newLine" = eol.map fun e => .text (eolName e) := by
  rw [overrides]
  cases eol <;> cases target.isTruthy <;> rfl

theorem last?_overrides_target (eol : Option String) (target : Value) :
    Record.last? (overrides eol target) "target" = if target.isTruthy then some target else none := by
  rw [overrides]
  cases eol <;> cases target.isTruthy <;> rfl

/-- Settings in which what is asked for is put over the options of a file. -/
structure Merges (options : Record) (eol : Option String) (target : Value) (s : Settings) : Prop where
  agree : Agree s.options s.eol
  eol_wins : ∀ e, eol = some e → s.eol = e ∧ s.options.get? "newLine" = some (.text (eolName e))
  target_wins : target.isTruthy = true → s.options.get? "target" = some target
  declaration : s.options.get? "declaration" = some (.bool true)
  ne_of_ignored : ∀ key ∈ ignored, ∀ e ∈ s.options, e.1 ≠ .text key
  others : s.options.filter (fun e => isOther eol target e.1) =
    options.filter fun e => isOther eol target e.1
  keys_ordered : ∃ added, s.options.textKeys = options.textKeys.filter (· ∉ ignored) ++ added ∧
    ∀ key ∈ added, key ∉ options.textKeys ∧ key ∈ overridden eol target

section

variable (heol : ∀ e, eol = some e → IsEol e)

include heol

theorem merge_fst (options : Record) (target : Value) :
    (merge options eol target).1 =
      Record.without ((overrides eol target).foldl (fun r e => Record.put r e.1 e.2) options)
        fun k => ignored.any fun i => k.isSameKey (.text i) := by
  rw [merge, overrides, requestedEol?_eq heol]
  cases eol <;> cases target.isTruthy <;> rfl

theorem merge_snd (options : Record) (target : Value) :
    (merge options eol target).2 = eol.getD ((eolOfOption? options).getD defaultEol) := by
  have hput : eolOfOption? (Record.put options (.text "declaration") (.bool true)) =
      eolOfOption? options := by
    rw [eolOfOption?, eolOfOption?, Record.get?_put_of_ne (by decide)]
  rw [merge, requestedEol?_eq heol]
  cases eol with
  | none => exact congrArg (Option.getD · defaultEol) hput
  | some e => rfl

theorem get?_merge (options : Record) (target : Value) {key : String} (hkey : key ∉ ignored) :
    Record.get? (merge options eol target).1 key =
      (Record.last? (overrides eol target) key).or (Record.get? options key) := by
  rw [merge_fst heol, Record.get?_without_of_not, Record.get?_foldl_put]
  rw [Record.any_isSameKey_text, decide_eq_false hkey]

theorem agree_merge (hfree : ∀ e ∈ options, Json.IsFree e) (target : Value) :
    Agree (merge options eol target).1 (merge options eol target).2 := by
  have hname : Record.get? (merge options eol target).1 "newLine" =
      (Record.last? (overrides eol target) "newLine").or (options.get? "newLine") :=
    get?_merge heol options target (by decide)
  refine ⟨isEol_merge heol options target, ?_⟩
  rw [hname, last?_overrides_newLine, merge_snd heol]
  cases eol with
  | none => exact eolOfOption?_eq_iff hfree
  | some e => exact namesCrlf_eolName (heol e rfl)

theorem filter_merge (options : Record) (target : Value) :
    (merge options eol target).1.filter (fun e => isOther eol target e.1) =
      options.filter fun e => isOther eol target e.1 := by
  have hput : ∀ e ∈ overrides eol target, ∃ s, e.1 = .text s ∧ isOther eol target (.text s) = false := by
    intro e he
    obtain ⟨s, hs, hmem⟩ := isText_of_mem_overrides e he
    refine ⟨s, hs, ?_⟩
    rw [isOther, Record.any_isSameKey_text, decide_eq_true (List.mem_append_left _ hmem)]
    rfl
  rw [merge_fst heol, Record.without, List.filter_filter, ← Record.filter_foldl_put hput options]
  refine List.filter_congr fun e _ => ?_
  rw [isOther, List.any_append, Bool.not_or, Bool.and_assoc, Bool.and_self]

theorem textKeys_merge (options : Record) (target : Value) :
    ∃ added, Record.textKeys (merge options eol target).1 =
        (Record.textKeys options).filter (· ∉ ignored) ++ added ∧
      ∀ key ∈ added, key ∉ Record.textKeys options ∧ key ∈ overridden eol target := by
  obtain ⟨added, hkeys, hadded⟩ := Record.exists_textKeys_foldl_put (overrides eol target) options
  rw [textKeys_overrides] at hadded
  have hkept : added.filter (· ∉ ignored) = added := by
    rw [List.filter_eq_self]
    exact fun key hkey => decide_eq_true (notMem_ignored_of_overridden key (hadded key hkey).2)
  exact ⟨added, by rw [merge_fst heol, Record.textKeys_without, hkeys, List.filter_append, hkept], hadded⟩

theorem ne_of_mem_merge (options : Record) (target : Value) :
    ∀ key ∈ ignored, ∀ e ∈ (merge options eol target).1, e.1 ≠ .text key := by
  intro key hkey e he hsame
  rw [merge_fst heol] at he
  have hkept := (List.mem_filter.1 he).2
  simp only [hsame, Record.any_isSameKey_text, decide_eq_true hkey, Bool.not_true] at hkept
  cases hkept

theorem merges_merge (hfree : ∀ e ∈ options, Json.IsFree e) (target : Value) (files : List String)
    (source : Option String) : Merges options eol target
      ⟨files, (merge options eol target).1, (merge options eol target).2, source⟩ where
  agree := agree_merge heol hfree target
  eol_wins := by
    rintro e rfl
    refine ⟨merge_snd heol options target, ?_⟩
    rw [get?_merge heol options target (by decide), last?_overrides_newLine]
    rfl
  target_wins := by
    intro htarget
    rw [get?_merge heol options target (by decide), last?_overrides_target, if_pos htarget]
    rfl
  declaration := by
    rw [get?_merge heol options target (by decide), last?_overrides_declaration]
    rfl
  ne_of_ignored := ne_of_mem_merge heol options target
  others := filter_merge heol options target
  keys_ordered := textKeys_merge heol options target

end

/-! ### Settings with and without a file -/

/-- A settings file holds a map of options and a list of files; what it does not hold is empty. -/
structure Holds (config options : Record) (listed : List Value) : Prop where
  options_eq : config.get? "compilerOptions" = some (.map options) ∨
    config.get? "compilerOptions" = none ∧ options = []
  listed_eq : config.get? "files" = some (.list listed) ∨ config.get? "files" = none ∧ listed = []

variable {config : Record} {listed : List Value}

theorem Holds.optionsOf (h : Holds config options listed) (path : String) :
    optionsOf path config = .ok options := by
  rw [Settings.optionsOf, given?]
  rcases h.options_eq with hmap | ⟨hnone, rfl⟩
  · rw [hmap]
    cases options <;> rfl
  · rw [hnone]
    rfl

theorem Holds.listedFiles (h : Holds config options listed) (baseDir : String) :
    listedFiles baseDir config = .ok (declarationFiles baseDir listed) := by
  rw [Settings.listedFiles, given?]
  rcases h.listed_eq with hlist | ⟨hnone, rfl⟩
  · rw [hlist]
    cases listed <;> rfl
  · rw [hnone]
    rfl

theorem declarationFiles_eq (baseDir : String) (listed : List Value) :
    declarationFiles baseDir listed = ((listed.filterMap Value.text?).filter Module.isDeclaration).map
      fun name => Path.normalize (Path.join baseDir name) := by
  rw [declarationFiles, ← List.filterMap_eq_map, ← List.filterMap_eq_filter, List.filterMap_filterMap,
    List.filterMap_filterMap]
  congr 1
  funext v
  cases v with
  | text s => cases h : Module.isDeclaration s <;> simp [Value.text?, Option.guard, h]
  | _ => rfl

theorem agree_defaults {lineEnd : String} (h : IsEol lineEnd) (target : Value) :
    Agree (defaults lineEnd target) lineEnd :=
  ⟨h, namesCrlf_eolName h⟩

variable {cwd baseDir path : String} {project : Value} {fs : FileSystem}

theorem exists_bytes_of_read (h : read cwd path fs = .ok config) :
    ∃ bytes, fs.read cwd path = .ok bytes := by
  rw [read] at h
  cases hbytes : fs.read cwd path with
  | ok bytes => exact ⟨bytes, rfl⟩
  | error f => rw [hbytes] at h; cases h

theorem result_resolve_of_not_isTaken (hpath : locate baseDir project = .ok path)
    (htaken : fs.isTaken cwd path = .ok false) (hproject : project.isTruthy = false)
    (files : List String) (eol : Option String) (target : Value) :
    (resolve cwd baseDir files eol target project fs).result =
      .ok ⟨files, defaults ((requestedEol? eol).getD defaultEol) target,
        (requestedEol? eol).getD defaultEol, none⟩ := by
  rw [resolve]
  simp only [Action.result_bind_files, Action.result_bind_ofExcept, hpath, htaken, Except.bind,
    Except.mapError, hproject, Bool.false_eq_true, if_false, Action.result_bind_note]
  rfl

/-- The settings of a run are the options of the settings file under what is asked for, and the
declaration files that it lists before the requested ones. Their line end is the one that their newline
option names, with a settings file or without one. -/
theorem resolve_merges (heol : ∀ e, eol = some e → IsEol e) (hpath : locate baseDir project = .ok path)
    (files : List String) (target : Value) (fs : FileSystem) :
    (∀ config options listed, read cwd path fs = .ok config → Holds config options listed →
      ∃ s, (resolve cwd baseDir files eol target project).Ends fs s fs ∧ Merges options eol target s ∧
        s.files = ((listed.filterMap Value.text?).filter Module.isDeclaration).map
          (fun name => Path.normalize (Path.join baseDir name)) ++ files) ∧
    (fs.isTaken cwd path = .ok false → project.isTruthy = false →
      ∃ s, (resolve cwd baseDir files eol target project).Ends fs s fs ∧ Agree s.options s.eol ∧
        s.files = files) := by
  have hfiles := (looks_resolve cwd baseDir files eol target project fs).1
  constructor
  · intro config options listed hread hholds
    have hfree := isFree_of_optionsOf (isFree_of_read hread) (hholds.optionsOf path)
    refine ⟨_, ⟨?_, hfiles⟩, merges_merge heol hfree target
      (declarationFiles baseDir listed ++ files) (some path), by rw [declarationFiles_eq]⟩
    obtain ⟨bytes, hbytes⟩ := exists_bytes_of_read hread
    rw [result_resolve_of_read hpath hbytes, result_resolveFrom, hread]
    simp only [Except.bind, Except.map, hholds.optionsOf, hholds.listedFiles]
  · intro htaken hproject
    have hlineEnd : IsEol (eol.getD defaultEol) := by
      cases eol with
      | none => exact .inl rfl
      | some e => exact heol e rfl
    refine ⟨_, ⟨result_resolve_of_not_isTaken hpath htaken hproject files eol target, hfiles⟩, ?_, rfl⟩
    rw [requestedEol?_eq heol]
    exact agree_defaults hlineEnd target

/-- The content of a settings file without comments and trailing commas. -/
theorem read_of_json {text : String} {bytes : ByteArray} (hbytes : fs.read cwd path = .ok bytes)
    (htext : textOf? bytes = some text)
    (hclean : Json.withoutTrailingCommas (Json.withoutComments text) = text)
    (hread : Json.read text = .ok (.map config)) : read cwd path fs = .ok config := by
  rw [read, hbytes]
  simp only [htext, parse, hclean, hread]

/-- The options of a settings file that names the line end of two characters in capitals. -/
def capitalOptions : Record :=
  [(.text "newLine", .text "CRLF"), (.text "watch", .bool true), (.text "strict", .bool true)]

/-- Options that name a line end in capitals, beside a declaration file and another one. -/
def capitalConfig : Record := [
  (.text "compilerOptions", .map capitalOptions),
  (.text "files", .list [.text "a.d.ts", .text "b.ts"])]

def capitalText : String :=
  "\x7b\"compilerOptions\": \x7b\"newLine\": \"CRLF\", \"watch\": true, \"strict\": true\x7d, " ++
    "\"files\": [\"a.d.ts\", \"b.ts\"]\x7d"

def capitalFiles : FileSystem := ⟨[
  (["p"], .directory), (["p", "tsconfig.json"], .file (Text.encode capitalText))]⟩

theorem read_capitalFiles : read "/p" "/p/tsconfig.json" capitalFiles = .ok capitalConfig := by
  have hplace : capitalFiles.place "/p" "/p/tsconfig.json" = .ok ["p", "tsconfig.json"] := by
    decide +kernel
  have hbytes : capitalFiles.read "/p" "/p/tsconfig.json" = .ok (Text.encode capitalText) := by
    rw [FileSystem.read, hplace]
    rfl
  have htext : textOf? (Text.encode capitalText) = some capitalText := by decide +kernel
  have hclean : Json.withoutTrailingCommas (Json.withoutComments capitalText) = capitalText := by
    decide +kernel
  have hread : Json.read capitalText = .ok (.map capitalConfig) := by cbv
  exact read_of_json hbytes htext hclean hread

theorem locate_capitalFiles : locate "/p" .null = .ok "/p/tsconfig.json" :=
  eq_ok_of_toOption (by decide +kernel)

theorem locate_elsewhere : locate "/q" .null = .ok "/q/tsconfig.json" :=
  eq_ok_of_toOption (by decide +kernel)

theorem isTaken_elsewhere : capitalFiles.isTaken "/p" "/q/tsconfig.json" = .ok false := by
  decide +kernel

theorem resolve_merges_capitalFiles :
    (∃ s, (resolve "/p" "/p" ["/p/m.ts"] none .null .null).Ends capitalFiles s capitalFiles ∧
      Merges capitalOptions none .null s ∧ s.files = ["/p/a.d.ts", "/p/m.ts"]) ∧
    ∃ s, (resolve "/p" "/q" ["/q/m.ts"] (some "\r\n") .null .null).Ends capitalFiles s capitalFiles ∧
      Agree s.options s.eol ∧ s.files = ["/q/m.ts"] := by
  have hholds : Holds capitalConfig capitalOptions [.text "a.d.ts", .text "b.ts"] :=
    ⟨.inl rfl, .inl rfl⟩
  have hnone : ∀ e, (none : Option String) = some e → IsEol e := nofun
  have hasked : ∀ e, some "\r\n" = some e → IsEol e := by
    rintro e ⟨⟩
    exact .inr rfl
  have hlisted : (["a.d.ts", "b.ts"].filter Module.isDeclaration).map
      (fun name => Path.normalize (Path.join "/p" name)) = ["/p/a.d.ts"] := by
    decide +kernel
  constructor
  · obtain ⟨s, hends, hmerges, hfiles⟩ := (resolve_merges hnone locate_capitalFiles ["/p/m.ts"] .null
      capitalFiles).1 _ _ _ read_capitalFiles hholds
    exact ⟨s, hends, hmerges, hfiles.trans (congrArg (· ++ ["/p/m.ts"]) hlisted)⟩
  · exact (resolve_merges hasked locate_elsewhere ["/q/m.ts"] .null capitalFiles).2
      isTaken_elsewhere rfl

end Settings

end DeclBundle
