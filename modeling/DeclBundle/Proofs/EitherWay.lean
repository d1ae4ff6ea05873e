import DeclBundle.CommandLine.Session
import DeclBundle.Proofs.RestatedOptions
import Mathlib

/-!
# Values given either way

The unit of indentation and the line end can be given by a switch of a call and in an options file. For a
call a text stands for another one (`Spacing.StandsFor`): a number for blanks, `tab` for the tab, the name of
a line end for the line end, and other texts for themselves. Taking up words goes together with filling in
a value that they leave open (`Intake.take_mapArguments`), so arguments that give such a text make no other
difference to what is read of a call (`Spacing.read_append`). The options, and with them the bundle, are
those of a file that holds what the text stands for (`Session.loaded_either_way`). A file that holds the text
itself makes other options unless the text stands for itself: a number and `tab` are taken as they stand for
a unit, and the name of a line end is refused.
-/

namespace DeclBundle

namespace CommandLine

/-- What stands before and behind lines. -/
inductive Spacing where
  | indent
  | eol

namespace Spacing

def switch : Spacing → Switch
  | indent => .indent
  | eol => .eol

def key : Spacing → String
  | indent => "indent"
  | eol => "eol"

/-- A unit that is neither made of forms of digits alone nor the name of the tab. -/
def IsLiteral (t : String) : Prop :=
  (t.toList = [] ∨ t.toList.all Text.isDigitForm = false) ∧ t ≠ "tab"

/-- What a text given to the switch stands for: a number in decimal digits of any script for that many
blanks. -/
inductive StandsFor : Spacing → String → String → Prop
  | blanks {t : String} (hne : t.toList ≠ []) (hdigits : t.toList.all Text.isDecimalDigit = true)
      (hlength : t.toList.length ≤ Text.digitLimit)
      (hlt : Text.naturalOf t.toList < Arguments.lengthLimit) :
      StandsFor indent t (String.ofList (List.replicate (Text.naturalOf t.toList) ' '))
  | tab : StandsFor indent "tab" "\t"
  | literal {t : String} (h : IsLiteral t) : StandsFor indent t t
  | lf : StandsFor eol "lf" "\n"
  | crlf : StandsFor eol "crlf" "\r\n"

def of : Spacing → Arguments → Option (Given String)
  | indent, a => a.indent
  | eol, a => a.eol

def fill (l : Spacing) (value : Given String) (a : Arguments) : Arguments :=
  match l with
  | indent => { a with indent := a.indent.or (some value) }
  | eol => { a with eol := a.eol.or (some value) }

/-- What is kept of a text that stands for another one: the name of a line end is looked up later. -/
def kept : Spacing → String → String → String
  | indent, _, u => u
  | eol, t, _ => t

variable {l : Spacing} {t u : String} {given args : List String}

/-! ### Arguments -/

theorem all_isDigitForm_of_all_isDecimalDigit {cs : List Char} (h : cs.all Text.isDecimalDigit = true) :
    cs.all Text.isDigitForm = true :=
  List.all_eq_true.2 fun c hc => by rw [Text.isDigitForm, List.all_eq_true.1 h c hc, Bool.true_or]

/-- A unit that a call accepts stands for something, and no other does. -/
theorem indentOf_eq_ok_iff : Arguments.indentOf t = .ok u ↔ StandsFor indent t u := by
  constructor
  · intro h
    unfold Arguments.indentOf at h
    dsimp only at h
    split at h
    case isTrue hforms =>
      simp only [Bool.and_eq_true, Bool.not_eq_true', List.isEmpty_eq_false_iff] at hforms
      split at h
      case isTrue hdecimal =>
        simp only [Bool.and_eq_true, decide_eq_true_eq] at hdecimal
        split at h
        case isTrue hlt =>
          obtain rfl := Except.ok.inj h
          exact .blanks hforms.1 hdecimal.1 hdecimal.2 hlt
        case isFalse => cases h
      case isFalse => cases h
    case isFalse hforms =>
      simp only [Bool.and_eq_true, Bool.not_eq_true', List.isEmpty_eq_false_iff, not_and,
        Bool.not_eq_true] at hforms
      split at h
      case isTrue htab =>
        obtain rfl := Except.ok.inj h
        exact htab ▸ .tab
      case isFalse htab =>
        obtain rfl := Except.ok.inj h
        exact .literal ⟨(em _).imp_right hforms, htab⟩
  · intro h
    cases h with
    | blanks hne hdigits hlength hlt =>
        simp [Arguments.indentOf, hne, hdigits, all_isDigitForm_of_all_isDecimalDigit hdigits, hlength, hlt]
    | tab =>
        have hletter : Text.isDigitForm 't' = false := by decide
        simp [Arguments.indentOf, hletter]
    | literal h =>
        obtain ⟨hnil | hother, htab⟩ := h
        · simp [Arguments.indentOf, hnil, htab]
        · simp [Arguments.indentOf, hother, htab]

theorem StandsFor.eq_iff_isLiteral (h : StandsFor indent t u) : u = t ↔ IsLiteral t := by
  cases h with
  | blanks hne hdigits _ _ =>
      -- A blank is no digit.
      have hforms := all_isDigitForm_of_all_isDecimalDigit hdigits
      constructor
      · intro heq
        have hlist : t.toList = List.replicate (Text.naturalOf t.toList) ' ' := by
          conv_lhs => rw [← heq, String.toList_ofList]
        obtain ⟨c, hc⟩ := List.exists_mem_of_ne_nil _ hne
        have hblank : c = ' ' := List.eq_of_mem_replicate (hlist ▸ hc)
        have hdigit := List.all_eq_true.1 hforms c hc
        rw [hblank] at hdigit
        exact absurd hdigit (by decide)
      · rintro ⟨hnil | hother, -⟩
        · exact absurd hnil hne
        · exact absurd (hforms.symm.trans hother) nofun
  | tab => exact ⟨fun h => absurd h (by decide), fun h => absurd rfl h.2⟩
  | literal h => exact ⟨fun _ => h, fun _ => rfl⟩

theorem eolOf_of_standsFor (h : StandsFor eol t u) : Arguments.eolOf t = .ok t := by
  cases h <;> rfl

theorem give_of_standsFor (h : l.StandsFor t u) (a : Arguments) (hnone : l.of a = none) :
    a.give (.value t) l.switch = .ok (l.fill (.value (l.kept t u)) a) := by
  cases l with
  | indent =>
      rw [of] at hnone
      simp [switch, Arguments.give, indentOf_eq_ok_iff.2 h, Except.map, fill, kept, hnone]
  | eol =>
      rw [of] at hnone
      simp [switch, Arguments.give, eolOf_of_standsFor h, Except.map, fill, kept, hnone]

/-- A value that a call gives otherwise wins, before and behind a switch. -/
theorem give_fill (l : Spacing) (v value : Given String) (a : Arguments) (s : Switch) :
    (l.fill v a).give value s = (a.give value s).map (l.fill v) := by
  have hmap : ∀ {α : Type} (x : Except Ending α) (f : α → Arguments),
      x.map (fun b => l.fill v (f b)) = (x.map f).map (l.fill v) := fun x f => by cases x <;> rfl
  cases l with
  | indent =>
      cases s with
      | indent | eol | timeout => simp only [Arguments.give, ← hmap, fill, Option.some_or]
      | _ => rfl
  | eol =>
      cases s with
      | indent | eol | timeout => simp only [Arguments.give, ← hmap, fill, Option.some_or]
      | _ => rfl

end Spacing

namespace Intake

def mapArguments (f : Arguments → Arguments) (t : Intake) : Intake :=
  { t with arguments := f t.arguments }

variable {f : Arguments → Arguments}

theorem plain_mapArguments (t : Intake) (text : String) :
    (t.mapArguments f).plain text = (t.plain text).mapArguments f := by
  obtain ⟨a, entries, left⟩ := t
  cases entries <;> rfl

theorem marker_mapArguments (t : Intake) : (t.mapArguments f).marker = t.marker.mapArguments f := by
  obtain ⟨a, entries, left⟩ := t
  cases entries <;> rfl

theorem give_mapArguments (hf : ∀ a value s, (f a).give value s = (a.give value s).map f) (t : Intake)
    (s : Switch) (value : Given String) :
    (t.mapArguments f).give s value = (t.give s value).map (mapArguments f) := by
  rw [give, give, mapArguments, hf]
  cases t.arguments.give value s <;> rfl

theorem take_mapArguments (hf : ∀ a value s, (f a).give value s = (a.give value s).map f) (t : Intake)
    (ws : List Word) : (t.mapArguments f).take ws = (t.take ws).map (mapArguments f) := by
  -- What a word is taken for does not depend on the values, so both sides go through the same cases.
  induction t, ws using take.induct with
  | case1 t => rfl
  | case2 t text ws ih => rw [take, take, plain_mapArguments, ih]
  | case3 t ws ih => rw [take, take, marker_mapArguments, ih]
  | case4 t text ws ih => exact ih
  | case5 t v text ws => rfl
  | case6 t v ws hplain =>
      rw [take.eq_6 _ _ _ hplain, take.eq_6 _ _ _ hplain]
      rfl
  | case7 t s v ws hplain hs ih =>
      rw [take.eq_7 _ _ _ _ hplain hs, take.eq_7 _ _ _ _ hplain hs, give_mapArguments hf]
      cases t.give s (Arguments.ofAttached v) with
      | error e => rfl
      | ok t => exact ih t
  | case8 t s text ws hs ih =>
      rw [take.eq_8 _ _ _ _ hs, take.eq_8 _ _ _ _ hs, give_mapArguments hf]
      cases t.give s (.value text) with
      | error e => rfl
      | ok t => exact ih t
  | case9 t s ws hplain hs hnone =>
      rw [take.eq_9 _ _ _ hplain hs hnone, take.eq_9 _ _ _ hplain hs hnone]
      rfl

end Intake

/-- Arguments without a marker are looked at apart from those behind them. -/
theorem Word.ofArguments_append {given : List String} {ws : List Word} (h : ofArguments given = .ok ws)
    (hmarker : marker ∉ ws) (args : List String) :
    ofArguments (given ++ args) = (ofArguments args).map (ws ++ ·) := by
  induction given generalizing ws with
  | nil =>
      obtain rfl := Except.ok.inj h
      rw [List.nil_append]
      cases ofArguments args <;> rfl
  | cons x given ih =>
      rw [List.cons_append, ofArguments]
      rw [ofArguments] at h
      split at h
      case isTrue =>
        obtain rfl := Except.ok.inj h
        exact absurd List.mem_cons_self hmarker
      case isFalse hx =>
        rw [if_neg hx]
        cases hword : ofArgument x with
        | error m => rw [hword] at h; cases h
        | ok w =>
        cases hwords : ofArguments given with
        | error m => rw [hword, hwords] at h; cases h
        | ok ws' =>
        rw [hword, hwords] at h
        obtain rfl := Except.ok.inj h
        rw [ih hwords fun hmem => hmarker (List.mem_cons_of_mem w hmem)]
        cases ofArguments args <;> rfl

namespace Spacing

variable {l : Spacing} {t u : String} {given : List String}

/-- Arguments give a text by a switch, in one argument or in two. -/
inductive Gives (l : Spacing) (t : String) (given : List String) : Prop
  | attached {v : Attached} (h : Word.ofArguments given = .ok [.switch l.switch (some v)])
      (htext : Arguments.attachedText v = t) (hmarker : t ≠ Word.markerText)
  | behind (h : Word.ofArguments given = .ok [.switch l.switch none, .plain t])

theorem gives_marked (l : Spacing) (hmarker : t ≠ Word.markerText) :
    l.Gives t ["--" ++ l.key ++ "=" ++ t] := by
  have hlist : ("--" ++ l.key ++ "=" ++ t).toList = '-' :: '-' :: (l.key.toList ++ '=' :: t.toList) := by
    simp
  generalize "--" ++ l.key ++ "=" ++ t = x at hlist ⊢
  have hne : x ≠ Word.markerText := by
    rintro rfl
    cases l <;> cases hlist
  have hspelling : Switch.ofSpelling? x = none := by
    have hsign : ∀ e ∈ Switch.spellings, '=' ∉ e.1.toList := by decide
    refine List.lookup_eq_none_iff.2 fun e he => bne_iff_ne.2 ?_
    rintro rfl
    exact hsign e he (by simp [hlist])
  have hsplit : Word.splitValue ('-' :: '-' :: (l.key.toList ++ '=' :: t.toList)) =
      ("--" ++ l.key, some t) := by
    cases l <;> simp [Word.splitValue, key]
  have hswitch : Switch.ofSpelling? ("--" ++ l.key) = some l.switch := by cases l <;> decide
  have hword : Word.ofArgument x = .ok (.switch l.switch (some (.marked t))) := by
    rw [Word.ofArgument, hlist]
    simp only [Word.ofDashed, hlist, hsplit, hspelling, hswitch, Word.attach, if_pos]
  refine .attached (v := .marked t) ?_ rfl hmarker
  rw [Word.ofArguments, if_neg hne, hword]
  rfl

theorem take_of_gives (hgives : l.Gives t given) (hstands : l.StandsFor t u) :
    ∃ ws, Word.ofArguments given = .ok ws ∧ Word.marker ∉ ws ∧ ∀ rest,
      Intake.start.take (ws ++ rest) =
        (Intake.start.mapArguments (l.fill (.value (l.kept t u)))).take rest := by
  have hgive : Intake.start.give l.switch (.value t) =
      .ok (Intake.start.mapArguments (l.fill (.value (l.kept t u)))) := by
    rw [Intake.give, Intake.start, give_of_standsFor hstands _ (by cases l <;> rfl)]
    rfl
  have hhelp : l.switch ≠ .help := by cases l <;> decide
  cases hgives with
  | attached h htext hmarker =>
      refine ⟨_, h, by simp, fun rest => ?_⟩
      rw [List.singleton_append, Intake.take.eq_7 _ _ _ _ (fun _ _ _ => hhelp) hhelp,
        Arguments.ofAttached, htext, if_neg hmarker, hgive]
      rfl
  | behind h =>
      refine ⟨_, h, by simp, fun rest => ?_⟩
      rw [List.cons_append, List.singleton_append, Intake.take.eq_8 _ _ _ _ hhelp, hgive]
      rfl

/-- Arguments that give a text by a switch, put before others, fill it in unless the others give one. -/
theorem read_append (hgives : l.Gives t given) (hstands : l.StandsFor t u) (args : List String) :
    Arguments.read (given ++ args) =
      (Arguments.read args).map (l.fill (.value (l.kept t u))) := by
  obtain ⟨ws, hgiven, hmarker, htake⟩ := take_of_gives hgives hstands
  rw [Arguments.read, Word.ofArguments_append hgiven hmarker, Arguments.read]
  cases Word.ofArguments args with
  | error m => rfl
  | ok rest =>
      simp only [Except.map, Arguments.ofWords, htake,
        Intake.take_mapArguments (fun a value s => l.give_fill _ value a s)]
      cases Intake.start.take rest with
      | error e => rfl
      | ok t =>
          obtain ⟨a, entries, left⟩ := t
          cases left with
          | nil => cases l <;> rfl
          | cons text left => rfl

end Spacing

/-! ### Options -/

theorem Arguments.areOverrides_of_overrides {a : Arguments} {overrides : Record}
    (h : a.overrides = .ok overrides) : Options.AreOverrides overrides := by
  rw [Arguments.overrides] at h
  cases heol : lineEndOf a.eol with
  | error e => rw [heol] at h; cases h
  | ok eol =>
      rw [heol] at h
      have hkeys : Record.keys overrides = ["base_dir", "name", "out", "main", "files", "excludes",
          "externs", "eol", "indent", "target", "tsc", "timeout", "project"].map .text := by
        rw [← Except.ok.inj h]
        rfl
      have hisKey : ∀ k ∈ Record.keys overrides, Options.isKey k = true := by
        rw [hkeys, List.forall_mem_map]
        decide
      refine ⟨Options.distinct_of_nodup_keys (List.forall_mem_map.1 hisKey) ?_,
        List.forall_mem_map.1 hisKey⟩
      rw [hkeys]
      exact List.Nodup.map (fun s t h => Value.text.inj h) (by decide)

namespace Spacing

open Options (given? isNull)

variable {l : Spacing} {t u : String} {a : Arguments} {overrides : Record}

theorem lineEndOf_of_standsFor (h : StandsFor eol t u) :
    Arguments.lineEndOf (some (.value t)) = .ok (.text u) := by
  cases h <;> rfl

/-- A text that is filled in is given for its option as what it stands for. -/
theorem overrides_fill (hstands : l.StandsFor t u) (hnone : l.of a = none)
    (h : a.overrides = .ok overrides) :
    given? overrides l.key = none ∧
      ∃ filled, (l.fill (.value (l.kept t u)) a).overrides = .ok filled ∧
        ∀ key ∈ Options.keys, given? filled key =
          if key = l.key then some (.text u) else given? overrides key := by
  rw [Arguments.overrides] at h
  cases l with
  | indent =>
      cases heol : Arguments.lineEndOf a.eol with
      | error e => rw [heol] at h; cases h
      | ok eol =>
      rw [heol] at h
      obtain rfl := Except.ok.inj h
      have hindent : a.indent = none := hnone
      refine ⟨?_, _, by rw [Arguments.overrides, fill, heol]; rfl, ?_⟩
      · simp [key, given?, Record.get?, hindent, isNull]
      · simp [key, Options.keys, given?, Record.get?, kept, hindent, isNull]
  | eol =>
      have heol : a.eol = none := hnone
      rw [heol] at h
      obtain rfl := Except.ok.inj h
      have hend : (fill .eol (.value (kept .eol t u)) a).eol = some (.value t) := by
        rw [fill, heol]
        rfl
      refine ⟨?_, _, by rw [Arguments.overrides, hend, lineEndOf_of_standsFor hstands]; rfl, ?_⟩
      · simp [key, given?, Record.get?, isNull]
      · simp [key, Options.keys, given?, Record.get?, fill, isNull]

theorem overrides_fill_of_error {e : Failure} (hnone : l.of a = none) (h : a.overrides = .error e)
    (value : Given String) : (l.fill value a).overrides = .error e := by
  rw [Arguments.overrides] at h
  cases l with
  | indent =>
      cases heol : Arguments.lineEndOf a.eol with
      | ok eol => rw [heol] at h; cases h
      | error e' =>
          rw [heol] at h
          rw [Arguments.overrides, fill, heol]
          exact h
  | eol =>
      have heol : a.eol = none := hnone
      rw [heol] at h
      cases h

end Spacing

end CommandLine

namespace Options

/-- A record says something of an option, and of all others what another record says. -/
def SaysInstead (key : String) (v : Value) (es es' : Record) : Prop :=
  ∀ k ∈ keys, spelt? es' k = if k = key then some v else spelt? es k

variable {site : Site} {file file' directory key t : String} {v : Value}
  {es es' overrides filled : Record} {fs fs' : FileSystem} {o : Options}

theorem saysInstead_append (hkey : canonical (.text key) = .text key) (v : Value) (es : Record) :
    SaysInstead key v es (es ++ [(.text key, v)]) := by
  intro k _
  rw [spelt?, List.map_append, List.map_singleton, Record.last?_append_singleton, hkey,
    Value.isSameKey_text, ← spelt?]
  by_cases hk : k = key
  · simp [hk]
  · rw [if_neg hk, if_neg (by simpa using Ne.symm hk)]

/-- What a file says of an option counts if nothing else is given for it. -/
theorem chosen?_of_saysInstead (h : SaysInstead key v es es') (hpath : key ∉ pathKeys)
    (hnone : given? overrides key = none) (directory : String) :
    ∀ k ∈ keys, chosen? directory es' overrides k =
      if k = key then some v else chosen? directory es overrides k := by
  intro k hk
  rw [chosen?, h k hk]
  by_cases hkey : k = key
  · subst hkey
    rw [if_pos rfl, if_pos rfl, hnone, Option.none_or, Option.map_some, placed, if_neg hpath]
  · rw [if_neg hkey, if_neg hkey, chosen?]

theorem chosen?_of_given
    (h : ∀ k ∈ keys, given? filled k = if k = key then some v else given? overrides k)
    (directory : String) (es : Record) :
    ∀ k ∈ keys, chosen? directory es filled k =
      if k = key then some v else chosen? directory es overrides k := by
  intro k hk
  rw [chosen?, h k hk]
  split
  · rfl
  · rw [chosen?]

theorem result_load_congr (hread : readValue site (Path.tidy file) fs = .ok (.map es))
    (hread' : readValue site (Path.tidy file') fs' = .ok (.map es')) (h : AreOverrides overrides)
    (h' : AreOverrides filled)
    (heq : ∀ k ∈ keys, chosen? (Path.parent (Path.tidy file)) es overrides k =
      chosen? (Path.parent (Path.tidy file')) es' filled k) :
    (load site (some file) overrides fs).result = (load site (some file') filled fs').result := by
  rw [result_load_eq hread h, result_load_eq hread' h', ofNormalized_congr fun k hk => ?_]
  rw [get?_combined _ hk, get?_combined _ hk, heq k hk]

/-- Nothing but the line end is wrong with options that were in order before they had it. -/
theorem problem?_badEol (h : o.problem? = none) (hnull : isNull v = false) (heol : isEol v = false) :
    ({ o with eol := v } : Options).problem? = some (.badEol v) := by
  unfold problem? at h ⊢
  dsimp only at h ⊢
  split at h
  case h_1 => cases h
  case h_2 hrequired =>
    split at h
    case h_1 => cases h
    case h_2 hlists => simp [hnull, heol]

/-- Values with another line end are those of the same options with that line end. -/
theorem Yields.withEol {value? value?' : String → Option Value} (h : Yields value? o)
    (heq : ∀ k ∈ keys, value?' k = if k = "eol" then some v else value? k) :
    Yields value?' { o with eol := v } := by
  have hwith : Yields (fun k => if k = "eol" then some v else value? k) { o with eol := v } :=
    ⟨h.baseDir, h.name, h.out, h.files, h.excludes, h.externs, rfl, h.indent, h.main, h.target, h.tsc,
      h.project, h.timeout⟩
  exact hwith.congr fun k hk => (heq k hk).symm

theorem ofNormalized_withIndent {r r' : Record} (hindent : Record.get? r' "indent" = some (.text t))
    (h : ∀ k ∈ keys, k ≠ "indent" → Record.get? r' k = Record.get? r k) :
    ofNormalized r' = (ofNormalized r).map fun o => { o with indent := .text t } := by
  simp only [keys, List.forall_mem_cons, List.not_mem_nil, IsEmpty.forall_iff, implies_true,
    and_true] at h
  simp only [ofNormalized, valueOf, requiredOf, hindent, h, ne_eq, String.reduceEq, not_false_eq_true]
  cases listOf ((Record.get? r "files").getD .null) <;>
    cases listOf ((Record.get? r "excludes").getD .null) <;>
    cases listOf ((Record.get? r "externs").getD .null) <;> rfl

theorem validate_withIndent (o : Options) (v : Value) :
    ({ o with indent := v } : Options).validate = o.validate.map fun o => { o with indent := v } := by
  have hproblem : ({ o with indent := v } : Options).problem? = o.problem? := rfl
  rw [validate, validate, hproblem]
  cases o.problem? <;> rfl

/-- Of two files that differ in the unit, one makes the options of the other with its own unit. -/
theorem result_load_withIndent (hread : readValue site (Path.tidy file) fs = .ok (.map es))
    (hread' : readValue site (Path.tidy file') fs' = .ok (.map es')) (h : AreOverrides overrides)
    (h' : AreOverrides filled)
    (heq : ∀ k ∈ keys, chosen? (Path.parent (Path.tidy file')) es' filled k =
      if k = "indent" then some (.text t)
      else chosen? (Path.parent (Path.tidy file)) es overrides k) :
    (load site (some file') filled fs').result =
      (load site (some file) overrides fs).result.map fun o => { o with indent := .text t } := by
  have hother : ∀ k ∈ keys, k ≠ "indent" →
      Record.get? (combined (chosen? (Path.parent (Path.tidy file')) es' filled)) k =
        Record.get? (combined (chosen? (Path.parent (Path.tidy file)) es overrides)) k := by
    intro k hk hne
    rw [get?_combined _ hk, get?_combined _ hk, heq k hk, if_neg hne]
  have hindent : Record.get? (combined (chosen? (Path.parent (Path.tidy file')) es' filled)) "indent" =
      some (.text t) := by
    rw [get?_combined _ (by decide), heq _ (by decide), if_pos rfl]
  rw [result_load_eq hread h, result_load_eq hread' h', ofNormalized_withIndent hindent hother]
  cases ofNormalized (combined (chosen? (Path.parent (Path.tidy file)) es overrides)) with
  | error e => rfl
  | ok o => exact validate_withIndent o (.text t)

/-- Options that are in order with one line end are refused with a value that is none, and nothing else
makes options of them. -/
theorem result_load_of_badEol (hread : readValue site (Path.tidy file) fs = .ok (.map es))
    (hread' : readValue site (Path.tidy file') fs' = .ok (.map es')) (h : AreOverrides overrides)
    (h' : AreOverrides filled)
    (heq : ∀ k ∈ keys, chosen? (Path.parent (Path.tidy file')) es' filled k =
      if k = "eol" then some v else chosen? (Path.parent (Path.tidy file)) es overrides k)
    (hnull : isNull v = false) (heol : isEol v = false) :
    (∀ o, (load site (some file') filled fs').result ≠ .ok o) ∧
      ∀ o, (load site (some file) overrides fs).result = .ok o →
        (load site (some file') filled fs').result = .error (.configuration (.badEol v)) := by
  rw [result_load_eq hread h, result_load_eq hread' h']
  have hyields {value? : String → Option Value} {o : Options} (h : Yields value? o) :
      ofNormalized (combined value?) = .ok o :=
    ofNormalized_eq_ok_iff.2 (h.congr fun k hk => (get?_combined value? hk).symm)
  refine ⟨fun o ho => ?_, fun o ho => ?_⟩
  · obtain ⟨hy, hproblem⟩ := validated_combined_eq_ok_iff.1 ho
    have hv : o.eol = v := by rw [hy.eol, heq "eol" (by decide)]; rfl
    have hbad := problem?_badEol hproblem hnull heol
    rw [← hv] at hbad
    exact absurd (hbad.symm.trans hproblem) nofun
  · obtain ⟨hy, hproblem⟩ := validated_combined_eq_ok_iff.1 ho
    rw [hyields (hy.withEol heq), Except.bind, validate, problem?_badEol hproblem hnull heol]

theorem looks_load (site : Site) (file : Option String) (overrides : Record) :
    (load site file overrides).Looks := by
  have hrecord : ∀ r, (ofRecord r).Looks := fun r =>
    (Action.Looks.forM (fun k => Action.looks_note _ _) _).bind fun _ => Action.looks_ofExcept _
  have hfile : ∀ f, (loadRecord site f).Looks := by
    refine fun f => Action.looks_files.bind fun fs => (Action.looks_ofExcept _).bind fun v => ?_
    split
    · exact (Action.looks_note _ _).bind fun _ => Action.looks_pure _
    · exact Action.looks_fail _
  cases file with
  | none => exact (Action.looks_pure _).bind fun r => (hrecord _).bind fun _ => Action.looks_ofExcept _
  | some f => exact (hfile f).bind fun r => (hrecord _).bind fun _ => Action.looks_ofExcept _

end Options

namespace CommandLine.Session

open Options (readValue SaysInstead)

variable {site : Site} {file file' : String} {fs fs' : FileSystem} {es : Record}

/-- The options that the values of a call and a file make. -/
def loaded (site : Site) (file : String) (a : Arguments) (fs : FileSystem) : Except Failure Options :=
  a.overrides.bind fun overrides => (Options.load site (some file) overrides fs).result

/-- Bundles with the options that the values of a call and a file make. -/
def bundled (site : Site) (file : String) (a : Arguments) : Action Options := do
  let overrides ← Action.ofExcept a.overrides
  bundle site (some file) overrides

def bundledWith (site : Site) (o : Options) : Action Options := do
  Action.note .debug ("Options: " ++ (Value.map o.toRecord).display)
  Action.tell (.progress Progress.compilingMessage)
  let b ← Action.ofExcept (Bundler.ofOptions site.cwd o)
  b.run site
  pure o

/-- What becomes of a bundle depends on the call and the file only by the options. -/
theorem bundled_eq (site : Site) (file : String) (a : Arguments) (fs : FileSystem) :
    (bundled site file a fs).result =
        (loaded site file a fs).bind (fun o => (bundledWith site o fs).result) ∧
      (bundled site file a fs).files =
        match loaded site file a fs with
        | .error _ => fs
        | .ok o => (bundledWith site o fs).files := by
  have hbundle : ∀ overrides, bundle site (some file) overrides =
      Options.load site (some file) overrides >>= bundledWith site := fun _ => rfl
  cases h : a.overrides with
  | error e =>
      rw [bundled, Action.bind_of_error (x := Action.ofExcept a.overrides) h, loaded, h]
      exact ⟨rfl, rfl⟩
  | ok overrides =>
      have hfiles := (Options.looks_load site (some file) overrides fs).1
      rw [bundled, Action.bind_of_ok (x := Action.ofExcept a.overrides) h, loaded, h]
      simp only [Action.ofExcept, hbundle, Action.bind_apply, hfiles, Except.bind]
      cases (Options.load site (some file) overrides fs).result with
      | error e => exact ⟨rfl, rfl⟩
      | ok o => exact ⟨rfl, rfl⟩

theorem bundled_congr {a b : Arguments} (h : loaded site file b fs = loaded site file' a fs) :
    (bundled site file b fs).result = (bundled site file' a fs).result ∧
      (bundled site file b fs).files = (bundled site file' a fs).files := by
  obtain ⟨hresult, hfiles⟩ := bundled_eq site file b fs
  obtain ⟨hresult', hfiles'⟩ := bundled_eq site file' a fs
  rw [h] at hresult hfiles
  exact ⟨hresult.trans hresult'.symm, hfiles.trans hfiles'.symm⟩

/-- Another options file in the same directory has a text under the key, and for the rest what a file has. -/
structure Writes (site : Site) (l : Spacing) (v file : String) (es : Record) (file' : String)
    (fs' : FileSystem) : Prop where
  sameParent : Path.parent (Path.tidy file') = Path.parent (Path.tidy file)
  reads : ∃ es', readValue site (Path.tidy file') fs' = .ok (.map es') ∧
    SaysInstead l.key (.text v) es es'

section Given

variable {l : Spacing} {t u v : String} {a : Arguments} {overrides filled : Record}

theorem loaded_of_overrides (h : a.overrides = .ok overrides) (site : Site) (file : String)
    (fs : FileSystem) :
    loaded site file a fs = (Options.load site (some file) overrides fs).result := by
  rw [loaded, h, Except.bind]

theorem loaded_of_overrides_error {e : Failure} (h : a.overrides = .error e) (site : Site) (file : String)
    (fs : FileSystem) : loaded site file a fs = .error e := by
  rw [loaded, h, Except.bind]

/-- Each option is of a call and a file that has a text under the key what it is of the filled call and the
other file, but for the one with that text. -/
theorem Writes.exists_chosen? (h : Writes site l v file es file' fs')
    (habsent : Options.given? overrides l.key = none)
    (hgiven : ∀ k ∈ Options.keys, Options.given? filled k =
      if k = l.key then some (.text u) else Options.given? overrides k) :
    ∃ es', readValue site (Path.tidy file') fs' = .ok (.map es') ∧ ∀ k ∈ Options.keys,
      Options.chosen? (Path.parent (Path.tidy file')) es' overrides k =
        if k = l.key then some (.text v)
        else Options.chosen? (Path.parent (Path.tidy file)) es filled k := by
  have hpath : l.key ∉ Options.pathKeys := by cases l <;> decide
  obtain ⟨hdir, es', hread', hinstead⟩ := h
  refine ⟨es', hread', fun k hk => ?_⟩
  rw [hdir, Options.chosen?_of_saysInstead hinstead hpath habsent _ k hk]
  split
  · rfl
  · next hne => rw [Options.chosen?_of_given hgiven _ _ k hk, if_neg hne]

theorem chosen?_filled (hgiven : ∀ k ∈ Options.keys, Options.given? filled k =
      if k = l.key then some (.text u) else Options.given? overrides k) (directory : String) (es : Record) :
    Options.chosen? directory es filled l.key = some (.text u) := by
  rw [Options.chosen?_of_given hgiven _ _ _ (by cases l <;> decide), if_pos rfl]

/-- The unit of a call is the one that is filled in. -/
theorem indent_of_loaded {o : Options} (hstands : Spacing.indent.StandsFor t u) (hnone : a.indent = none)
    (hread : readValue site (Path.tidy file) fs = .ok (.map es))
    (ho : loaded site file (Spacing.indent.fill (.value (Spacing.indent.kept t u)) a) fs = .ok o) :
    o.indent = .text u := by
  cases h : a.overrides with
  | error e =>
      rw [loaded_of_overrides_error (Spacing.overrides_fill_of_error (l := .indent) hnone h _)] at ho
      cases ho
  | ok overrides =>
      obtain ⟨-, filled, hfilled, hgiven⟩ := Spacing.overrides_fill hstands hnone h
      rw [loaded_of_overrides hfilled,
        Options.result_load_eq hread (Arguments.areOverrides_of_overrides hfilled),
        Options.validated_combined_eq_ok_iff] at ho
      rw [ho.1.indent]
      exact chosen?_filled hgiven _ _ ▸ rfl

/-- What a text stands for, written in a file, counts as the text that a call gives. -/
theorem Writes.loaded_eq (h : Writes site l u file es file' fs') (hstands : l.StandsFor t u)
    (hnone : l.of a = none) (hread : readValue site (Path.tidy file) fs = .ok (.map es)) :
    loaded site file' a fs' = loaded site file (l.fill (.value (l.kept t u)) a) fs := by
  cases hmade : a.overrides with
  | error e =>
      rw [loaded_of_overrides_error hmade,
        loaded_of_overrides_error (Spacing.overrides_fill_of_error hnone hmade _)]
  | ok overrides =>
      obtain ⟨habsent, filled, hfilled, hgiven⟩ := Spacing.overrides_fill hstands hnone hmade
      obtain ⟨es', hread', heq⟩ := h.exists_chosen? habsent hgiven
      rw [loaded_of_overrides hmade, loaded_of_overrides hfilled]
      refine Options.result_load_congr hread' hread (Arguments.areOverrides_of_overrides hmade)
        (Arguments.areOverrides_of_overrides hfilled) fun k hk => ?_
      rw [heq k hk]
      split
      · next hk => rw [hk, chosen?_filled hgiven]
      · rfl

/-- A text that is written in a file as a unit stands for itself. -/
theorem Writes.loaded_indent (h : Writes site .indent v file es file' fs')
    (hstands : Spacing.indent.StandsFor t u) (hnone : a.indent = none)
    (hread : readValue site (Path.tidy file) fs = .ok (.map es)) :
    loaded site file' a fs' =
      (loaded site file (Spacing.indent.fill (.value (Spacing.indent.kept t u)) a) fs).map
        fun o => { o with indent := .text v } := by
  cases hmade : a.overrides with
  | error e =>
      rw [loaded_of_overrides_error hmade,
        loaded_of_overrides_error (Spacing.overrides_fill_of_error (l := .indent) hnone hmade _)]
      rfl
  | ok overrides =>
      obtain ⟨habsent, filled, hfilled, hgiven⟩ := Spacing.overrides_fill hstands hnone hmade
      obtain ⟨es', hread', heq⟩ := h.exists_chosen? habsent hgiven
      rw [loaded_of_overrides hmade, loaded_of_overrides hfilled]
      exact Options.result_load_withIndent hread hread' (Arguments.areOverrides_of_overrides hfilled)
        (Arguments.areOverrides_of_overrides hmade) heq

/-- A file is refused for the name of a line end. -/
theorem Writes.refused (h : Writes site .eol t file es file' fs') (hstands : Spacing.eol.StandsFor t u)
    (hnone : a.eol = none) (hread : readValue site (Path.tidy file) fs = .ok (.map es)) :
    (∀ o, loaded site file' a fs' ≠ .ok o) ∧
      ∀ o, loaded site file (Spacing.eol.fill (.value (Spacing.eol.kept t u)) a) fs = .ok o →
        loaded site file' a fs' = .error (.configuration (.badEol (.text t))) := by
  obtain ⟨overrides, hmade⟩ : ∃ overrides, a.overrides = .ok overrides :=
    ⟨_, by rw [Arguments.overrides, hnone]; rfl⟩
  obtain ⟨habsent, filled, hfilled, hgiven⟩ := Spacing.overrides_fill hstands hnone hmade
  obtain ⟨es', hread', heq⟩ := h.exists_chosen? habsent hgiven
  have hname : Options.isEol (.text t) = false := by cases hstands <;> rfl
  simp only [loaded_of_overrides hmade, loaded_of_overrides hfilled]
  exact Options.result_load_of_badEol hread hread' (Arguments.areOverrides_of_overrides hfilled)
    (Arguments.areOverrides_of_overrides hmade) heq rfl hname

end Given

/-- A text given by a switch and what it stands for, written in a file, make the same options, and so the
same bundle. The text itself, written in a file as a unit, makes the options with that unit, which are the
same only if it is a literal one; for the name of a line end a file is refused. -/
theorem loaded_either_way {l : Spacing} {t u : String} {given args : List String} {a : Arguments}
    (hgives : l.Gives t given) (hstands : l.StandsFor t u) (hargs : Arguments.read args = .ok a)
    (hnone : l.of a = none) (hread : readValue site (Path.tidy file) fs = .ok (.map es)) :
    ∃ b, Arguments.read (given ++ args) = .ok b ∧
      (∀ file' fs', Writes site l u file es file' fs' →
        loaded site file' a fs' = loaded site file b fs ∧
          (fs' = fs → (bundled site file' a fs).result = (bundled site file b fs).result ∧
            (bundled site file' a fs).files = (bundled site file b fs).files)) ∧
      (l = .indent → ∀ file' fs', Writes site l t file es file' fs' →
        loaded site file' a fs' =
            (loaded site file b fs).map (fun o => { o with indent := .text t }) ∧
          ∀ o, loaded site file b fs = .ok o → o.indent = .text u ∧
            (loaded site file' a fs' = .ok o ↔ Spacing.IsLiteral t)) ∧
      (l = .eol → ∀ file' fs', Writes site l t file es file' fs' →
        (∀ o, loaded site file' a fs' ≠ .ok o) ∧
          ∀ o, loaded site file b fs = .ok o →
            loaded site file' a fs' = .error (.configuration (.badEol (.text t)))) := by
  refine ⟨_, by rw [Spacing.read_append hgives hstands, hargs]; rfl, fun file' fs' hwrites => ?_, ?_, ?_⟩
  · have hsame := hwrites.loaded_eq hstands hnone hread
    refine ⟨hsame, ?_⟩
    rintro rfl
    exact bundled_congr hsame
  · rintro rfl file' fs' hwrites
    have hmap := hwrites.loaded_indent hstands hnone hread
    refine ⟨hmap, fun o ho => ?_⟩
    have hunit := indent_of_loaded hstands hnone hread ho
    refine ⟨hunit, ?_⟩
    rw [hmap, ho, Except.map, Except.ok.injEq, ← hstands.eq_iff_isLiteral]
    constructor
    · intro heq
      rw [← heq] at hunit
      exact (Value.text.inj hunit).symm
    · rintro rfl
      rw [← hunit]
  · rintro rfl file' fs' hwrites
    exact hwrites.refused hstands hnone hread

/-- Options files without anything, with four blanks, with the name of the tab, and with that of a line
end. -/
def spacingFiles : FileSystem := ⟨[
  (["p"], .directory), (["p", "o.json"], .file (Text.encode "\x7b\x7d")),
  (["p", "blanks.json"], .file (Text.encode "\x7b\"indent\": \"    \"\x7d")),
  (["p", "tab.json"], .file (Text.encode "\x7b\"indent\": \"tab\"\x7d")),
  (["p", "named.json"], .file (Text.encode "\x7b\"eol\": \"lf\"\x7d"))]⟩

def spacingArguments : List String := ["--base-dir", "b", "--name", "n", "--out", "o"]

def spacingCall : Arguments :=
  { Arguments.none with
    baseDir := some (.value "b")
    name := some (.value "n")
    out := some (.value "o") }

def spacingOptions (indent : String) : Options where
  baseDir := .text "b"
  name := .text "n"
  out := .text "o"
  files := []
  excludes := []
  externs := []
  eol := .null
  indent := .text indent
  main := .null
  target := .null
  tsc := .null
  project := .null
  timeout := .null

theorem spacingFiles_spec :
    readValue Bundler.twoScriptsSite (Path.tidy "o.json") spacingFiles = .ok (.map []) ∧
    readValue Bundler.twoScriptsSite (Path.tidy "blanks.json") spacingFiles =
      .ok (.map [(.text "indent", .text "    ")]) ∧
    readValue Bundler.twoScriptsSite (Path.tidy "tab.json") spacingFiles =
      .ok (.map [(.text "indent", .text "tab")]) ∧
    readValue Bundler.twoScriptsSite (Path.tidy "named.json") spacingFiles =
      .ok (.map [(.text "eol", .text "lf")]) ∧
    ∀ name ∈ ["blanks.json", "tab.json", "named.json"],
      Path.parent (Path.tidy name) = Path.parent (Path.tidy "o.json") := by
  have hread : ∀ {name text : String} {es : Record},
      spacingFiles.place "/p" (Path.tidy name) = .ok ["p", name] →
      spacingFiles.get? ["p", name] = some (.file (Text.encode text)) →
      Options.isYaml (Path.tidy name) = false →
      String.ofList (Text.unifyLineEnds text.toList) = text → Json.read text = .ok (.map es) →
      readValue Bundler.twoScriptsSite (Path.tidy name) spacingFiles = .ok (.map es) :=
    fun hplace hfile hyaml hends hjson => Options.readValue_of_json hplace hfile hyaml hends hjson
  exact ⟨hread (by decide +kernel) rfl (by decide +kernel) (by decide) (by cbv),
    hread (by decide +kernel) rfl (by decide +kernel) (by decide) (by cbv),
    hread (by decide +kernel) rfl (by decide +kernel) (by decide) (by cbv),
    hread (by decide +kernel) rfl (by decide +kernel) (by decide) (by cbv), by decide +kernel⟩

theorem read_spacingArguments : Arguments.read spacingArguments = .ok spacingCall := rfl

/-- What the call makes of the files with a unit, and of the bare one with a tab. -/
theorem loaded_spacingCall :
    loaded Bundler.twoScriptsSite "blanks.json" spacingCall spacingFiles =
        .ok (spacingOptions "    ") ∧
      loaded Bundler.twoScriptsSite "tab.json" spacingCall spacingFiles = .ok (spacingOptions "tab") ∧
      loaded Bundler.twoScriptsSite "o.json" { spacingCall with indent := some (.value "\t") }
        spacingFiles = .ok (spacingOptions "\t") := by
  obtain ⟨hbare, hblanks, htab, -⟩ := spacingFiles_spec
  have hloaded : ∀ {file : String} {a : Arguments} {es overrides : Record}
      {x : Except Failure Options}, a.overrides = .ok overrides →
      readValue Bundler.twoScriptsSite (Path.tidy file) spacingFiles = .ok (.map es) →
      (∀ directory, (Options.ofNormalized (Options.normalized (Options.overridden
        (Options.resolved directory es) overrides))).bind Options.validate = x) →
      loaded Bundler.twoScriptsSite file a spacingFiles = x := by
    intro file a es overrides x hoverrides hread hx
    rw [loaded, hoverrides]
    exact (Options.result_load_of_read hread overrides).trans (hx _)
  refine ⟨hloaded rfl hblanks ?_, hloaded rfl htab ?_, hloaded rfl hbare ?_⟩
  · intro directory
    cbv
  · intro directory
    cbv
  · intro directory
    cbv

/-- The name of the tab stands for a tab in a call and for itself in a file. -/
theorem not_loaded_either_way_tab :
    ∃ b, Arguments.read ("--indent=tab" :: spacingArguments) = .ok b ∧
      Arguments.read spacingArguments = .ok spacingCall ∧
      readValue Bundler.twoScriptsSite (Path.tidy "o.json") spacingFiles = .ok (.map []) ∧
      readValue Bundler.twoScriptsSite (Path.tidy "tab.json") spacingFiles =
        .ok (.map [(.text "indent", .text "tab")]) ∧
      loaded Bundler.twoScriptsSite "o.json" b spacingFiles = .ok (spacingOptions "\t") ∧
      loaded Bundler.twoScriptsSite "tab.json" spacingCall spacingFiles = .ok (spacingOptions "tab") ∧
      spacingOptions "\t" ≠ spacingOptions "tab" := by
  obtain ⟨hbare, -, htab, -⟩ := spacingFiles_spec
  obtain ⟨-, hliteral, hswitch⟩ := loaded_spacingCall
  refine ⟨_, rfl, read_spacingArguments, hbare, htab, hswitch, hliteral, fun heq => ?_⟩
  exact absurd (Value.text.inj (congrArg Options.indent heq)) (by decide)

/-- Four blanks given either way, and the names of the tab and of a line end, which only a call knows. -/
theorem loaded_either_way_spacingFiles :
    (∃ b, Arguments.read ("--indent=4" :: spacingArguments) = .ok b ∧
      loaded Bundler.twoScriptsSite "o.json" b spacingFiles = .ok (spacingOptions "    ")) ∧
    (∃ b, Arguments.read ("--indent=tab" :: spacingArguments) = .ok b ∧
      ∀ o, loaded Bundler.twoScriptsSite "o.json" b spacingFiles = .ok o →
        o.indent = .text "\t" ∧
          loaded Bundler.twoScriptsSite "tab.json" spacingCall spacingFiles ≠ .ok o) ∧
    ∃ b, Arguments.read ("--eol=lf" :: spacingArguments) = .ok b ∧
      ∀ o, loaded Bundler.twoScriptsSite "named.json" spacingCall spacingFiles ≠ .ok o := by
  obtain ⟨hbare, hblanks, htab, hnamed, hparent⟩ := spacingFiles_spec
  have hwrites : ∀ {l : Spacing} {v name : String}, name ∈ ["blanks.json", "tab.json", "named.json"] →
      readValue Bundler.twoScriptsSite (Path.tidy name) spacingFiles =
        .ok (.map [(.text l.key, .text v)]) →
      Writes Bundler.twoScriptsSite l v "o.json" [] name spacingFiles := by
    intro l v name hname hread
    have hkey : Options.canonical (.text l.key) = .text l.key := by cases l <;> rfl
    exact ⟨hparent _ hname, _, hread, Options.saysInstead_append hkey _ []⟩
  refine ⟨?_, ?_, ?_⟩
  · have hfour : Spacing.indent.StandsFor "4" "    " :=
      .blanks (by decide) (by decide) (by decide) (by decide)
    obtain ⟨b, hb, hsame, -⟩ := loaded_either_way (Spacing.gives_marked .indent (by decide)) hfour
      read_spacingArguments rfl hbare
    exact ⟨b, hb, ((hsame _ _ (hwrites (by decide) hblanks)).1).symm.trans loaded_spacingCall.1⟩
  · obtain ⟨b, hb, -, hunit, -⟩ := loaded_either_way (Spacing.gives_marked .indent (by decide)) .tab
      read_spacingArguments rfl hbare
    refine ⟨b, hb, fun o ho => ?_⟩
    obtain ⟨hindent, hiff⟩ := (hunit rfl _ _ (hwrites (by decide) htab)).2 o ho
    exact ⟨hindent, fun heq => (hiff.1 heq).2 rfl⟩
  · obtain ⟨b, hb, -, -, hrefused⟩ := loaded_either_way (Spacing.gives_marked .eol (by decide)) .lf
      read_spacingArguments rfl hbare
    exact ⟨b, hb, (hrefused rfl _ _ (hwrites (by decide) hnamed)).1⟩

end CommandLine.Session

end DeclBundle
