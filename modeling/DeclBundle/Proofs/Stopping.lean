import DeclBundle.Proofs.LineStart

/-!
# Where a bundle stops

A row of fragments fails with the first of its pieces that fails (`chain_failure_eq_some_iff`), and what
stands behind that piece does not matter. If a file of a bundle cannot be read, or the compiler found
fault with it or made nothing of it, the text ends with the contributions of the files before it
(`StopsAt.text_eq`), and neither it nor any file behind it is parsed (`StopsAt.bundle_withTree`). The
compiler's fault is the failure of a bundle exactly if one of its sources is faulty, and then of the
first such source (`bundle_failure_eq_compilation_iff`).
-/

namespace DeclBundle

/-- Whether a failure is one that a file meets before it is parsed: it cannot be read, or the compiler
found fault with it or made nothing of it. -/
def Failure.precedesParsing : Failure → Bool
  | .compilation _ _ => true
  | .system _ => true
  | .undecodable => true
  | _ => false

namespace Diagnostic

theorem distinct_eq_eraseDups (ds : List Diagnostic) : distinct ds = ds.eraseDups := by
  induction ds using List.reverseRecOn with
  | nil => rfl
  | append_singleton ds d ih =>
      have hstep : distinct (ds ++ [d]) =
          if d ∈ distinct ds then distinct ds else distinct ds ++ [d] := by
        rw [distinct, List.foldl_append]
        rfl
      rw [hstep, ih, List.eraseDups_append]
      by_cases h : d ∈ ds
      · simp [h, List.removeAll]
      · simp [h, List.removeAll, List.eraseDups_cons]

theorem distinct_append_self (ds : List Diagnostic) : distinct (ds ++ ds) = ds.eraseDups := by
  have hnone : ds.removeAll ds = [] := by simp [List.removeAll]
  rw [distinct_eq_eraseDups, List.eraseDups_append, hnone, List.eraseDups_nil, List.append_nil]

end Diagnostic

namespace Fragment

variable {α : Type} {x y : Fragment} {e : Failure}

theorem followedBy_failure_eq_some_iff :
    (x.followedBy y).failure = some e ↔
      x.failure = some e ∨ x.failure = none ∧ y.failure = some e := by
  cases h : x.failure with
  | none =>
      rw [followedBy_of_ok h]
      simp
  | some e' =>
      rw [followedBy_of_failure h, h]
      simp

theorem chain_failure_eq_some_iff {f : α → Fragment} {as : List α} :
    (chain f as).failure = some e ↔
      ∃ before a after, as = before ++ a :: after ∧ (∀ b ∈ before, (f b).failure = none) ∧
        (f a).failure = some e := by
  constructor
  · intro h
    induction as with
    | nil => simp [empty] at h
    | cons a as ih =>
        rw [chain_cons, followedBy_failure_eq_some_iff] at h
        rcases h with h | ⟨ha, h⟩
        · exact ⟨[], a, as, rfl, List.forall_mem_nil _, h⟩
        · obtain ⟨before, b, after, rfl, hbefore, hb⟩ := ih h
          exact ⟨a :: before, b, after, rfl, List.forall_mem_cons.2 ⟨ha, hbefore⟩, hb⟩
  · rintro ⟨before, a, after, rfl, hbefore, ha⟩
    rw [chain_of_failure f before a after ha hbefore, followedBy_failure_eq_some_iff]
    exact Or.inr ⟨(chain_failure_eq_none_iff f before).2 hbefore, ha⟩

theorem chain_congr {f g : α → Fragment} {as : List α} (h : ∀ a ∈ as, f a = g a) :
    chain f as = chain g as := by
  induction as with
  | nil => rfl
  | cons a as ih =>
      rw [chain_cons, chain_cons, h a List.mem_cons_self,
        ih fun b hb => h b (List.mem_cons_of_mem a hb)]

end Fragment

namespace Assembly

variable {a : Assembly} {fs : FileSystem} {p : Program} {path : String} {e : Failure}

theorem emission_failure {f : ParsedFile} (h : (a.emission f).failure = some e) :
    e = .wrongKind ∧ a.indent = none := by
  unfold emission at h
  split at h
  case h_1 => simp at h
  case h_2 hindent =>
    split at h
    · exact ⟨(Option.some.inj h).symm, hindent⟩
    · simp at h

theorem parsed_failure {text : String} (h : (a.parsed path text).failure = some e) :
    e = .outside ∧ (a.tree text).root.fits text.toList = false ∨ e = .wrongKind ∧ a.indent = none := by
  unfold parsed ParsedFile.ofCst? at h
  split at h
  case h_1 hnone =>
    refine Or.inl ⟨(Option.some.inj h).symm, ?_⟩
    by_contra hfits
    rw [if_pos (by simpa using hfits)] at hnone
    cases hnone
  case h_2 f hf =>
    rw [Fragment.followedBy_failure_eq_some_iff] at h
    rcases h with h | ⟨-, h⟩
    · simp [Fragment.ofEvents] at h
    · exact Or.inr (emission_failure h)

theorem precedesParsing_of_parsed {text : String} (h : (a.parsed path text).failure = some e) :
    e.precedesParsing = false := by
  rcases parsed_failure h with ⟨rfl, -⟩ | ⟨rfl, -⟩
  · rfl
  · rfl

theorem sourceText_eq_error {cwd : String} (h : sourceText fs cwd path = .error e) :
    (∃ fault, e = .system fault) ∨ e = .undecodable := by
  unfold sourceText at h
  split at h
  case h_1 fault _ => exact Or.inl ⟨fault, (Except.error.inj h).symm⟩
  case h_2 =>
    split at h
    · exact Or.inr (Except.error.inj h).symm
    · cases h

/-- A declaration file that fails before it is parsed could not be read. -/
theorem declared_of_failure (h : (a.declared fs path).failure = some e)
    (he : e.precedesParsing = true) : sourceText fs a.cwd path = .error e := by
  unfold declared at h
  split at h
  case h_1 htext => exact htext.trans (congrArg Except.error (Option.some.inj h))
  case h_2 =>
    rw [precedesParsing_of_parsed h] at he
    cases he

/-- Whether the compiler failed a file that goes into a bundle by way of it: it found fault with the
file, or the file is written in TypeScript and it made no declarations of it. -/
def isFaulty (a : Assembly) (p : Program) (path : String) : Bool :=
  a.isBundled path && !Module.isDeclaration path &&
    (!(p.diagnosticsOf path).isEmpty ||
      (p.declarations.lookup (Path.normalize path)).isNone &&
        Module.isTypeScript (Path.normalize path))

/-- The failure for a faulty file: its path, and what the compiler said about it, once each. -/
def blame (p : Program) (path : String) : Failure :=
  .compilation (Path.normalize path) (p.diagnosticsOf path).eraseDups

/-- A file that the compiler did not make declarations of without fault. -/
theorem compiled_of_blamed
    (h : p.declarations.lookup (Path.normalize path) = none ∨ p.diagnosticsOf path ≠ []) :
    a.compiled p path = failed (Path.normalize path) (p.diagnosticsOf path).eraseDups := by
  rw [a.compiled_of_failed h, Diagnostic.distinct_append_self]

theorem failed_failure {ds : List Diagnostic} :
    (failed path ds).failure =
      if ds.isEmpty && !Module.isTypeScript path then none else some (.compilation path ds) := by
  unfold failed
  split
  · rfl
  · rfl

theorem isEmpty_eraseDups (ds : List Diagnostic) : ds.eraseDups.isEmpty = ds.isEmpty := by
  rw [← Diagnostic.distinct_eq_eraseDups, Diagnostic.isEmpty_distinct]

/-- Any other file that fails before its declarations are parsed is faulty. -/
theorem compiled_of_failure (h : (a.compiled p path).failure = some e)
    (he : e.precedesParsing = true) :
    e = blame p path ∧
      (p.diagnosticsOf path ≠ [] ∨ p.declarations.lookup (Path.normalize path) = none ∧
        Module.isTypeScript (Path.normalize path) = true) ∧
      a.compiled p path = failed (Path.normalize path) (p.diagnosticsOf path).eraseDups := by
  by_cases hblamed : p.declarations.lookup (Path.normalize path) = none ∨ p.diagnosticsOf path ≠ []
  · have hcompiled := compiled_of_blamed (a := a) hblamed
    rw [hcompiled, failed_failure, isEmpty_eraseDups] at h
    split at h
    case isTrue => cases h
    case isFalse hnot =>
      refine ⟨(Option.some.inj h).symm, ?_, hcompiled⟩
      by_cases hds : p.diagnosticsOf path = []
      · have hts : Module.isTypeScript (Path.normalize path) = true := by simpa [hds] using hnot
        exact Or.inr ⟨hblamed.resolve_right fun hne => hne hds, hts⟩
      · exact Or.inl hds
  · obtain ⟨htext, hds⟩ := not_or.1 hblamed
    obtain ⟨text, htext⟩ := Option.ne_none_iff_exists'.1 htext
    rw [a.compiled_of_some htext (by simpa using hds)] at h
    rw [precedesParsing_of_parsed h] at he
    cases he

/-- What comes of the declarations of a file. -/
def made (a : Assembly) (fs : FileSystem) (p : Program) (path : String) : Fragment :=
  if Module.isDeclaration path then a.declared fs path else a.compiled p path

theorem fragment_of_not_isBundled (h : a.isBundled path = false) :
    a.fragment fs p path = .ofEvents (if a.isInside path then a.fate path else []) := by
  cases hin : a.isInside path with
  | false => exact a.fragment_of_outside hin fs p
  | true =>
      have hex : a.isExcluded path = true := by simpa [isBundled, hin] using h
      exact a.fragment_of_excluded hin hex fs p

/-- The fragment of a file that goes into a bundle: a message, and what comes of its declarations. -/
theorem fragment_of_isBundled (h : a.isBundled path = true) :
    a.fragment fs p path =
      (Fragment.ofEvents [.progress ("Processing " ++ path)]).followedBy (a.made fs p path) := by
  rw [isBundled, Bool.and_eq_true, Bool.not_eq_true'] at h
  rw [a.fragment_of_inside h.1 h.2, fate, h.2, if_neg Bool.false_ne_true, made]

theorem fragment_failure_of_isBundled (h : a.isBundled path = true) :
    (a.fragment fs p path).failure = (a.made fs p path).failure := by
  rw [fragment_of_isBundled h, Fragment.followedBy_of_ok rfl]

theorem isBundled_of_failure (h : (a.fragment fs p path).failure = some e) :
    a.isBundled path = true := by
  by_contra hnot
  rw [a.fragment_ok_of_not_isBundled (by simpa using hnot)] at h
  cases h

theorem fragment_failure_of_isFaulty (h : a.isFaulty p path = true) :
    (a.fragment fs p path).failure = some (blame p path) := by
  simp only [isFaulty, Bool.and_eq_true, Bool.or_eq_true, Bool.not_eq_true', Option.isNone_iff_eq_none,
    List.isEmpty_eq_false_iff] at h
  obtain ⟨⟨hbundled, hdecl⟩, hfault⟩ := h
  have hblamed : p.declarations.lookup (Path.normalize path) = none ∨ p.diagnosticsOf path ≠ [] :=
    hfault.symm.imp And.left id
  rw [fragment_failure_of_isBundled hbundled, made, hdecl, if_neg Bool.false_ne_true,
    compiled_of_blamed hblamed, failed_failure, isEmpty_eraseDups, if_neg ?_]
  · rfl
  · rcases hfault with hds | ⟨-, hts⟩
    · simp [hds]
    · simp [hts]

/-- Only a faulty file fails with a fault of the compiler, and with the blame for it. -/
theorem isFaulty_of_failure {file : String} {ds : List Diagnostic}
    (h : (a.fragment fs p path).failure = some (.compilation file ds)) :
    a.isFaulty p path = true ∧ Failure.compilation file ds = blame p path := by
  have hbundled := isBundled_of_failure h
  rw [fragment_failure_of_isBundled hbundled, made] at h
  cases hdecl : Module.isDeclaration path with
  | true =>
      rw [hdecl, if_pos rfl] at h
      rcases sourceText_eq_error (declared_of_failure h rfl) with ⟨fault, he⟩ | he
      · cases he
      · cases he
  | false =>
      rw [hdecl, if_neg Bool.false_ne_true] at h
      obtain ⟨hblame, hfault, -⟩ := compiled_of_failure h rfl
      refine ⟨?_, hblame⟩
      simp only [isFaulty, Bool.and_eq_true, Bool.or_eq_true, Bool.not_eq_true',
        Option.isNone_iff_eq_none, List.isEmpty_eq_false_iff]
      exact ⟨⟨hbundled, hdecl⟩, hfault⟩

/-- A file does not fail if it can be read, is not faulty, and its text can be parsed and written. -/
theorem fragment_ok_of_not_isFaulty (hindent : a.indent.isSome = true)
    (htree : ∀ text, (a.tree text).root.fits text.toList = true)
    (hread : a.isBundled path = true → Module.isDeclaration path = true →
      (sourceText fs a.cwd path).isOk = true)
    (h : a.isFaulty p path = false) : (a.fragment fs p path).failure = none := by
  have hparsed : ∀ q text, (a.parsed q text).failure = none := by
    intro q text
    refine Option.eq_none_iff_forall_ne_some.2 fun e he => ?_
    rcases parsed_failure he with ⟨-, hfits⟩ | ⟨-, hnone⟩
    · rw [htree text] at hfits
      cases hfits
    · rw [hnone] at hindent
      cases hindent
  cases hbundled : a.isBundled path with
  | false => exact a.fragment_ok_of_not_isBundled hbundled fs p
  | true =>
      rw [fragment_failure_of_isBundled hbundled, made]
      cases hdecl : Module.isDeclaration path with
      | true =>
          rw [if_pos rfl]
          cases htext : sourceText fs a.cwd path with
          | error e =>
              have hok := hread hbundled hdecl
              rw [htext] at hok
              cases hok
          | ok text =>
              rw [declared, htext]
              exact hparsed _ _
      | false =>
          rw [if_neg Bool.false_ne_true]
          simp only [isFaulty, hbundled, hdecl, Bool.not_false, Bool.and_self, Bool.true_and,
            Bool.or_eq_false_iff, Bool.not_eq_false', List.isEmpty_iff] at h
          obtain ⟨hds, hnone⟩ := h
          cases htext : p.declarations.lookup (Path.normalize path) with
          | some text =>
              rw [a.compiled_of_some htext hds]
              exact hparsed _ _
          | none =>
              rw [htext, Option.isNone_none, Bool.true_and] at hnone
              rw [compiled_of_blamed (Or.inl htext), failed_failure, hds, hnone]
              rfl

def withTree (a : Assembly) (tree : String → SyntaxTree) : Assembly := { a with tree := tree }

section WithTree

variable {tree : String → SyntaxTree}

theorem parsed_withTree {text : String} (h : tree text = a.tree text) :
    (a.withTree tree).parsed path text = a.parsed path text := by
  have htree : (a.withTree tree).tree text = a.tree text := h
  rw [parsed, parsed, htree]
  rfl

theorem declared_withTree (h : ∀ text, sourceText fs a.cwd path = .ok text → tree text = a.tree text) :
    (a.withTree tree).declared fs path = a.declared fs path := by
  have hcwd : (a.withTree tree).cwd = a.cwd := rfl
  rw [declared, declared, hcwd]
  cases htext : sourceText fs a.cwd path with
  | error e => rfl
  | ok text => exact parsed_withTree (h text htext)

theorem compiled_withTree
    (h : ∀ text, p.declarations.lookup (Path.normalize path) = some text → p.diagnosticsOf path = [] →
      tree text = a.tree text) :
    (a.withTree tree).compiled p path = a.compiled p path := by
  by_cases hblamed : p.declarations.lookup (Path.normalize path) = none ∨ p.diagnosticsOf path ≠ []
  · rw [compiled_of_blamed hblamed, compiled_of_blamed hblamed]
  · obtain ⟨htext, hds⟩ := not_or.1 hblamed
    obtain ⟨text, htext⟩ := Option.ne_none_iff_exists'.1 htext
    have hds : p.diagnosticsOf path = [] := by simpa using hds
    rw [compiled_of_some _ htext hds, compiled_of_some _ htext hds]
    exact parsed_withTree (h text htext hds)

theorem fragment_withTree_of_made
    (h : a.isBundled path = true → (a.withTree tree).made fs p path = a.made fs p path) :
    (a.withTree tree).fragment fs p path = a.fragment fs p path := by
  cases hbundled : a.isBundled path with
  | false =>
      have hbundled' : (a.withTree tree).isBundled path = false := hbundled
      rw [fragment_of_not_isBundled hbundled, fragment_of_not_isBundled hbundled']
      rfl
  | true =>
      have hbundled' : (a.withTree tree).isBundled path = true := hbundled
      rw [fragment_of_isBundled hbundled, fragment_of_isBundled hbundled', h hbundled]

theorem fragment_withTree
    (h : ∀ text, a.declarations? fs p path = some text → tree text = a.tree text) :
    (a.withTree tree).fragment fs p path = a.fragment fs p path := by
  refine fragment_withTree_of_made fun _ => ?_
  rw [declarations?] at h
  rw [made, made]
  cases hdecl : Module.isDeclaration path with
  | true =>
      rw [hdecl, if_pos rfl] at h
      refine declared_withTree fun text htext => h text ?_
      rw [htext]
      rfl
  | false =>
      rw [hdecl, if_neg Bool.false_ne_true] at h
      exact compiled_withTree fun text htext _ => h text htext

theorem fragment_withTree_of_failure (h : (a.fragment fs p path).failure = some e)
    (he : e.precedesParsing = true) :
    (a.withTree tree).fragment fs p path = a.fragment fs p path := by
  refine fragment_withTree_of_made fun hbundled => ?_
  rw [fragment_failure_of_isBundled hbundled, made] at h
  rw [made, made]
  cases hdecl : Module.isDeclaration path with
  | true =>
      rw [hdecl, if_pos rfl] at h
      have herror := declared_of_failure h he
      refine declared_withTree fun text htext => ?_
      rw [herror] at htext
      cases htext
  | false =>
      rw [hdecl, if_neg Bool.false_ne_true] at h
      refine compiled_withTree fun text htext hds => ?_
      rw [a.compiled_of_some htext hds] at h
      rw [precedesParsing_of_parsed h] at he
      cases he

end WithTree

theorem text_of_failure (h : (a.fragment fs p path).failure = some e)
    (he : e.precedesParsing = true) : (a.fragment fs p path).text = "" := by
  have hbundled := isBundled_of_failure h
  have htext : (a.fragment fs p path).text = (a.made fs p path).text := by
    rw [fragment_of_isBundled hbundled, Fragment.followedBy_of_ok rfl]
    exact String.empty_append
  rw [fragment_failure_of_isBundled hbundled, made] at h
  rw [htext, made]
  cases hdecl : Module.isDeclaration path with
  | true =>
      rw [hdecl, if_pos rfl] at h
      rw [if_pos rfl, declared, declared_of_failure h he]
      rfl
  | false =>
      rw [hdecl, if_neg Bool.false_ne_true] at h
      rw [if_neg Bool.false_ne_true, (compiled_of_failure h he).2.2, failed]
      split
      · rfl
      · rfl

/-- A bundle whose files do not fail up to one that does. -/
structure StopsAt (a : Assembly) (fs : FileSystem) (p : Program) (before : List String) (path : String)
    (e : Failure) : Prop where
  files_eq : ∃ after, p.files = before ++ path :: after
  before_ok : ∀ q ∈ before, (a.fragment fs p q).failure = none
  failure_eq : (a.fragment fs p path).failure = some e

/-- A bundle fails with a failure that precedes parsing exactly if it stops at a file with it. -/
theorem bundle_failure_eq_some_iff (he : e.precedesParsing = true) :
    (a.bundle fs p).failure = some e ↔ ∃ before path, a.StopsAt fs p before path e := by
  have hbanner : a.banner.failure = none := rfl
  have hreferences : (Fragment.chain a.reference a.externs).failure = none :=
    (Fragment.chain_failure_eq_none_iff _ _).2 fun _ _ => rfl
  have hmain : a.mainBlock.failure ≠ some e := by
    intro h
    unfold mainBlock at h
    split at h
    · cases h
    · split at h
      · obtain rfl : Failure.wrongKind = e := Option.some.inj h
        cases he
      · cases h
  have hfailure : (a.bundle fs p).failure = some e ↔
      (Fragment.chain (a.fragment fs p) p.files).failure = some e := by
    simp only [bundle, Fragment.followedBy_failure_eq_some_iff, hbanner, hreferences, hmain, and_false,
      or_false, true_and, reduceCtorEq, false_or]
  rw [hfailure, Fragment.chain_failure_eq_some_iff]
  constructor
  · rintro ⟨before, path, after, hfiles, hbefore, hpath⟩
    exact ⟨before, path, ⟨after, hfiles⟩, hbefore, hpath⟩
  · rintro ⟨before, path, ⟨after, hfiles⟩, hbefore, hpath⟩
    exact ⟨before, path, after, hfiles, hbefore, hpath⟩

namespace StopsAt

variable {before : List String}

/-- A bundle that stops at a file is what comes before the file and the fragment of the file. -/
theorem bundle_eq (h : a.StopsAt fs p before path e) :
    a.bundle fs p = a.banner.followedBy ((Fragment.chain a.reference a.externs).followedBy
      ((Fragment.chain (a.fragment fs p) before).followedBy (a.fragment fs p path))) := by
  obtain ⟨after, hfiles⟩ := h.files_eq
  have hchain := Fragment.chain_of_failure (a.fragment fs p) before path after h.failure_eq h.before_ok
  have hfailure := Fragment.chain_failure_eq_some_iff.2
    ⟨before, path, after, rfl, h.before_ok, h.failure_eq⟩
  rw [bundle, hfiles, Fragment.followedBy_of_failure hfailure, hchain]

/-- The text of the bundle ends with the contributions of the files before. -/
theorem text_eq (h : a.StopsAt fs p before path e) (he : e.precedesParsing = true) :
    (a.bundle fs p).text = a.upTo fs p before := by
  have hreferences : ∀ path ∈ a.externs, (a.reference path).failure = none := fun _ _ => rfl
  have htexts : before.map (fun f => (a.fragment fs p f).text) =
      before.map fun f => a.contribution f (a.declarations? fs p f) :=
    List.map_congr_left fun f hf => (a.adds_of_fragment (h.before_ok f hf)).1
  rw [h.bundle_eq, Fragment.followedBy_of_ok rfl, Fragment.chain_of_ok a.reference a.externs hreferences,
    Fragment.chain_of_ok _ before h.before_ok, Fragment.followedBy_of_ok rfl,
    Fragment.followedBy_of_ok rfl, text_of_failure h.failure_eq he, htexts]
  simp only [upTo, opening, String.append_assoc, String.append_empty]

/-- The messages are those of the files before and one for the file itself. -/
theorem messages_eq (h : a.StopsAt fs p before path e) :
    (a.bundle fs p).told Event.message? =
      (a.externs.map fun path => "Writing external dependency " ++ path) ++
        (before.filter a.isInside).map a.notice ++ ["Processing " ++ path] := by
  have hreferences : ∀ path ∈ a.externs, (a.reference path).failure = none := fun _ _ => rfl
  have hchain := (Fragment.chain_failure_eq_none_iff a.reference a.externs).2 hreferences
  have hfragments := (Fragment.chain_failure_eq_none_iff (a.fragment fs p) before).2 h.before_ok
  have hbanner : a.banner.told Event.message? = [] := rfl
  have hreference : ∀ path, (a.reference path).told Event.message? =
      ["Writing external dependency " ++ path] := fun _ => rfl
  have hbundled := isBundled_of_failure h.failure_eq
  rw [isBundled, Bool.and_eq_true, Bool.not_eq_true'] at hbundled
  have hnotice : a.notice path = "Processing " ++ path := by simp [notice, hbundled.2]
  rw [h.bundle_eq, Fragment.told_followedBy _ rfl, Fragment.told_followedBy _ hchain,
    Fragment.told_followedBy _ hfragments, Fragment.told_chain _ _ hreferences,
    Fragment.told_chain _ _ h.before_ok, a.flatMap_told_fragment (fun _ _ => rfl),
    a.told_fragment (fun _ _ => rfl), if_pos hbundled.1, hbanner, List.nil_append,
    filterMap_message?_fate, hnotice]
  simp only [hreference, filterMap_message?_fate, List.map_eq_flatMap, List.append_assoc]

/-- Neither the file at which a bundle stops nor any file behind it is parsed. -/
theorem bundle_withTree (h : a.StopsAt fs p before path e) (he : e.precedesParsing = true)
    {tree : String → SyntaxTree} (after : List String)
    (htree : ∀ q ∈ before, ∀ text, a.declarations? fs p q = some text → tree text = a.tree text) :
    (a.withTree tree).bundle fs { p with files := before ++ path :: after } = a.bundle fs p := by
  have hbefore : ∀ q ∈ before, (a.withTree tree).fragment fs p q = a.fragment fs p q :=
    fun q hq => fragment_withTree (htree q hq)
  have hpath : (a.withTree tree).fragment fs p path = a.fragment fs p path :=
    fragment_withTree_of_failure h.failure_eq he
  have hstops : (a.withTree tree).StopsAt fs { p with files := before ++ path :: after } before path e :=
    ⟨⟨after, rfl⟩, fun q hq => (congrArg Fragment.failure (hbefore q hq)).trans (h.before_ok q hq),
      (congrArg Fragment.failure hpath).trans h.failure_eq⟩
  have hchain : Fragment.chain ((a.withTree tree).fragment fs p) before =
      Fragment.chain (a.fragment fs p) before := Fragment.chain_congr hbefore
  have hparts : (a.withTree tree).bundle fs { p with files := before ++ path :: after } =
      a.banner.followedBy ((Fragment.chain a.reference a.externs).followedBy
        ((Fragment.chain ((a.withTree tree).fragment fs p) before).followedBy
          ((a.withTree tree).fragment fs p path))) := hstops.bundle_eq
  rw [hparts, hchain, hpath, h.bundle_eq]

end StopsAt

/-- Where all that can be read is read, a bundle fails for a fault of the compiler exactly if it has a
faulty file, and then with the blame for the first of them. -/
theorem bundle_failure_eq_compilation_iff (hindent : a.indent.isSome = true)
    (htree : ∀ text, (a.tree text).root.fits text.toList = true)
    (hread : ∀ path ∈ p.files, a.isBundled path = true → Module.isDeclaration path = true →
      (sourceText fs a.cwd path).isOk = true) {file : String} {ds : List Diagnostic} :
    (a.bundle fs p).failure = some (.compilation file ds) ↔
      ∃ path, p.files.find? (a.isFaulty p) = some path ∧ Failure.compilation file ds = blame p path := by
  rw [bundle_failure_eq_some_iff rfl]
  constructor
  · rintro ⟨before, path, ⟨after, hfiles⟩, hbefore, hpath⟩
    obtain ⟨hfaulty, hblame⟩ := isFaulty_of_failure hpath
    refine ⟨path, List.find?_eq_some_iff_append.2 ⟨hfaulty, before, after, hfiles, fun q hq => ?_⟩, hblame⟩
    cases hq' : a.isFaulty p q with
    | false => rfl
    | true => exact absurd ((fragment_failure_of_isFaulty hq').symm.trans (hbefore q hq)) (by simp)
  · rintro ⟨path, hfind, hblame⟩
    obtain ⟨hfaulty, before, after, hfiles, hbefore⟩ := List.find?_eq_some_iff_append.1 hfind
    refine ⟨before, path, ⟨after, hfiles⟩, fun q hq => ?_, hblame ▸ fragment_failure_of_isFaulty hfaulty⟩
    have hmem : q ∈ p.files := hfiles ▸ List.mem_append_left _ hq
    exact fragment_ok_of_not_isFaulty hindent htree (hread q hmem) (by simpa using hbefore q hq)

end Assembly

end DeclBundle
