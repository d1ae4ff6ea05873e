import DeclBundle.Proofs.Conservation
import DeclBundle.Proofs.Identity
import DeclBundle.Proofs.ModuleBlock
import DeclBundle.Proofs.QuotedText
import DeclBundle.Proofs.Written

/-!
# Quoted ids

The emission of a module has ids between single quotes, as they are: its own in the line that opens the
block, and those that its specifiers stand for. Its own can be read back exactly if the way from the base
directory to the file can, and any other exactly if what is left of the walk of its specifier can
(`emission_quotes`). The body of the block is indented behind its line feeds, and so is a literal in it that
spans lines (`Indented`).
-/

namespace DeclBundle

namespace Emission

/-! ### Indented texts -/

/-- A text into which a unit of indentation is put behind some of its line feeds. -/
inductive Indented (indent : List Char) : List Char → List Char → Prop
  | nil : Indented indent [] []
  | keep (c : Char) {s t : List Char} (h : Indented indent s t) : Indented indent (c :: s) (c :: t)
  | put {s t : List Char} (h : Indented indent s t) : Indented indent ('\n' :: s) ('\n' :: (indent ++ t))

namespace Indented

variable {indent s t u : List Char}

theorem exists_of_cons {c : Char} (hc : c ≠ '\n') (h : Indented indent (c :: s) u) :
    ∃ t, u = c :: t ∧ Indented indent s t := by
  cases h with
  | keep _ h => exact ⟨_, rfl, h⟩
  | put h => exact absurd rfl hc

theorem exists_of_append (h : Indented indent (s ++ t) u) :
    ∃ s' t', u = s' ++ t' ∧ Indented indent s s' ∧ Indented indent t t' := by
  induction s generalizing u with
  | nil => exact ⟨[], u, rfl, .nil, h⟩
  | cons c s ih =>
      rw [List.cons_append] at h
      cases h with
      | keep _ h =>
          obtain ⟨s', t', rfl, hs, ht⟩ := ih h
          exact ⟨c :: s', t', rfl, .keep c hs, ht⟩
      | put h =>
          obtain ⟨s', t', rfl, hs, ht⟩ := ih h
          exact ⟨'\n' :: (indent ++ s'), t', by simp, .put hs, ht⟩

theorem eq_of_not_mem (h : Indented indent s t) (hs : '\n' ∉ s) : t = s := by
  induction h with
  | nil => rfl
  | keep c _ ih => rw [ih fun hmem => hs (List.mem_cons_of_mem c hmem)]
  | put _ _ => exact absurd List.mem_cons_self hs

/-- Indentation is not read as a part of a literal if neither a quote nor a backslash is in it. -/
theorem scan_eq (h : Indented indent s t) {quote : Char} (hindent : Quoted.Plain quote indent)
    (hfeed : quote ≠ '\n') (escaped : Bool) :
    Quoted.scan quote escaped t = Quoted.scan quote escaped s := by
  induction h generalizing escaped with
  | nil => rfl
  | keep c _ ih =>
      exact (Quoted.scan_cons quote escaped c _).trans
        ((congrArg _ (funext ih)).trans (Quoted.scan_cons quote escaped c _).symm)
  | put _ ih =>
      rw [Quoted.scan_cons_of_ne (Ne.symm hfeed) (by decide),
        Quoted.scan_cons_of_ne (Ne.symm hfeed) (by decide), Quoted.scan_append,
        Quoted.closes_of_plain hindent, Option.bind_some, ih]

end Indented

theorem exists_of_breaks {eol s : List Char} (h : breaks eol s = true) : ∃ rest, s = eol ++ rest := by
  unfold breaks at h
  cases hafter : Text.after? eol s with
  | none => simp [hafter] at h
  | some rest => exact ⟨rest, Text.after?_eq_some_iff.1 hafter⟩

theorem indented_nestFrom {eol : List Char} (heol : eol = ['\n'] ∨ eol = ['\r', '\n'])
    (indent : List Char) {k : Nat} {s : List Char} (hk : k = 0 ∨ k = 1 ∧ s.head? = some '\n') :
    Indented indent s (nestFrom eol indent k s) := by
  induction s generalizing k with
  | nil =>
      rw [nestFrom]
      exact .nil
  | cons c s ih =>
      rw [nestFrom]
      rcases hk with rfl | ⟨rfl, hc⟩
      · cases hbreaks : breaks eol (c :: s) with
        | false => simpa using Indented.keep c (ih (.inl rfl))
        | true =>
            obtain ⟨rest, hrest⟩ := exists_of_breaks hbreaks
            rcases heol with rfl | rfl
            · obtain ⟨rfl, rfl⟩ := List.cons.inj hrest
              simpa using Indented.put (ih (.inl rfl))
            · obtain ⟨rfl, rfl⟩ := List.cons.inj hrest
              simpa using Indented.keep '\r' (ih (.inr ⟨rfl, rfl⟩))
      · obtain rfl : c = '\n' := Option.some.inj hc
        simpa using Indented.put (ih (.inl rfl))

theorem Indented.exists_literal {indent s t literal u : List Char}
    (h : Indented indent (s ++ '\'' :: (literal ++ '\'' :: t)) u) :
    ∃ s' literal' t', u = s' ++ '\'' :: (literal' ++ '\'' :: t') ∧
      Indented indent literal literal' := by
  obtain ⟨s', u₁, rfl, -, h₁⟩ := h.exists_of_append
  obtain ⟨u₂, rfl, h₂⟩ := h₁.exists_of_cons (by decide)
  obtain ⟨literal', u₃, rfl, hliteral, h₃⟩ := h₂.exists_of_append
  obtain ⟨t', rfl, -⟩ := h₃.exists_of_cons (by decide)
  exact ⟨s', literal', t', rfl, hliteral⟩

theorem exists_of_mem_edits (source : String) {root : Node} {replace : Region.Replacement NodeLabel}
    {e : Region.Edit} (h : e ∈ root.edits replace) :
    ∃ before after, (root.splice source replace).toList = before ++ (e.text.toList ++ after) := by
  have htexts := (Region.keeps_spliceParts source.toList.length root replace).texts
  have hmem : e.text ∈ Part.texts (root.spliceParts source.toList.length replace) := by
    rw [htexts]
    exact List.mem_map_of_mem h
  obtain ⟨part, hpart, htext⟩ := List.mem_filterMap.1 hmem
  have hput : part.chars source.toList = e.text.toList := by
    cases part with
    | kept _ _ => cases htext
    | put text => exact congrArg String.toList (Option.some.inj htext)
  obtain ⟨ps, qs, hsplit⟩ := List.append_of_mem hpart
  refine ⟨Part.render source.toList ps, Part.render source.toList qs, ?_⟩
  rw [Region.splice, String.toList_ofList, hsplit, Part.render_append, Part.render_cons, hput]

end Emission

/-! ### Normal forms between quotes -/

theorem Text.mem_join_of_mem (sep : List Char) {ss : List (List Char)} {s : List Char} (hs : s ∈ ss)
    {c : Char} (hc : c ∈ s) : c ∈ join sep ss := by
  induction ss with
  | nil => cases hs
  | cons t ss ih =>
      cases ss with
      | nil =>
          obtain rfl := List.mem_singleton.1 hs
          exact hc
      | cons u us =>
          rw [join_cons_cons, List.mem_append, List.mem_append]
          rcases List.mem_cons.1 hs with rfl | hs
          · exact .inl (.inl hc)
          · exact .inr (ih hs)

namespace Path

open Quoted

def settled (p : List Char) : List (List Char) := settle (anchor p ≠ []) (Text.pieces '/' p)

theorem scan_anchor_append {quote : Char} (hquote : quote ≠ '/') (p s : List Char) :
    scan quote false (anchor p ++ s) = scan quote false s := by
  unfold anchor
  split
  · exact scan_cons_of_ne (Ne.symm hquote) (by decide) _ _
  · rw [List.cons_append, scan_cons_of_ne (Ne.symm hquote) (by decide)]
    exact scan_cons_of_ne (Ne.symm hquote) (by decide) _ _
  · exact scan_cons_of_ne (Ne.symm hquote) (by decide) _ _
  · rfl

theorem scan_normal {quote : Char} (hquote : quote ≠ '/') (hdot : quote ≠ '.') (p : List Char) :
    scan quote false (normal p) = scan quote false (Text.join ['/'] (settled p)) := by
  rw [normal, write]
  split
  · next hnil =>
      have hjoin := (List.append_eq_nil_iff.1 hnil).2
      rw [settled, hjoin]
      exact scan_cons_of_ne (Ne.symm hdot) (by decide) _ _
  · exact scan_anchor_append hquote p _

theorem not_hasBare_of_mem_settled {quote : Char} (hquote : quote ≠ '/') {p s : List Char}
    (hp : ¬ HasBare quote p) (hs : s ∈ settled p) : ¬ HasBare quote s := by
  intro hbare
  refine hp ?_
  rw [← Text.join_pieces '/' p]
  exact (hasBare_join_iff hquote).2 ⟨s, mem_of_mem_settle hs, hbare⟩

theorem mem_of_mem_settled {p s : List Char} (hs : s ∈ settled p) {c : Char} (hc : c ∈ s) : c ∈ p := by
  have hmem := Text.mem_join_of_mem ['/'] (mem_of_mem_settle hs) hc
  rwa [Text.join_pieces] at hmem

variable {quote : Char} {p s : List Char}

/-- A normal form may stand between quotes if no bare quote stands in what is left of its steps and the
last of them does not leave the closing quote escaped. -/
theorem closes_normal_iff (hquote : quote ≠ '/') (hdot : quote ≠ '.') :
    Closes quote (normal p) ↔
      (∀ s ∈ settled p, ¬ HasBare quote s) ∧ ∀ s ∈ (settled p).getLast?, Closes quote s := by
  rw [← closes_join_iff hquote, Closes, Closes, scan_normal hquote hdot]

theorem directoryChars_prefix (p : List Char) : directoryChars p <+: p := by
  have hreverse : ∀ (test : Char → Bool) (q : List Char),
      (q.reverse.dropWhile test).reverse <+: q := by
    intro test q
    rw [← List.reverse_suffix, List.reverse_reverse]
    exact List.dropWhile_suffix test
  unfold directoryChars
  dsimp only
  split
  · exact hreverse _ p
  · exact (hreverse _ _).trans (hreverse _ p)

theorem not_hasBare_of_prefix {t : List Char} (h : s <+: t) (ht : ¬ HasBare quote t) :
    ¬ HasBare quote s := by
  obtain ⟨u, rfl⟩ := h
  rw [HasBare, scan_append] at ht
  exact fun hs => ht (by rw [hs]; rfl)

theorem not_hasBare_below (hquote : quote ≠ '/') (hp : ¬ HasBare quote p) (hs : ¬ HasBare quote s) :
    ¬ HasBare quote (below p s) := by
  have hjoined : ¬ HasBare quote (p ++ '/' :: s) := by
    rw [HasBare, scan_append]
    cases hscan : scan quote false p with
    | none => exact absurd hscan hp
    | some escaped =>
        rw [Option.bind_some, scan_cons_of_ne (Ne.symm hquote) (by decide)]
        exact hs
  unfold below
  split
  · exact hs
  · split_ifs with h
    · rcases h with rfl | hlast
      · exact hs
      · obtain ⟨q, rfl⟩ := List.getLast?_eq_some_iff.1 hlast
        have hq : ¬ HasBare quote q := not_hasBare_of_prefix ⟨['/'], rfl⟩ hp
        rw [List.append_assoc, List.singleton_append, HasBare, scan_append]
        cases hscan : scan quote false q with
        | none => exact absurd hscan hq
        | some escaped =>
            rw [Option.bind_some, scan_cons_of_ne (Ne.symm hquote) (by decide)]
            exact hs
    · exact hjoined

theorem mem_below {c : Char} (h : c ∈ below p s) : c ∈ p ∨ c ∈ s ∨ c = '/' := by
  unfold below at h
  split at h
  · exact .inr (.inl h)
  · split_ifs at h
    · exact (List.mem_append.1 h).imp id .inl
    · rcases List.mem_append.1 h with h | h
      · exact .inl h
      · exact .inr ((List.mem_cons.1 h).symm)

end Path

namespace Emission

open Quoted

/-- The relative specifier of a node: its own, or that of the string in it. -/
def specifierOf? (n : Node) : Option String :=
  if n.kind = .externalModuleReference then (n.findChild? .stringLiteral).bind specifier?
  else specifier? n

/-- What is put in for a node is nothing, or holds a literal with the id for its specifier. -/
theorem Rewrites.exists_literal {id : String} {parent : Option Node} {n : Node} {text : String}
    (h : Rewrites id parent n text) : text = "" ∨ ∃ s before after, specifierOf? n = some s ∧
      text.toList = before ++ '\'' :: ((Module.resolveId id s).toList ++ '\'' :: after) := by
  cases h with
  | keyword => exact .inl rfl
  | @reference m s hk hm hs hr =>
      refine .inr ⟨s, "require(".toList, [')'], ?_, ?_⟩
      · rw [specifierOf?, if_pos hk, hm]
        exact specifier?_eq_some_iff.2 ⟨hs, hr⟩
      · simp
  | @specifier p s hk hp hpk hs hr =>
      refine .inr ⟨s, [], [], ?_, ?_⟩
      · rw [specifierOf?, if_neg (by rw [hk]; decide)]
        exact specifier?_eq_some_iff.2 ⟨hs, hr⟩
      · simp

end Emission

namespace Layout

/-- The way from the base directory to a file, without the extension. -/
def way (l : Layout) (path : String) : String :=
  Module.stripExtension (Path.relative l.cwd (Path.normalize path) (Path.normalize l.baseDir))

theorem toList_idOf (l : Layout) (path : String) :
    (l.idOf path).toList = l.name.toList ++ '/' :: (l.way path).toList := by
  simp [idOf, Module.idOf, way]

/-- The steps that are left of the walk of a specifier in the module with an id. -/
def walk (id specifier : String) : List (List Char) :=
  Path.settled (Path.below (Path.directoryChars id.toList) specifier.toList)

theorem toList_resolveId (id specifier : String) : (Module.resolveId id specifier).toList =
    Path.normal (Path.below (Path.directoryChars id.toList) specifier.toList) := by
  simp [Module.resolveId, Path.normalize, Path.join, Path.directory]

end Layout

namespace Emission

open Quoted Layout

/-- The literal for a specifier in the emission of a module. -/
structure Holds (l : Layout) (f : ParsedFile) (s : String) (before literal after : List Char) :
    Prop where
  emission_eq : (l.emission f).toList = before ++ '\'' :: (literal ++ '\'' :: after)
  /-- It is the id that the specifier stands for, indented behind its line feeds. -/
  indented : Indented l.indent.toList (Module.resolveId (l.idOf f.path) s).toList literal
  /-- Reading it ends at its closing quote exactly if no step of the walk has a bare quote and the last
  one does not leave the closing quote escaped. -/
  ends_iff : (Plain '\'' l.indent.toList ∨ '\n' ∉ (Module.resolveId (l.idOf f.path) s).toList) →
    (Ends '\'' literal after ↔ (∀ t ∈ walk (l.idOf f.path) s, ¬ HasBare '\'' t) ∧
      ∀ t ∈ (walk (l.idOf f.path) s).getLast?, Closes '\'' t)

theorem closes_resolveId_iff (id s : String) : Closes '\'' (Module.resolveId id s).toList ↔
    (∀ t ∈ walk id s, ¬ HasBare '\'' t) ∧ ∀ t ∈ (walk id s).getLast?, Closes '\'' t := by
  rw [toList_resolveId]
  exact Path.closes_normal_iff (by decide) (by decide)

/-- In an id only the way from the base directory may not stand between quotes. -/
theorem scan_idOf {l : Layout} (hname : Plain '\'' l.name.toList) (path : String) :
    scan '\'' false (l.idOf path).toList = scan '\'' false (l.way path).toList := by
  rw [toList_idOf, scan_append, closes_of_plain hname, Option.bind_some,
    scan_cons_of_ne (by decide) (by decide)]

theorem plain_idOf_iff {l : Layout} (hname : Plain '\'' l.name.toList) {path : String} :
    Plain '\'' (l.idOf path).toList ↔ Plain '\'' (l.way path).toList := by
  simp [Plain, toList_idOf, hname.1, hname.2]

theorem not_hasBare_of_mem_walk {id s : String} (hid : ¬ HasBare '\'' id.toList)
    (hs : ¬ HasBare '\'' s.toList) : ∀ t ∈ walk id s, ¬ HasBare '\'' t := by
  have hdir := Path.not_hasBare_of_prefix (Path.directoryChars_prefix id.toList) hid
  exact fun t ht => Path.not_hasBare_of_mem_settled (by decide)
    (Path.not_hasBare_below (by decide) hdir hs) ht

theorem closes_of_mem_walk {id s : String} (hid : Plain '\'' id.toList) (hs : Plain '\'' s.toList) :
    ∀ t ∈ walk id s, Closes '\'' t := by
  have hmem : ∀ t ∈ walk id s, ∀ c ∈ t, c ∈ id.toList ∨ c ∈ s.toList ∨ c = '/' := by
    intro t ht c hc
    refine (Path.mem_below (Path.mem_of_mem_settled ht hc)).imp (fun h => ?_) fun h => h
    exact (Path.directoryChars_prefix id.toList).subset h
  intro t ht
  refine closes_of_plain ⟨fun hquote => ?_, fun hback => ?_⟩
  · rcases hmem t ht _ hquote with h | h | h
    · exact hid.1 h
    · exact hs.1 h
    · exact absurd h (by decide)
  · rcases hmem t ht _ hback with h | h | h
    · exact hid.2 h
    · exact hs.2 h
    · exact absurd h (by decide)

theorem indented_nest {eol : String} (heol : Settings.IsEol eol) (indent text : String) :
    Indented indent.toList text.toList (nest eol indent text).toList := by
  have heol' : eol.toList = ['\n'] ∨ eol.toList = ['\r', '\n'] := by
    rcases heol with rfl | rfl
    · exact .inl rfl
    · exact .inr rfl
  rw [nest, String.toList_ofList]
  exact indented_nestFrom heol' indent.toList (.inl rfl)

/-- In the emission of a module every edit that puts something in puts in a literal. -/
theorem exists_holds {l : Layout} {f : ParsedFile} (heol : Settings.IsEol l.eol)
    (hmodule : f.isModule = true) {a : List Nat} {e : Region.Edit}
    (he : IsEdit (l.idOf f.path) f.root a e) (htext : e.text ≠ "") :
    ∃ n s before literal after, f.root.get? a = some n ∧ specifierOf? n = some s ∧
      Holds l f s before literal after := by
  have hedit : e ∈ f.root.edits (replacement (l.idOf f.path)) := by
    rw [← Region.map_snd_placedEdits]
    exact List.mem_map_of_mem (mem_placedEdits_replacement.2 he)
  obtain ⟨n, hn, -, -, hrewrites, -⟩ := he
  obtain ⟨s, before, after, hs, hput⟩ := hrewrites.exists_literal.resolve_left htext
  obtain ⟨front, back, hsplice⟩ := exists_of_mem_edits f.text hedit
  have hbody : (body (l.idOf f.path) f).toList = (front ++ before) ++
      '\'' :: ((Module.resolveId (l.idOf f.path) s).toList ++ '\'' :: (after ++ back)) := by
    rw [body, hsplice, hput]
    simp
  have hindented := indented_nest heol l.indent (body (l.idOf f.path) f)
  rw [hbody] at hindented
  obtain ⟨front', literal, back', hnest, hliteral⟩ := hindented.exists_literal
  refine ⟨n, s, (l.eol ++ "declare module '" ++ l.idOf f.path ++ "' \x7b" ++ l.eol ++ l.indent).toList ++
    front', literal, back' ++ (l.eol ++ "\x7d" ++ l.eol).toList, hn, hs, ?_, hliteral, fun hplain => ?_⟩
  · simp [Layout.emission, hmodule, block, hnest]
  · rw [ends_iff (by decide), ← closes_resolveId_iff, Closes, Closes]
    rcases hplain with hplain | hfeed
    · rw [hliteral.scan_eq hplain (by decide)]
    · rw [hliteral.eq_of_not_mem hfeed]

/-- In the emission of a module the literal of its id ends at its closing quote exactly if the way to the
file may stand between quotes, and stands for the id exactly if it is plain; and so does a literal for a
specifier exactly if what is left of its walk may stand there. Bare quotes are left only of the way
to the file and of specifiers that were written in other quotes, and plain ones are always written well. -/
theorem emission_quotes {l : Layout} {f : ParsedFile} (heol : Settings.IsEol l.eol)
    (hname : Plain '\'' l.name.toList) (hmodule : f.isModule = true) :
    (∃ after, (l.emission f).toList =
        (l.eol ++ "declare module ").toList ++ '\'' :: ((l.idOf f.path).toList ++ '\'' :: after) ∧
      (Ends '\'' (l.idOf f.path).toList after ↔ Closes '\'' (l.way f.path).toList) ∧
      (Denotes '\'' (l.idOf f.path).toList after ↔ Plain '\'' (l.way f.path).toList)) ∧
    (∀ a e, IsEdit (l.idOf f.path) f.root a e → e.text ≠ "" →
      ∃ n s before literal after, f.root.get? a = some n ∧ specifierOf? n = some s ∧
        Holds l f s before literal after) ∧
    ∀ s : String,
      (¬ HasBare '\'' (l.way f.path).toList → ¬ HasBare '\'' s.toList →
        ∀ t ∈ walk (l.idOf f.path) s, ¬ HasBare '\'' t) ∧
      (Plain '\'' (l.way f.path).toList → Plain '\'' s.toList →
        ∀ t ∈ walk (l.idOf f.path) s, Closes '\'' t) := by
  refine ⟨⟨(" \x7b" ++ l.eol ++ l.indent ++ nest l.eol l.indent (body (l.idOf f.path) f) ++ l.eol ++
      "\x7d" ++ l.eol).toList, ?_, ?_, ?_⟩, fun a e he htext => exists_holds heol hmodule he htext,
    fun s => ⟨fun hway => ?_, fun hway => ?_⟩⟩
  · simp [Layout.emission, hmodule, block]
  · rw [ends_iff (by decide), Closes, Closes, scan_idOf hname]
  · rw [denotes_iff (by decide), plain_idOf_iff hname]
  · exact not_hasBare_of_mem_walk (by rwa [HasBare, scan_idOf hname])
  · exact closes_of_mem_walk ((plain_idOf_iff hname).2 hway)

/-- A module in a file with an apostrophe in its name. -/
def apostropheModule : ParsedFile where
  path := "/p/it's.d.ts"
  text := "export \x7b\x7d;\n"
  root :=
    ⟨⟨.sourceFile, "program", false, none⟩, 0, 11, [
      ⟨⟨.exportDeclaration, "export_statement", false, none⟩, 0, 10, []⟩]⟩
  hasErrors := false

/-- The apostrophe ends the literal of the id. So it does in the literal for a specifier that stood in
double quotes, and the backslash in front of a slash that is not kept leaves the closing quote escaped. -/
theorem not_ends_apostrophe :
    (Layout.emission ⟨"/", "/p", "pkg", "\n", "\t"⟩ apostropheModule).toList =
      "\ndeclare module ".toList ++ '\'' :: ("pkg/it's".toList ++ '\'' ::
        " \x7b\n\texport \x7b\x7d;\n\n\x7d\n".toList) ∧
    Layout.idOf ⟨"/", "/p", "pkg", "\n", "\t"⟩ "/p/it's.d.ts" = "pkg/it's" ∧
    ¬ Ends '\'' "pkg/it's".toList " \x7b\n\texport \x7b\x7d;\n\n\x7d\n".toList ∧
    (Closes '"' "./it's".toList ∧ Module.resolveId "pkg/a" "./it's" = "pkg/it's") ∧
    Closes '\'' "./b\\/".toList ∧ Module.resolveId "pkg/a" "./b\\/" = "pkg/b\\" ∧
    ∀ rest, ¬ Ends '\'' "pkg/b\\".toList rest := by
  refine ⟨by decide +kernel, by decide +kernel, ?_, ⟨by decide, by decide +kernel⟩, by decide,
    by decide +kernel, fun rest => ?_⟩
  · rw [ends_iff (by decide)]
    decide
  · rw [ends_iff (by decide)]
    decide

theorem emission_quotes_ambientModule :
    Settings.IsEol "\n" ∧ Plain '\'' "pkg".toList ∧ (ambientModule 29).isModule = true ∧
      (∃ after, (Layout.emission ⟨"/", "/p", "pkg", "\n", "\t"⟩ (ambientModule 29)).toList =
          "\ndeclare module ".toList ++ '\'' :: ("pkg/a".toList ++ '\'' :: after) ∧
        Ends '\'' "pkg/a".toList after ∧ Denotes '\'' "pkg/a".toList after) ∧
      ∃ before literal after, (Layout.emission ⟨"/", "/p", "pkg", "\n", "\t"⟩ (ambientModule 29)).toList =
          before ++ '\'' :: (literal ++ '\'' :: after) ∧
        Indented ['\t'] "pkg/b".toList literal ∧ Ends '\'' literal after := by
  have hid : Layout.idOf ⟨"/", "/p", "pkg", "\n", "\t"⟩ "/p/a.d.ts" = "pkg/a" := by decide +kernel
  have hway : Layout.way ⟨"/", "/p", "pkg", "\n", "\t"⟩ "/p/a.d.ts" = "a" := by decide +kernel
  have hresolved : Module.resolveId "pkg/a" "./b" = "pkg/b" := by decide +kernel
  have hedit : IsEdit (Layout.idOf ⟨"/", "/p", "pkg", "\n", "\t"⟩ "/p/a.d.ts")
      (ambientModule 29).root [0, 0] ⟨7, 12, "'pkg/b'"⟩ :=
    mem_placedEdits_replacement.1 (by decide +kernel)
  have hspecifier : ((ambientModule 29).root.get? [0, 0]).bind specifierOf? = some "./b" := by
    decide +kernel
  obtain ⟨⟨after, hemission, hends, hdenotes⟩, hedits, -⟩ :=
    emission_quotes (l := ⟨"/", "/p", "pkg", "\n", "\t"⟩) (f := ambientModule 29) (.inl rfl)
      (by decide) (by decide)
  obtain ⟨n, s, before, literal, after', hn, hs, hholds⟩ := hedits _ _ hedit (by decide)
  obtain rfl : s = "./b" := by
    rw [hn, Option.bind_some, hs] at hspecifier
    exact Option.some.inj hspecifier
  have hpath : (ambientModule 29).path = "/p/a.d.ts" := rfl
  have hindented := hholds.indented
  have hread := hholds.ends_iff (.inl (by decide))
  rw [hpath, hid] at hemission hends hdenotes hindented hread
  rw [hway] at hends hdenotes
  rw [hresolved] at hindented
  rw [← closes_resolveId_iff, hresolved] at hread
  exact ⟨.inl rfl, by decide, by decide,
    ⟨after, hemission, hends.2 (by decide), hdenotes.2 (by decide)⟩,
    before, literal, after', hholds.emission_eq, hindented, hread.2 (by decide)⟩

end Emission

end DeclBundle
