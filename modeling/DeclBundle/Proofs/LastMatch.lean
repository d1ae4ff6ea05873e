import DeclBundle.Module.Selection
import Mathlib.Data.List.Forall2
import Mathlib.Data.List.Induction
import Mathlib.Data.List.Infix

/-!
# The last pattern that matches

A glob stands for the texts that its segments take up, with any text before each segment but the first
(`Glob.Describes`). It is matched by looking for each segment at the first place where it fits, which finds
these texts and no others: what a later place leaves is an end of what the first one leaves, and the next
star makes up for the rest (`Glob.accepts_iff`). Of the patterns that match a path the last one decides
whether it is excluded, and no other one counts (`Module.isExcluded_lastMatch`).
-/

namespace DeclBundle

namespace Glob

/-- A segment fits a text of as many characters, each of which passes its test. -/
def Fits (segment : List Test) (s : List Char) : Prop :=
  List.Forall₂ (fun t c => t.accepts c = true) segment s

/-- A text is taken up by segments with any text before each of them. -/
inductive TakenUp : List (List Test) → List Char → Prop
  | nil : TakenUp [] []
  | cons (gap : List Char) {segment : List Test} {s rest : List Char} {more : List (List Test)}
      (h : Fits segment s) (hrest : TakenUp more rest) : TakenUp (segment :: more) (gap ++ (s ++ rest))

def Describes (g : Glob) (s : List Char) : Prop :=
  ∃ first rest, s = first ++ rest ∧ Fits g.head first ∧ TakenUp g.tails rest

variable {segment : List Test} {more : List (List Test)} {s rest : List Char}

theorem pass?_eq_some_iff : pass? segment s = some rest ↔ ∃ t, s = t ++ rest ∧ Fits segment t := by
  induction segment generalizing s with
  | nil =>
      constructor
      · exact fun h => ⟨[], Option.some.inj h, .nil⟩
      · rintro ⟨t, rfl, ht⟩
        cases ht
        rfl
  | cons t segment ih =>
      cases s with
      | nil => simp [pass?, Fits]
      | cons c cs =>
          rw [pass?]
          constructor
          · intro h
            split at h
            case isTrue hc =>
              obtain ⟨first, rfl, hfirst⟩ := ih.1 h
              exact ⟨c :: first, rfl, .cons hc hfirst⟩
            case isFalse => cases h
          · rintro ⟨first, heq, hfirst⟩
            cases hfirst with
            | cons hc hfirst =>
                obtain ⟨rfl, rfl⟩ := List.cons.inj heq
                rw [if_pos hc]
                exact ih.2 ⟨_, rfl, hfirst⟩

/-- What is left behind the first place where a segment fits ends with what is left behind any other. -/
theorem suffix_of_fits {t t' gap rest' : List Char} (h : Fits segment t) (h' : Fits segment t')
    (heq : t ++ rest = gap ++ (t' ++ rest')) : rest' <:+ rest := by
  have hlength : t.length = t'.length := h.length_eq.symm.trans h'.length_eq
  have hrest' : rest' <:+ t ++ rest := ⟨gap ++ t', by rw [heq, List.append_assoc]⟩
  refine List.suffix_of_suffix_length_le hrest' (List.suffix_append t rest) ?_
  have hlengths := congrArg List.length heq
  simp only [List.length_append] at hlengths
  omega

theorem seek?_eq_some (h : seek? segment s = some rest) :
    (∃ gap t, s = gap ++ (t ++ rest) ∧ Fits segment t) ∧
      ∀ gap t rest', s = gap ++ (t ++ rest') → Fits segment t → rest' <:+ rest := by
  induction s with
  | nil =>
      obtain ⟨t, heq, ht⟩ := pass?_eq_some_iff.1 h
      exact ⟨⟨[], t, heq, ht⟩, fun gap t' rest' heq' ht' => suffix_of_fits ht ht' (heq.symm.trans heq')⟩
  | cons c cs ih =>
      rw [seek?] at h
      split at h
      · next rest₁ hpass =>
          obtain rfl := Option.some.inj h
          obtain ⟨t, heq, ht⟩ := pass?_eq_some_iff.1 hpass
          exact ⟨⟨[], t, heq, ht⟩, fun gap t' rest' heq' ht' =>
            suffix_of_fits ht ht' (heq.symm.trans heq')⟩
      · next hpass =>
          obtain ⟨⟨gap, t, rfl, ht⟩, hsuffix⟩ := ih h
          refine ⟨⟨c :: gap, t, rfl, ht⟩, fun gap' t' rest' heq' ht' => ?_⟩
          cases gap' with
          | nil =>
              rw [List.nil_append] at heq'
              have hsome := pass?_eq_some_iff.2 ⟨t', heq', ht'⟩
              rw [hpass] at hsome
              cases hsome
          | cons d gap' => exact hsuffix gap' t' rest' (List.cons.inj heq').2 ht'

theorem seek?_of_pass? (h : pass? segment s = some rest) : seek? segment s = some rest := by
  cases s with
  | nil => exact h
  | cons c cs => rw [seek?, h]

theorem seek?_ne_none {gap t : List Char} (ht : Fits segment t) :
    seek? segment (gap ++ (t ++ rest)) ≠ none := by
  induction gap with
  | nil =>
      rw [List.nil_append, seek?_of_pass? (pass?_eq_some_iff.2 ⟨t, rfl, ht⟩)]
      exact Option.some_ne_none _
  | cons c gap ih =>
      rw [List.cons_append, seek?]
      split
      · exact Option.some_ne_none _
      · exact ih

theorem endsWith_iff : endsWith segment s = true ↔ ∃ gap t, s = gap ++ t ∧ Fits segment t := by
  rw [endsWith, Bool.and_eq_true, decide_eq_true_iff, beq_iff_eq, pass?_eq_some_iff]
  constructor
  · rintro ⟨-, t, hdrop, ht⟩
    rw [List.append_nil] at hdrop
    exact ⟨s.take (s.length - segment.length), t, by rw [← hdrop, List.take_append_drop], ht⟩
  · rintro ⟨gap, t, rfl, ht⟩
    rw [ht.length_eq, List.length_append]
    exact ⟨by omega, t, by simp, ht⟩

theorem TakenUp.of_suffix (h : TakenUp (segment :: more) rest) (hsuffix : rest <:+ s) :
    TakenUp (segment :: more) s := by
  obtain ⟨front, rfl⟩ := hsuffix
  cases h with
  | cons gap hsegment hmore =>
      rw [← List.append_assoc]
      exact .cons (front ++ gap) hsegment hmore

theorem acceptsTails_iff {segments : List (List Test)} :
    acceptsTails segments s = true ↔ TakenUp segments s := by
  fun_induction acceptsTails segments s with
  | case1 s =>
      rw [List.isEmpty_iff]
      constructor
      · rintro rfl
        exact .nil
      · intro h
        cases h
        rfl
  | case2 last s =>
      rw [endsWith_iff]
      constructor
      · rintro ⟨gap, t, rfl, ht⟩
        have htaken := TakenUp.cons gap ht .nil
        rwa [List.append_nil] at htaken
      · intro h
        cases h with
        | cons gap ht hrest =>
            cases hrest
            exact ⟨gap, _, by rw [List.append_nil], ht⟩
  | case3 s segment next more hseek =>
      refine ⟨fun h => (Bool.false_ne_true h).elim, fun h => ?_⟩
      cases h with
      | cons gap ht hrest => exact absurd hseek (seek?_ne_none ht)
  | case4 s segment next more rest hseek ih =>
      obtain ⟨⟨gap, t, rfl, ht⟩, hsuffix⟩ := seek?_eq_some hseek
      rw [ih]
      constructor
      · exact fun h => .cons gap ht h
      · intro h
        generalize hs : gap ++ (t ++ rest) = s at h
        cases h with
        | cons gap' ht' hrest' => exact hrest'.of_suffix (hsuffix gap' _ _ hs ht')

theorem accepts_iff {g : Glob} : g.accepts s = true ↔ g.Describes s := by
  rw [accepts, Describes]
  cases h : pass? g.head s with
  | none =>
      refine ⟨fun hf => (Bool.false_ne_true hf).elim, ?_⟩
      rintro ⟨first, rest, heq, hfirst, -⟩
      rw [pass?_eq_some_iff.2 ⟨first, heq, hfirst⟩] at h
      cases h
  | some rest =>
      obtain ⟨first, rfl, hfirst⟩ := pass?_eq_some_iff.1 h
      rw [acceptsTails_iff]
      constructor
      · exact fun htaken => ⟨first, rest, rfl, hfirst, htaken⟩
      · rintro ⟨first', rest', heq, hfirst', htaken⟩
        have hlength : first.length = first'.length := hfirst.length_eq.symm.trans hfirst'.length_eq
        rwa [(List.append_inj heq hlength).2]

end Glob

namespace Module

variable {p pattern : String} {patterns before after : List String} {excluded : Bool}

def globOf (pattern : String) : List Char :=
  (Text.after? ['!'] pattern.toList).getD pattern.toList

def LetsIn (pattern : String) : Prop := pattern.toList.head? = some '!'

/-- A pattern matches a path: its glob stands for it, or does so without a first `**/`. -/
def Matches (p pattern : String) : Prop :=
  (Glob.ofChars (globOf pattern)).Describes p.toList ∨
    ∃ g, globOf pattern = ['*', '*', '/'] ++ g ∧ (Glob.ofChars g).Describes p.toList

theorem ofText_eq (pattern : String) :
    Exclusion.ofText pattern = ⟨pattern.toList.head? == some '!', globOf pattern⟩ := by
  rw [Exclusion.ofText, globOf]
  cases pattern.toList with
  | nil => rfl
  | cons c cs =>
      by_cases hc : c = '!'
      · subst hc
        rfl
      · have hnone : Text.after? ['!'] (c :: cs) = none := if_neg (Ne.symm hc)
        rw [hnone]
        simp [hc]

theorem accepts_ofText_iff : (Exclusion.ofText pattern).accepts p = true ↔ Matches p pattern := by
  rw [ofText_eq, Exclusion.accepts, Bool.or_eq_true, Glob.accepts_iff, Matches]
  refine or_congr_right ?_
  cases h : Text.after? ['*', '*', '/'] (globOf pattern) with
  | none =>
      refine ⟨fun hf => (Bool.false_ne_true hf).elim, ?_⟩
      rintro ⟨g, hg, -⟩
      rw [Text.after?_eq_some_iff.2 hg] at h
      cases h
  | some g =>
      have hg := Text.after?_eq_some_iff.1 h
      rw [Glob.accepts_iff]
      constructor
      · exact fun hdescribes => ⟨g, hg, hdescribes⟩
      · rintro ⟨g', hg', hdescribes⟩
        rwa [List.append_cancel_left (hg.symm.trans hg')]

instance (p pattern : String) : Decidable (Matches p pattern) :=
  decidable_of_iff ((Exclusion.ofText pattern).accepts p = true) accepts_ofText_iff

instance (pattern : String) : Decidable (LetsIn pattern) :=
  inferInstanceAs (Decidable (_ = _))

theorem excludedFrom_cons (p : String) (excluded : Bool) (pattern : String) (patterns : List String) :
    excludedFrom p excluded (pattern :: patterns) =
      excludedFrom p (if Matches p pattern then !decide (LetsIn pattern) else excluded) patterns := by
  have hlets : (Exclusion.ofText pattern).lets = decide (LetsIn pattern) := by
    rw [ofText_eq, Bool.eq_iff_iff, decide_eq_true_iff]
    exact beq_iff_eq
  rw [excludedFrom, hlets]
  simp only [accepts_ofText_iff]

theorem excludedFrom_of_forall_not (excluded : Bool) (h : ∀ s ∈ patterns, ¬ Matches p s) :
    excludedFrom p excluded patterns = excluded := by
  induction patterns generalizing excluded with
  | nil => rfl
  | cons s patterns ih =>
      obtain ⟨hs, hpatterns⟩ := List.forall_mem_cons.1 h
      rw [excludedFrom_cons, if_neg hs, ih excluded hpatterns]

theorem excludedFrom_of_matches {s : String} (hs : Matches p s) (excluded excluded' : Bool)
    (after : List String) :
    excludedFrom p excluded (s :: after) = excludedFrom p excluded' (s :: after) := by
  rw [excludedFrom_cons, excludedFrom_cons, if_pos hs, if_pos hs]

theorem isExcluded_append (p : String) (before after : List String) :
    isExcluded p (before ++ after) = excludedFrom p (isExcluded p before) after :=
  excludedFrom_append p false before after

theorem isExcluded_of_last {s : String} (hs : Matches p s) (hafter : ∀ t ∈ after, ¬ Matches p t)
    (before : List String) : isExcluded p (before ++ s :: after) = !decide (LetsIn s) := by
  rw [isExcluded_append, excludedFrom_cons, if_pos hs, excludedFrom_of_forall_not _ hafter]

theorem exists_last_or (p : String) (patterns : List String) :
    (∃ before s after, patterns = before ++ s :: after ∧ Matches p s ∧ ∀ t ∈ after, ¬ Matches p t) ∨
      ∀ s ∈ patterns, ¬ Matches p s := by
  induction patterns with
  | nil => exact .inr (List.forall_mem_nil _)
  | cons s patterns ih =>
      rcases ih with ⟨before, t, after, rfl, ht, hafter⟩ | hnone
      · exact .inl ⟨s :: before, t, after, rfl, ht, hafter⟩
      · by_cases hs : Matches p s
        · exact .inl ⟨[], s, patterns, rfl, hs, hnone⟩
        · exact .inr (List.forall_mem_cons.2 ⟨hs, hnone⟩)

/-- A path is excluded exactly if some pattern matches it and the last one that does so does not let it in
again. So a pattern that does not match may be put in or left out anywhere, two patterns of one kind may
change places, and whatever stands before a pattern that matches may be left out or be anything else. -/
theorem isExcluded_lastMatch (p : String) (patterns : List String) :
    (isExcluded p patterns = true ↔ ∃ before s after, patterns = before ++ s :: after ∧ Matches p s ∧
      ¬ LetsIn s ∧ ∀ t ∈ after, ¬ Matches p t) ∧
    (∀ before s after, patterns = before ++ after → ¬ Matches p s →
      isExcluded p (before ++ s :: after) = isExcluded p patterns) ∧
    (∀ before s t after, patterns = before ++ s :: t :: after → (LetsIn s ↔ LetsIn t) →
      isExcluded p (before ++ t :: s :: after) = isExcluded p patterns) ∧
    ∀ before s after other, patterns = before ++ s :: after → Matches p s →
      isExcluded p (other ++ s :: after) = isExcluded p patterns := by
  refine ⟨⟨fun h => ?_, ?_⟩, ?_, ?_, ?_⟩
  · rcases exists_last_or p patterns with ⟨before, s, after, rfl, hs, hafter⟩ | hnone
    · rw [isExcluded_of_last hs hafter] at h
      exact ⟨before, s, after, rfl, hs, by simpa using h, hafter⟩
    · rw [isExcluded, excludedFrom_of_forall_not false hnone] at h
      cases h
  · rintro ⟨before, s, after, rfl, hs, hlets, hafter⟩
    rw [isExcluded_of_last hs hafter]
    simpa using hlets
  · rintro before s after rfl hs
    rw [isExcluded_append, isExcluded_append, excludedFrom_cons, if_neg hs]
  · rintro before s t after rfl hkind
    simp only [isExcluded_append, excludedFrom_cons, hkind]
    by_cases hs : Matches p s
    · simp only [if_pos hs, ite_self]
    · simp only [if_neg hs]
  · rintro before s after other rfl hs
    rw [isExcluded_append, isExcluded_append]
    exact excludedFrom_of_matches hs _ _ after

theorem isExcluded_lastMatch_reIncluded :
    ¬ Matches "a/b/keep.d.ts" "src/*" ∧ Matches "a/b/keep.d.ts" "!a/**/keep.?.ts" ∧
      (LetsIn "src/*" ↔ LetsIn "**/[k-m]eep*") ∧
      isExcluded "a/b/keep.d.ts" ["src/*", "**/[k-m]eep*", "!a/**/keep.?.ts"] = false ∧
      isExcluded "a/b/keep.d.ts" ["**/[k-m]eep*", "!a/**/keep.?.ts"] = false ∧
      isExcluded "a/b/keep.d.ts" ["**/[k-m]eep*", "src/*", "!a/**/keep.?.ts"] = false ∧
      isExcluded "a/b/keep.d.ts" ["!a/**/keep.?.ts"] = false := by
  have hnot : ¬ Matches "a/b/keep.d.ts" "src/*" := by decide +kernel
  have hlast : Matches "a/b/keep.d.ts" "!a/**/keep.?.ts" := by decide +kernel
  have hkind : LetsIn "src/*" ↔ LetsIn "**/[k-m]eep*" := by decide
  obtain ⟨-, -, hswap, hdrop⟩ := isExcluded_lastMatch "a/b/keep.d.ts"
    ["src/*", "**/[k-m]eep*", "!a/**/keep.?.ts"]
  obtain ⟨-, hinsert, -⟩ := isExcluded_lastMatch "a/b/keep.d.ts" ["**/[k-m]eep*", "!a/**/keep.?.ts"]
  have hfalse : isExcluded "a/b/keep.d.ts" ["src/*", "**/[k-m]eep*", "!a/**/keep.?.ts"] = false := by
    decide +kernel
  have hshort := hinsert [] "src/*" ["**/[k-m]eep*", "!a/**/keep.?.ts"] rfl hnot
  exact ⟨hnot, hlast, hkind, hfalse, hshort.symm.trans hfalse,
    (hswap [] "src/*" "**/[k-m]eep*" ["!a/**/keep.?.ts"] rfl hkind).trans hfalse,
    (hdrop ["src/*", "**/[k-m]eep*"] "!a/**/keep.?.ts" [] [] rfl hlast).trans hfalse⟩

end Module

end DeclBundle
