import DeclBundle.Json.Comment
import Mathlib.Data.List.Infix
import Mathlib.Data.Nat.Find

/-!
# The stretches of a settings text

A settings text consists of strings, comments of both kinds and single characters, from left to right:
`Scans s ps` says that `ps` are the stretches of `s`. A string or a comment goes on to the first place where
it may end, or to the end of the text (`Enclosure.FirstEnd`, `Enclosure.NoEnd`), so that every text has just
one row of stretches (`exists_scans`, `Scans.unique`). Dropping the comments leaves the other stretches
(`Scans.uncomment_eq`), and these are the stretches of what is left (`Scans.uncomment`): no comment comes
about where another one was dropped, since a slash is never a single character before it.
-/

namespace DeclBundle.Json

inductive Enclosure where
  | string
  | line
  | block

/-- Whether the next character is escaped: an odd number of backslashes stands before it. -/
def isEscaping (before : List Char) : Bool := (before.reverse.takeWhile (· == '\\')).length % 2 == 1

namespace Enclosure

def opening : Enclosure → List Char
  | string => ['"']
  | line => ['/', '/']
  | block => ['/', '*']

/-- The mark at the end; a line feed does not belong to the comment that it ends. -/
def closing : Enclosure → List Char
  | string => ['"']
  | line => []
  | block => ['*', '/']

/-- It may end between two parts of the text behind its opening mark. -/
def EndsAt : Enclosure → List Char → List Char → Prop
  | string, before, after => after.head? = some '"' ∧ isEscaping before = false
  | line, _, after => after.head? = some '\n'
  | block, _, after => ['*', '/'] <+: after

def FirstEnd (e : Enclosure) (body after : List Char) : Prop :=
  e.EndsAt body after ∧
    ∀ before more, before ++ more = body ++ after → before.length < body.length → ¬ e.EndsAt before more

def NoEnd (e : Enclosure) (s : List Char) : Prop :=
  ∀ before after, before ++ after = s → ¬ e.EndsAt before after

end Enclosure

inductive Stretch where
  /-- A string or a comment with what stands between its marks, and whether there is an end to it. -/
  | enclosed (e : Enclosure) (body : List Char) (closed : Bool)
  | single (c : Char)

namespace Stretch

def chars : Stretch → List Char
  | enclosed e body true => e.opening ++ (body ++ e.closing)
  | enclosed e body false => e.opening ++ body
  | single c => [c]

def isComment : Stretch → Bool
  | enclosed .string _ _ => false
  | enclosed _ _ _ => true
  | single _ => false

/-- A stretch is the first one of its characters and what follows them. -/
def Fits : Stretch → List Char → Prop
  | enclosed e body true, rest => e.FirstEnd body (e.closing ++ rest)
  | enclosed e body false, rest => rest = [] ∧ e.NoEnd body
  | single c, rest => ∀ e : Enclosure, ¬ e.opening <+: c :: rest

end Stretch

/-- The stretches of a text, from left to right. -/
inductive Scans : List Char → List Stretch → Prop
  | nil : Scans [] []
  | cons {p : Stretch} {rest : List Char} {ps : List Stretch} (h : p.Fits rest) (hrest : Scans rest ps) :
      Scans (p.chars ++ rest) (p :: ps)

def kept (ps : List Stretch) : List Stretch := ps.filter fun p => !p.isComment

theorem isEscaping_concat (s : List Char) (c : Char) :
    isEscaping (s ++ [c]) = (c == '\\' && !isEscaping s) := by
  rw [isEscaping, isEscaping, List.reverse_append, List.reverse_singleton, List.singleton_append,
    List.takeWhile_cons]
  cases hc : c == '\\' with
  | false => rfl
  | true =>
      simp only [if_true, List.length_cons, Bool.true_and]
      generalize (s.reverse.takeWhile (· == '\\')).length = n
      rcases Nat.mod_two_eq_zero_or_one n with h | h
      · simp [Nat.add_mod, h]
      · simp [Nat.add_mod, h]

namespace Enclosure

variable {e e' : Enclosure} {before after body s : List Char}

theorem opening_ne_nil (e : Enclosure) : e.opening ≠ [] := by cases e <;> exact List.cons_ne_nil _ _

theorem eq_of_opening (h : e.opening <+: s) (h' : e'.opening <+: s) : e = e' := by
  rcases List.prefix_or_prefix_of_prefix h h' with hpre | hpre
  · cases e <;> cases e' <;> first | rfl | exact absurd hpre (by decide)
  · cases e <;> cases e' <;> first | rfl | exact absurd hpre (by decide)

theorem EndsAt.closing_isPrefix (h : e.EndsAt before after) : e.closing <+: after := by
  cases e with
  | string =>
      obtain ⟨rest, rfl⟩ := List.head?_eq_some_iff.1 h.1
      exact ⟨rest, rfl⟩
  | line => exact List.nil_prefix
  | block => exact h

theorem exists_firstEnd_or (e : Enclosure) (s : List Char) :
    (∃ body after, s = body ++ after ∧ e.FirstEnd body after) ∨ e.NoEnd s := by
  by_cases h : ∃ n before after, before.length = n ∧ before ++ after = s ∧ e.EndsAt before after
  · classical
    obtain ⟨body, after, hlength, hs, hend⟩ := Nat.find_spec h
    refine .inl ⟨body, after, hs.symm, hend, fun before more hmore hlt hbefore => ?_⟩
    exact Nat.find_min h (hlength ▸ hlt) ⟨before, more, rfl, hmore.trans hs, hbefore⟩
  · exact .inr fun before after hs hend => h ⟨_, before, after, rfl, hs, hend⟩

theorem FirstEnd.unique {body' after' : List Char} (h : e.FirstEnd body after)
    (h' : e.FirstEnd body' after') (heq : body ++ after = body' ++ after') :
    body = body' ∧ after = after' := by
  refine List.append_inj heq (Nat.le_antisymm ?_ ?_)
  · exact not_lt.1 fun hlt => h.2 body' after' heq.symm hlt h'.1
  · exact not_lt.1 fun hlt => h'.2 body after heq hlt h.1

end Enclosure

/-! ### Every text has its stretches -/

theorem exists_fits {s : List Char} (h : s ≠ []) :
    ∃ (p : Stretch) (rest : List Char), s = p.chars ++ rest ∧ p.Fits rest := by
  by_cases hopen : ∃ e : Enclosure, e.opening <+: s
  · obtain ⟨e, t, rfl⟩ := hopen
    rcases e.exists_firstEnd_or t with ⟨body, after, rfl, hend⟩ | hnone
    · obtain ⟨rest, rfl⟩ := hend.1.closing_isPrefix
      exact ⟨.enclosed e body true, rest, by simp [Stretch.chars], hend⟩
    · exact ⟨.enclosed e t false, [], by simp [Stretch.chars], rfl, hnone⟩
  · obtain ⟨c, rest, rfl⟩ := List.exists_cons_of_ne_nil h
    exact ⟨.single c, rest, rfl, fun e he => hopen ⟨e, he⟩⟩

namespace Stretch

theorem chars_ne_nil (p : Stretch) : p.chars ≠ [] := by
  cases p with
  | enclosed e body closed => cases closed <;> simp [chars, e.opening_ne_nil]
  | single c => exact List.cons_ne_nil _ _

theorem opening_isPrefix (e : Enclosure) (body : List Char) (closed : Bool) (rest : List Char) :
    e.opening <+: (enclosed e body closed).chars ++ rest := by
  cases closed with
  | true => exact ⟨body ++ e.closing ++ rest, by simp [chars]⟩
  | false => exact ⟨body ++ rest, by simp [chars]⟩

theorem Fits.enclosed_unique {e : Enclosure} {body body' rest rest' : List Char} {closed closed' : Bool}
    (hp : (enclosed e body closed).Fits rest) (hq : (enclosed e body' closed').Fits rest')
    (heq : (enclosed e body closed).chars ++ rest = (enclosed e body' closed').chars ++ rest') :
    enclosed e body closed = enclosed e body' closed' ∧ rest = rest' := by
  cases closed with
  | true =>
      cases closed' with
      | true =>
          simp only [chars, List.append_assoc, List.append_cancel_left_eq] at heq
          obtain ⟨rfl, hafter⟩ := Enclosure.FirstEnd.unique hp hq heq
          exact ⟨rfl, List.append_cancel_left hafter⟩
      | false =>
          obtain ⟨rfl, hnone⟩ := hq
          simp only [chars, List.append_assoc, List.append_cancel_left_eq, List.append_nil] at heq
          exact absurd hp.1 (hnone _ _ heq)
  | false =>
      obtain ⟨rfl, hnone⟩ := hp
      cases closed' with
      | true =>
          simp only [chars, List.append_assoc, List.append_cancel_left_eq, List.append_nil] at heq
          exact absurd hq.1 (hnone _ _ heq.symm)
      | false =>
          obtain ⟨rfl, -⟩ := hq
          simp only [chars, List.append_cancel_left_eq, List.append_nil] at heq
          exact ⟨by rw [heq], rfl⟩

theorem Fits.unique {p q : Stretch} {rest rest' : List Char} (hp : p.Fits rest) (hq : q.Fits rest')
    (heq : p.chars ++ rest = q.chars ++ rest') : p = q ∧ rest = rest' := by
  cases p with
  | single c =>
      cases q with
      | single d => simpa [chars] using heq
      | enclosed e body closed =>
          have hopen : e.opening <+: (single c).chars ++ rest := heq ▸ opening_isPrefix e body closed rest'
          exact absurd hopen (hp e)
  | enclosed e body closed =>
      have hopen := opening_isPrefix e body closed rest
      cases q with
      | single d =>
          rw [heq] at hopen
          exact absurd hopen (hq e)
      | enclosed e' body' closed' =>
          obtain rfl := Enclosure.eq_of_opening hopen (heq ▸ opening_isPrefix e' body' closed' rest')
          exact hp.enclosed_unique hq heq

end Stretch

theorem exists_scans (s : List Char) : ∃ ps, Scans s ps := by
  induction h : s.length using Nat.strong_induction_on generalizing s with
  | _ n ih =>
      rcases eq_or_ne s [] with rfl | hs
      · exact ⟨[], .nil⟩
      · obtain ⟨p, rest, rfl, hp⟩ := exists_fits hs
        have hpos := List.length_pos_of_ne_nil p.chars_ne_nil
        obtain ⟨ps, hps⟩ := ih rest.length (by rw [← h, List.length_append]; omega) rest rfl
        exact ⟨p :: ps, .cons hp hps⟩

namespace Scans

variable {s : List Char} {ps qs : List Stretch}

theorem flatMap_chars (h : Scans s ps) : ps.flatMap Stretch.chars = s := by
  induction h with
  | nil => rfl
  | cons _ _ ih => rw [List.flatMap_cons, ih]

theorem unique (h : Scans s ps) (h' : Scans s qs) : ps = qs := by
  induction h generalizing qs with
  | nil =>
      have hqs := h'.flatMap_chars
      cases qs with
      | nil => rfl
      | cons q qs => simp [q.chars_ne_nil] at hqs
  | @cons p rest ps hp _ ih =>
      generalize ht : p.chars ++ rest = t at h'
      cases h' with
      | nil => simp [p.chars_ne_nil] at ht
      | @cons q rest' qs hq hrest' =>
          obtain ⟨rfl, rfl⟩ := hp.unique hq ht
          rw [ih hrest']

end Scans

/-! ### What becomes of the stretches -/

namespace Enclosure

variable {e : Enclosure} {seen body after : List Char}

/-- What is left of the text behind an opening mark, where a part of it has been read. -/
def remainder : Enclosure → List Char → List Char → List Char
  | string, seen, s =>
    if isEscaping seen then s.take 1 ++ uncomment .quoted (s.drop 1) else uncomment .quoted s
  | line, _, s => uncomment .line s
  | block, _, s => uncomment .block s

def keptOf : Enclosure → List Char → List Char
  | string, s => s
  | _, _ => []

theorem keptOf_append (e : Enclosure) (s t : List Char) : e.keptOf (s ++ t) = e.keptOf s ++ e.keptOf t := by
  cases e <;> rfl

theorem remainder_nil (e : Enclosure) (seen : List Char) : e.remainder seen [] = [] := by
  cases e with
  | string => simp [remainder]
  | line => rfl
  | block => rfl

theorem remainder_cons {c : Char} (h : ¬ e.EndsAt seen (c :: after)) :
    e.remainder seen (c :: after) = e.keptOf [c] ++ e.remainder (seen ++ [c]) after := by
  cases e with
  | string =>
      rw [remainder, remainder, isEscaping_concat, keptOf, List.singleton_append]
      cases hseen : isEscaping seen with
      | true => simp
      | false =>
          have hquote : c ≠ '"' := by
            rintro rfl
            exact h ⟨rfl, hseen⟩
          by_cases hc : c = '\\'
          · subst hc
            cases after with
            | nil => rfl
            | cons d ds => rfl
          · have hplain : uncomment .quoted (c :: after) = c :: uncomment .quoted after := by
              rw [uncomment]
              · exact fun _ _ heq _ => hc heq
              · exact hquote
            simpa [hc] using hplain
  | line =>
      have hc : c ≠ '\n' := by
        rintro rfl
        exact h rfl
      rw [remainder, uncomment]
      · rfl
      · exact hc
  | block =>
      refine uncomment_block_cons fun hc hhead => h ?_
      obtain ⟨rest, rfl⟩ := List.head?_eq_some_iff.1 hhead
      exact ⟨rest, by rw [hc]; rfl⟩

theorem remainder_closing {rest : List Char} (h : e.EndsAt seen (e.closing ++ rest)) :
    e.remainder seen (e.closing ++ rest) = e.keptOf e.closing ++ uncomment .plain rest := by
  cases e with
  | string =>
      rw [remainder, h.2, if_neg Bool.false_ne_true]
      rfl
  | line =>
      obtain ⟨t, rfl⟩ : ∃ t, rest = '\n' :: t := List.head?_eq_some_iff.1 h
      rfl
  | block => rfl

theorem remainder_append (seen : List Char)
    (h : ∀ before more, before ++ more = body ++ after → before.length < body.length →
      ¬ e.EndsAt (seen ++ before) more) :
    e.remainder seen (body ++ after) = e.keptOf body ++ e.remainder (seen ++ body) after := by
  induction body generalizing seen with
  | nil => cases e <;> simp [keptOf]
  | cons c body ih =>
      have hfirst : ¬ e.EndsAt seen (c :: (body ++ after)) := by
        simpa using h [] (c :: (body ++ after)) rfl (by simp)
      have hrest := ih (seen ++ [c]) fun before more heq hlt => by
        simpa using h (c :: before) more (by rw [List.cons_append, heq, List.cons_append])
          (by simpa using hlt)
      rw [List.cons_append, remainder_cons hfirst, hrest, ← List.append_assoc, ← keptOf_append,
        List.append_assoc seen]
      rfl

theorem uncomment_opening (e : Enclosure) (s : List Char) :
    uncomment .plain (e.opening ++ s) = e.keptOf e.opening ++ e.remainder [] s := by
  cases e <;> rfl

end Enclosure

namespace Stretch

theorem chars_eq_keptOf (e : Enclosure) (body : List Char) (closed : Bool) :
    (if (enclosed e body closed).isComment then [] else (enclosed e body closed).chars) =
      e.keptOf (enclosed e body closed).chars := by
  cases e <;> rfl

/-- The first stretch of a text goes if it is a comment, and stays otherwise. -/
theorem Fits.uncomment_append {p : Stretch} {rest : List Char} (h : p.Fits rest) :
    uncomment .plain (p.chars ++ rest) = (if p.isComment then [] else p.chars) ++ uncomment .plain rest := by
  cases p with
  | single c =>
      have hopen : ∀ e : Enclosure, ∀ t, e.opening ++ t ≠ c :: rest := fun e t heq => h e ⟨t, heq⟩
      change uncomment .plain (c :: rest) = c :: uncomment .plain rest
      rw [uncomment]
      · rintro rfl
        exact hopen .string rest rfl
      · rintro t rfl rfl
        exact hopen .line t rfl
      · rintro t rfl rfl
        exact hopen .block t rfl
  | enclosed e body closed =>
      rw [chars_eq_keptOf]
      cases closed with
      | true =>
          have hbody := Enclosure.remainder_append [] h.2
          rw [chars, List.append_assoc, List.append_assoc, Enclosure.uncomment_opening, hbody,
            List.nil_append, Enclosure.remainder_closing h.1, Enclosure.keptOf_append,
            Enclosure.keptOf_append, List.append_assoc, List.append_assoc]
      | false =>
          obtain ⟨rfl, hnone⟩ := h
          have hbody : e.remainder [] (body ++ []) = e.keptOf body ++ e.remainder ([] ++ body) [] :=
            Enclosure.remainder_append [] fun before more heq _ => hnone before more (by simpa using heq)
          rw [List.append_nil] at hbody
          rw [chars, List.append_nil, Enclosure.uncomment_opening, hbody, Enclosure.remainder_nil,
            Enclosure.keptOf_append, uncomment_nil, List.append_nil, List.append_nil]

end Stretch

/-- Nothing but a slash comes to stand in front of what stays of a text that begins with none. -/
theorem head?_uncomment {s : List Char} (h : s.head? ≠ some '/') :
    (uncomment .plain s).head? = s.head? := by
  cases s with
  | nil => rfl
  | cons c cs =>
      have hc : c ≠ '/' := fun heq => h (by rw [heq, List.head?_cons])
      by_cases hquote : c = '"'
      · subst hquote
        rfl
      · rw [uncomment_plain_cons hquote hc]
        rfl

theorem Stretch.Fits.single_uncomment {c : Char} {rest : List Char} (h : (Stretch.single c).Fits rest) :
    (Stretch.single c).Fits (uncomment .plain rest) := by
  have hhead : c = '/' → (uncomment .plain rest).head? = rest.head? := by
    rintro rfl
    refine head?_uncomment fun hrest => ?_
    obtain ⟨t, rfl⟩ := List.head?_eq_some_iff.1 hrest
    exact h .line ⟨t, rfl⟩
  have hmark : ∀ d, ['/', d] <+: c :: uncomment .plain rest → ['/', d] <+: c :: rest := by
    intro d hd
    obtain ⟨rfl, t, ht⟩ := List.cons_prefix_cons.1 hd
    obtain ⟨t', rfl⟩ : ∃ t', rest = d :: t' :=
      List.head?_eq_some_iff.1 (by rw [← hhead rfl, ← ht]; rfl)
    exact ⟨t', rfl⟩
  intro e he
  cases e with
  | string =>
      obtain rfl := (List.cons_prefix_cons.1 he).1
      exact h .string ⟨rest, rfl⟩
  | line => exact h .line (hmark '/' he)
  | block => exact h .block (hmark '*' he)

theorem Enclosure.FirstEnd.string_append {body rest : List Char}
    (h : Enclosure.string.FirstEnd body ('"' :: rest)) (rest' : List Char) :
    Enclosure.string.FirstEnd body ('"' :: rest') := by
  refine ⟨⟨rfl, h.1.2⟩, fun before more heq hlt hend => ?_⟩
  obtain ⟨tail, rfl⟩ : before <+: body :=
    List.prefix_of_prefix_length_le ⟨more, heq⟩ (List.prefix_append _ _) hlt.le
  rw [List.append_assoc, List.append_cancel_left_eq] at heq
  cases tail with
  | nil => simp at hlt
  | cons c tail =>
      refine h.2 before (c :: tail ++ '"' :: rest) (by simp) hlt ⟨?_, hend.2⟩
      rw [heq] at hend
      exact hend.1

namespace Scans

variable {s : List Char} {ps : List Stretch}

theorem uncomment_eq (h : Scans s ps) : Json.uncomment .plain s = (kept ps).flatMap Stretch.chars := by
  induction h with
  | nil => rfl
  | @cons p rest ps hp _ ih =>
      rw [hp.uncomment_append, ih, kept, kept, List.filter_cons]
      cases p.isComment with
      | true => rfl
      | false => rfl

theorem uncomment (h : Scans s ps) : Scans (Json.uncomment .plain s) (kept ps) := by
  induction h with
  | nil => exact .nil
  | @cons p rest ps hp hrest ih =>
      rw [hp.uncomment_append, kept, List.filter_cons]
      have hstay : p.isComment = false → p.Fits (Json.uncomment .plain rest) := by
        intro hcomment
        cases p with
        | single c => exact hp.single_uncomment
        | enclosed e body closed =>
            cases e with
            | string =>
                cases closed with
                | true => exact hp.string_append _
                | false => exact ⟨by rw [hp.1, uncomment_nil], hp.2⟩
            | line => cases hcomment
            | block => cases hcomment
      cases hcomment : p.isComment with
      | true => exact ih
      | false => exact .cons (hstay hcomment) ih

end Scans

theorem kept_kept (ps : List Stretch) : kept (kept ps) = kept ps := by
  rw [kept, kept, List.filter_filter]
  simp

/-- A settings text has one row of stretches. Without its comments it consists of the other stretches, in
order, which are then its stretches, so that dropping the comments once more changes nothing. -/
theorem withoutComments_scans (s : String) :
    ∃ ps, Scans s.toList ps ∧ (∀ qs, Scans s.toList qs → qs = ps) ∧
      s.toList = ps.flatMap Stretch.chars ∧
      (withoutComments s).toList = (kept ps).flatMap Stretch.chars ∧
      Scans (withoutComments s).toList (kept ps) ∧
      withoutComments (withoutComments s) = withoutComments s := by
  obtain ⟨ps, hps⟩ := exists_scans s.toList
  have hkept : Scans (withoutComments s).toList (kept ps) := by
    rw [withoutComments, String.toList_ofList]
    exact hps.uncomment
  have hchars : (withoutComments s).toList = (kept ps).flatMap Stretch.chars := hkept.flatMap_chars.symm
  refine ⟨ps, hps, fun qs hqs => hqs.unique hps, hps.flatMap_chars.symm, hchars, hkept, ?_⟩
  rw [← String.toList_inj, hchars, withoutComments, String.toList_ofList, hkept.uncomment_eq, kept_kept]

/-- Marks in a string open no comment, and what stands around a comment makes up no new one. -/
example : withoutComments "\"a\\\"//\" / /*\"*// *//*/ // \"" = "\"a\\\"//\" / / *" := by
  decide +kernel

end DeclBundle.Json
