import DeclBundle.Proofs.Written
import Mathlib.Data.List.Infix

/-!
# Indentation line by line

`Text.cut eol s` are the lines of a text, cut at each line end, and `join` puts the line ends back. `nest`
puts the unit of indentation before each line behind the first that is not empty, and does nothing else
(`nestFrom_eq_join`). The unit has no line end in it, so the lines that come out are the indented ones, and
`unnest`, which takes the unit away from them, gives the text back (`unnest_nest`).
-/

namespace DeclBundle

namespace Text

/-- The lines of a text; the counter is the number of characters of a line end that are still to be
passed over. -/
def cutFrom (eol : List Char) : Nat → List Char → List (List Char)
  | _, [] => [[]]
  | k + 1, _ :: cs => cutFrom eol k cs
  | 0, c :: cs =>
    if eol.isPrefixOf (c :: cs) then [] :: cutFrom eol (eol.length - 1) cs
    else prependTo c (cutFrom eol 0 cs)

/-- The stretches of a text between its line ends. -/
def cut (eol s : List Char) : List (List Char) := cutFrom eol 0 s

/-- The number of places in a text at which a line end begins. -/
def occurrences (eol s : List Char) : Nat := s.tails.countP eol.isPrefixOf

def behindFirst (f : List Char → List Char) : List (List Char) → List (List Char)
  | [] => []
  | p :: ps => p :: ps.map f

/-- A line with a unit of indentation before it, unless it is empty. -/
def indented (indent p : List Char) : List Char := if p = [] then [] else indent ++ p

def unindented (indent p : List Char) : List Char := (after? indent p).getD p

variable {eol s p : List Char} {ps : List (List Char)}

/-- What holds of the empty text and stays true before a line end, and before any other character,
holds of all texts. -/
theorem lineInduction {motive : List Char → Prop} (hne : eol ≠ []) (nil : motive [])
    (lineEnd : ∀ rest, motive rest → motive (eol ++ rest))
    (cons : ∀ c cs, ¬ eol <+: c :: cs → motive cs → motive (c :: cs)) (s : List Char) : motive s := by
  induction h : s.length using Nat.strongRecOn generalizing s with
  | _ n ih =>
      subst h
      by_cases hs : eol <+: s
      · obtain ⟨rest, rfl⟩ := hs
        refine lineEnd rest (ih _ ?_ rest rfl)
        have := List.length_pos_iff.2 hne
        rw [List.length_append]
        omega
      · cases s with
        | nil => exact nil
        | cons c cs => exact cons c cs hs (ih _ (Nat.lt_succ_self _) cs rfl)

@[simp] theorem cut_nil (eol : List Char) : cut eol [] = [[]] := rfl

theorem cutFrom_append (eol u s : List Char) : cutFrom eol u.length (u ++ s) = cut eol s := by
  induction u with
  | nil => rfl
  | cons c u ih => rw [List.cons_append, List.length_cons, cutFrom, ih]

theorem cut_append (hne : eol ≠ []) (s : List Char) : cut eol (eol ++ s) = [] :: cut eol s := by
  cases eol with
  | nil => exact absurd rfl hne
  | cons x xs =>
      have hstarts : (x :: xs).isPrefixOf (x :: (xs ++ s)) = true := by simp
      rw [List.cons_append, cut, cutFrom, if_pos hstarts, List.length_cons, Nat.add_sub_cancel,
        cutFrom_append]

theorem cut_cons {c : Char} {cs : List Char} (h : ¬ eol <+: c :: cs) :
    cut eol (c :: cs) = prependTo c (cut eol cs) := by
  rw [cut, cutFrom, if_neg (mt List.isPrefixOf_iff_prefix.1 h), cut]

theorem exists_cut_eq_cons (hne : eol ≠ []) (s : List Char) : ∃ p ps, cut eol s = p :: ps := by
  induction s using lineInduction hne with
  | nil => exact ⟨[], [], rfl⟩
  | lineEnd rest _ => exact ⟨[], cut eol rest, cut_append hne rest⟩
  | cons c cs h ih =>
      obtain ⟨p, ps, hcut⟩ := ih
      exact ⟨c :: p, ps, by rw [cut_cons h, hcut, prependTo]⟩

theorem join_cons (hps : ps ≠ []) (eol p : List Char) :
    join eol (p :: ps) = p ++ (eol ++ join eol ps) := by
  cases ps with
  | nil => exact absurd rfl hps
  | cons q qs => rw [join_cons_cons, List.append_assoc]

theorem join_append_cons (eol u p : List Char) (ps : List (List Char)) :
    join eol ((u ++ p) :: ps) = u ++ join eol (p :: ps) := by
  cases ps with
  | nil => rfl
  | cons q qs => simp only [join_cons_cons, List.append_assoc]

theorem join_prependTo (eol : List Char) (c : Char) (p : List Char) (ps : List (List Char)) :
    join eol (prependTo c (p :: ps)) = c :: join eol (p :: ps) := by
  cases ps <;> rfl

theorem join_cut (hne : eol ≠ []) (s : List Char) : join eol (cut eol s) = s := by
  induction s using lineInduction hne with
  | nil => rfl
  | lineEnd rest ih =>
      obtain ⟨p, ps, hcut⟩ := exists_cut_eq_cons hne rest
      rw [cut_append hne, join_cons (by simp [hcut]), ih, List.nil_append]
  | cons c cs h ih =>
      obtain ⟨p, ps, hcut⟩ := exists_cut_eq_cons hne cs
      rw [cut_cons h, hcut, join_prependTo, ← hcut, ih]

theorem prefix_of_cut_eq_cons (hne : eol ≠ []) (h : cut eol s = p :: ps) : p <+: s := by
  have hjoin := join_cut hne s
  rw [h] at hjoin
  cases ps with
  | nil => exact ⟨[], by simpa using hjoin⟩
  | cons q qs => exact ⟨eol ++ join eol (q :: qs), by rw [← hjoin, join_cons_cons, List.append_assoc]⟩

theorem not_infix_of_mem_cut (hne : eol ≠ []) (h : p ∈ cut eol s) : ¬ eol <:+: p := by
  induction s using lineInduction hne generalizing p with
  | nil =>
      obtain rfl : p = [] := by simpa using h
      exact fun hinfix => hne (List.infix_nil.1 hinfix)
  | lineEnd rest ih =>
      rw [cut_append hne, List.mem_cons] at h
      rcases h with rfl | h
      · exact fun hinfix => hne (List.infix_nil.1 hinfix)
      · exact ih h
  | cons c cs hc ih =>
      obtain ⟨q, qs, hcut⟩ := exists_cut_eq_cons hne cs
      rw [cut_cons hc, hcut, prependTo, List.mem_cons] at h
      rcases h with rfl | h
      · rw [List.infix_cons_iff]
        rintro (hstarts | hinfix)
        · exact hc (hstarts.trans ((List.prefix_cons_inj c).2 (prefix_of_cut_eq_cons hne hcut)))
        · exact ih (by simp [hcut]) hinfix
      · exact ih (by simp [hcut, h])

/-- The first line is empty exactly if the text is or begins with a line end. -/
theorem eq_nil_iff_of_cut_eq_cons (hne : eol ≠ []) (h : cut eol s = p :: ps) :
    p = [] ↔ s = [] ∨ eol <+: s := by
  cases s with
  | nil => simp_all
  | cons c cs =>
      by_cases hstarts : eol <+: c :: cs
      · obtain ⟨rest, hrest⟩ := hstarts
        rw [← hrest, cut_append hne] at h
        simp [← hrest, (List.cons.inj h).1.symm]
      · obtain ⟨q, qs, hcut⟩ := exists_cut_eq_cons hne cs
        rw [cut_cons hstarts, hcut, prependTo] at h
        simp [hstarts, ← (List.cons.inj h).1]

theorem cut_of_not_infix (hp : ¬ eol <:+: p) : cut eol p = [p] := by
  induction p with
  | nil => rfl
  | cons c p ih =>
      rw [List.infix_cons_iff, not_or] at hp
      rw [cut_cons hp.1, ih hp.2, prependTo]

section LineEnd

variable (heol : eol = ['\n'] ∨ eol = ['\r', '\n'])
include heol

theorem eol_ne_nil : eol ≠ [] := by
  rcases heol with rfl | rfl <;> simp

theorem cut_append_append (hp : ¬ eol <:+: p) (s : List Char) :
    cut eol (p ++ (eol ++ s)) = p :: cut eol s := by
  induction p with
  | nil => exact cut_append (eol_ne_nil heol) s
  | cons c p ih =>
      rw [List.infix_cons_iff, not_or] at hp
      have hc : ¬ eol <+: c :: (p ++ (eol ++ s)) := by
        rcases heol with rfl | rfl
        · simpa using hp.1
        · cases p with
          | nil => simp
          | cons d p => simpa using hp.1
      rw [List.cons_append, cut_cons hc, ih hp.2, prependTo]

theorem cut_join (hne : ps ≠ []) (hps : ∀ p ∈ ps, ¬ eol <:+: p) : cut eol (join eol ps) = ps := by
  induction ps with
  | nil => exact absurd rfl hne
  | cons p ps ih =>
      obtain ⟨hp, hps⟩ := List.forall_mem_cons.1 hps
      cases ps with
      | nil => exact cut_of_not_infix hp
      | cons q qs =>
          rw [join_cons (List.cons_ne_nil q qs), cut_append_append heol hp,
            ih (List.cons_ne_nil q qs) hps]

theorem length_cut (s : List Char) : (cut eol s).length = occurrences eol s + 1 := by
  have hne := eol_ne_nil heol
  induction s using lineInduction hne with
  | nil =>
      have hnil : eol.isPrefixOf [] = false := by
        rcases heol with rfl | rfl <;> rfl
      simp [occurrences, hnil]
  | lineEnd rest ih =>
      rw [cut_append hne, List.length_cons, ih]
      rcases heol with rfl | rfl <;> simp [occurrences]
  | cons c cs h ih =>
      obtain ⟨p, ps, hcut⟩ := exists_cut_eq_cons hne cs
      rw [cut_cons h, hcut, prependTo, List.length_cons, ← List.length_cons (a := p), ← hcut, ih]
      simp [occurrences, h]

variable {indent : List Char} (hindent : ∀ c ∈ indent, c ≠ '\n' ∧ c ≠ '\r')
include hindent

theorem not_infix_indented (hp : ¬ eol <:+: p) : ¬ eol <:+: indented indent p := by
  have happend : ∀ u : List Char, (∀ c ∈ u, c ≠ '\n' ∧ c ≠ '\r') → ¬ eol <:+: u ++ p := by
    intro u hu
    induction u with
    | nil => exact hp
    | cons c u ih =>
        obtain ⟨⟨hfeed, hreturn⟩, hu⟩ := List.forall_mem_cons.1 hu
        rw [List.cons_append, List.infix_cons_iff, not_or]
        refine ⟨fun hstarts => ?_, ih hu⟩
        rcases heol with rfl | rfl
        · exact hfeed (List.cons_prefix_cons.1 hstarts).1.symm
        · exact hreturn (List.cons_prefix_cons.1 hstarts).1.symm
  unfold indented
  split
  case isTrue => exact fun hinfix => eol_ne_nil heol (List.infix_nil.1 hinfix)
  case isFalse => exact happend indent hindent

end LineEnd

theorem unindented_indented (indent p : List Char) : unindented indent (indented indent p) = p := by
  unfold indented unindented
  split
  case isTrue hp =>
    subst hp
    cases indent <;> rfl
  case isFalse => rw [after?_append, Option.getD_some]

end Text

namespace Emission

open Text

/-- A text with the unit of indentation taken away from each line behind the first. -/
def unnest (eol indent : String) (text : String) : String :=
  String.ofList (join eol.toList
    (behindFirst (unindented indent.toList) (cut eol.toList text.toList)))

section LineEnd

variable {eol : List Char} (heol : eol = ['\n'] ∨ eol = ['\r', '\n']) (indent : List Char)

theorem nestFrom_cons {c : Char} {cs : List Char} (h : ¬ eol <+: c :: cs) :
    nestFrom eol indent 0 (c :: cs) = c :: nestFrom eol indent 0 cs := by
  have hbreaks : breaks eol (c :: cs) = false := by
    unfold breaks
    cases hafter : after? eol (c :: cs) with
    | none => rfl
    | some rest => exact absurd ⟨rest, (after?_eq_some_iff.1 hafter).symm⟩ h
  simp [nestFrom, hbreaks]

theorem breaks_append (eol rest : List Char) :
    breaks eol (eol ++ rest) = true ↔ rest ≠ [] ∧ ¬ eol <+: rest := by
  have hnone : after? eol rest = none ↔ ¬ eol <+: rest := by
    rw [Option.eq_none_iff_forall_ne_some]
    simp only [ne_eq, after?_eq_some_iff, List.prefix_iff_exists_append_eq, eq_comm (a := rest),
      not_exists]
  rw [breaks, after?_append]
  simp [hnone]

include heol

theorem nestFrom_append (rest : List Char) :
    nestFrom eol indent 0 (eol ++ rest) =
      eol ++ ((if rest = [] ∨ eol <+: rest then [] else indent) ++ nestFrom eol indent 0 rest) := by
  have hbreaks := breaks_append eol rest
  by_cases hempty : rest = [] ∨ eol <+: rest
  · have hnot : breaks eol (eol ++ rest) = false := by
      rw [Bool.eq_false_iff, ne_eq, hbreaks, ← not_or, not_not]
      exact hempty
    rw [if_pos hempty, List.nil_append]
    rcases heol with rfl | rfl
    · rw [List.singleton_append] at hnot ⊢
      simp [nestFrom, hnot]
    · have hfeed : breaks ['\r', '\n'] ('\n' :: rest) = false := by simp [breaks, after?]
      simp only [List.cons_append, List.nil_append] at hnot ⊢
      simp [nestFrom, hnot, hfeed]
  · have hyes : breaks eol (eol ++ rest) = true := by
      rw [hbreaks, ← not_or]
      exact hempty
    rw [if_neg hempty]
    rcases heol with rfl | rfl
    · rw [List.singleton_append] at hyes ⊢
      simp [nestFrom, hyes]
    · simp only [List.cons_append, List.nil_append] at hyes ⊢
      simp [nestFrom, hyes]

theorem nestFrom_eq_join (s : List Char) :
    nestFrom eol indent 0 s = join eol (behindFirst (indented indent) (cut eol s)) := by
  have hne := eol_ne_nil heol
  induction s using lineInduction hne with
  | nil => rfl
  | lineEnd rest ih =>
      obtain ⟨p, ps, hcut⟩ := exists_cut_eq_cons hne rest
      have hfirst : join eol (indented indent p :: ps.map (indented indent)) =
          (if p = [] then [] else indent) ++ join eol (p :: ps.map (indented indent)) := by
        rw [← join_append_cons, indented]
        split
        case isTrue hp => rw [hp, List.append_nil]
        case isFalse => rfl
      have hempty := eq_nil_iff_of_cut_eq_cons hne hcut
      rw [nestFrom_append heol, ih, cut_append hne, hcut, behindFirst, behindFirst, List.map_cons,
        join_cons (List.cons_ne_nil _ _), List.nil_append, hfirst]
      simp only [hempty]
  | cons c cs h ih =>
      obtain ⟨p, ps, hcut⟩ := exists_cut_eq_cons hne cs
      rw [nestFrom_cons indent h, ih, cut_cons h, hcut, prependTo, behindFirst, behindFirst]
      exact (join_prependTo eol c p (ps.map (indented indent))).symm

end LineEnd

variable {eol indent : String} (heol : Settings.IsEol eol)
include heol

theorem toList_eol : eol.toList = ['\n'] ∨ eol.toList = ['\r', '\n'] := by
  rcases heol with rfl | rfl
  · exact .inl rfl
  · exact .inr rfl

theorem toList_nest (indent text : String) :
    (nest eol indent text).toList =
      join eol.toList (behindFirst (indented indent.toList) (cut eol.toList text.toList)) := by
  rw [nest, String.toList_ofList, nestFrom_eq_join (toList_eol heol)]

variable (hindent : ∀ c ∈ indent.toList, c ≠ '\n' ∧ c ≠ '\r')
include hindent

theorem cut_nest (text : String) :
    cut eol.toList (nest eol indent text).toList =
      behindFirst (indented indent.toList) (cut eol.toList text.toList) := by
  have hne := eol_ne_nil (toList_eol heol)
  obtain ⟨p, ps, hcut⟩ := exists_cut_eq_cons hne text.toList
  have hlines : ∀ q ∈ p :: ps, ¬ eol.toList <:+: q := fun q hq =>
    not_infix_of_mem_cut hne (hcut ▸ hq)
  rw [toList_nest heol, hcut, behindFirst, cut_join (toList_eol heol) (List.cons_ne_nil _ _)]
  obtain ⟨hp, hps⟩ := List.forall_mem_cons.1 hlines
  refine List.forall_mem_cons.2 ⟨hp, List.forall_mem_map.2 fun q hq => ?_⟩
  exact not_infix_indented (toList_eol heol) hindent (hps q hq)

theorem unnest_nest (text : String) : unnest eol indent (nest eol indent text) = text := by
  have hne := eol_ne_nil (toList_eol heol)
  have hback : ∀ ps : List (List Char),
      behindFirst (unindented indent.toList) (behindFirst (indented indent.toList) ps) = ps := by
    intro ps
    cases ps with
    | nil => rfl
    | cons p ps => simp [behindFirst, Function.comp_def, unindented_indented]
  rw [unnest, cut_nest heol hindent, hback, join_cut hne, String.ofList_toList]

/-- Nesting puts the unit of indentation before each line behind the first that is not empty. It can be
undone, keeps the number of line ends, and tells any two texts apart. -/
theorem nest_linewise (content : String) :
    (∃ p ps, cut eol.toList content.toList = p :: ps ∧ content.toList = join eol.toList (p :: ps) ∧
      (∀ q ∈ p :: ps, ¬ eol.toList <:+: q) ∧
      (nest eol indent content).toList =
        join eol.toList (p :: ps.map fun q => if q = [] then [] else indent.toList ++ q)) ∧
    unnest eol indent (nest eol indent content) = content ∧
    occurrences eol.toList (nest eol indent content).toList = occurrences eol.toList content.toList ∧
    ∀ content', nest eol indent content' = nest eol indent content → content' = content := by
  have heol' := toList_eol heol
  have hne := eol_ne_nil heol'
  obtain ⟨p, ps, hcut⟩ := exists_cut_eq_cons hne content.toList
  refine ⟨⟨p, ps, hcut, ?_, fun q hq => not_infix_of_mem_cut hne (hcut ▸ hq), ?_⟩,
    unnest_nest heol hindent content, ?_, fun content' h => ?_⟩
  · rw [← hcut, join_cut hne]
  · rw [toList_nest heol, hcut]
    rfl
  · have hlength : (cut eol.toList (nest eol indent content).toList).length =
        (cut eol.toList content.toList).length := by
      rw [cut_nest heol hindent, hcut, behindFirst, List.length_cons, List.length_cons, List.length_map]
    rw [length_cut heol', length_cut heol'] at hlength
    exact Nat.succ.inj hlength
  · rw [← unnest_nest heol hindent content', h, unnest_nest heol hindent content]

omit heol hindent

/-- Two line ends in a row, a lone carriage return and a line end at the end. -/
theorem nest_linewise_crlf :
    Settings.IsEol "\r\n" ∧ (∀ c ∈ "\t".toList, c ≠ '\n' ∧ c ≠ '\r') ∧
      nest "\r\n" "\t" "a\r\n\r\n\rb\nc\r\n" = "a\r\n\r\n\t\rb\nc\r\n" ∧
      unnest "\r\n" "\t" "a\r\n\r\n\t\rb\nc\r\n" = "a\r\n\r\n\rb\nc\r\n" := by
  have heol : Settings.IsEol "\r\n" := .inr rfl
  have hindent : ∀ c ∈ "\t".toList, c ≠ '\n' ∧ c ≠ '\r' := by simp
  have hnest : nest "\r\n" "\t" "a\r\n\r\n\rb\nc\r\n" = "a\r\n\r\n\t\rb\nc\r\n" := by
    decide +kernel
  obtain ⟨-, hback, -⟩ := nest_linewise heol hindent "a\r\n\r\n\rb\nc\r\n"
  exact ⟨heol, hindent, hnest, hnest ▸ hback⟩

end Emission

end DeclBundle
