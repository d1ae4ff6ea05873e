import DeclBundle.Json.Reader
import Mathlib.Data.List.Infix
import Mathlib.Data.List.TakeWhile

/-!
# Why reading stops

Reading a JSON text leaves an end of what it was given, so what it stops at stands in the text
(`reads_readValue`). A text that is refused for a whole number holds a run of digits that is longer than
any that is read (`hasLongRun_of_read`); every other refusal is a fault of the text.
-/

namespace DeclBundle

namespace Json

variable {α β : Type} {s t : List Char}

/-- So many digits stand in a row, more than are read as a number. -/
def HasLongRun (s : List Char) (n : Nat) : Prop :=
  ∃ digits, digits <:+: s ∧ (∀ c ∈ digits, c.isDigit = true) ∧ digits.length = n ∧
    Text.digitLimit < n

/-- The characters give reason to stop: a number that is too long stands among them. -/
def Stop.IsFor (s : List Char) : Stop → Prop
  | .fault _ _ => True
  | .longNumber n => HasLongRun s n

/-- A reading leaves an end of what it was given, and does not stop without reason. -/
def Reads (s : List Char) : Reading α → Prop
  | .ok (_, rest) => rest <:+ s
  | .error e => e.IsFor s

theorem Stop.IsFor.of_suffix {e : Stop} (h : e.IsFor s) (hs : s <:+ t) : e.IsFor t := by
  cases e with
  | fault _ _ => trivial
  | longNumber n =>
      obtain ⟨digits, hinfix, hrun⟩ := h
      exact ⟨digits, hinfix.trans hs.isInfix, hrun⟩

theorem Reads.of_suffix {x : Reading α} (h : Reads s x) (hs : s <:+ t) : Reads t x := by
  cases x with
  | ok r => exact List.IsSuffix.trans h hs
  | error e => exact Stop.IsFor.of_suffix h hs

theorem Reads.map {x : Reading α} (h : Reads s x) (f : α × List Char → β) :
    Reads s (x.map fun r => (f r, r.2)) := by
  cases x with
  | ok r => exact h
  | error e => exact h

theorem skipGap_suffix (s : List Char) : skipGap s <:+ s := List.dropWhile_suffix _

theorem suffix_of_skipGap {rest rest' : List Char} {c : Char} (h : skipGap rest = c :: rest')
    (hrest : rest <:+ s) : rest' <:+ s := by
  have hgap := (skipGap_suffix rest).trans hrest
  rw [h] at hgap
  exact (List.suffix_cons _ _).trans hgap

/-! ### Strings -/

theorem fourHex?_suffix {n : Nat} {rest : List Char} (h : fourHex? s = some (n, rest)) :
    rest <:+ s := by
  unfold fourHex? at h
  split at h
  case h_1 a b c d e rest' =>
    simp only [bind, pure, Option.bind_eq_some_iff, Option.some.injEq, Prod.mk.injEq] at h
    obtain ⟨_, _, _, _, _, _, _, _, -, rfl⟩ := h
    exact ⟨[a, b, c, d], rfl⟩
  case h_2 => cases h

theorem reads_readUnicode (s : List Char) : Reads s (readUnicode s) := by
  have htail : s.tail <:+ s := List.tail_suffix s
  unfold readUnicode
  split
  case h_1 => trivial
  case h_2 high rest hhigh =>
    have hrest : rest <:+ s := (fourHex?_suffix hhigh).trans htail
    split
    case h_1 more =>
      have hmore : more <:+ s := ((List.suffix_cons _ _).trans (List.suffix_cons _ _)).trans hrest
      split_ifs
      · split
        case h_1 => trivial
        case h_2 low rest' hlow =>
          split_ifs
          · exact (fourHex?_suffix hlow).trans hmore
          · exact hrest
      · exact hrest
    case h_2 => exact hrest

theorem reads_readString (start fuel : Nat) (s : List Char) : Reads s (readString start fuel s) := by
  fun_induction readString start fuel s with
  | case1 | case2 | case4 | case7 | case9 => trivial
  | case3 => exact List.suffix_cons _ _
  | case5 fuel cs e he =>
      have hu := reads_readUnicode ('u' :: cs)
      rw [he] at hu
      exact Stop.IsFor.of_suffix hu (List.suffix_cons _ _)
  | case6 fuel cs c rest hc ih =>
      have hu := reads_readUnicode ('u' :: cs)
      rw [hc] at hu
      exact (ih.map _).of_suffix (List.IsSuffix.trans hu (List.suffix_cons _ _))
  | case8 fuel e cs _ c _ ih =>
      exact (ih.map _).of_suffix ((List.suffix_cons _ _).trans (List.suffix_cons _ _))
  | case10 fuel c cs _ _ _ _ _ ih => exact (ih.map _).of_suffix (List.suffix_cons _ _)

/-! ### Numbers -/

theorem readWhole_append (s : List Char) : (readWhole s).1 ++ (readWhole s).2 = s := by
  unfold readWhole
  split
  · rfl
  · exact List.takeWhile_append_dropWhile

theorem isDigit_of_mem_readWhole {c : Char} (h : c ∈ (readWhole s).1) : c.isDigit = true := by
  unfold readWhole at h
  split at h
  · obtain rfl := List.mem_singleton.1 h
    rfl
  · exact List.mem_takeWhile_imp h

theorem readFraction_suffix (s : List Char) : (readFraction s).2 <:+ s := by
  unfold readFraction
  split
  · split_ifs
    · exact List.suffix_rfl
    · exact (List.dropWhile_suffix _).trans (List.suffix_cons _ _)
  · exact List.suffix_rfl

theorem takeSign_suffix (s : List Char) : (Decimal.takeSign s).2 <:+ s := by
  unfold Decimal.takeSign
  split
  · exact List.suffix_cons _ _
  · exact List.suffix_cons _ _
  · exact List.suffix_rfl

theorem readExponent_suffix (s : List Char) : (readExponent s).2 <:+ s := by
  unfold readExponent
  split
  case h_1 c cs =>
    have hrest : (spanDigits (Decimal.takeSign cs).2).2 <:+ c :: cs :=
      ((List.dropWhile_suffix _).trans (takeSign_suffix cs)).trans (List.suffix_cons _ _)
    dsimp only
    split_ifs
    · exact List.suffix_rfl
    · exact hrest
    · exact hrest
    · exact List.suffix_rfl
  case h_2 => exact List.suffix_rfl

theorem reads_readNumber (s : List Char) : Reads s (readNumber s) := by
  unfold readNumber
  split
  next negative body hsign =>
    have hbody : body <:+ s := by
      split at hsign
      · obtain ⟨-, rfl⟩ := Prod.mk.inj hsign
        exact List.suffix_cons _ _
      · obtain ⟨-, rfl⟩ := Prod.mk.inj hsign
        exact List.suffix_rfl
    have hwhole := readWhole_append body
    have hrest : (readWhole body).2 <:+ s := List.IsSuffix.trans ⟨_, hwhole⟩ hbody
    have hfraction := (readFraction_suffix (readWhole body).2).trans hrest
    have hexponent := (readExponent_suffix (readFraction (readWhole body).2).2).trans hfraction
    dsimp only
    split_ifs with _ _ hlong
    · trivial
    · exact ⟨(readWhole body).1, List.IsInfix.trans ⟨[], (readWhole body).2, hwhole⟩ hbody.isInfix,
        fun c hc => isDigit_of_mem_readWhole hc, rfl, hlong⟩
    · exact hexponent
    · exact hexponent
    · exact hexponent

/-! ### Values -/

theorem readWord?_suffix {v : Value} {rest : List Char} (h : readWord? s = some (v, rest)) :
    rest <:+ s := by
  obtain ⟨w, -, hw⟩ := List.exists_of_findSome?_eq_some h
  split_ifs at hw
  obtain ⟨-, rfl⟩ := Prod.mk.inj (Option.some.inj hw)
  exact List.drop_suffix _ _

/-- However far it counts, a reading of a value, of items or of members is one. -/
theorem reads_readValue (fuel : Nat) : (∀ s, Reads s (readValue fuel s)) ∧
    (∀ s, Reads s (readItems fuel s)) ∧ ∀ s, Reads s (readMembers fuel s) := by
  induction fuel with
  | zero => exact ⟨fun _ => trivial, fun _ => trivial, fun _ => trivial⟩
  | succ fuel ih =>
      obtain ⟨hvalue, hitems, hmembers⟩ := ih
      refine ⟨fun s => ?_, fun s => ?_, fun s => ?_⟩
      · unfold readValue
        split
        case h_1 cs => exact ((reads_readString _ _ cs).map _).of_suffix (List.suffix_cons _ _)
        case h_2 cs =>
          have hcs : cs <:+ '[' :: cs := List.suffix_cons _ _
          split
          case h_1 rest hclose => exact suffix_of_skipGap hclose hcs
          case h_2 => exact ((hitems _).map _).of_suffix ((skipGap_suffix cs).trans hcs)
        case h_3 cs =>
          have hcs : cs <:+ '{' :: cs := List.suffix_cons _ _
          split
          case h_1 rest hclose => exact suffix_of_skipGap hclose hcs
          case h_2 => exact ((hmembers _).map _).of_suffix ((skipGap_suffix cs).trans hcs)
        case h_4 =>
          split
          case h_1 r hr => exact readWord?_suffix hr
          case h_2 => exact reads_readNumber s
      · unfold readItems
        have hitem := hvalue s
        split
        case h_1 e he => rwa [he] at hitem
        case h_2 v rest hrest =>
          rw [hrest] at hitem
          split
          case h_1 rest hclose => exact suffix_of_skipGap hclose hitem
          case h_2 rest hcomma =>
            exact ((hitems _).map _).of_suffix
              ((skipGap_suffix rest).trans (suffix_of_skipGap hcomma hitem))
          case h_3 => trivial
      · unfold readMembers
        split
        case h_2 => trivial
        case h_1 cs =>
          have hname := (reads_readString ('"' :: cs).length ('"' :: cs).length cs).of_suffix
            (List.suffix_cons '"' cs)
          split
          case h_1 e he => rwa [he] at hname
          case h_2 name rest hrest =>
            rw [hrest] at hname
            split
            case h_2 => trivial
            case h_1 rest hcolon =>
              have hmember := (hvalue (skipGap rest)).of_suffix
                ((skipGap_suffix rest).trans (suffix_of_skipGap hcolon hname))
              split
              case h_1 e he => rwa [he] at hmember
              case h_2 v rest hrest =>
                rw [hrest] at hmember
                split
                case h_1 rest hclose => exact suffix_of_skipGap hclose hmember
                case h_2 rest hcomma =>
                  exact ((hmembers _).map _).of_suffix
                    ((skipGap_suffix rest).trans (suffix_of_skipGap hcomma hmember))
                case h_3 => trivial

/-- A text that is refused for a number holds a run of digits that is too long. -/
theorem hasLongRun_of_read {text : String} {n : Nat} (h : read text = .error (.longNumber n)) :
    HasLongRun text.toList n := by
  have hdocument : readDocument text.toList = .error (.longNumber n) := by
    simp only [read] at h
    split at h
    · cases h
    · cases h
    · next hstop =>
        obtain rfl := Refusal.longNumber.inj (Except.error.inj h)
        exact hstop
  unfold readDocument at hdocument
  split at hdocument
  case h_1 => cases hdocument
  case h_2 =>
    have hvalue := ((reads_readValue (2 * text.toList.length + 2)).1
      (skipGap text.toList)).of_suffix (skipGap_suffix _)
    split at hdocument
    case h_1 e he =>
      rw [he, Except.error.inj hdocument] at hvalue
      exact hvalue
    case h_2 =>
      split at hdocument
      · cases hdocument
      · cases hdocument

end Json

end DeclBundle
