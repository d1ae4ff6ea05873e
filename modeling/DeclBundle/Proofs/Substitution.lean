import DeclBundle.Proofs.Visit

/-!
# Simultaneous substitution

`substitute` makes all edits of a text at once: at each offset stand the texts of the edits that
begin there, and then the character, unless an edit covers it. No cursor moves through the edits
here. The main statement is `splice_eq_substitute`: where the regions that a walk visits begin in
order, a splice is the substitution of its edits.

The way there goes over `applyFrom`, which makes the edits of a row one after another with a cursor.
What lies behind the cursor is dealt with, and to the substitution this is the same as one more edit
that covers it and puts nothing in (`veil`).
-/

namespace DeclBundle

namespace Region

namespace Edit

/-- Whether an edit takes the character at an offset away. -/
def covers (e : Edit) (i : Nat) : Bool := e.start ≤ i && i < e.stop

def textsAt (es : List Edit) (i : Nat) : List Char :=
  es.flatMap fun e => if e.start = i then e.text.toList else []

/-- The rest of a text from an offset on, in which edits are made. -/
def substituteFrom (es : List Edit) : Nat → List Char → List Char
  | i, [] => textsAt es i
  | i, c :: cs =>
    textsAt es i ++ ((if es.any (covers · i) then [] else [c]) ++ substituteFrom es (i + 1) cs)

def substitute (source : String) (es : List Edit) : String :=
  String.ofList (substituteFrom es 0 source.toList)

/-- A text in which edits are made one after another, from a cursor on. -/
def applyFrom (source : List Char) : Nat → List Edit → List Char
  | cursor, [] => source.drop cursor
  | cursor, e :: es =>
    (source.take e.start).drop cursor ++
      (e.text.toList ++ applyFrom source (max (max cursor e.start) e.stop) es)

def veil (stop : Nat) : Edit := ⟨0, stop, ""⟩

@[simp] theorem textsAt_nil (i : Nat) : textsAt [] i = [] := rfl

theorem textsAt_cons (e : Edit) (es : List Edit) (i : Nat) :
    textsAt (e :: es) i = (if e.start = i then e.text.toList else []) ++ textsAt es i := by
  simp [textsAt]

theorem textsAt_cons_of_ne {e : Edit} {i : Nat} (h : e.start ≠ i) (es : List Edit) :
    textsAt (e :: es) i = textsAt es i := by
  rw [textsAt_cons, if_neg h, List.nil_append]

@[simp] theorem textsAt_veil (stop : Nat) (es : List Edit) (i : Nat) :
    textsAt (veil stop :: es) i = textsAt es i := by
  rw [textsAt_cons]
  simp [veil]

theorem textsAt_of_lt {es : List Edit} {i : Nat} (h : ∀ e ∈ es, i < e.start) :
    textsAt es i = [] := by
  rw [textsAt, List.flatMap_eq_nil_iff]
  intro e he
  rw [if_neg (Nat.ne_of_gt (h e he))]

theorem covers_iff {e : Edit} {i : Nat} : e.covers i = true ↔ e.start ≤ i ∧ i < e.stop := by
  simp [covers]

theorem any_covers_veil (stop : Nat) (es : List Edit) (i : Nat) :
    (veil stop :: es).any (covers · i) = (decide (i < stop) || es.any (covers · i)) := by
  simp [covers, veil]

theorem any_covers_of_lt {es : List Edit} {i : Nat} (h : ∀ e ∈ es, i < e.start) :
    es.any (covers · i) = false := by
  rw [List.any_eq_false]
  intro e he hc
  exact absurd (covers_iff.1 hc).1 (Nat.not_le_of_lt (h e he))

/-- An edit that begins at or before an offset takes as much away there as a longer veil. -/
theorem any_covers_veil_cons {e : Edit} {i : Nat} (h : e.start ≤ i) (stop : Nat)
    (es : List Edit) :
    (veil stop :: e :: es).any (covers · i) = (veil (max stop e.stop) :: es).any (covers · i) := by
  have hmax : i < max stop e.stop ↔ i < stop ∨ i < e.stop := by omega
  rw [any_covers_veil, any_covers_veil, List.any_cons, ← Bool.or_assoc, covers, decide_eq_true h,
    Bool.true_and, ← Bool.decide_or, decide_eq_decide.2 hmax]

theorem substituteFrom_veil_zero (es : List Edit) :
    ∀ (i : Nat) (s : List Char), substituteFrom (veil 0 :: es) i s = substituteFrom es i s
  | i, [] => by rw [substituteFrom, substituteFrom, textsAt_veil]
  | i, c :: cs => by
      rw [substituteFrom, substituteFrom, textsAt_veil, any_covers_veil,
        substituteFrom_veil_zero es (i + 1) cs]
      simp

theorem substituteFrom_append {es : List Edit} (stop : Nat) (rest : List Char) :
    ∀ (i : Nat) (s : List Char), (∀ e ∈ es, i + s.length ≤ e.start) →
      substituteFrom (veil stop :: es) i (s ++ rest) =
        s.drop (stop - i) ++ substituteFrom (veil stop :: es) (i + s.length) rest
  | i, [], _ => by simp
  | i, c :: cs, h => by
      have hlt : ∀ e ∈ es, i < e.start := by
        intro e he
        have := h e he
        rw [List.length_cons] at this
        omega
      have ih := substituteFrom_append stop rest (i + 1) cs fun e he => by
        have := h e he
        rw [List.length_cons] at this
        omega
      have hlength : i + 1 + cs.length = i + (c :: cs).length := by
        rw [List.length_cons]
        omega
      rw [List.cons_append, substituteFrom, textsAt_veil, textsAt_of_lt hlt, any_covers_veil,
        any_covers_of_lt hlt, Bool.or_false, ih, hlength]
      by_cases hi : i < stop
      · have hdrop : stop - i = (stop - (i + 1)) + 1 := by omega
        simp [hi, hdrop]
      · have hdrop : stop - i = 0 := by omega
        have hdrop' : stop - (i + 1) = 0 := by omega
        simp [hi, hdrop, hdrop']

theorem substituteFrom_of_start_lt {e : Edit} (es : List Edit) (stop : Nat) :
    ∀ (i : Nat) (s : List Char), e.start < i →
      substituteFrom (veil stop :: e :: es) i s = substituteFrom (veil (max stop e.stop) :: es) i s
  | i, [], h => by
      rw [substituteFrom, substituteFrom, textsAt_veil, textsAt_veil,
        textsAt_cons_of_ne (Nat.ne_of_lt h)]
  | i, c :: cs, h => by
      have ih := substituteFrom_of_start_lt es stop (i + 1) cs (Nat.lt_succ_of_lt h)
      rw [substituteFrom, substituteFrom, textsAt_veil, textsAt_veil,
        textsAt_cons_of_ne (Nat.ne_of_lt h), any_covers_veil_cons (Nat.le_of_lt h), ih]

theorem substituteFrom_of_start_eq {e : Edit} {es : List Edit} {stop : Nat} (s : List Char) :
    substituteFrom (veil stop :: e :: es) e.start s =
      e.text.toList ++ substituteFrom (veil (max stop e.stop) :: es) e.start s := by
  have hhere : textsAt (e :: es) e.start = e.text.toList ++ textsAt es e.start := by
    rw [textsAt_cons, if_pos rfl]
  cases s with
  | nil => rw [substituteFrom, substituteFrom, textsAt_veil, textsAt_veil, hhere]
  | cons c cs =>
      have hrest := substituteFrom_of_start_lt es stop (e.start + 1) cs
        (Nat.lt_succ_self e.start)
      rw [substituteFrom, substituteFrom, textsAt_veil, textsAt_veil, hhere,
        any_covers_veil_cons (Nat.le_refl e.start), hrest, List.append_assoc]

theorem drop_take_append_drop (source : List Char) {i j : Nat} (h : i ≤ j) :
    (source.take j).drop i ++ source.drop j = source.drop i := by
  have hj : i + (j - i) = j := by omega
  have hdrop : source.drop j = (source.drop i).drop (j - i) := by rw [List.drop_drop, hj]
  rw [List.drop_take, hdrop, List.take_append_drop]

/-- An edit that begins at or before the cursor only puts its text in. -/
theorem applyFrom_cons_of_start_le {e : Edit} {cursor : Nat} (h : e.start ≤ cursor)
    (source : List Char) (es : List Edit) :
    applyFrom source cursor (e :: es) =
      e.text.toList ++ applyFrom source (max cursor e.stop) es := by
  have hnil : (source.take e.start).drop cursor = [] := by
    apply List.drop_eq_nil_of_le
    rw [List.length_take]
    omega
  rw [applyFrom, hnil, List.nil_append, Nat.max_eq_left h]

theorem applyFrom_eq_substituteFrom (source : List Char) :
    ∀ (es : List Edit) (i stop : Nat), (∀ e ∈ es, i ≤ e.start) →
      es.Pairwise (fun d e => d.start ≤ e.start) → (∀ e ∈ es, e.start ≤ source.length) →
      i ≤ source.length →
      applyFrom source (max i stop) es = substituteFrom (veil stop :: es) i (source.drop i)
  | [], i, stop, _, _, _, _ => by
      have h := substituteFrom_append stop [] i (source.drop i) fun e he =>
        absurd he List.not_mem_nil
      rw [List.append_nil] at h
      rw [applyFrom, h, substituteFrom, textsAt_veil, textsAt_nil, List.append_nil, List.drop_drop]
      congr 1
      omega
  | e :: es, i, stop, hi, hsorted, hlength, hle => by
      obtain ⟨hes, hsorted'⟩ := List.pairwise_cons.1 hsorted
      have hstart : i ≤ e.start := hi e List.mem_cons_self
      have hend : e.start ≤ source.length := hlength e List.mem_cons_self
      have ih := applyFrom_eq_substituteFrom source es e.start (max stop e.stop) hes hsorted'
        (fun d hd => hlength d (List.mem_cons_of_mem e hd)) hend
      have hstretch : i + ((source.take e.start).drop i).length = e.start := by
        rw [List.length_drop, List.length_take]
        omega
      have hlate : ∀ d ∈ e :: es, i + ((source.take e.start).drop i).length ≤ d.start := by
        intro d hd
        rw [hstretch]
        rcases List.mem_cons.1 hd with rfl | hd
        · exact Nat.le_refl d.start
        · exact hes d hd
      have hbefore := substituteFrom_append stop (source.drop e.start) i
        ((source.take e.start).drop i) hlate
      have hdrop : ((source.take e.start).drop i).drop (stop - i) =
          (source.take e.start).drop (max i stop) := by
        rw [List.drop_drop]
        congr 1
        omega
      have hcursor : max (max (max i stop) e.start) e.stop = max e.start (max stop e.stop) := by
        omega
      rw [applyFrom, hcursor, ih, ← drop_take_append_drop source hstart, hbefore, hstretch, hdrop,
        substituteFrom_of_start_eq]

end Edit

open Edit

variable {α : Type}

/-- A cursor may go forward over a stretch of text in which no edit begins. -/
theorem render_gap_append_applyFrom (source : List Char) (cursor start : Nat) (es : List Edit)
    (h : ∀ e ∈ es, start ≤ e.start) :
    Part.render source (gap cursor start) ++ applyFrom source (max cursor start) es =
      applyFrom source cursor es := by
  by_cases hlt : cursor < start
  · have hle : cursor ≤ start := Nat.le_of_lt hlt
    rw [gap, if_pos hlt, Nat.max_eq_right hle, Part.render_cons, Part.render_nil,
      List.append_nil, Part.chars]
    cases es with
    | nil => rw [applyFrom, applyFrom, drop_take_append_drop source hle]
    | cons e es =>
        have hstart : start ≤ e.start := h e List.mem_cons_self
        have hcut := drop_take_append_drop (source.take e.start) hle
        rw [List.take_take, Nat.min_eq_left hstart] at hcut
        rw [applyFrom, applyFrom, ← List.append_assoc, hcut, Nat.max_eq_right hstart,
          Nat.max_eq_right (Nat.le_trans hle hstart)]
  · rw [gap, if_neg hlt, Nat.max_eq_left (Nat.le_of_not_lt hlt), Part.render_nil, List.nil_append]

theorem exists_visit_of_mem_editsAll {replace : Replacement α} {parent : Option (Region α)}
    {rs : List (Region α)} {e : Edit} (h : e ∈ editsAll replace parent rs) (i : Nat) :
    ∃ v ∈ visitsAll replace parent i rs, v.region.start = e.start := by
  rw [editsAll, filterMap_edit?_visitsAll, ← filterMap_edit?_visitsAll replace parent i,
    List.mem_filterMap] at h
  obtain ⟨v, hv, he⟩ := h
  obtain ⟨text, -, rfl⟩ := Option.map_eq_some_iff.1 he
  exact ⟨v, hv, rfl⟩

def InOrder (vs : List (Visit α)) : Prop := vs.Pairwise fun v w => v.region.start ≤ w.region.start

mutual

theorem render_walk_append_applyFrom (source : List Char) (replace : Replacement α)
    (parent : Option (Region α)) (cursor : Nat) (es : List Edit) :
    ∀ r : Region α, InOrder (visitsFrom replace parent r) →
      (∀ v ∈ visitsFrom replace parent r, ∀ e ∈ es, v.region.start ≤ e.start) →
      Part.render source (walk replace parent cursor r).parts ++
          applyFrom source (walk replace parent cursor r).cursor es =
        applyFrom source cursor (editsFrom replace parent r ++ es)
  | ⟨label, start, stop, children⟩, hsorted, hes => by
      cases h : replace parent ⟨label, start, stop, children⟩ with
      | some text =>
          rw [visitsFrom_of_some h] at hes
          have hgap := render_gap_append_applyFrom source cursor start
            (⟨start, stop, text⟩ :: es) (by
              intro e he
              rcases List.mem_cons.1 he with rfl | he
              · exact Nat.le_refl start
              · exact hes _ List.mem_cons_self e he)
          rw [applyFrom_cons_of_start_le (Nat.le_max_right cursor start)] at hgap
          rw [editsFrom_of_some h, walk]
          simp only [h]
          rw [Part.render_append, List.append_assoc, List.singleton_append, ← hgap,
            Part.render_cons, Part.render_nil, List.append_nil, Part.chars]
      | none =>
          rw [visitsFrom_of_none h] at hsorted hes
          obtain ⟨hhead, hchildren⟩ := List.pairwise_cons.1 hsorted
          have hall := render_walkAll_append_applyFrom source replace
            (some ⟨label, start, stop, children⟩) (max cursor start) 0 es children hchildren
            fun v hv => hes v (List.mem_cons_of_mem _ hv)
          have hgap := render_gap_append_applyFrom source cursor start
            (editsAll replace (some ⟨label, start, stop, children⟩) children ++ es) (by
              intro e he
              rcases List.mem_append.1 he with he | he
              · obtain ⟨v, hv, hstart⟩ := exists_visit_of_mem_editsAll he 0
                rw [← hstart]
                exact hhead v hv
              · exact hes _ List.mem_cons_self e he)
          rw [editsFrom_of_none h, walk]
          simp only [h]
          rw [Part.render_append, List.append_assoc, hall, hgap]

theorem render_walkAll_append_applyFrom (source : List Char) (replace : Replacement α)
    (parent : Option (Region α)) (cursor i : Nat) (es : List Edit) :
    ∀ rs : List (Region α), InOrder (visitsAll replace parent i rs) →
      (∀ v ∈ visitsAll replace parent i rs, ∀ e ∈ es, v.region.start ≤ e.start) →
      Part.render source (walkAll replace parent cursor rs).parts ++
          applyFrom source (walkAll replace parent cursor rs).cursor es =
        applyFrom source cursor (editsAll replace parent rs ++ es)
  | [], _, _ => by
      rw [walkAll, editsAll_nil, Part.render_nil, List.nil_append, List.nil_append]
  | c :: cs, hsorted, hes => by
      rw [visitsAll_cons] at hsorted hes
      obtain ⟨hc, hcs, hcross⟩ := List.pairwise_append.1 hsorted
      have hrest := render_walkAll_append_applyFrom source replace parent
        (walk replace parent cursor c).cursor (i + 1) es cs hcs
        fun v hv => hes v (List.mem_append_right _ hv)
      have hfirst := render_walk_append_applyFrom source replace parent cursor
        (editsAll replace parent cs ++ es) c (hc.of_map (Visit.under i) fun _ _ h => h) (by
          intro v hv e he
          have hv' := List.mem_map_of_mem (f := Visit.under i) hv
          rcases List.mem_append.1 he with he | he
          · obtain ⟨w, hw, hstart⟩ := exists_visit_of_mem_editsAll he (i + 1)
            rw [← hstart]
            exact hcross (v.under i) hv' w hw
          · exact hes (v.under i) (List.mem_append_left _ hv') e he)
      rw [walkAll, editsAll_cons, Part.render_append, List.append_assoc, hrest, hfirst,
        List.append_assoc]

end

/-- Where the visited regions begin in order and in the text, a splice is a substitution. -/
theorem splice_eq_substitute (source : String) (root : Region α) (replace : Replacement α)
    (hsorted : InOrder (root.visits replace))
    (hlength : ∀ e ∈ root.edits replace, e.start ≤ source.toList.length) :
    root.splice source replace = substitute source (root.edits replace) := by
  have hedits : (root.edits replace).Pairwise fun d e => d.start ≤ e.start := by
    rw [edits, editsFrom, List.pairwise_filterMap]
    refine hsorted.imp fun {v w} hvw d hd e he => ?_
    obtain ⟨_, -, rfl⟩ := Option.map_eq_some_iff.1 hd
    obtain ⟨_, -, rfl⟩ := Option.map_eq_some_iff.1 he
    exact hvw
  have hwalk := render_walk_append_applyFrom source.toList replace none 0 [] root hsorted
    fun v _ e he => absurd he List.not_mem_nil
  have happly := applyFrom_eq_substituteFrom source.toList (root.edits replace) 0 0
    (fun e _ => Nat.zero_le e.start) hedits hlength (Nat.zero_le _)
  rw [substituteFrom_veil_zero, List.drop_zero, Nat.max_self] at happly
  rw [List.append_nil, applyFrom] at hwalk
  have htail : Part.chars source.toList
      (.kept (walk replace none 0 root).cursor source.toList.length) =
      source.toList.drop (walk replace none 0 root).cursor := by
    rw [Part.chars, List.take_length]
  rw [splice, substitute, ← happly, edits, ← hwalk]
  simp only [spliceParts]
  rw [Part.render_append, Part.render_cons, Part.render_nil, List.append_nil, htail]

end Region

end DeclBundle
