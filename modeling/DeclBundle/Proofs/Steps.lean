import DeclBundle.Path.Relative
import Mathlib.Data.List.TakeWhile

/-!
# The steps of absolute paths

`Rooted p steps` says that a path is an anchor followed by ordinary steps, none of which is empty,
stays or leads up. The normal form of an absolute path is of this kind (`rooted_normal`), a path of
this kind is its own normal form (`Rooted.normal_eq`), and its directory and what lies below it are
read off its steps (`Rooted.rooted_directoryChars`, `Rooted.rooted_normal_below`). Where one path of
this kind lies under another, its steps begin with those of the other
(`Rooted.exists_append_of_isUnder`).
-/

namespace DeclBundle.Text

theorem pieces_append (c : Char) (p s : List Char) :
    pieces c (p ++ c :: s) = pieces c p ++ pieces c s := by
  induction p with
  | nil => rw [List.nil_append, pieces_cons_self, pieces_nil, List.singleton_append]
  | cons x p ih =>
      by_cases h : x = c
      · subst h
        rw [List.cons_append, pieces_cons_self, pieces_cons_self, ih, List.cons_append]
      · obtain ⟨q, qs, hq, hxq⟩ := pieces_cons_of_ne h p
        obtain ⟨r, rs, hr, hxr⟩ := pieces_cons_of_ne h (p ++ c :: s)
        rw [ih, hq, List.cons_append, List.cons.injEq] at hr
        obtain ⟨rfl, rfl⟩ := hr
        rw [List.cons_append, hxr, hxq, List.cons_append]

theorem join_append (c : Char) {xs ys : List (List Char)} (hx : xs ≠ []) (hy : ys ≠ []) :
    join [c] (xs ++ ys) = join [c] xs ++ c :: join [c] ys := by
  induction xs with
  | nil => exact absurd rfl hx
  | cons x xs ih =>
      cases xs with
      | nil =>
          obtain ⟨y, ys, rfl⟩ := List.exists_cons_of_ne_nil hy
          rw [List.singleton_append, join_cons_cons, join_singleton, List.append_assoc,
            List.singleton_append]
      | cons x' xs =>
          have h := ih (by simp)
          rw [List.cons_append, List.cons_append, join_cons_cons, ← List.cons_append, h,
            join_cons_cons]
          simp only [List.append_assoc]

theorem join_append_append (c : Char) (xs : List (List Char)) (s t : List Char) :
    join [c] (xs ++ [s]) ++ t = join [c] (xs ++ [s ++ t]) := by
  cases xs with
  | nil => rfl
  | cons x xs =>
      rw [join_append c (by simp) (by simp), join_append c (by simp) (by simp),
        join_singleton, join_singleton, List.append_assoc, List.cons_append]

end DeclBundle.Text

namespace DeclBundle.Path

def Ordinary (s : List Char) : Prop := s ≠ [] ∧ s ≠ here ∧ s ≠ up

instance (s : List Char) : Decidable (Ordinary s) := inferInstanceAs (Decidable (_ ∧ _))

theorem ordinary_of_length {s : List Char} (h : 2 < s.length) : Ordinary s := by
  refine ⟨?_, ?_, ?_⟩
  · rintro rfl
    exact absurd h (by decide)
  · rintro rfl
    exact absurd h (by decide)
  · rintro rfl
    exact absurd h (by decide)

def Rooted (p : List Char) (steps : List (List Char)) : Prop :=
  (∀ s ∈ steps, Ordinary s ∧ '/' ∉ s) ∧
    ∃ a, (a = ['/'] ∨ a = ['/', '/']) ∧ p = a ++ Text.join ['/'] steps

@[simp] theorem stepsOf_nil : stepsOf [] = [] := rfl

theorem stepsOf_cons_slash (p : List Char) : stepsOf ('/' :: p) = stepsOf p := by
  rw [stepsOf, Text.pieces_cons_self, List.filter_cons_of_neg (by simp), stepsOf]

theorem stepsOf_append (p s : List Char) :
    stepsOf (p ++ '/' :: s) = stepsOf p ++ stepsOf s := by
  rw [stepsOf, Text.pieces_append, List.filter_append, stepsOf, stepsOf]

theorem getLast?_of_stepsOf_eq_nil {p : List Char} (h : stepsOf p = []) :
    ('/' :: p).getLast? = some '/' := by
  induction p with
  | nil => rfl
  | cons c p ih =>
      by_cases hc : c = '/'
      · subst hc
        rw [stepsOf_cons_slash] at h
        rw [List.getLast?_cons_cons, ih h]
      · obtain ⟨q, qs, -, hq⟩ := Text.pieces_cons_of_ne hc p
        rw [stepsOf, hq, List.filter_cons_of_pos (by simp)] at h
        exact absurd h (List.cons_ne_nil _ _)

theorem stepsOf_of_mem {p s : List Char} (h : s ∈ stepsOf p) : s ≠ [] ∧ '/' ∉ s := by
  obtain ⟨hs, hne⟩ := List.mem_filter.1 h
  exact ⟨by simpa using hne, Text.not_mem_of_mem_pieces hs⟩

theorem stepsOf_join {steps : List (List Char)} (h : ∀ s ∈ steps, s ≠ [] ∧ '/' ∉ s) :
    stepsOf (Text.join ['/'] steps) = steps := by
  cases steps with
  | nil => rfl
  | cons s steps =>
      rw [stepsOf, Text.pieces_join (by simp) fun p hp => (h p hp).2, List.filter_eq_self]
      intro p hp
      simpa using (h p hp).1

theorem foldl_push_filter (anchored : Bool) (steps stack : List (List Char)) :
    (steps.filter (· ≠ [])).foldl (push anchored) stack = steps.foldl (push anchored) stack := by
  induction steps generalizing stack with
  | nil => rfl
  | cons s steps ih =>
      by_cases h : s = []
      · subst h
        rw [List.filter_cons_of_neg (by simp), ih, List.foldl_cons, push_empty]
      · rw [List.filter_cons_of_pos (by simpa using h), List.foldl_cons, List.foldl_cons, ih]

theorem settle_stepsOf (anchored : Bool) (p : List Char) :
    settle anchored (stepsOf p) = settle anchored (Text.pieces '/' p) := by
  rw [settle, stepsOf, foldl_push_filter, settle]

theorem push_subset (anchored : Bool) (stack : List (List Char)) (s t : List Char)
    (h : t ∈ push anchored stack s) : t ∈ stack ∨ t = s := by
  by_cases h1 : s = [] ∨ s = here
  · have hpush : push anchored stack s = stack := by simp [push, h1]
    rw [hpush] at h
    exact Or.inl h
  · by_cases h2 : s = up
    · subst h2
      cases stack with
      | nil =>
          cases anchored with
          | true => simp [push, up, here] at h
          | false => simpa [push, up, here] using h
      | cons top rest =>
          by_cases h3 : top = up
          · subst h3
            have hpush : push anchored (up :: rest) up = up :: up :: rest := by
              simp [push, up, here]
            rw [hpush] at h
            rcases List.mem_cons.1 h with h | h
            · exact Or.inr h
            · exact Or.inl h
          · rw [push_up_cons h3] at h
            exact Or.inl (List.mem_cons_of_mem top h)
    · obtain ⟨hs, hh⟩ := not_or.1 h1
      rw [push_of_ne hs hh h2] at h
      rcases List.mem_cons.1 h with h | h
      · exact Or.inr h
      · exact Or.inl h

theorem mem_of_mem_foldl_push (anchored : Bool) (steps stack : List (List Char)) (t : List Char)
    (h : t ∈ steps.foldl (push anchored) stack) : t ∈ stack ∨ t ∈ steps := by
  induction steps generalizing stack with
  | nil => exact Or.inl h
  | cons s steps ih =>
      rcases ih (push anchored stack s) h with h | h
      · rcases push_subset anchored stack s t h with h | rfl
        · exact Or.inl h
        · exact Or.inr List.mem_cons_self
      · exact Or.inr (List.mem_cons_of_mem s h)

theorem mem_of_mem_settle {anchored : Bool} {steps : List (List Char)} {t : List Char}
    (h : t ∈ settle anchored steps) : t ∈ steps := by
  rcases mem_of_mem_foldl_push anchored steps [] t (List.mem_reverse.1 h) with h | h
  · exact absurd h List.not_mem_nil
  · exact h

theorem ordinary_of_mem_settled {stack : List (List Char)} (h : Settled true stack)
    {s : List Char} (hs : s ∈ stack) : Ordinary s := by
  induction stack with
  | nil => exact absurd hs List.not_mem_nil
  | cons t stack ih =>
      obtain ⟨hne, hhere, hup, hrest⟩ := h
      rcases List.mem_cons.1 hs with rfl | hs
      · exact ⟨hne, hhere, fun h => Bool.noConfusion (hup h).1⟩
      · exact ih hrest hs

theorem ordinary_of_mem_settle {steps : List (List Char)} {s : List Char}
    (h : s ∈ settle true steps) : Ordinary s :=
  ordinary_of_mem_settled (settled_foldl (by simp [Settled]) steps) (List.mem_reverse.1 h)

theorem foldl_push_of_ordinary {steps : List (List Char)} (h : ∀ s ∈ steps, Ordinary s)
    (anchored : Bool) (stack : List (List Char)) :
    steps.foldl (push anchored) stack = steps.reverse ++ stack := by
  induction steps generalizing stack with
  | nil => rfl
  | cons s steps ih =>
      obtain ⟨hne, hhere, hup⟩ := h s List.mem_cons_self
      rw [List.foldl_cons, push_of_ne hne hhere hup, ih fun t ht => h t (List.mem_cons_of_mem s ht),
        List.reverse_cons, List.append_assoc, List.singleton_append]

theorem settle_of_ordinary {steps : List (List Char)} (h : ∀ s ∈ steps, Ordinary s)
    (anchored : Bool) : settle anchored steps = steps := by
  rw [settle, foldl_push_of_ordinary h, List.append_nil, List.reverse_reverse]

theorem anchor_cons_slash (p : List Char) :
    anchor ('/' :: p) = ['/'] ∨ anchor ('/' :: p) = ['/', '/'] := by
  unfold anchor
  split
  · exact Or.inl rfl
  · exact Or.inr rfl
  · exact Or.inl rfl
  · next h => exact absurd rfl (h p)

theorem normal_cons_slash (p : List Char) :
    normal ('/' :: p) =
      anchor ('/' :: p) ++ Text.join ['/'] (settle true (stepsOf ('/' :: p))) := by
  have hne : anchor ('/' :: p) ≠ [] := by
    rcases anchor_cons_slash p with h | h
    · simp [h]
    · simp [h]
  rw [normal, write, decide_eq_true hne, settle_stepsOf, if_neg (by simp [hne])]

theorem rooted_normal (p : List Char) :
    Rooted (normal ('/' :: p)) (settle true (stepsOf ('/' :: p))) := by
  refine ⟨fun s hs => ⟨ordinary_of_mem_settle hs, ?_⟩, anchor ('/' :: p), anchor_cons_slash p,
    normal_cons_slash p⟩
  exact (stepsOf_of_mem (mem_of_mem_settle hs)).2

theorem join_cons_ne_slash {s : List Char} (steps : List (List Char)) (hne : s ≠ [])
    (hs : '/' ∉ s) : ∃ c cs, Text.join ['/'] (s :: steps) = c :: cs ∧ c ≠ '/' := by
  obtain ⟨c, s, rfl⟩ := List.exists_cons_of_ne_nil hne
  have hc : c ≠ '/' := fun h => hs (h ▸ List.mem_cons_self)
  cases steps with
  | nil => exact ⟨c, s, rfl, hc⟩
  | cons t steps =>
      exact ⟨c, s ++ ['/'] ++ Text.join ['/'] (t :: steps), by
        rw [Text.join_cons_cons, List.cons_append, List.cons_append], hc⟩

theorem join_append_ne_slash {s : List Char} (steps : List (List Char)) (hne : s ≠ [])
    (hs : '/' ∉ s) : ∃ cs c, Text.join ['/'] (steps ++ [s]) = cs ++ [c] ∧ c ≠ '/' := by
  obtain ⟨s, c, rfl⟩ : ∃ cs c, s = cs ++ [c] :=
    ⟨s.dropLast, s.getLast hne, (List.dropLast_concat_getLast hne).symm⟩
  have hc : c ≠ '/' := fun h => hs (h ▸ by simp)
  cases steps with
  | nil => exact ⟨s, c, rfl, hc⟩
  | cons t steps =>
      refine ⟨Text.join ['/'] (t :: steps) ++ '/' :: s, c, ?_, hc⟩
      rw [Text.join_append '/' (by simp) (by simp), Text.join_singleton, List.append_assoc,
        List.cons_append]

theorem anchor_of_ne_slash {p : List Char} (h : p.head? ≠ some '/') : anchor p = [] := by
  unfold anchor
  split
  · exact absurd rfl h
  · exact absurd rfl h
  · exact absurd rfl h
  · rfl

theorem normal_of_ne_slash {p : List Char} (h : p.head? ≠ some '/') :
    normal p = write [] (settle false (stepsOf p)) := by
  rw [normal, anchor_of_ne_slash h, settle_stepsOf]
  rfl

theorem head?_normal_ne_slash {p : List Char} (h : p.head? ≠ some '/') :
    (normal p).head? ≠ some '/' := by
  rw [normal_of_ne_slash h, write, List.nil_append]
  split
  · decide
  · cases hsteps : settle false (stepsOf p) with
    | nil => simp
    | cons s steps =>
        have hmem : s ∈ stepsOf p := mem_of_mem_settle (hsteps ▸ List.mem_cons_self)
        obtain ⟨hs, hslash⟩ := stepsOf_of_mem hmem
        obtain ⟨c, cs, hjoin, hc⟩ := join_cons_ne_slash steps hs hslash
        rw [hjoin]
        simpa using hc

theorem bne_of_mem_reverse {x : Char} {n : List Char} (h : x ∉ n) : ∀ c ∈ n.reverse, (c != x) = true := by
  intro c hc
  rw [bne_iff_ne]
  exact fun heq => h (heq ▸ List.mem_reverse.1 hc)

theorem afterSlash_append {n : List Char} (h : '/' ∉ n) (p : List Char) :
    afterSlash (p ++ n) = afterSlash p ++ n := by
  rw [afterSlash, List.reverse_append, List.takeWhile_append_of_pos (bne_of_mem_reverse h),
    List.reverse_append, List.reverse_reverse, afterSlash]

theorem upToSlash_append {n : List Char} (h : '/' ∉ n) (p : List Char) :
    upToSlash (p ++ n) = upToSlash p := by
  rw [upToSlash, List.reverse_append, List.dropWhile_append_of_pos (bne_of_mem_reverse h), upToSlash]

theorem upToSlash_append_cons {n : List Char} (h : '/' ∉ n) (p : List Char) :
    upToSlash (p ++ '/' :: n) = p ++ ['/'] := by
  rw [← List.singleton_append, ← List.append_assoc, upToSlash_append h, upToSlash, List.reverse_append,
    List.reverse_singleton, List.singleton_append, List.dropWhile_cons_of_neg (by simp),
    List.reverse_cons, List.reverse_reverse]

theorem afterSlash_append_cons {n : List Char} (h : '/' ∉ n) (p : List Char) :
    afterSlash (p ++ '/' :: n) = n := by
  have hboth := upToSlash_append_afterSlash (p ++ '/' :: n)
  rw [upToSlash_append_cons h, List.append_assoc, List.singleton_append] at hboth
  simpa using List.append_cancel_left hboth

theorem afterSlash_of_not_mem {n : List Char} (h : '/' ∉ n) : afterSlash n = n :=
  afterSlash_append h []

theorem upToSlash_of_not_mem {n : List Char} (h : '/' ∉ n) : upToSlash n = [] :=
  upToSlash_append h []

theorem dropSlashes_append_of_ne {c : Char} (h : c ≠ '/') (p : List Char) :
    dropSlashes (p ++ [c]) = p ++ [c] := by
  rw [dropSlashes, List.reverse_append, List.reverse_singleton, List.singleton_append,
    List.dropWhile_cons_of_neg (by simpa using h), List.reverse_cons, List.reverse_reverse]

theorem dropSlashes_append_slash (p : List Char) : dropSlashes (p ++ ['/']) = dropSlashes p := by
  rw [dropSlashes, List.reverse_append, List.reverse_singleton, List.singleton_append,
    List.dropWhile_cons_of_pos (by simp), dropSlashes]

/-- The directory of a path is what stands before its last slash, unless that is the anchor. -/
theorem directoryChars_append_cons {c : Char} (hc : c ≠ '/') {n : List Char} (h : '/' ∉ n)
    (p : List Char) : directoryChars (p ++ [c] ++ '/' :: n) = p ++ [c] := by
  have hall : (p ++ [c] ++ ['/']).all (· == '/') = false := by simp [hc]
  rw [directoryChars, upToSlash_append_cons h, hall, dropSlashes_append_slash,
    dropSlashes_append_of_ne hc]
  simp

theorem below_of_ne_slash {dir s : List Char} (hs : s.head? ≠ some '/') :
    below dir s = if dir = [] ∨ dir.getLast? = some '/' then dir ++ s else dir ++ '/' :: s := by
  cases s with
  | nil => rfl
  | cons c s =>
      have hc : c ≠ '/' := fun h => hs (by rw [h, List.head?_cons])
      unfold below
      split
      · next h => exact absurd (List.cons.inj h).1 hc
      · rfl

theorem anchor_append_of_ne_slash {a s : List Char} (ha : a = ['/'] ∨ a = ['/', '/'])
    (hs : s.head? ≠ some '/') : anchor (a ++ s) = a := by
  cases s with
  | nil =>
      rcases ha with rfl | rfl
      · rfl
      · rfl
  | cons c s =>
      have hc : c ≠ '/' := fun h => hs (by rw [h, List.head?_cons])
      rcases ha with rfl | rfl
      · simp [anchor, hc]
      · simp [anchor, hc]

namespace Rooted

variable {p q : List Char} {steps : List (List Char)}

theorem exists_cons (h : Rooted p steps) : ∃ cs, p = '/' :: cs := by
  obtain ⟨-, a, rfl | rfl, rfl⟩ := h
  · exact ⟨_, rfl⟩
  · exact ⟨_, rfl⟩

theorem stepsOf_eq (h : Rooted p steps) : stepsOf p = steps := by
  obtain ⟨hsteps, a, ha, rfl⟩ := h
  have hjoin := stepsOf_join fun s hs => ⟨(hsteps s hs).1.1, (hsteps s hs).2⟩
  rcases ha with rfl | rfl
  · rw [List.singleton_append, stepsOf_cons_slash, hjoin]
  · rw [List.cons_append, List.singleton_append, stepsOf_cons_slash, stepsOf_cons_slash, hjoin]

theorem head?_join_ne_slash (h : Rooted p steps) : (Text.join ['/'] steps).head? ≠ some '/' := by
  cases steps with
  | nil => simp
  | cons s steps =>
      obtain ⟨hs, hslash⟩ := h.1 s List.mem_cons_self
      obtain ⟨c, cs, hjoin, hc⟩ := join_cons_ne_slash steps hs.1 hslash
      rw [hjoin]
      simpa using hc

theorem eq_anchor_append (h : Rooted p steps) : p = anchor p ++ Text.join ['/'] steps := by
  obtain ⟨-, a, ha, hp⟩ := id h
  have hanchor : anchor p = a := hp ▸ anchor_append_of_ne_slash ha h.head?_join_ne_slash
  rw [hanchor]
  exact hp

theorem normal_eq (h : Rooted p steps) : normal p = p := by
  obtain ⟨cs, rfl⟩ := h.exists_cons
  rw [normal_cons_slash, h.stepsOf_eq, settle_of_ordinary fun s hs => (h.1 s hs).1,
    ← h.eq_anchor_append]

theorem normalize_eq {p : String} (h : Rooted p.toList steps) : normalize p = p := by
  rw [normalize, h.normal_eq, String.ofList_toList]

theorem exists_cons_below (h : Rooted p steps) (s : List Char) : ∃ cs, below p s = '/' :: cs := by
  obtain ⟨cs, rfl⟩ := h.exists_cons
  unfold below
  split
  · exact ⟨_, rfl⟩
  · split
    · exact ⟨_, rfl⟩
    · exact ⟨_, rfl⟩

theorem dropSlashes_nil (h : Rooted p []) : dropSlashes p = [] := by
  obtain ⟨-, a, rfl | rfl, rfl⟩ := h
  · rfl
  · rfl

theorem exists_append_ne_slash {s : List Char} (h : Rooted p (steps ++ [s])) :
    ∃ cs c, p = cs ++ [c] ∧ c ≠ '/' := by
  obtain ⟨hsteps, a, -, rfl⟩ := h
  obtain ⟨hs, hslash⟩ := hsteps s (by simp)
  obtain ⟨cs, c, hjoin, hc⟩ := join_append_ne_slash steps hs.1 hslash
  exact ⟨a ++ cs, c, by rw [hjoin, List.append_assoc], hc⟩

theorem directoryChars_eq {a : List Char} (ha : a = ['/'] ∨ a = ['/', '/'])
    (h : ∀ s ∈ steps, Ordinary s ∧ '/' ∉ s) :
    directoryChars (a ++ Text.join ['/'] steps) = a ++ Text.join ['/'] steps.dropLast := by
  rcases List.eq_nil_or_concat steps with rfl | ⟨steps, s, rfl⟩
  · rcases ha with rfl | rfl
    · rfl
    · rfl
  · rw [List.concat_eq_append] at h ⊢
    rw [List.dropLast_concat]
    have hslash : '/' ∉ s := (h s (by simp)).2
    rcases List.eq_nil_or_concat steps with rfl | ⟨steps, t, rfl⟩
    · rcases ha with rfl | rfl
      · have hup := upToSlash_append_cons hslash []
        rw [List.nil_append] at hup
        simp [directoryChars, hup]
      · have hup := upToSlash_append_cons hslash ['/']
        rw [List.singleton_append] at hup
        simp [directoryChars, hup]
    · rw [List.concat_eq_append] at h ⊢
      obtain ⟨ht, htslash⟩ := h t (by simp)
      obtain ⟨cs, c, hjoin, hc⟩ := join_append_ne_slash steps ht.1 htslash
      rw [Text.join_append '/' (by simp) (by simp), Text.join_singleton, hjoin,
        ← List.append_assoc, ← List.append_assoc, directoryChars_append_cons hc hslash]

theorem rooted_directoryChars (h : Rooted p steps) : Rooted (directoryChars p) steps.dropLast := by
  obtain ⟨hsteps, a, ha, rfl⟩ := h
  exact ⟨fun s hs => hsteps s (List.dropLast_subset steps hs), a, ha, directoryChars_eq ha hsteps⟩

theorem anchor_directoryChars (h : Rooted p steps) : anchor (directoryChars p) = anchor p := by
  have hdir := h.rooted_directoryChars.head?_join_ne_slash
  obtain ⟨hsteps, a, ha, hp⟩ := id h
  rw [hp, directoryChars_eq ha hsteps, anchor_append_of_ne_slash ha hdir,
    anchor_append_of_ne_slash ha h.head?_join_ne_slash]

theorem anchor_below (h : Rooted p steps) {s : List Char} (hs : s.head? ≠ some '/') :
    anchor (below p s) = anchor p := by
  have hjoin := h.head?_join_ne_slash
  obtain ⟨hsteps, a, ha, rfl⟩ := h
  rw [below_of_ne_slash hs, anchor_append_of_ne_slash ha hjoin]
  cases steps with
  | nil =>
      have hslash : a ++ Text.join ['/'] [] = [] ∨ (a ++ Text.join ['/'] []).getLast? = some '/' := by
        rcases ha with rfl | rfl
        · exact .inr rfl
        · exact .inr rfl
      rw [if_pos hslash, Text.join_nil, List.append_nil, anchor_append_of_ne_slash ha hs]
  | cons t steps =>
      obtain ⟨ht, htslash⟩ := hsteps t List.mem_cons_self
      obtain ⟨c, cs, hcons, hc⟩ := join_cons_ne_slash steps ht.1 htslash
      have hfront : ∀ rest, anchor (a ++ Text.join ['/'] (t :: steps) ++ rest) = a := by
        intro rest
        rw [List.append_assoc]
        apply anchor_append_of_ne_slash ha
        rw [hcons]
        simpa using hc
      split
      · exact hfront s
      · exact hfront ('/' :: s)

theorem rooted_normal_below (h : Rooted p steps) {s : List Char} (hs : s.head? ≠ some '/') :
    Rooted (normal (below p s)) (settle true (steps ++ stepsOf s)) := by
  have hbelow : ∃ cs, below p s = '/' :: cs ∧ stepsOf ('/' :: cs) = steps ++ stepsOf s := by
    rw [below_of_ne_slash hs]
    rcases List.eq_nil_or_concat steps with rfl | ⟨steps, t, rfl⟩
    · obtain ⟨-, a, rfl | rfl, rfl⟩ := h
      · exact ⟨s, rfl, by rw [stepsOf_cons_slash, List.nil_append]⟩
      · exact ⟨'/' :: s, rfl, by rw [stepsOf_cons_slash, stepsOf_cons_slash, List.nil_append]⟩
    · rw [List.concat_eq_append] at h ⊢
      obtain ⟨ps, c, rfl, hc⟩ := h.exists_append_ne_slash
      have hdir : ¬ (ps ++ [c] = [] ∨ (ps ++ [c]).getLast? = some '/') := by simp [hc]
      obtain ⟨cs, hcs⟩ := h.exists_cons
      refine ⟨cs ++ '/' :: s, by rw [if_neg hdir, hcs, List.cons_append], ?_⟩
      rw [← List.cons_append, ← hcs, stepsOf_append, h.stepsOf_eq]
  obtain ⟨cs, hcs, hsteps⟩ := hbelow
  rw [hcs, ← hsteps]
  exact rooted_normal cs

theorem stepsOf_dropSlashes (h : Rooted p steps) : stepsOf (dropSlashes p) = steps := by
  rcases List.eq_nil_or_concat steps with rfl | ⟨steps, t, rfl⟩
  · rw [h.dropSlashes_nil, stepsOf_nil]
  · rw [List.concat_eq_append] at h ⊢
    obtain ⟨ps, c, rfl, hc⟩ := h.exists_append_ne_slash
    rw [dropSlashes_append_of_ne hc, h.stepsOf_eq]

/-- Where such a path lies under another, its steps begin with those of the other. -/
theorem exists_append_of_isUnder {dir f : String} {fsteps : List (List Char)}
    (hd : Rooted (normal dir.toList) steps) (hf : Rooted (normal f.toList) fsteps)
    (h : isUnder dir f = true) (hne : normalize f ≠ normalize dir) :
    ∃ rest, fsteps = steps ++ rest ∧ (rest = [] → steps = []) := by
  have hbegins : dropSlashes (normal dir.toList) ++ ['/'] <+: normal f.toList := by
    rw [isUnder, Bool.or_eq_true, decide_eq_true_iff, List.isPrefixOf_iff_prefix] at h
    exact h.resolve_left fun heq => hne (by rw [normalize, normalize, heq])
  obtain ⟨t, ht⟩ := hbegins
  rw [List.append_assoc, List.singleton_append] at ht
  refine ⟨stepsOf t, ?_, fun hrest => ?_⟩
  · rw [← hf.stepsOf_eq, ← ht, stepsOf_append, hd.stepsOf_dropSlashes]
  · -- A path with steps does not end with a slash.
    rcases List.eq_nil_or_concat steps with rfl | ⟨steps, s, rfl⟩
    · rfl
    · rw [List.concat_eq_append] at hd
      have hfsteps : fsteps = steps ++ [s] := by
        rw [← hf.stepsOf_eq, ← ht, stepsOf_append, hd.stepsOf_dropSlashes, hrest, List.append_nil]
      rw [hfsteps] at hf
      obtain ⟨cs, c, hcs, hc⟩ := hf.exists_append_ne_slash
      have hlast := congrArg List.getLast? ht
      rw [hcs, List.getLast?_append, List.getLast?_append,
        getLast?_of_stepsOf_eq_nil hrest] at hlast
      exact absurd (by simpa using hlast.symm) hc

theorem exists_append_cons {s : List Char} (h : Rooted p (steps ++ [s])) :
    ∃ d, p = d ++ '/' :: s := by
  obtain ⟨-, a, ha, rfl⟩ := h
  cases steps with
  | nil =>
      rcases ha with rfl | rfl
      · exact ⟨[], rfl⟩
      · exact ⟨['/'], rfl⟩
  | cons t steps =>
      refine ⟨a ++ Text.join ['/'] (t :: steps), ?_⟩
      rw [Text.join_append '/' (by simp) (by simp), Text.join_singleton, List.append_assoc]

theorem exists_cons_of_isUnder {dir f : String} (hd : Rooted (normal dir.toList) steps)
    (h : isUnder dir f = true) : ∃ cs, f.toList = '/' :: cs := by
  rw [isUnder, Bool.or_eq_true, decide_eq_true_iff, List.isPrefixOf_iff_prefix] at h
  have hnormal : ∃ cs, normal f.toList = '/' :: cs := by
    obtain ⟨cs, hcs⟩ := hd.exists_cons
    rcases h with heq | ⟨t, ht⟩
    · exact ⟨cs, heq.trans hcs⟩
    · rw [← ht]
      rcases List.eq_nil_or_concat steps with rfl | ⟨steps, s, rfl⟩
      · exact ⟨t, by rw [hd.dropSlashes_nil]; rfl⟩
      · rw [List.concat_eq_append] at hd
        obtain ⟨ps, c, hps, hc⟩ := hd.exists_append_ne_slash
        refine ⟨cs ++ ['/'] ++ t, ?_⟩
        rw [hps, dropSlashes_append_of_ne hc, ← hps, hcs]
        rfl
  obtain ⟨cs, hcs⟩ := hnormal
  cases hf : f.toList with
  | nil =>
      have hempty : normal [] = here := rfl
      rw [hf, hempty] at hcs
      exact absurd (List.cons.inj hcs).1 (by decide)
  | cons c rest =>
      by_cases hc : c = '/'
      · exact ⟨rest, by rw [hc]⟩
      · have hhead : f.toList.head? ≠ some '/' := by simpa [hf] using hc
        exact absurd (by rw [hcs]; rfl) (head?_normal_ne_slash hhead)

theorem anchor_eq_or (h : Rooted p steps) :
    anchor p = ['/'] ∨ anchor p = ['/', '/'] := by
  obtain ⟨cs, rfl⟩ := h.exists_cons
  exact anchor_cons_slash cs

theorem rooted_anchor_append {steps' : List (List Char)} (h : Rooted p steps)
    (h' : ∀ s ∈ steps', Ordinary s ∧ '/' ∉ s) :
    Rooted (anchor p ++ Text.join ['/'] steps') steps' ∧
      anchor (anchor p ++ Text.join ['/'] steps') = anchor p := by
  have hrooted : Rooted (anchor p ++ Text.join ['/'] steps') steps' := ⟨h', _, h.anchor_eq_or, rfl⟩
  exact ⟨hrooted, anchor_append_of_ne_slash h.anchor_eq_or hrooted.head?_join_ne_slash⟩

/-- Two absolute normal paths are the same if they have the same anchor and the same steps. -/
theorem eq_iff {steps' : List (List Char)} (hp : Rooted p steps)
    (hq : Rooted q steps') :
    p = q ↔ anchor p = anchor q ∧ steps = steps' := by
  constructor
  · rintro rfl
    exact ⟨rfl, hp.stepsOf_eq.symm.trans hq.stepsOf_eq⟩
  · rintro ⟨hanchor, rfl⟩
    rw [hp.eq_anchor_append, hq.eq_anchor_append, hanchor]

end Rooted

theorem anchor_normal (p : List Char) : anchor (normal ('/' :: p)) = anchor ('/' :: p) := by
  rw [normal_cons_slash]
  exact anchor_append_of_ne_slash (anchor_cons_slash p) (rooted_normal p).head?_join_ne_slash

end DeclBundle.Path
