import DeclBundle.Module.Id
import DeclBundle.Proofs.Steps

/-!
# Module ids in steps

The id of a file under a base directory is made of the steps of the package name, the steps from the
base directory to the directory of the file, and the last step without its extension
(`toList_idOf`). The id that a relative specifier stands for is what is left of the walk that goes
through the steps of the importing module but the last and then through those of the specifier
(`toList_resolveId`).
-/

namespace DeclBundle

namespace Text

theorem before?_append_cons {c : Char} {e : List Char} (he : c ∉ e) (d n : List Char) :
    before? e (d ++ c :: n) = (before? e n).map fun t => d ++ c :: t := by
  cases h : before? e n with
  | some t =>
      obtain rfl : n = t ++ e := before?_eq_some_iff.1 h
      rw [Option.map_some, before?_eq_some_iff, List.append_assoc, List.cons_append]
  | none =>
      rw [Option.map_none, Option.eq_none_iff_forall_ne_some]
      intro t ht
      have heq := before?_eq_some_iff.1 ht
      rcases List.append_eq_append_iff.1 heq with ⟨x, rfl, hx⟩ | ⟨x, -, hx⟩
      · cases x with
        | nil =>
            rw [List.nil_append] at hx
            exact he (hx ▸ List.mem_cons_self)
        | cons y x =>
            rw [List.cons_append, List.cons.injEq] at hx
            rw [before?_eq_some_iff.2 hx.2] at h
            exact Option.some_ne_none _ h
      · exact he (hx ▸ List.mem_append_right x List.mem_cons_self)

end Text

namespace Path

theorem stemOfName_isPrefix (n : List Char) : stemOfName n <+: n := by
  unfold stemOfName
  split
  · exact List.prefix_rfl
  · next c before h =>
      split
      · have hsuffix := List.dropWhile_suffix (l := n.reverse) (· != '.')
        rw [h] at hsuffix
        have hbefore := (List.suffix_cons c before).trans hsuffix
        rw [← List.reverse_prefix, List.reverse_reverse] at hbefore
        exact hbefore
      · exact List.prefix_rfl

theorem toList_stem_append_cons {n : List Char} (h : '/' ∉ n) (d : List Char) :
    (stem (String.ofList (d ++ '/' :: n))).toList =
      d ++ '/' :: (stem (String.ofList n)).toList := by
  simp only [stem, String.toList_ofList]
  rw [upToSlash_append_cons h, afterSlash_append_cons h, upToSlash_of_not_mem h,
    afterSlash_of_not_mem h, List.nil_append, List.append_assoc, List.singleton_append]

theorem stem_isPrefix (p : String) : (stem p).toList <+: p.toList := by
  rw [stem, String.toList_ofList]
  have hboth := upToSlash_append_afterSlash p.toList
  obtain ⟨t, ht⟩ := stemOfName_isPrefix (afterSlash p.toList)
  refine ⟨t, ?_⟩
  rw [List.append_assoc, ht, hboth]

theorem isAbsolute_iff {p : String} : isAbsolute p = true ↔ ∃ cs, p.toList = '/' :: cs := by
  unfold isAbsolute
  split
  · next cs h => exact ⟨fun _ => ⟨cs, h⟩, fun _ => rfl⟩
  · next h => exact ⟨fun hf => Bool.noConfusion hf, fun ⟨cs, hcs⟩ => absurd hcs (h cs)⟩

theorem exists_rooted_of_isAbsolute {p : String} (h : isAbsolute p = true) :
    ∃ steps, Rooted (normal p.toList) steps := by
  obtain ⟨cs, hcs⟩ := isAbsolute_iff.1 h
  exact ⟨_, hcs ▸ rooted_normal cs⟩

/-- A normal absolute path is seen as it is from every working directory. -/
theorem absolute_of_rooted {p : List Char} {steps : List (List Char)} (h : Rooted p steps)
    (cwd : String) : absolute cwd (String.ofList p) = String.ofList p := by
  obtain ⟨cs, hcs⟩ := h.exists_cons
  have hbelow : below cwd.toList p = p := by rw [hcs, below_of_anchored]
  rw [absolute, join, normalize, String.toList_ofList, String.toList_ofList, hbelow, h.normal_eq]

theorem relative_of_rooted {d p : List Char} {steps rest : List (List Char)} (hd : Rooted d steps)
    (hp : Rooted p (steps ++ rest)) (cwd : String) :
    relative cwd (String.ofList p) (String.ofList d) = String.ofList (write [] rest) := by
  have hlead := lead_append steps [] rest
  rw [List.append_nil, lead_nil] at hlead
  rw [relative, absolute_of_rooted hd, absolute_of_rooted hp, String.toList_ofList,
    String.toList_ofList, hd.stepsOf_eq, hp.stepsOf_eq, hlead]

theorem write_nil_append (steps : List (List Char)) {s : List Char} (hs : s ≠ []) :
    write [] (steps ++ [s]) = Text.join ['/'] (steps ++ [s]) := by
  have hne : Text.join ['/'] (steps ++ [s]) ≠ [] := by
    cases steps with
    | nil => exact hs
    | cons t steps =>
        rw [Text.join_append '/' (by simp) (by simp)]
        simp
  rw [write, List.nil_append, if_neg hne]

theorem write_nil_of_forall {steps : List (List Char)} (hne : steps ≠ []) (h : ∀ s ∈ steps, s ≠ []) :
    write [] steps = Text.join ['/'] steps := by
  rcases List.eq_nil_or_concat steps with rfl | ⟨steps, s, rfl⟩
  · exact absurd rfl hne
  · rw [List.concat_eq_append] at h ⊢
    exact write_nil_append steps (h s (by simp))

end Path

namespace Module

open DeclBundle.Path

theorem toList_beforeEnding?_append_cons {endings : List String} (d n : List Char)
    (h : ∀ e ∈ endings, '/' ∉ e.toList) :
    (beforeEnding? endings (String.ofList (d ++ '/' :: n))).map String.toList =
      (beforeEnding? endings (String.ofList n)).map fun t => d ++ '/' :: t.toList := by
  induction endings with
  | nil => rfl
  | cons e endings ih =>
      have hrest := ih fun e' he' => h e' (List.mem_cons_of_mem e he')
      simp only [beforeEnding?, List.findSome?_cons, String.toList_ofList] at hrest ⊢
      rw [Text.before?_append_cons (h e List.mem_cons_self)]
      cases hn : Text.before? e.toList n with
      | none => simpa using hrest
      | some t => simp

theorem toList_stripExtension_append_cons {n : List Char} (h : '/' ∉ n) (d : List Char) :
    (stripExtension (String.ofList (d ++ '/' :: n))).toList =
      d ++ '/' :: (stripExtension (String.ofList n)).toList := by
  have hendings : ∀ e ∈ declarationEndings ++ sourceEndings, '/' ∉ e.toList := by decide
  have hending := toList_beforeEnding?_append_cons d n hendings
  rw [stripExtension, stripExtension]
  cases hn : beforeEnding? (declarationEndings ++ sourceEndings) (String.ofList n) with
  | none =>
      rw [hn, Option.map_none, Option.map_eq_none_iff] at hending
      rw [hending, Option.getD_none, Option.getD_none, toList_stem_append_cons h]
  | some t =>
      rw [hn, Option.map_some, Option.map_eq_some_iff] at hending
      obtain ⟨u, hu, hut⟩ := hending
      rw [hu, Option.getD_some, Option.getD_some, hut]

theorem stripExtension_isPrefix (p : String) : (stripExtension p).toList <+: p.toList := by
  rw [stripExtension]
  cases h : beforeEnding? (declarationEndings ++ sourceEndings) p with
  | none => exact stem_isPrefix p
  | some t =>
      obtain ⟨e, -, he⟩ := List.exists_of_findSome?_eq_some h
      obtain ⟨u, hu, rfl⟩ := Option.map_eq_some_iff.1 he
      rw [Option.getD_some, String.toList_ofList]
      exact ⟨e.toList, (Text.before?_eq_some_iff.1 hu).symm⟩

theorem toList_stripExtension_join (steps : List (List Char)) {n : List Char} (h : '/' ∉ n) :
    (stripExtension (String.ofList (Text.join ['/'] (steps ++ [n])))).toList =
      Text.join ['/'] (steps ++ [(stripExtension (String.ofList n)).toList]) := by
  cases steps with
  | nil => rfl
  | cons s steps =>
      rw [Text.join_append '/' (by simp) (by simp), Text.join_append '/' (by simp) (by simp),
        Text.join_singleton, Text.join_singleton, toList_stripExtension_append_cons h]

theorem not_mem_stripExtension {n : List Char} (h : '/' ∉ n) :
    '/' ∉ (stripExtension (String.ofList n)).toList := fun hmem =>
  h (by simpa using (stripExtension_isPrefix (String.ofList n)).subset hmem)

theorem toList_stripExtension_of_rooted {g : String} {steps : List (List Char)}
    {n : List Char} (hg : Rooted (normal g.toList) (steps ++ [n])) :
    (stripExtension (Path.normalize g)).toList =
      anchor (normal g.toList) ++
        Text.join ['/'] (steps ++ [(stripExtension (String.ofList n)).toList]) := by
  have hslash : '/' ∉ n := (hg.1 n (by simp)).2
  have hpath : Path.normalize g =
      String.ofList (anchor (normal g.toList) ++ Text.join ['/'] (steps ++ [n])) :=
    congrArg String.ofList hg.eq_anchor_append
  rw [hpath]
  cases steps with
  | nil =>
      rcases hg.anchor_eq_or with ha | ha
      · rw [ha]
        exact toList_stripExtension_append_cons hslash []
      · rw [ha]
        exact toList_stripExtension_append_cons hslash ['/']
  | cons s steps =>
      have hjoin : ∀ m, anchor (normal g.toList) ++ Text.join ['/'] (s :: steps ++ [m]) =
          anchor (normal g.toList) ++ Text.join ['/'] (s :: steps) ++ '/' :: m := fun m => by
        rw [Text.join_append '/' (by simp) (by simp), Text.join_singleton, List.append_assoc]
      rw [hjoin, hjoin, toList_stripExtension_append_cons hslash]

theorem rooted_stripExtension_append {g e : String} {steps : List (List Char)} {n : List Char}
    (hg : Rooted (normal g.toList) (steps ++ [n]))
    (hstem : Ordinary ((stripExtension (String.ofList n)).toList ++ e.toList)) (he : '/' ∉ e.toList) :
    Rooted (stripExtension (Path.normalize g) ++ e).toList
        (steps ++ [(stripExtension (String.ofList n)).toList ++ e.toList]) ∧
      anchor (stripExtension (Path.normalize g) ++ e).toList = anchor (normal g.toList) := by
  rw [String.toList_append, toList_stripExtension_of_rooted hg, List.append_assoc,
    Text.join_append_append]
  apply hg.rooted_anchor_append
  intro s hs
  rcases List.mem_append.1 hs with hs | hs
  · exact hg.1 s (List.mem_append_left _ hs)
  · obtain rfl := List.mem_singleton.1 hs
    have hslash : '/' ∉ (stripExtension (String.ofList n)).toList :=
      not_mem_stripExtension (hg.1 n (by simp)).2
    exact ⟨hstem, fun hmem => (List.mem_append.1 hmem).elim hslash he⟩

theorem rooted_stripExtension {g : String} {steps : List (List Char)} {n : List Char}
    (hg : Rooted (normal g.toList) (steps ++ [n]))
    (hstem : Ordinary (stripExtension (String.ofList n)).toList) :
    Rooted (stripExtension (Path.normalize g)).toList
        (steps ++ [(stripExtension (String.ofList n)).toList]) ∧
      anchor (stripExtension (Path.normalize g)).toList = anchor (normal g.toList) := by
  have hempty := rooted_stripExtension_append (e := "") hg (by simpa using hstem) (by simp)
  rwa [String.append_empty, String.toList_empty, List.append_nil] at hempty

theorem rooted_stripExtension_ending {g e : String} {steps : List (List Char)} {n : List Char}
    (hg : Rooted (normal g.toList) (steps ++ [n])) (he : 2 < e.toList.length ∧ '/' ∉ e.toList) :
    Rooted (stripExtension (Path.normalize g) ++ e).toList
      (steps ++ [(stripExtension (String.ofList n)).toList ++ e.toList]) := by
  have hlong : 2 < ((stripExtension (String.ofList n)).toList ++ e.toList).length := by
    rw [List.length_append]
    exact Nat.lt_add_left _ he.1
  exact (rooted_stripExtension_append hg (ordinary_of_length hlong) he.2).1

/-- The id of a file in steps; the last one is a beginning of the name of the file. -/
theorem toList_idOf {baseDir p : String} {steps rest : List (List Char)}
    (hb : Rooted (normal baseDir.toList) steps) (hp : Rooted (normal p.toList) (steps ++ rest))
    (cwd name : String) :
    ∃ last, '/' ∉ last ∧
      (∀ n, rest = rest.dropLast ++ [n] → last = (stripExtension (String.ofList n)).toList) ∧
      (idOf cwd baseDir p name).toList =
        Text.join ['/'] (Text.pieces '/' name.toList ++ rest.dropLast ++ [last]) := by
  have hjoin : ∀ x ys, name.toList ++ '/' :: Text.join ['/'] (ys ++ [x]) =
      Text.join ['/'] (Text.pieces '/' name.toList ++ ys ++ [x]) := by
    intro x ys
    rw [List.append_assoc, Text.join_append '/' (Text.pieces_ne_nil '/' _) (by simp),
      Text.join_pieces]
  have hid : (idOf cwd baseDir p name).toList =
      name.toList ++ '/' :: (stripExtension (String.ofList (write [] rest))).toList := by
    rw [idOf, Path.normalize, Path.normalize, relative_of_rooted hb hp, String.toList_append,
      String.toList_append, List.append_assoc]
    rfl
  rcases List.eq_nil_or_concat rest with rfl | ⟨rest, n, rfl⟩
  · refine ⟨here, by decide, fun n hn => by simp at hn, ?_⟩
    have hhere : (stripExtension (String.ofList (write [] []))).toList = here := by decide
    rw [hid, hhere, List.dropLast_nil, ← hjoin, List.nil_append, Text.join_singleton]
  · rw [List.concat_eq_append] at hp hid ⊢
    obtain ⟨hn, hslash⟩ := hp.1 n (by simp)
    refine ⟨(stripExtension (String.ofList n)).toList, not_mem_stripExtension hslash, ?_, ?_⟩
    · intro m hm
      rw [List.dropLast_concat, List.append_cancel_left_eq, List.cons.injEq] at hm
      rw [hm.1]
    · rw [hid, write_nil_append rest hn.1, toList_stripExtension_join rest hslash, hjoin,
        List.dropLast_concat]

theorem toList_idOf_of_name {baseDir p : String} {steps dirs : List (List Char)} {n : List Char}
    (hb : Rooted (normal baseDir.toList) steps)
    (hp : Rooted (normal p.toList) (steps ++ (dirs ++ [n]))) (cwd name : String) :
    (idOf cwd baseDir p name).toList =
      Text.join ['/']
        (Text.pieces '/' name.toList ++ dirs ++ [(stripExtension (String.ofList n)).toList]) := by
  obtain ⟨last, -, hlast, hid⟩ := toList_idOf hb hp cwd name
  rw [List.dropLast_concat] at hlast hid
  rw [hid, hlast n rfl]

theorem directoryChars_join {steps : List (List Char)} {last : List Char} (hne : steps ≠ [])
    (hsteps : ∀ s ∈ steps, s ≠ [] ∧ '/' ∉ s) (hlast : '/' ∉ last) :
    directoryChars (Text.join ['/'] (steps ++ [last])) = Text.join ['/'] steps := by
  rcases List.eq_nil_or_concat steps with rfl | ⟨steps, s, rfl⟩
  · exact absurd rfl hne
  · rw [List.concat_eq_append] at hne hsteps ⊢
    obtain ⟨hs, hslash⟩ := hsteps s (by simp)
    obtain ⟨cs, c, hjoin, hc⟩ := join_append_ne_slash steps hs hslash
    rw [Text.join_append '/' hne (by simp), Text.join_singleton, hjoin,
      directoryChars_append_cons hc hlast]

theorem toList_resolveId {source : String} {steps : List (List Char)} {last : List Char}
    (hs : source.toList = Text.join ['/'] (steps ++ [last])) (hne : steps ≠ [])
    (hsteps : ∀ s ∈ steps, s ≠ [] ∧ '/' ∉ s) (hlast : '/' ∉ last) {specifier : String}
    (hspec : specifier.toList.head? ≠ some '/') :
    (resolveId source specifier).toList =
      write [] (settle false (steps ++ stepsOf specifier.toList)) := by
  obtain ⟨first, more, rfl⟩ := List.exists_cons_of_ne_nil hne
  obtain ⟨hfirst, hslash⟩ := hsteps first List.mem_cons_self
  obtain ⟨x, xs, hhead, hx⟩ := join_cons_ne_slash more hfirst hslash
  obtain ⟨ys, y, htail, hy⟩ : ∃ ys y, Text.join ['/'] (first :: more) = ys ++ [y] ∧ y ≠ '/' := by
    have hfinal := hsteps ((first :: more).getLast hne) (List.getLast_mem hne)
    rw [← List.dropLast_concat_getLast hne]
    exact join_append_ne_slash _ hfinal.1 hfinal.2
  have hdir : directoryChars source.toList = Text.join ['/'] (first :: more) :=
    hs ▸ directoryChars_join hne hsteps hlast
  have hbelow : below (directoryChars source.toList) specifier.toList =
      Text.join ['/'] (first :: more) ++ '/' :: specifier.toList := by
    rw [below_of_ne_slash hspec, hdir, htail, if_neg (by simp [hy])]
  have hfront : (Text.join ['/'] (first :: more) ++ '/' :: specifier.toList).head? ≠ some '/' := by
    rw [hhead]
    simpa using hx
  rw [resolveId, Path.normalize, join, directory, String.toList_ofList, String.toList_ofList,
    String.toList_ofList, hbelow, normal_of_ne_slash hfront, stepsOf_append, stepsOf_join hsteps]

end Module

end DeclBundle
