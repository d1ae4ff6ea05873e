import DeclBundle.Proofs.Overriding

/-!
# Options said again

What a record says of options are its entries under the spellings that count, without those that are no
option (`entriesOf`), and the options follow from what is found under the keys there. So a record that says
the same in other words (`Restates`: keys spelt in their other way, entries in another order if no option
is said twice, entries put in that are no option) makes the same options and passes the same checks
(`ofNormalized_eq_of_restates`). The record of options is one of them: it makes these options again
(`ofNormalized_toRecord`).
-/

namespace DeclBundle

namespace Record

variable {r r' : Record} {key : String} {v : Value}

/-- Where no two keys are the same, the value of a key is that of its entry. -/
theorem Distinct.get?_eq_some_iff (h : Distinct r) : get? r key = some v ↔ (.text key, v) ∈ r := by
  induction r with
  | nil => exact iff_of_false nofun List.not_mem_nil
  | cons e r ih =>
      obtain ⟨k, w⟩ := e
      obtain ⟨hfirst, hr⟩ := List.pairwise_cons.1 h
      rw [get?, List.mem_cons, Prod.mk.injEq]
      by_cases hk : k.isSameKey (.text key) = true
      · obtain rfl := (isSameKey_text_iff k key).1 hk
        have hnot : ∀ v, (Value.text key, v) ∉ r := fun v hmem => by
          have hsame := hfirst _ hmem
          rw [hk] at hsame
          cases hsame
        simp [hk, hnot, eq_comm]
      · have hne : Value.text key ≠ k := fun heq => hk ((isSameKey_text_iff k key).2 heq.symm)
        rw [if_neg hk, ih hr]
        simp [hne]

theorem Distinct.get?_perm (h : Distinct r) (h' : Distinct r') (hperm : r.Perm r') (key : String) :
    get? r key = get? r' key := by
  refine Option.ext fun v => ?_
  rw [h.get?_eq_some_iff, h'.get?_eq_some_iff, hperm.mem_iff]

end Record

namespace Options

def entriesOf (d : Record) : Record := (d.map fun e => (canonical e.1, e.2)).filter fun e => isKey e.1

/-- Every key stands once in a record, and in one spelling only. -/
structure SpeltOnce (d : Record) : Prop where
  nodup : (Record.keys d).Nodup
  one_spelling : ∀ e ∈ aliases, ¬ (.text e.1 ∈ Record.keys d ∧ .text e.2 ∈ Record.keys d)

/-- A record says the same as another one in other words. -/
inductive Restates : Record → Record → Prop
  | respell (before after : Record) {s t : String} (v : Value) (h : (s, t) ∈ aliases) :
      Restates (before ++ (.text s, v) :: after) (before ++ (.text t, v) :: after)
  | permute {d d' : Record} (h : d.Perm d') (honce : SpeltOnce d) : Restates d d'
  | insert (before after : Record) {k : Value} (v : Value) (h : isKey (canonical k) = false) :
      Restates (before ++ after) (before ++ (k, v) :: after)

theorem entriesOf_append (d d' : Record) : entriesOf (d ++ d') = entriesOf d ++ entriesOf d' := by
  rw [entriesOf, List.map_append, List.filter_append, entriesOf, entriesOf]

theorem entriesOf_cons (e : Value × Value) (d : Record) :
    entriesOf (e :: d) =
      if isKey (canonical e.1) then (canonical e.1, e.2) :: entriesOf d else entriesOf d := by
  rw [entriesOf, List.map_cons, List.filter_cons, entriesOf]

theorem distinct_of_nodup_keys {r : Record} (hkeys : ∀ e ∈ r, isKey e.1 = true)
    (h : (Record.keys r).Nodup) : Record.Distinct r := by
  refine (List.pairwise_map.1 h).imp_of_mem fun {e e'} he he' hne => ?_
  have htext {k : Value} (hk : isKey k = true) : ∃ s, k = .text s := by
    cases k with
    | text s => exact ⟨s, rfl⟩
    | _ => cases hk
  obtain ⟨s, hs⟩ := htext (hkeys e he)
  obtain ⟨s', hs'⟩ := htext (hkeys e' he')
  rw [hs, hs', Value.isSameKey_text, beq_eq_false_iff_ne]
  exact fun heq => hne (by rw [hs, hs', heq])

theorem canonical_of_mem_aliases {s t : String} (h : (s, t) ∈ aliases) :
    canonical (.text s) = canonical (.text t) := by
  have hlookup : ∀ e ∈ aliases, aliases.lookup e.1 = some e.2 ∧ aliases.lookup e.2 = none := by decide
  obtain ⟨hs, ht⟩ := hlookup _ h
  rw [canonical, canonical, hs, ht]
  rfl

theorem eq_or_mem_aliases_of_canonical_eq {k k' : Value} (h : canonical k = canonical k') :
    k = k' ∨ ∃ e ∈ aliases,
      k = .text e.1 ∧ k' = .text e.2 ∨ k = .text e.2 ∧ k' = .text e.1 := by
  have hmem {s t : String} (h : aliases.lookup s = some t) : (s, t) ∈ aliases := by
    obtain ⟨before, after, haliases, -⟩ := List.lookup_eq_some_iff.1 h
    rw [haliases]
    simp
  have hother : ∀ e ∈ aliases, ∀ e' ∈ aliases, e.2 = e'.2 → e.1 = e'.1 := by decide
  cases k with
  | text s =>
      cases k' with
      | text s' =>
          rw [canonical, canonical, Value.text.injEq] at h
          cases hs : aliases.lookup s with
          | none =>
              rw [hs, Option.getD_none] at h
              cases hs' : aliases.lookup s' with
              | none => exact .inl (by rw [h, hs', Option.getD_none])
              | some t' =>
                  rw [hs', Option.getD_some] at h
                  exact .inr ⟨_, hmem hs', .inr ⟨by rw [h], rfl⟩⟩
          | some t =>
              rw [hs, Option.getD_some] at h
              cases hs' : aliases.lookup s' with
              | none =>
                  rw [hs', Option.getD_none] at h
                  exact .inr ⟨_, hmem hs, .inl ⟨rfl, by rw [h]⟩⟩
              | some t' =>
                  rw [hs', Option.getD_some] at h
                  exact .inl (congrArg Value.text (hother _ (hmem hs) _ (hmem hs') h))
      | _ => cases h
  | _ =>
      cases k' with
      | text s' => cases h
      | _ => exact .inl h

theorem keys_entriesOf (d : Record) :
    Record.keys (entriesOf d) = ((Record.keys d).map canonical).filter isKey := by
  rw [entriesOf, Record.keys, Record.keys, List.map_map, List.filter_map, List.filter_map, List.map_map]
  rfl

theorem SpeltOnce.nodup_entriesOf {d : Record} (h : SpeltOnce d) : (Record.keys (entriesOf d)).Nodup := by
  rw [keys_entriesOf]
  refine (List.Nodup.map_on (fun k hk k' hk' heq => ?_) h.nodup).filter _
  refine (eq_or_mem_aliases_of_canonical_eq heq).resolve_right ?_
  rintro ⟨e, he, ⟨rfl, rfl⟩ | ⟨rfl, rfl⟩⟩
  · exact h.one_spelling e he ⟨hk, hk'⟩
  · exact h.one_spelling e he ⟨hk', hk⟩

theorem distinct_entriesOf {d : Record} (h : (Record.keys (entriesOf d)).Nodup) :
    Record.Distinct (entriesOf d) :=
  distinct_of_nodup_keys (fun e he => by simpa using (List.mem_filter.1 he).2) h

theorem Restates.get?_normalized {d d' : Record} (h : Restates d d') (key : String) :
    Record.get? (normalized d) key = Record.get? (normalized d') key := by
  rw [normalized, normalized, ← entriesOf, ← entriesOf]
  cases h with
  | respell before after v h =>
      rw [entriesOf_append, entriesOf_append, entriesOf_cons, entriesOf_cons, canonical_of_mem_aliases h]
  | permute hperm honce =>
      have hentries : (entriesOf d).Perm (entriesOf d') := (hperm.map _).filter _
      have hdistinct := distinct_entriesOf honce.nodup_entriesOf
      have hdistinct' : Record.Distinct (entriesOf d') := distinct_entriesOf <|
        (hentries.map Prod.fst).nodup_iff.1 honce.nodup_entriesOf
      rw [Record.get?_ofEntries, Record.get?_ofEntries, hdistinct.last?_eq, hdistinct'.last?_eq,
        hdistinct.get?_perm hdistinct' hentries]
  | insert before after v h =>
      rw [entriesOf_append, entriesOf_append, entriesOf_cons, h]
      rfl

/-- The options of a record are made of the same options, said in any words. -/
theorem ofNormalized_eq_of_restates {d d' : Record} (h : Relation.EqvGen Restates d d') :
    ofNormalized (normalized d) = ofNormalized (normalized d') := by
  induction h with
  | rel _ _ h => exact ofNormalized_congr fun key _ => h.get?_normalized key
  | refl _ => rfl
  | symm _ _ _ ih => exact ih.symm
  | trans _ _ _ _ _ ih ih' => exact ih.trans ih'

/-- The record of options says each of them once, in the spelling that counts. -/
theorem normalized_toRecord (o : Options) : normalized o.toRecord = o.toRecord := by
  have hkeys : Record.keys o.toRecord = keys.map .text := rfl
  have hisKey : ∀ e ∈ o.toRecord, isKey e.1 = true := by
    have hall : ∀ k ∈ Record.keys o.toRecord, isKey k = true := by
      rw [hkeys, List.forall_mem_map]
      decide
    exact List.forall_mem_map.1 hall
  have hnodup : (Record.keys o.toRecord).Nodup := by
    rw [hkeys]
    exact List.Nodup.map (fun s t h => Value.text.inj h) (by decide)
  rw [normalized_eq_filter (distinct_of_nodup_keys hisKey hnodup)
    fun e he => canonical_of_isKey (hisKey e he), List.filter_eq_self.2 hisKey]

/-- The record of options makes these options if they have a unit of indentation. -/
theorem ofNormalized_toRecord {o : Options} (h : isNull o.indent = false) :
    ofNormalized (normalized o.toRecord) = .ok o := by
  rw [normalized_toRecord, ofNormalized_eq_ok_iff]
  have hindent : o.indent = if isNull o.indent then defaultIndent else o.indent := by
    rw [h, if_neg Bool.false_ne_true]
  exact ⟨rfl, rfl, rfl, rfl, rfl, rfl, rfl, hindent, rfl, rfl, rfl, rfl, rfl⟩

theorem Yields.isNull_indent {value? : String → Option Value} {o : Options} (h : Yields value? o) :
    isNull o.indent = false := by
  rw [h.indent]
  split
  · rfl
  · next hnull => exact Bool.eq_false_iff.2 hnull

/-- Options that are made of a record are made again of their own record, and of every record that says the
same in other words; the checks come to the same end with all of them. -/
theorem ofRecord_restated {d : Record} {o : Options} {fs : FileSystem}
    (h : (ofRecord d fs).result = .ok o) :
    (∀ fs', (ofRecord o.toRecord fs').result = .ok o ∧
        (accept o.toRecord fs').result = (accept d fs).result) ∧
      ∀ d', Relation.EqvGen Restates d d' → ∀ fs', (ofRecord d' fs').result = .ok o ∧
        (accept d' fs').result = (accept d fs).result := by
  rw [result_ofRecord] at h
  refine ⟨fun fs' => ?_, fun d' hd fs' => ?_⟩
  · have hround := ofNormalized_toRecord (ofNormalized_eq_ok_iff.1 h).isNull_indent
    rw [result_ofRecord, result_accept, result_accept, hround, h]
    exact ⟨rfl, rfl⟩
  · rw [result_ofRecord, result_accept, result_accept, ← ofNormalized_eq_of_restates hd, h]
    exact ⟨rfl, rfl⟩

/-- A record with values of many kinds, and with a key that is no option. -/
def mixedRecord : Record := [
  (.text "exclude", .text "*.spec.ts"), (.text "indent", .null), (.text "bogus", .int 1),
  (.text "baseDir", .text "src"), (.text "externs", .map [(.text "node", .bool true)]),
  (.text "files", .null), (.text "name", .text "pkg")
]

def restatedRecord : Record := [
  (.text "name", .text "pkg"), (.text "files", .null), (.text "Files", .null),
  (.text "extern", .map [(.text "node", .bool true)]), (.text "base_dir", .text "src"),
  (.text "indent", .null), (.text "excludes", .text "*.spec.ts")
]

def mixedOptions : Options where
  baseDir := .text "src"
  name := .text "pkg"
  out := .text ""
  files := []
  excludes := [.text "*.spec.ts"]
  externs := [.text "node"]
  eol := .null
  indent := .text "\t"
  main := .null
  target := .null
  tsc := .null
  project := .null
  timeout := .null

theorem restates_mixedRecord : Relation.EqvGen Restates mixedRecord restatedRecord := by
  let excludes : Value × Value := (.text "excludes", .text "*.spec.ts")
  let indent : Value × Value := (.text "indent", .null)
  let base : Value × Value := (.text "base_dir", .text "src")
  let files : Value × Value := (.text "files", .null)
  let name : Value × Value := (.text "name", .text "pkg")
  let externs := Value.map [(.text "node", .bool true)]
  have hdrop : Restates _ mixedRecord := .insert (mixedRecord.take 2) (mixedRecord.drop 3) (.int 1)
    (by decide : isKey (canonical (.text "bogus")) = false)
  have hexclude : Restates (mixedRecord.take 2 ++ mixedRecord.drop 3) _ :=
    .respell [] _ (.text "*.spec.ts") (by decide : ("exclude", "excludes") ∈ aliases)
  have hbase : Restates (excludes :: indent :: mixedRecord.drop 3) _ :=
    .respell [excludes, indent] _ (.text "src") (by decide : ("baseDir", "base_dir") ∈ aliases)
  have hextern : Restates _ (excludes :: indent :: base :: mixedRecord.drop 4) :=
    .respell [excludes, indent, base] _ externs (by decide : ("extern", "externs") ∈ aliases)
  have hinsert : Restates ([excludes, indent, base, (.text "extern", externs)] ++ [files, name]) _ :=
    .insert _ _ .null (by decide : isKey (canonical (.text "Files")) = false)
  have hkeys : Record.keys restatedRecord =
      ["name", "files", "Files", "extern", "base_dir", "indent", "excludes"].map .text := rfl
  have hmem (s : String) : Value.text s ∈ Record.keys restatedRecord ↔
      s ∈ ["name", "files", "Files", "extern", "base_dir", "indent", "excludes"] := by
    rw [hkeys, List.mem_map_of_injective fun s t h => Value.text.inj h]
  have honce : SpeltOnce restatedRecord := by
    refine ⟨hkeys ▸ List.Nodup.map (fun s t h => Value.text.inj h) (by decide), ?_⟩
    simp only [hmem]
    decide
  have hreverse : Restates restatedRecord restatedRecord.reverse :=
    .permute (List.reverse_perm _).symm honce
  have hspelt := ((Relation.EqvGen.rel _ _ hdrop).symm.trans _ _ _ (.rel _ _ hexclude)).trans _ _ _
    ((Relation.EqvGen.rel _ _ hbase).trans _ _ _ (.symm _ _ (.rel _ _ hextern)))
  exact (hspelt.trans _ _ _ (.rel _ _ hinsert)).trans _ _ _ (.symm _ _ (.rel _ _ hreverse))

theorem ofRecord_restated_mixedRecord :
    (ofRecord mixedRecord FileSystem.empty).result = .ok mixedOptions ∧
      Relation.EqvGen Restates mixedRecord restatedRecord ∧
      (ofRecord mixedOptions.toRecord FileSystem.empty).result = .ok mixedOptions ∧
      (ofRecord restatedRecord FileSystem.empty).result = .ok mixedOptions ∧
      (accept restatedRecord FileSystem.empty).result = .error (.configuration (.missingOption "out")) := by
  have hmade : (ofRecord mixedRecord FileSystem.empty).result = .ok mixedOptions := by
    rw [result_ofRecord]
    cbv
  have hrestated := ofRecord_restated hmade
  have hother := hrestated.2 _ restates_mixedRecord FileSystem.empty
  refine ⟨hmade, restates_mixedRecord, (hrestated.1 _).1, hother.1, hother.2.trans ?_⟩
  rw [result_accept]
  cbv

end Options

end DeclBundle
