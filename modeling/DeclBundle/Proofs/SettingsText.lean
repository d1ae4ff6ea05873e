import DeclBundle.Proofs.CommentFree
import DeclBundle.Proofs.ReadSpelling
import DeclBundle.Settings
import Mathlib.Data.List.Induction

/-!
# The text of settings

A settings file is read as the object that it spells, with what is left of its strings
(`read_spelling`). So what is read is the object itself exactly if all its strings are intact
(`read_eq_iff`). A string that is not loses a character, and so does the object: its `weight` is the
number of characters of its strings, and putting members with one key together adds none.
-/

namespace DeclBundle

namespace Value

mutual

def weight : Value → Nat
  | text s => s.length
  | list xs => weights xs
  | map es => recordWeight es
  | _ => 0

def weights : List Value → Nat
  | [] => 0
  | v :: vs => weight v + weights vs

def recordWeight : List (Value × Value) → Nat
  | [] => 0
  | (k, v) :: es => weight k + weight v + recordWeight es

end

theorem recordWeight_put_le (r : Record) (k v : Value) :
    recordWeight (Record.put r k v) ≤ recordWeight r + (weight k + weight v) := by
  induction r with
  | nil => simp [Record.put, recordWeight]
  | cons e r ih =>
      obtain ⟨k', v'⟩ := e
      rw [Record.put]
      split
      · simp only [recordWeight]
        omega
      · simp only [recordWeight]
        omega

theorem recordWeight_ofEntries_le (es : List (Value × Value)) :
    recordWeight (Record.ofEntries es) ≤ recordWeight es := by
  have hfold : ∀ r : Record, recordWeight (es.foldl (fun r e => Record.put r e.1 e.2) r) ≤
      recordWeight r + recordWeight es := by
    induction es with
    | nil => exact fun r => Nat.le_refl _
    | cons e es ih =>
        intro r
        obtain ⟨k, v⟩ := e
        have hput := recordWeight_put_le r k v
        have hrest := ih (Record.put r k v)
        simp only [List.foldl_cons, recordWeight]
        omega
  have hempty := hfold []
  simpa [recordWeight, Record.ofEntries] using hempty

end Value

namespace Record

theorem put_of_new {r : Record} {k : Value} (h : ∀ e ∈ r, e.1.isSameKey k = false) (v : Value) :
    put r k v = r ++ [(k, v)] := by
  induction r with
  | nil => rfl
  | cons e r ih =>
      obtain ⟨k', v'⟩ := e
      have hk : k'.isSameKey k = false := h (k', v') List.mem_cons_self
      rw [put, if_neg (by simp [hk]), ih fun e he => h e (List.mem_cons_of_mem _ he),
        List.cons_append]

theorem ofEntries_of_pairwise {es : List (Value × Value)}
    (h : es.Pairwise fun e e' => e.1.isSameKey e'.1 = false) : ofEntries es = es := by
  induction es using List.reverseRecOn with
  | nil => rfl
  | append_singleton es e ih =>
      obtain ⟨hes, -, hlast⟩ := List.pairwise_append.1 h
      have hnew : ∀ e' ∈ es, e'.1.isSameKey e.1 = false := fun e' he' => hlast e' he' e (by simp)
      have hfold : ofEntries (es ++ [e]) = put (ofEntries es) e.1 e.2 := by
        simp [ofEntries, List.foldl_append]
      rw [hfold, ih hes, put_of_new hnew]

end Record

namespace Json

def Token.weight : Token → Nat
  | .string gs => gs.length
  | _ => 0

def tokensWeight : List Token → Nat
  | [] => 0
  | t :: ts => t.weight + tokensWeight ts

@[simp] theorem tokensWeight_nil : tokensWeight [] = 0 := rfl

@[simp] theorem tokensWeight_cons (t : Token) (ts : List Token) :
    tokensWeight (t :: ts) = t.weight + tokensWeight ts := rfl

@[simp] theorem tokensWeight_append (ts ts' : List Token) :
    tokensWeight (ts ++ ts') = tokensWeight ts + tokensWeight ts' := by
  induction ts with
  | nil => simp
  | cons t ts ih => simp [ih, Nat.add_assoc]

theorem Token.weight_shorten_le (t : Token) : t.shorten.weight ≤ t.weight := by
  cases t with
  | string gs => exact Glyph.length_shorten_le gs
  | _ => exact Nat.le_refl _

theorem tokensWeight_untrailTokens_le (ts : List Token) :
    tokensWeight (untrailTokens ts) ≤ tokensWeight ts := by
  fun_induction untrailTokens ts with
  | case1 => exact Nat.le_refl 0
  | case2 ts hnext ih =>
      rw [tokensWeight_cons]
      omega
  | case3 ts hnext ih =>
      rw [tokensWeight_cons, tokensWeight_cons]
      omega
  | case4 t ts _ ih =>
      have ht := t.weight_shorten_le
      rw [tokensWeight_cons, tokensWeight_cons]
      omega

theorem tokensWeight_untrailTokens_lt {ts : List Token} {gs : List Glyph} (hgs : .string gs ∈ ts)
    (h : ¬ Glyph.Intact gs) : tokensWeight (untrailTokens ts) < tokensWeight ts := by
  fun_induction untrailTokens ts with
  | case1 => simp at hgs
  | case2 ts hnext ih =>
      have hlt := ih (by simpa using hgs)
      rw [tokensWeight_cons]
      omega
  | case3 ts hnext ih =>
      have hlt := ih (by simpa using hgs)
      rw [tokensWeight_cons, tokensWeight_cons]
      omega
  | case4 t ts _ ih =>
      have ht := t.weight_shorten_le
      have hts := tokensWeight_untrailTokens_le ts
      rw [tokensWeight_cons, tokensWeight_cons]
      rcases List.mem_cons.1 hgs with rfl | hmem
      · have hlt : (Token.string gs).shorten.weight < (Token.string gs).weight :=
          Glyph.length_shorten_lt h
        omega
      · have hlt := ih hmem
        omega

namespace Spelling

mutual

theorem strict_shorten : ∀ d : Spelling, d.shorten.Strict
  | word _ => trivial
  | number _ => trivial
  | string _ => trivial
  | list items _ => ⟨rfl, strictItems_shortenItems items⟩
  | map members _ => ⟨rfl, strictMembers_shortenMembers members⟩

theorem strictItems_shortenItems : ∀ ds : List Spelling, StrictItems (shortenItems ds)
  | [] => trivial
  | d :: ds => ⟨strict_shorten d, strictItems_shortenItems ds⟩

theorem strictMembers_shortenMembers :
    ∀ ms : List (List Glyph × Spelling), StrictMembers (shortenMembers ms)
  | [] => trivial
  | (_, d) :: ms => ⟨strict_shorten d, strictMembers_shortenMembers ms⟩

end

/-- All strings of a row of tokens are intact. -/
def AllIntact (ts : List Token) : Prop := ∀ gs, Token.string gs ∈ ts → Glyph.Intact gs

theorem AllIntact.mono {ts us : List Token} (h : AllIntact us) (hsub : ts ⊆ us) : AllIntact ts :=
  fun gs hgs => h gs (hsub hgs)

mutual

theorem value_shorten : ∀ d : Spelling, AllIntact d.tokens → d.shorten.value = d.value
  | word _, _ => rfl
  | number _, _ => rfl
  | string gs, h => by
    rw [shorten, value, value, Glyph.shorten_of_intact (h gs (by simp [tokens]))]
  | list [] _, _ => rfl
  | list (d :: ds) trailing, h => by
    have hd := value_shorten d (h.mono (by simp [tokens]))
    have hds := values_shortenItems trailing ds (h.mono (by simp [tokens]))
    rw [shorten, value, value, shortenItems, values, values, hd, hds]
  | map [] _, _ => rfl
  | map ((key, d) :: ms) trailing, h => by
    have hkey := Glyph.shorten_of_intact (h key (by simp [tokens]))
    have hd := value_shorten d (h.mono fun t ht => by simp [tokens, ht])
    have hms := entries_shortenMembers trailing ms (h.mono fun t ht => by simp [tokens, ht])
    rw [shorten, value, value, shortenMembers, entries, entries, hkey, hd, hms]

theorem values_shortenItems (trailing : Bool) :
    ∀ ds : List Spelling, AllIntact (moreItems trailing ds) → values (shortenItems ds) = values ds
  | [], _ => rfl
  | d :: ds, h => by
    have hd := value_shorten d (h.mono fun t ht => by simp [moreItems, ht])
    have hds := values_shortenItems trailing ds (h.mono fun t ht => by simp [moreItems, ht])
    rw [shortenItems, values, values, hd, hds]

theorem entries_shortenMembers (trailing : Bool) :
    ∀ ms : List (List Glyph × Spelling), AllIntact (moreMembers trailing ms) →
      entries (shortenMembers ms) = entries ms
  | [], _ => rfl
  | (key, d) :: ms, h => by
    have hkey := Glyph.shorten_of_intact (h key (by simp [moreMembers]))
    have hd := value_shorten d (h.mono fun t ht => by simp [moreMembers, ht])
    have hms := entries_shortenMembers trailing ms (h.mono fun t ht => by simp [moreMembers, ht])
    rw [shortenMembers, entries, entries, hkey, hd, hms]

end

mutual

def DistinctKeys : Spelling → Prop
  | list items _ => DistinctKeysItems items
  | map members _ => (members.map fun m => Glyph.text m.1).Nodup ∧ DistinctKeysMembers members
  | _ => True

def DistinctKeysItems : List Spelling → Prop
  | [] => True
  | d :: ds => DistinctKeys d ∧ DistinctKeysItems ds

/-- No key stands twice in one object among the values of members. -/
def DistinctKeysMembers : List (List Glyph × Spelling) → Prop
  | [] => True
  | (_, d) :: ms => DistinctKeys d ∧ DistinctKeysMembers ms

end

theorem ofEntries_entries {ms : List (List Glyph × Spelling)}
    (h : (ms.map fun m => Glyph.text m.1).Nodup) : Record.ofEntries (entries ms) = entries ms := by
  have hentries : ∀ ms, entries ms = ms.map fun m => (.text (Glyph.text m.1), value m.2) := by
    intro ms
    induction ms with
    | nil => rfl
    | cons m ms ih => rw [entries, ih, List.map_cons]
  apply Record.ofEntries_of_pairwise
  rw [hentries, List.pairwise_map]
  exact (List.pairwise_map.1 h).imp fun hne => by simpa using hne

mutual

/-- The characters of a value are those of the strings that spell it, or fewer where a key stands
twice. -/
theorem weight_value : ∀ d : Spelling, d.value.weight ≤ tokensWeight d.tokens ∧
    (d.DistinctKeys → d.value.weight = tokensWeight d.tokens)
  | word w => by
    have hzero : w.value.weight = 0 := by
      cases w with
      | null => rfl
      | bool b => rfl
    simp [value, tokens, hzero, Token.weight]
  | number n => by
    have hzero : n.value.weight = 0 := by
      rw [Numeral.value]
      split <;> rfl
    simp [value, tokens, hzero, Token.weight]
  | string gs => by
    simp [value, tokens, Value.weight, Token.weight, Glyph.text]
  | list [] _ => ⟨Nat.zero_le _, fun _ => rfl⟩
  | list (d :: ds) trailing => by
    obtain ⟨hle, heq⟩ := weight_value d
    obtain ⟨hles, heqs⟩ := weights_values trailing ds
    simp only [value, values, tokens, Value.weight, Value.weights, tokensWeight_cons,
      tokensWeight_append, Token.weight]
    refine ⟨by omega, ?_⟩
    rintro ⟨hd, hds⟩
    have hd := heq hd
    have hds := heqs hds
    omega
  | map [] _ => ⟨Nat.zero_le _, fun _ => rfl⟩
  | map ((key, d) :: ms) trailing => by
    obtain ⟨hle, heq⟩ := weight_value d
    obtain ⟨hles, heqs⟩ := recordWeight_entries trailing ms
    have hkey : (Value.text (Glyph.text key)).weight = key.length := by
      simp [Value.weight, Glyph.text]
    have hentries : Value.recordWeight (entries ((key, d) :: ms)) =
        key.length + d.value.weight + Value.recordWeight (entries ms) := by
      rw [entries, Value.recordWeight, hkey]
    have hput := Value.recordWeight_ofEntries_le (entries ((key, d) :: ms))
    simp only [value, tokens, Value.weight, tokensWeight_cons, tokensWeight_append, Token.weight]
    refine ⟨by omega, ?_⟩
    rintro ⟨hkeys, hd, hms⟩
    have hd := heq hd
    have hms := heqs hms
    rw [ofEntries_entries hkeys]
    omega

theorem weights_values (trailing : Bool) : ∀ ds : List Spelling,
    Value.weights (values ds) ≤ tokensWeight (moreItems trailing ds) ∧
      (DistinctKeysItems ds → Value.weights (values ds) = tokensWeight (moreItems trailing ds))
  | [] => by cases trailing <;> simp [values, Value.weights, moreItems, ending, Token.weight]
  | d :: ds => by
    obtain ⟨hle, heq⟩ := weight_value d
    obtain ⟨hles, heqs⟩ := weights_values trailing ds
    simp only [values, moreItems, Value.weights, tokensWeight_cons, tokensWeight_append, Token.weight]
    refine ⟨by omega, ?_⟩
    rintro ⟨hd, hds⟩
    have hd := heq hd
    have hds := heqs hds
    omega

theorem recordWeight_entries (trailing : Bool) : ∀ ms : List (List Glyph × Spelling),
    Value.recordWeight (entries ms) ≤ tokensWeight (moreMembers trailing ms) ∧
      (DistinctKeysMembers ms →
        Value.recordWeight (entries ms) = tokensWeight (moreMembers trailing ms))
  | [] => by cases trailing <;> simp [entries, Value.recordWeight, moreMembers, ending, Token.weight]
  | (key, d) :: ms => by
    obtain ⟨hle, heq⟩ := weight_value d
    obtain ⟨hles, heqs⟩ := recordWeight_entries trailing ms
    have hkey : (Value.text (Glyph.text key)).weight = key.length := by
      simp [Value.weight, Glyph.text]
    simp only [entries, moreMembers, Value.recordWeight, hkey, tokensWeight_cons, tokensWeight_append,
      Token.weight]
    refine ⟨by omega, ?_⟩
    rintro ⟨hd, hms⟩
    have hd := heq hd
    have hms := heqs hms
    omega

end

theorem value_shorten_iff {d : Spelling} (h : d.DistinctKeys) :
    d.shorten.value = d.value ↔ AllIntact d.tokens := by
  refine ⟨fun heq gs hgs => ?_, value_shorten d⟩
  -- The value weighs as much as its tokens, and what is left of them weighs less.
  by_contra hintact
  have hlt := tokensWeight_untrailTokens_lt hgs hintact
  have htokens : untrailTokens d.tokens = d.shorten.tokens := by
    simpa [untrailTokens] using untrailTokens_tokens d []
  have hshorten := (weight_value d.shorten).1
  have hvalue := (weight_value d).2 h
  rw [heq, ← htokens] at hshorten
  omega

end Spelling

end Json

namespace Settings

open Json

variable {cwd path text : String} {fs : FileSystem} {bytes : ByteArray}

/-- Of the object that a settings file spells, what is left of its strings is read. -/
theorem read_spelling {members : List (List Glyph × Spelling)} {trailing : Bool}
    (hread : fs.read cwd path = .ok bytes) (htext : Text.decodeMarked? bytes = some text)
    (hlays : Lays Gap (Spelling.map members trailing).tokens text.toList) :
    read cwd path fs =
      .ok (Record.ofEntries (Spelling.entries (Spelling.shortenMembers members))) := by
  have huntrail := lays_untrail (lays_uncomment hlays)
  have htokens := Spelling.untrailTokens_tokens (.map members trailing) []
  rw [List.append_nil, untrailTokens, List.append_nil] at htokens
  rw [htokens] at huntrail
  have hdocument := readDocument_lays (Spelling.strict_shorten _) huntrail
  have hclean : (withoutTrailingCommas (withoutComments
      (String.ofList (Text.unifyLineEnds text.toList)))).toList =
        untrail (uncomment .plain (Text.unifyLineEnds text.toList)) := by
    simp [withoutTrailingCommas, withoutComments]
  rw [Settings.read, hread]
  simp only [textOf?, htext, Option.map_some, parse, Json.read, hclean, hdocument, Spelling.shorten,
    Spelling.value]

/-- An object is read from its settings file as it is exactly if none of its strings has a comma that
only white space and a closing bracket stand behind. -/
theorem read_eq_iff {members : List (List Glyph × Spelling)} {trailing : Bool}
    (hread : fs.read cwd path = .ok bytes) (htext : Text.decodeMarked? bytes = some text)
    (hlays : Lays Gap (Spelling.map members trailing).tokens text.toList)
    (hkeys : (Spelling.map members trailing).DistinctKeys) :
    ∃ r, read cwd path fs = .ok r ∧ (.map r = (Spelling.map members trailing).value ↔
      Spelling.AllIntact (Spelling.map members trailing).tokens) :=
  ⟨_, read_spelling hread htext hlays, Spelling.value_shorten_iff hkeys⟩

def bracketText : List (List Glyph × Spelling) :=
  [([.plain 'a' (by decide)], .string [.plain ',' (by decide), .plain ']' (by decide)])]

def bracketTextFiles : FileSystem :=
  ⟨[(["tsconfig.json"], .file (Text.encode "\x7b\"a\": \",]\"\x7d"))]⟩

theorem read_bracketTextFiles :
    bracketTextFiles.read "/" "tsconfig.json" = .ok (Text.encode "\x7b\"a\": \",]\"\x7d") := by
  have hplace : bracketTextFiles.place "/" "tsconfig.json" = .ok ["tsconfig.json"] := by
    decide +kernel
  rw [FileSystem.read, hplace]
  rfl

theorem decodeMarked?_bracketText :
    Text.decodeMarked? (Text.encode "\x7b\"a\": \",]\"\x7d") = some "\x7b\"a\": \",]\"\x7d" := by
  decide +kernel

theorem lays_bracketText :
    Lays Gap (Spelling.map bracketText false).tokens "\x7b\"a\": \",]\"\x7d".toList := by
  have hempty : Gap [] := .nil
  have hblank : Gap [' '] := .blank rfl hempty
  have hlast : Lays Gap [.closeMap] ['\x7d'] := .cons hempty (.nil hempty)
  have hvalue : Lays Gap [.string [.plain ',' (by decide), .plain ']' (by decide)], .closeMap]
      [' ', '"', ',', ']', '"', '\x7d'] := .cons hblank hlast
  have hkey : Lays Gap (.string [.plain 'a' (by decide)] :: .colon :: _) _ :=
    .cons hempty (.cons hempty hvalue)
  exact .cons hempty hkey

theorem distinctKeys_bracketText : (Spelling.map bracketText false).DistinctKeys :=
  ⟨by simp [bracketText], trivial, trivial⟩

/-- The comma of the text `,]` is lost. -/
theorem not_read_eq_bracketText :
    Lays Gap (Spelling.map bracketText false).tokens "\x7b\"a\": \",]\"\x7d".toList ∧
      (Spelling.map bracketText false).value = .map [(.text "a", .text ",]")] ∧
      read "/" "tsconfig.json" bracketTextFiles = .ok [(.text "a", .text "]")] := by
  refine ⟨lays_bracketText, rfl, ?_⟩
  rw [read_spelling read_bracketTextFiles decodeMarked?_bracketText lays_bracketText]
  rfl

theorem read_eq_iff_bracketText :
    bracketTextFiles.read "/" "tsconfig.json" = .ok (Text.encode "\x7b\"a\": \",]\"\x7d") ∧
      ∃ r, read "/" "tsconfig.json" bracketTextFiles = .ok r ∧
        (.map r = (Spelling.map bracketText false).value ↔
          Spelling.AllIntact (Spelling.map bracketText false).tokens) :=
  ⟨read_bracketTextFiles, read_eq_iff read_bracketTextFiles decodeMarked?_bracketText
    lays_bracketText distinctKeys_bracketText⟩

end Settings

end DeclBundle
