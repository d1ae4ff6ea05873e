import DeclBundle.Proofs.Joining
import DeclBundle.Text.Encoding

/-!
# Offsets of characters

Each byte of the UTF-8 form of a text belongs to one character, and the offset behind the last byte to the
end of the text (`BelongsTo`). The character offset for a byte offset is the index of the character that
the byte belongs to (`place?_eq_some_iff`), and it is what a table with one entry for each byte says
(`place?_eq_getElem?`). In a text in which the bytes are as many as the characters no table is needed: all
its characters have one byte (`byteLength_eq_length_iff`), so the two counts agree.
-/

namespace DeclBundle.Text

/-- For each byte of the UTF-8 form the index of its character, and for the end the index that a further
character would have; the first character has the given index. -/
def offsetsFrom : Nat → List Char → List Nat
  | i, [] => [i]
  | i, c :: cs => List.replicate c.utf8Size i ++ offsetsFrom (i + 1) cs

/-- The table of the characters that the bytes of a text belong to. -/
def offsets (s : List Char) : List Nat := offsetsFrom 0 s

/-- Which character of a text a byte belongs to; the end counts as one more byte and one more character. -/
inductive BelongsTo (s : List Char) : Nat → Nat → Prop
  | byte {p q : List Char} {c : Char} {k : Nat} (hs : s = p ++ c :: q) (hk : k < c.utf8Size) :
      BelongsTo s (byteLength p + k) p.length
  | stop : BelongsTo s (byteLength s) s.length

variable {s : List Char} {b i : Nat}

theorem size_encode (s : String) : (encode s).size = byteLength s.toList := by
  have hbytes : ∀ cs : List Char, cs.utf8Encode.size = byteLength cs := by
    intro cs
    induction cs with
    | nil => rfl
    | cons c cs ih =>
        rw [List.utf8Encode_cons, ByteArray.size_append, List.utf8Encode_singleton, ih, byteLength_cons]
        simp
  rw [← hbytes, encode]
  simp

theorem byteLength_eq_length_iff : byteLength s = s.length ↔ ∀ c ∈ s, c.utf8Size = 1 := by
  induction s with
  | nil => simp
  | cons c cs ih =>
      have hc := Char.utf8Size_pos c
      have hcs := length_le_byteLength cs
      rw [List.forall_mem_cons, ← ih, byteLength_cons, List.length_cons]
      omega

theorem utf8Size_eq_one_iff (c : Char) : c.utf8Size = 1 ↔ c.toNat < 0x80 := by
  rw [Char.utf8Size_eq_one_iff, UInt32.le_iff_toNat_le]
  exact Nat.lt_succ_iff.symm

/-! ### The character of a byte -/

theorem charIndex?_append (s t : List Char) (b : Nat) :
    charIndex? (s ++ t) (byteLength s + b) = (charIndex? t b).map (s.length + ·) := by
  induction s with
  | nil => simp
  | cons c cs ih =>
      have hbehind : ¬ c.utf8Size + byteLength cs + b < c.utf8Size := by omega
      have hrest : c.utf8Size + byteLength cs + b - c.utf8Size = byteLength cs + b := by omega
      rw [List.cons_append, byteLength_cons, charIndex?, if_neg hbehind, hrest, ih, Option.map_map]
      congr 1
      funext i
      simp only [Function.comp_apply, List.length_cons]
      omega

theorem BelongsTo.cons (c : Char) (h : BelongsTo s b i) :
    BelongsTo (c :: s) (c.utf8Size + b) (i + 1) := by
  cases h with
  | @byte before after d k hs hk =>
      rw [← Nat.add_assoc]
      exact .byte (p := c :: before) (by rw [hs, List.cons_append]) hk
  | stop => exact .stop

theorem charIndex?_eq_some_iff : charIndex? s b = some i ↔ BelongsTo s b i := by
  constructor
  · intro h
    induction s generalizing b i with
    | nil =>
        cases b with
        | zero =>
            obtain rfl := Option.some.inj h
            exact .stop
        | succ b => cases h
    | cons c cs ih =>
        rw [charIndex?] at h
        split at h
        case isTrue hb =>
          obtain rfl := Option.some.inj h
          have hfirst := BelongsTo.byte (p := []) (q := cs) rfl hb
          rwa [byteLength_nil, Nat.zero_add] at hfirst
        case isFalse hb =>
          obtain ⟨j, hj, rfl⟩ := Option.map_eq_some_iff.1 h
          have hrest := (ih hj).cons c
          rwa [Nat.add_sub_cancel' (Nat.le_of_not_lt hb)] at hrest
  · rintro (@⟨before, after, c, k, rfl, hk⟩ | _)
    · rw [charIndex?_append, charIndex?, if_pos hk]
      rfl
    · have hend := charIndex?_byteLength_append s []
      rwa [List.append_nil] at hend

theorem exists_belongsTo (h : b ≤ byteLength s) : ∃ i, BelongsTo s b i := by
  induction s generalizing b with
  | nil =>
      obtain rfl := Nat.le_zero.1 h
      exact ⟨0, .stop⟩
  | cons c cs ih =>
      by_cases hb : b < c.utf8Size
      · have hfirst := BelongsTo.byte (p := []) (q := cs) rfl hb
        rw [byteLength_nil, Nat.zero_add] at hfirst
        exact ⟨_, hfirst⟩
      · rw [byteLength_cons] at h
        obtain ⟨i, hi⟩ := ih (b := b - c.utf8Size) (by omega)
        have hrest := hi.cons c
        rw [Nat.add_sub_cancel' (Nat.le_of_not_lt hb)] at hrest
        exact ⟨_, hrest⟩

theorem belongsTo_take (h : i ≤ s.length) : BelongsTo s (byteLength (s.take i)) i := by
  have hindex := charIndex?_byteLength_append (s.take i) (s.drop i)
  rw [List.take_append_drop, List.length_take, Nat.min_eq_left h] at hindex
  exact charIndex?_eq_some_iff.1 hindex

/-! ### The shortcut and the table -/

/-- Without a character of more bytes the byte belongs to the character with its own index. -/
theorem belongsTo_self (hs : byteLength s = s.length) (hb : b ≤ byteLength s) : BelongsTo s b b := by
  have hlength : b ≤ s.length := hs ▸ hb
  have htake : byteLength (s.take b) = b := by
    have hone := byteLength_eq_length_iff.1 hs
    rw [byteLength_eq_length_iff.2 fun c hc => hone c (List.mem_of_mem_take hc), List.length_take,
      Nat.min_eq_left hlength]
  have hbelongs := belongsTo_take hlength
  rwa [htake] at hbelongs

theorem place?_eq_charIndex? (hb : b ≤ byteLength s) : place? s b = charIndex? s b := by
  rw [place?]
  split
  case isTrue hs => exact (charIndex?_eq_some_iff.2 (belongsTo_self hs hb)).symm
  case isFalse => rfl

theorem place?_eq_some_iff (hb : b ≤ byteLength s) : place? s b = some i ↔ BelongsTo s b i := by
  rw [place?_eq_charIndex? hb, charIndex?_eq_some_iff]

theorem length_offsetsFrom (i : Nat) (s : List Char) : (offsetsFrom i s).length = byteLength s + 1 := by
  induction s generalizing i with
  | nil => rfl
  | cons c cs ih => rw [offsetsFrom, List.length_append, List.length_replicate, ih, byteLength_cons,
      Nat.add_assoc]

theorem getElem?_offsetsFrom (i : Nat) (s : List Char) (b : Nat) :
    (offsetsFrom i s)[b]? = (charIndex? s b).map (i + ·) := by
  induction s generalizing i b with
  | nil => cases b <;> rfl
  | cons c cs ih =>
      rw [offsetsFrom, charIndex?]
      split
      case isTrue hb =>
        rw [List.getElem?_append_left (by rwa [List.length_replicate]), List.getElem?_replicate, if_pos hb]
        rfl
      case isFalse hb =>
        rw [List.getElem?_append_right (by rw [List.length_replicate]; omega), List.length_replicate, ih,
          Option.map_map]
        congr 1
        funext j
        simp only [Function.comp_apply]
        omega

theorem place?_eq_getElem? (hb : b ≤ byteLength s) : place? s b = (offsets s)[b]? := by
  rw [place?_eq_charIndex? hb, offsets, getElem?_offsetsFrom]
  simp

theorem le_of_place? {b' i' : Nat} (h : b ≤ b') (hi : place? s b = some i)
    (hi' : place? s b' = some i') : i ≤ i' := by
  have hplace := place_le_place (s := s) h
  rwa [place, place, hi, hi'] at hplace

/-- The character offset for the byte offset behind some characters is their number. Up to the end of the
UTF-8 form every byte offset has one: the index of the character that the byte belongs to. A later byte has
no smaller one, and all of them are what the table says, also where the bytes are as many as the characters
and it is not used; these are the texts of ASCII characters. -/
theorem place?_encode (s : String) :
    (∀ i ≤ s.length, place? s.toList (encode (String.ofList (s.toList.take i))).size = some i) ∧
    (∀ b ≤ (encode s).size, (∃ i, place? s.toList b = some i) ∧
      ∀ i, place? s.toList b = some i ↔ BelongsTo s.toList b i) ∧
    (∀ b b' i i', b ≤ b' → place? s.toList b = some i → place? s.toList b' = some i' → i ≤ i') ∧
    ((offsets s.toList).length = (encode s).size + 1 ∧
      ∀ b ≤ (encode s).size, place? s.toList b = (offsets s.toList)[b]?) ∧
    ((encode s).size = s.length ↔ ∀ c ∈ s.toList, c.toNat < 0x80) := by
  have hsize := size_encode s
  refine ⟨fun i hi => ?_, fun b hb => ?_, fun b b' i i' h => le_of_place? h, ⟨?_, fun b hb => ?_⟩, ?_⟩
  · rw [size_encode, String.toList_ofList]
    rw [← String.length_toList] at hi
    exact (place?_eq_some_iff ((byteLength_take_le _ hi).trans_eq (by rw [List.take_length]))).2
      (belongsTo_take hi)
  · rw [hsize] at hb
    obtain ⟨i, hi⟩ := exists_belongsTo hb
    exact ⟨⟨i, (place?_eq_some_iff hb).2 hi⟩, fun j => place?_eq_some_iff hb⟩
  · rw [offsets, length_offsetsFrom, hsize]
  · exact place?_eq_getElem? (hsize ▸ hb)
  · rw [hsize, ← String.length_toList, byteLength_eq_length_iff]
    simp only [utf8Size_eq_one_iff]

theorem place?_encode_mixedWidths :
    3 ≤ "aé☃😀".length ∧ place? "aé☃😀".toList (encode "aé☃").size = some 3 ∧
      5 ≤ (encode "aé☃😀").size ∧ BelongsTo "aé☃😀".toList 5 2 ∧ place? "aé☃😀".toList 5 = some 2 ∧
      place? "aé☃😀".toList 10 = some 4 ∧ 2 ≤ 4 ∧
      (offsets "aé☃😀".toList)[5]? = some 2 ∧ (encode "aé☃😀").size ≠ "aé☃😀".length := by
  have hlength : 3 ≤ "aé☃😀".length := by decide
  have hsize : (encode "aé☃😀").size = 10 := by
    rw [size_encode]
    decide
  have hbyte : 5 ≤ (encode "aé☃😀").size := by
    rw [hsize]
    decide
  have hbelongs : BelongsTo "aé☃😀".toList 5 2 :=
    .byte (p := ['a', 'é']) (q := ['😀']) (c := '☃') (k := 2) rfl (by decide)
  obtain ⟨hcount, hplace, hle, ⟨-, htable⟩, hascii⟩ := place?_encode "aé☃😀"
  have hindex := ((hplace 5 hbyte).2 2).2 hbelongs
  have hstop := ((hplace 10 hsize.ge).2 4).2 .stop
  exact ⟨hlength, hcount 3 hlength, hbyte, hbelongs, hindex, hstop,
    hle 5 10 2 4 (by decide) hindex hstop, (htable 5 hbyte).symm.trans hindex,
    fun heq => absurd (hascii.1 heq 'é' (by decide)) (by decide)⟩

end DeclBundle.Text
