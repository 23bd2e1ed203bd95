import Bindery.Text.Utf8
import Mathlib.Data.List.Basic

/-!
# Reading characters

What is written in UTF-8 is read back: `Text.glyphs_ofChars_append` for characters with any bytes
after them, and `Text.ofGlyphs_glyphs` for the bytes of any text.
-/

namespace Bindery

namespace Text

/-! ## One character -/

theorem toNat_ofNat_of_lt {n : Nat} (h : n < 256) : (UInt8.ofNat n).toNat = n := by
  simp
  omega

theorem decodeChar_utf8EncodeChar (c : Char) : ∃ b bs, String.utf8EncodeChar c = b :: bs ∧
    ∀ rest, decodeChar b (bs ++ rest) = some (c, bs.length) := by
  have hsize := String.length_utf8EncodeChar c
  have hle := c.utf8Size_le_four
  cases hencode : String.utf8EncodeChar c with
  | nil => exact absurd hencode String.utf8EncodeChar_ne_nil
  | cons b bs =>
    rw [hencode, List.length_cons] at hsize
    refine ⟨b, bs, rfl, fun rest => ?_⟩
    have hbytes : b :: (bs ++ rest).take 3 = String.utf8EncodeChar c ++
        rest.take (3 - bs.length) := by
      rw [hencode, List.take_append, List.take_of_length_le (by omega), List.cons_append]
    have hdecode := List.utf8DecodeChar?_utf8Encode_singleton_append (c := c)
      (b := (rest.take (3 - bs.length)).toByteArray)
    rw [decodeChar, hbytes, List.toByteArray_append, ← List.utf8Encode_singleton, hdecode,
      Option.map_some, ← hsize]
    rfl

theorem decodeChar_one {b : UInt8} (h : b.toNat < 0x80) (rest : List UInt8) :
    decodeChar b rest = some (Char.ofNat b.toNat, 0) := by
  have hval : (Char.ofNat b.toNat).val.toNat = b.toNat := by
    rw [Char.ofNat, dif_pos (.inl (by omega))]
    rfl
  have hencode : String.utf8EncodeChar (Char.ofNat b.toNat) = [b] := by
    unfold String.utf8EncodeChar
    simp only [hval]
    rw [if_pos (by omega), UInt8.ofNat_toNat]
  obtain ⟨b', bs, hencode', hdecode⟩ := decodeChar_utf8EncodeChar (Char.ofNat b.toNat)
  cases hencode.symm.trans hencode'
  exact hdecode rest

theorem utf8EncodeChar_of_decodeChar {b : UInt8} {rest : List UInt8} {c : Char} {k : Nat}
    (h : decodeChar b rest = some (c, k)) :
    ∃ bs tail, rest = bs ++ tail ∧ bs.length = k ∧ String.utf8EncodeChar c = b :: bs := by
  obtain ⟨c', hc, heq⟩ := Option.map_eq_some_iff.1 h
  cases heq
  have hsize := String.length_utf8EncodeChar c
  have hbytes := congrArg (·.data.toList) (ByteArray.eq_of_utf8DecodeChar?_eq_some hc)
  simp at hbytes
  cases hencode : String.utf8EncodeChar c with
  | nil => exact absurd hencode String.utf8EncodeChar_ne_nil
  | cons b' bs =>
    rw [hencode, List.length_cons] at hsize
    rw [hencode, List.cons_append] at hbytes
    obtain ⟨rfl, htake⟩ := List.cons.inj hbytes
    have hstart : bs <+: rest := (htake ▸ List.prefix_append bs _).trans (List.take_prefix 3 rest)
    exact ⟨bs, rest.drop bs.length, (List.prefix_iff_eq_append.1 hstart).symm, by omega, rfl⟩

/-- A byte of ASCII encodes its own character and is part of no other. -/
theorem char_of_mem_utf8EncodeChar {c : Char} {b : UInt8} (hb : b ∈ String.utf8EncodeChar c)
    (hlt : b.toNat < 0x80) : c = Char.ofNat b.toNat := by
  have hvalid : c.val.toNat < 0xD800 ∨ 0xDFFF < c.val.toNat ∧ c.val.toNat < 0x110000 := c.valid
  have hself : Char.ofNat c.val.toNat = c := Char.ofNat_toNat c
  unfold String.utf8EncodeChar at hb
  simp only [] at hb
  generalize c.val.toNat = v at hvalid hself hb
  have hbyte : ∀ {n : Nat}, n < 256 → b = UInt8.ofNat n → b.toNat = n := by
    rintro n hn rfl
    exact toNat_ofNat_of_lt hn
  by_cases h1 : v ≤ 127
  · rw [if_pos h1, List.mem_singleton] at hb
    rw [hbyte (by omega) hb, hself]
  · exfalso
    rw [if_neg h1] at hb
    split at hb
    · simp only [List.mem_cons, List.not_mem_nil, or_false] at hb
      rcases hb with hb | hb
      all_goals
        have := hbyte (by omega) hb
        omega
    · split at hb
      all_goals
        simp only [List.mem_cons, List.not_mem_nil, or_false] at hb
      · rcases hb with hb | hb | hb
        all_goals
          have := hbyte (by omega) hb
          omega
      · rcases hb with hb | hb | hb | hb
        all_goals
          have := hbyte (by omega) hb
          omega

/-! ## Texts -/

theorem glyphsFrom_append (bs rest : List UInt8) :
    glyphsFrom bs.length (bs ++ rest) = glyphsFrom 0 rest := by
  induction bs with
  | nil => rfl
  | cons b bs ih => exact ih

theorem glyphsFrom_utf8EncodeChar_append (c : Char) (rest : List UInt8) :
    glyphsFrom 0 (String.utf8EncodeChar c ++ rest) = .char c :: glyphsFrom 0 rest := by
  obtain ⟨b, bs, hencode, hdecode⟩ := decodeChar_utf8EncodeChar c
  rw [hencode, List.cons_append, glyphsFrom, hdecode rest]
  simp only [glyphsFrom_append]

variable (cs : Chars)

theorem glyphs_ofChars_append (t : Text) :
    (ofChars cs ++ t).glyphs = cs.map Glyph.char ++ t.glyphs := by
  induction cs with
  | nil => rfl
  | cons c cs ih =>
    have hbytes : (ofChars (c :: cs) ++ t).bytes =
        String.utf8EncodeChar c ++ (ofChars cs ++ t).bytes := by
      simp [ofChars]
    rw [glyphs, hbytes, glyphsFrom_utf8EncodeChar_append]
    exact congrArg (Glyph.char c :: ·) ih

@[simp] theorem glyphs_ofChars : (ofChars cs).glyphs = cs.map Glyph.char := by
  have happend := glyphs_ofChars_append cs ∅
  rwa [show ofChars cs ++ (∅ : Text) = ofChars cs from Text.ext (List.append_nil _),
    show (∅ : Text).glyphs = [] from rfl, List.append_nil] at happend

@[simp] theorem chars_ofChars : (ofChars cs).chars = cs := by
  rw [chars, glyphs_ofChars, List.map_map]
  exact List.map_id cs

@[simp] theorem isUtf8_ofChars : (ofChars cs).isUtf8 := by
  rw [isUtf8, glyphs_ofChars, List.all_eq_true]
  intro g hg
  obtain ⟨c, _, rfl⟩ := List.mem_map.1 hg
  rfl

/-- The bytes of a text are those of its glyphs, and only bytes beyond ASCII are strays. -/
theorem glyphsFrom_bytes (bs : List UInt8) : (glyphsFrom 0 bs).flatMap Glyph.bytes = bs ∧
      ∀ b, .stray b ∈ glyphsFrom 0 bs → 0x80 ≤ b.toNat := by
  -- Strong induction, because a character takes several bytes at once.
  induction hn : bs.length using Nat.strongRecOn generalizing bs with
  | ind n ih =>
    cases bs with
    | nil => exact ⟨rfl, fun b hb => by cases hb⟩
    | cons b bs =>
      rw [glyphsFrom]
      cases hdecode : decodeChar b bs with
      | none =>
        obtain ⟨hbytes, hstray⟩ := ih bs.length (by simp [← hn]) bs rfl
        refine ⟨?_, fun b' hb' => ?_⟩
        · show b :: _ = b :: bs
          exact congrArg (b :: ·) hbytes
        · rcases List.mem_cons.1 hb' with heq | hmem
          · cases heq
            by_contra hlow
            rw [decodeChar_one (Nat.lt_of_not_le hlow)] at hdecode
            cases hdecode
          · exact hstray b' hmem
      | some p =>
        obtain ⟨c, k⟩ := p
        obtain ⟨image, tail, rfl, rfl, hencode⟩ := utf8EncodeChar_of_decodeChar hdecode
        simp only [glyphsFrom_append]
        have hlt : tail.length < n := by
          rw [← hn, List.length_cons, List.length_append]
          omega
        obtain ⟨hbytes, hstray⟩ := ih tail.length hlt tail rfl
        refine ⟨?_, fun b' hb' => ?_⟩
        · rw [List.flatMap_cons, hbytes]
          show String.utf8EncodeChar c ++ tail = _
          rw [hencode]
          rfl
        · rcases List.mem_cons.1 hb' with heq | hmem
          · cases heq
          · exact hstray b' hmem

@[simp] theorem ofGlyphs_glyphs (t : Text) : ofGlyphs t.glyphs = t :=
  Text.ext (glyphsFrom_bytes t.bytes).1

theorem ofChars_chars {t : Text} (h : t.isUtf8) : ofChars t.chars = t := by
  have hglyphs : t.glyphs = t.chars.map Glyph.char := by
    rw [chars, List.map_map]
    conv_lhs => rw [← List.map_id t.glyphs]
    apply List.map_congr_left
    intro g hg
    have hchar := List.all_eq_true.1 h g hg
    cases g with
    | char c => rfl
    | stray b => cases hchar
  conv_rhs => rw [← ofGlyphs_glyphs t, hglyphs]
  rw [ofGlyphs, ofChars, List.flatMap_map]
  rfl

/-- A byte of ASCII does not change how what stands before it is read. -/
theorem decodeChar_append (b a : UInt8) (bs rest : List UInt8) (ha : a.toNat < 0x80) :
    decodeChar b (bs ++ a :: rest) = decodeChar b bs := by
  have shorter {c : Char} {k : Nat} (h : decodeChar b (bs ++ a :: rest) = some (c, k)) :
      decodeChar b bs = some (c, k) := by
    obtain ⟨image, tail, hbs, rfl, hencode⟩ := utf8EncodeChar_of_decodeChar h
    obtain ⟨b', image', hencode', hdecode⟩ := decodeChar_utf8EncodeChar c
    obtain ⟨rfl, rfl⟩ := List.cons.inj (hencode.symm.trans hencode')
    rcases List.append_eq_append_iff.1 hbs with ⟨more, rfl, hmore⟩ | ⟨more, rfl, -⟩
    · cases more with
      | nil => simpa using hdecode []
      | cons x more =>
        -- The byte would belong to a character of several bytes.
        obtain ⟨rfl, -⟩ := List.cons.inj hmore
        have hc := char_of_mem_utf8EncodeChar (c := c) (b := a) (by simp [hencode]) ha
        obtain ⟨image, tail, -, hlength, hone⟩ := utf8EncodeChar_of_decodeChar
          (decodeChar_one ha [])
        rw [← hc, hencode] at hone
        have := congrArg List.length hone
        simp [hlength] at this
    · exact hdecode more
  cases hlong : decodeChar b (bs ++ a :: rest) with
  | some p => exact (shorter hlong).symm
  | none =>
    cases hshort : decodeChar b bs with
    | none => rfl
    | some p =>
      obtain ⟨image, tail, rfl, hk, hencode⟩ := utf8EncodeChar_of_decodeChar hshort
      obtain ⟨b', image', hencode', hdecode⟩ := decodeChar_utf8EncodeChar p.1
      obtain ⟨rfl, rfl⟩ := List.cons.inj (hencode.symm.trans hencode')
      rw [List.append_assoc, hdecode] at hlong
      cases hlong

theorem glyphsFrom_append_ascii (bs : List UInt8) {a : UInt8} (ha : a.toNat < 0x80)
    (rest : List UInt8) :
    glyphsFrom 0 (bs ++ a :: rest) = glyphsFrom 0 bs ++ glyphsFrom 0 (a :: rest) := by
  -- Strong induction, because a character takes several bytes at once.
  induction hn : bs.length using Nat.strongRecOn generalizing bs with
  | ind n ih =>
    cases bs with
    | nil => rfl
    | cons b bs =>
      have hlong := decodeChar_append b a bs rest ha
      cases hdecode : decodeChar b bs with
      | none =>
        have hhead (cs : List UInt8) (h : decodeChar b cs = none) :
            glyphsFrom 0 (b :: cs) = .stray b :: glyphsFrom 0 cs := by
          rw [glyphsFrom, h]
        rw [List.cons_append, hhead _ (hlong.trans hdecode), hhead _ hdecode,
          ih bs.length (by simp [← hn]) bs rfl, List.cons_append]
      | some p =>
        obtain ⟨image, tail, rfl, hk, -⟩ := utf8EncodeChar_of_decodeChar hdecode
        have hhead (cs : List UInt8) (h : decodeChar b (image ++ cs) = some p) :
            glyphsFrom 0 (b :: (image ++ cs)) = .char p.1 :: glyphsFrom 0 cs := by
          rw [glyphsFrom, h]
          simp only [← hk, glyphsFrom_append]
        have hlt : tail.length < n := by
          rw [← hn, List.length_cons, List.length_append]
          omega
        rw [List.cons_append, List.append_assoc, hhead _
          (by rw [← List.append_assoc, hlong, hdecode]),
          hhead _ hdecode, ih tail.length hlt tail rfl, List.cons_append]

/-! ## Texts put together -/

@[simp, grind ←] theorem isUtf8_empty : (∅ : Text).isUtf8 := rfl

@[simp, grind ←] theorem isUtf8_ofString (s : String) : (ofString s).isUtf8 :=
  isUtf8_ofChars _

/-- Behind UTF-8, only the rest counts. -/
@[simp] theorem isUtf8_append_left {a : Text} (ha : a.isUtf8) (b : Text) :
    (a ++ b).isUtf8 = b.isUtf8 := by
  rw [← ofChars_chars ha, isUtf8, glyphs_ofChars_append, List.all_append, ← isUtf8]
  simp [Glyph.isChar]

@[grind ←] theorem isUtf8_append {a b : Text} (ha : a.isUtf8) (hb : b.isUtf8) : (a ++ b).isUtf8 :=
  (isUtf8_append_left ha b).trans hb

@[grind ←] theorem isUtf8_ofNat (n : Nat) : (ofNat n).isUtf8 := isUtf8_ofChars _

end Text

end Bindery
