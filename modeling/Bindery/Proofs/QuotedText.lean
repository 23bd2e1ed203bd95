import Bindery.Text.Quoted
import Bindery.Proofs.TextForms
import Bindery.Proofs.Utf8Text
import Mathlib.Algebra.Group.Nat.Defs

/-!
# Quoted texts

A quoted text is read back (`Text.unescapeFrom_quoteBody`), also with anything after its closing
quotation mark, because a quotation mark inside it stands behind a backslash (`Text.Shielded`). So
two texts with the same quoted form are the same (`Text.quote_append_inj`).
-/

namespace Bindery.Text

variable {width n : Nat} {bs : List UInt8}

/-! ## Hexadecimal digits -/

/-- The digits of a number in hexadecimal, with zeros in front up to the given width. -/
def hexChars (width n : Nat) : Chars :=
  List.replicate (width - (Nat.toDigits 16 n).length) '0' ++ Nat.toDigits 16 n

theorem length_hexChars (hpos : 0 < width) (h : n < 16 ^ width) :
    (hexChars width n).length = width := by
  have hlength := (Nat.length_toDigits_le_iff (by decide) hpos).2 h
  simp only [hexChars, List.length_append, List.length_replicate]
  omega

theorem hexDigit?_digitChar {d : Nat} (hd : d < 16) : hexDigit? (Nat.digitChar d) = some d := by
  have hall : ∀ d : Fin 16, hexDigit? (Nat.digitChar d) = some d.val := by decide
  exact hall ⟨d, hd⟩

def digitStep (base n : Nat) (c : Char) : Option Nat :=
  match hexDigit? c with
  | some d => if d < base then some (n * base + d) else none
  | none => none

theorem digitsValue?_eq (base : Nat) (cs : Chars) :
    digitsValue? base cs = cs.foldlM (digitStep base) 0 := rfl

theorem foldlM_toDigits (n : Nat) : (Nat.toDigits 16 n).foldlM (digitStep 16) 0 = some n := by
  induction n using Nat.strongRecOn with
  | ind n ih =>
    rw [Nat.toDigits_eq_if (by decide)]
    split
    next hlt =>
      simp [List.foldlM, digitStep, hexDigit?_digitChar hlt, hlt]
    next hge =>
      have hmod : n % 16 < 16 := Nat.mod_lt _ (by decide)
      rw [List.foldlM_append, ih (n / 16) (by omega)]
      simp [List.foldlM, digitStep, hexDigit?_digitChar hmod, hmod]
      omega

theorem digitsValue?_hexChars (width n : Nat) : digitsValue? 16 (hexChars width n) = some n := by
  have hzeros : ∀ k, (List.replicate k '0').foldlM (digitStep 16) 0 = some 0 := by
    intro k
    induction k with
    | zero => rfl
    | succ k ih => exact ih
  rw [digitsValue?_eq, hexChars, List.foldlM_append, hzeros]
  exact foldlM_toDigits n

/-! ## Reading a quoted text -/

def quoteChars : Glyph → Chars
  | .stray b => '\\' :: 'x' :: hexChars 2 b.toNat
  | .char c =>
    if c == '"' || c == '\\' then ['\\', c]
    else if isPrintable c then [c]
    else match escapeLetter? c.toNat with
      | some l => ['\\', l]
      | none =>
        if c.toNat < 0x20 || c.toNat == 0x7F then '\\' :: 'x' :: hexChars 2 c.toNat
        else if c.toNat < 0x10000 then '\\' :: 'u' :: hexChars 4 c.toNat
        else '\\' :: 'U' :: hexChars 8 c.toNat

theorem quoteGlyph_eq (g : Glyph) : quoteGlyph g = ofChars (quoteChars g) := by
  cases g with
  | stray b => rfl
  | char c =>
    simp only [quoteGlyph, quoteChars]
    split
    · rfl
    · split
      · rfl
      · cases escapeLetter? c.toNat with
        | some l => rfl
        | none =>
          simp only []
          split
          · rfl
          · split <;> rfl

def quoteBody (t : Text) : Chars := t.glyphs.flatMap quoteChars

theorem quote_eq (t : Text) : t.quote = "\"" ++ ofChars t.quoteBody ++ "\"" := by
  have hbody : concat (t.glyphs.map quoteGlyph) = ofChars t.quoteBody := by
    rw [quoteBody]
    induction t.glyphs with
    | nil => rfl
    | cons g gs ih =>
      rw [List.flatMap_cons, ofChars_append, ← ih, ← quoteGlyph_eq]
      rfl
  rw [quote, hbody]

variable {c q : Char}

theorem unescapeFrom_skip (q : Char) (xs gs : List Glyph) :
    unescapeFrom q xs.length (xs ++ gs) = unescapeFrom q 0 gs := by
  induction xs with
  | nil => rfl
  | cons x xs ih => exact ih

theorem unescapeFrom_plain (hback : c ≠ '\\') (hquote : c ≠ q) (hline : c ≠ '\n')
    (gs : List Glyph) :
    unescapeFrom q 0 (.char c :: gs) =
      (unescapeFrom q 0 gs).map (String.utf8EncodeChar c ++ ·) := by
  have hstop : ((.char c : Glyph) == .char q || (.char c : Glyph) == .char '\n') = false := by
    simp [hquote, hline]
  rw [unescapeFrom]
  · rw [if_neg (by simp [hstop])]
    cases unescapeFrom q 0 gs <;> rfl
  · rintro heq
    cases heq
    exact hback rfl

theorem unescapeFrom_escape {es : List Glyph} {image : List UInt8} {gs : List Glyph}
    (hn : es.length = n) (h : unescape? q (es ++ gs) = some (image, n)) :
    unescapeFrom q 0 (.char '\\' :: (es ++ gs)) = (unescapeFrom q 0 gs).map (image ++ ·) := by
  subst hn
  rw [unescapeFrom, h]
  simp only [Option.bind_eq_bind, Option.bind_some, unescapeFrom_skip]
  cases unescapeFrom q 0 gs <;> rfl

theorem escapeDigits (hpos : 0 < width) (h : n < 16 ^ width) (l : Glyph) (gs : List Glyph) :
    (if (((l :: (hexChars width n).map Glyph.char ++ gs).drop 1).take width).length = width then
      digitsValue? 16 ((((l :: (hexChars width n).map Glyph.char ++ gs).drop 1).take width).map
        Glyph.toChar) else none) = some n := by
  have hlength := length_hexChars hpos h
  have htake : ((l :: (hexChars width n).map Glyph.char ++ gs).drop 1).take width =
      (hexChars width n).map Glyph.char := by
    rw [List.cons_append, List.drop_one, List.tail_cons,
      List.take_append_of_le_length (by simp [hlength]), List.take_of_length_le (by simp [hlength])]
  have hchars : ((hexChars width n).map Glyph.char).map Glyph.toChar = hexChars width n := by
    rw [List.map_map]
    exact List.map_id _
  rw [htake, hchars, if_pos (by simp [hlength]), digitsValue?_hexChars]

theorem unescape?_byte (h : n < 256) (gs : List Glyph) :
    unescape? q (.char 'x' :: (hexChars 2 n).map Glyph.char ++ gs) = some ([UInt8.ofNat n], 3) :=
  congrArg (Option.map fun n => ([UInt8.ofNat n], 3))
    (escapeDigits (by decide) (show n < 16 ^ 2 from h) (.char 'x') gs)

theorem isScalar_toNat (c : Char) : isScalar c.toNat := by
  have hvalid : c.toNat < 0xD800 ∨ 0xDFFF < c.toNat ∧ c.toNat < 0x110000 := c.valid
  simp only [isScalar, Bool.or_eq_true, Bool.and_eq_true, decide_eq_true_eq]
  omega

/-- What an escaped character number stands for. -/
def scalarImage (width n : Nat) : Option (List UInt8 × Nat) :=
  if isScalar n then some (String.utf8EncodeChar (Char.ofNat n), width + 1) else none

theorem scalarImage_toNat (width : Nat) (c : Char) :
    scalarImage width c.toNat = some (String.utf8EncodeChar c, width + 1) := by
  rw [scalarImage, if_pos (isScalar_toNat c), Char.ofNat_toNat]

theorem unescape?_short (hc : c.toNat < 0x10000) (gs : List Glyph) :
    unescape? q (.char 'u' :: (hexChars 4 c.toNat).map Glyph.char ++ gs) =
      some (String.utf8EncodeChar c, 5) := by
  have hdigits := escapeDigits (by decide) (show c.toNat < 16 ^ 4 from hc) (.char 'u') gs
  exact (congrArg (Option.bind · (scalarImage 4)) hdigits).trans (scalarImage_toNat 4 c)

theorem unescape?_long (c : Char) (gs : List Glyph) :
    unescape? q (.char 'U' :: (hexChars 8 c.toNat).map Glyph.char ++ gs) =
      some (String.utf8EncodeChar c, 9) := by
  have hvalid : c.toNat < 0xD800 ∨ 0xDFFF < c.toNat ∧ c.toNat < 0x110000 := c.valid
  have hdigits := escapeDigits (by decide) (show c.toNat < 16 ^ 8 by omega) (.char 'U') gs
  exact (congrArg (Option.bind · (scalarImage 8)) hdigits).trans (scalarImage_toNat 8 c)

theorem utf8EncodeChar_ascii (h : c.toNat < 0x80) :
    String.utf8EncodeChar c = [UInt8.ofNat c.toNat] := by
  unfold String.utf8EncodeChar
  simp only []
  rw [if_pos (show c.val.toNat ≤ 127 from Nat.le_of_lt_succ h)]
  rfl

theorem length_escape (hpos : 0 < width) (h : n < 16 ^ width) (l : Char) :
    (.char l :: (hexChars width n).map Glyph.char).length = width + 1 := by
  simp [length_hexChars hpos h]

theorem unescape?_letter {l : Char} (h : escapeLetter? n = some l) (gs : List Glyph) :
    unescape? '"' ([.char l] ++ gs) = some ([UInt8.ofNat n], 1) ∧ n < 0x80 := by
  unfold escapeLetter? at h
  split at h
  all_goals cases h
  all_goals exact ⟨rfl, by decide⟩

theorem unescapeFrom_quoteChars (g : Glyph) (gs : List Glyph) :
    unescapeFrom '"' 0 ((quoteChars g).map Glyph.char ++ gs) =
      (unescapeFrom '"' 0 gs).map (g.bytes ++ ·) := by
  cases g with
  | stray b =>
    have hlength := length_escape (show 0 < 2 by decide) (show b.toNat < 16 ^ 2 from b.toNat_lt) 'x'
    refine (unescapeFrom_escape hlength (unescape?_byte b.toNat_lt gs)).trans ?_
    rw [UInt8.ofNat_toNat]
    rfl
  | char c =>
    have hvalid : c.toNat < 0xD800 ∨ 0xDFFF < c.toNat ∧ c.toNat < 0x110000 := c.valid
    simp only [quoteChars, Glyph.bytes]
    split
    next hmark =>
      simp only [Bool.or_eq_true, beq_iff_eq] at hmark
      rcases hmark with rfl | rfl
      · have hread : unescape? '"' ([.char '"'] ++ gs) = some ([0x22], 1) := rfl
        exact unescapeFrom_escape rfl hread
      · have hread : unescape? '"' ([.char '\\'] ++ gs) = some ([0x5C], 1) := rfl
        exact unescapeFrom_escape rfl hread
    next hmark =>
      simp only [Bool.or_eq_true, beq_iff_eq, not_or] at hmark
      split
      next hprintable =>
        refine unescapeFrom_plain hmark.2 hmark.1 ?_ gs
        rintro rfl
        exact absurd hprintable (by decide)
      next =>
        cases hletter : escapeLetter? c.toNat with
        | some l =>
          obtain ⟨hread, hascii⟩ := unescape?_letter hletter gs
          rw [utf8EncodeChar_ascii hascii]
          exact unescapeFrom_escape rfl hread
        | none =>
          simp only []
          split
          next hcontrol =>
            simp only [Bool.or_eq_true, decide_eq_true_eq, beq_iff_eq] at hcontrol
            rw [utf8EncodeChar_ascii (by omega)]
            exact unescapeFrom_escape
              (length_escape (by decide) (show c.toNat < 16 ^ 2 by omega) 'x')
              (unescape?_byte (by omega) gs)
          next =>
            split
            next hshort =>
              exact unescapeFrom_escape
                (length_escape (by decide) (show c.toNat < 16 ^ 4 from hshort) 'u')
                (unescape?_short hshort gs)
            next =>
              exact unescapeFrom_escape
                (length_escape (by decide) (show c.toNat < 16 ^ 8 by omega) 'U')
                (unescape?_long c gs)

theorem unescapeFrom_quoteBody (t : Text) :
    unescapeFrom '"' 0 (t.quoteBody.map Glyph.char) = some t.bytes := by
  have hread : ∀ gs : List Glyph, unescapeFrom '"' 0 ((gs.flatMap quoteChars).map Glyph.char) =
      some (gs.flatMap Glyph.bytes) := by
    intro gs
    induction gs with
    | nil => rfl
    | cons g gs ih =>
      rw [List.flatMap_cons, List.map_append, unescapeFrom_quoteChars, ih]
      rfl
  rw [quoteBody, hread]
  exact congrArg some (congrArg Text.bytes (ofGlyphs_glyphs t))

/-! ## Where a quoted text ends -/

/-- Bytes in which every quotation mark and every backslash stands behind a backslash of its own. -/
inductive Shielded : List UInt8 → Prop where
  | nil : Shielded []
  | plain {b : UInt8} {bs : List UInt8} (hquote : b ≠ 0x22) (hback : b ≠ 0x5C) (h : Shielded bs) :
    Shielded (b :: bs)
  | escape (b : UInt8) {bs : List UInt8} (h : Shielded bs) : Shielded (0x5C :: b :: bs)

theorem Shielded.append {cs : List UInt8} (hb : Shielded bs) (hc : Shielded cs) :
    Shielded (bs ++ cs) := by
  induction hb with
  | nil => exact hc
  | plain hquote hback _ ih => exact .plain hquote hback ih
  | escape b _ ih => exact .escape b ih

/-- Shielded bytes are divided from what follows by the first quotation mark. -/
theorem Shielded.append_inj {cs r s : List UInt8} (hb : Shielded bs) (hc : Shielded cs)
    (h : bs ++ 0x22 :: r = cs ++ 0x22 :: s) : bs = cs ∧ r = s := by
  induction hb generalizing cs with
  | nil =>
    cases hc with
    | nil => exact ⟨rfl, (List.cons.inj h).2⟩
    | plain hquote => exact absurd (List.cons.inj h).1.symm hquote
    | escape => exact absurd (List.cons.inj h).1 (by decide)
  | @plain b bs hquote hback _ ih =>
    cases hc with
    | nil => exact absurd (List.cons.inj h).1 hquote
    | plain _ _ hc =>
      obtain ⟨rfl, htail⟩ := List.cons.inj h
      obtain ⟨rfl, rfl⟩ := ih hc htail
      exact ⟨rfl, rfl⟩
    | escape => exact absurd (List.cons.inj h).1 hback
  | @escape b bs _ ih =>
    cases hc with
    | nil => exact absurd (List.cons.inj h).1 (by decide)
    | plain _ hback => exact absurd (List.cons.inj h).1.symm hback
    | escape b' hc =>
      simp only [List.cons_append, List.cons.injEq, true_and] at h
      obtain ⟨rfl, htail⟩ := h
      obtain ⟨rfl, rfl⟩ := ih hc htail
      exact ⟨rfl, rfl⟩

theorem Shielded.of_forall (h : ∀ b ∈ bs, b ≠ 0x22 ∧ b ≠ 0x5C) : Shielded bs := by
  induction bs with
  | nil => exact .nil
  | cons b bs ih =>
    obtain ⟨hquote, hback⟩ := h b List.mem_cons_self
    exact .plain hquote hback (ih fun b hb => h b (List.mem_cons_of_mem _ hb))

theorem shielded_ofChars {cs : Chars} (h : ∀ c ∈ cs, c ≠ '"' ∧ c ≠ '\\') :
    Shielded (ofChars cs).bytes := by
  apply Shielded.of_forall
  intro b hb
  obtain ⟨c, hc, hb⟩ := List.mem_flatMap.1 hb
  obtain ⟨hquote, hback⟩ := h c hc
  constructor
  · rintro rfl
    exact hquote (char_of_mem_utf8EncodeChar hb (by decide))
  · rintro rfl
    exact hback (char_of_mem_utf8EncodeChar hb (by decide))

theorem mem_hexChars (hc : c ∈ hexChars width n) : ∃ d < 16, c = Nat.digitChar d := by
  have hdigits : ∀ n, ∀ c ∈ Nat.toDigits 16 n, ∃ d < 16, c = Nat.digitChar d := by
    intro n
    induction n using Nat.strongRecOn with
    | ind n ih =>
      intro c hc
      rw [Nat.toDigits_eq_if (by decide)] at hc
      split at hc
      next hlt => exact ⟨n, hlt, List.mem_singleton.1 hc⟩
      next hge =>
        rcases List.mem_append.1 hc with hc | hc
        · exact ih (n / 16) (by omega) c hc
        · exact ⟨n % 16, Nat.mod_lt _ (by decide), List.mem_singleton.1 hc⟩
  rcases List.mem_append.1 hc with hc | hc
  · exact ⟨0, by decide, List.eq_of_mem_replicate hc⟩
  · exact hdigits n c hc

theorem shielded_escape {l : Char} (hl : l.toNat < 0x80) {cs : Chars}
    (h : ∀ c ∈ cs, c ≠ '"' ∧ c ≠ '\\') : Shielded (ofChars ('\\' :: l :: cs)).bytes := by
  have hbytes : (ofChars ('\\' :: l :: cs)).bytes =
      0x5C :: UInt8.ofNat l.toNat :: (ofChars cs).bytes := by
    simp only [ofChars, List.flatMap_cons, utf8EncodeChar_ascii hl]
    rfl
  rw [hbytes]
  exact .escape _ (shielded_ofChars h)

theorem shielded_quoteChars (g : Glyph) : Shielded (ofChars (quoteChars g)).bytes := by
  have hhex : ∀ width n, ∀ c ∈ hexChars width n, c ≠ '"' ∧ c ≠ '\\' := by
    intro width n c hc
    obtain ⟨d, hd, rfl⟩ := mem_hexChars hc
    have hall : ∀ d : Fin 16, Nat.digitChar d ≠ '"' ∧ Nat.digitChar d ≠ '\\' := by decide
    exact hall ⟨d, hd⟩
  cases g with
  | stray b => exact shielded_escape (by decide) (hhex 2 b.toNat)
  | char c =>
    simp only [quoteChars]
    split
    next hmark =>
      simp only [Bool.or_eq_true, beq_iff_eq] at hmark
      rcases hmark with rfl | rfl <;> exact shielded_escape (by decide) (by simp)
    next hmark =>
      simp only [Bool.or_eq_true, beq_iff_eq, not_or] at hmark
      split
      next => exact shielded_ofChars (by simpa using hmark)
      next =>
        cases hletter : escapeLetter? c.toNat with
        | some l =>
          refine shielded_escape ?_ (by simp)
          unfold escapeLetter? at hletter
          split at hletter
          all_goals cases hletter
          all_goals decide
        | none =>
          simp only []
          split
          next => exact shielded_escape (by decide) (hhex 2 _)
          next => split <;> exact shielded_escape (by decide) (hhex _ _)

theorem shielded_quoteBody (t : Text) : Shielded (ofChars t.quoteBody).bytes := by
  rw [quoteBody]
  induction t.glyphs with
  | nil => exact .nil
  | cons g gs ih =>
    rw [List.flatMap_cons, ofChars_append]
    exact (shielded_quoteChars g).append ih

/-- Texts with the same quoted form, whatever follows it, are the same. -/
theorem quote_append_inj {t u r s : Text} (h : t.quote ++ r = u.quote ++ s) : t = u ∧ r = s := by
  have hbytes := congrArg Text.bytes h
  simp only [quote_eq, bytes_append] at hbytes
  have hopen : ("\"" : Text).bytes = [0x22] := rfl
  rw [hopen] at hbytes
  simp only [List.cons_append, List.nil_append, List.append_assoc, List.cons.injEq,
    true_and] at hbytes
  obtain ⟨hbody, hrest⟩ := (shielded_quoteBody t).append_inj (shielded_quoteBody u) hbytes
  have hchars : t.quoteBody = u.quoteBody := ofChars_inj (Text.ext hbody)
  have hread := unescapeFrom_quoteBody t
  rw [hchars, unescapeFrom_quoteBody u] at hread
  exact ⟨Text.ext (Option.some.inj hread).symm, Text.ext hrest⟩

end Bindery.Text
