import Bindery.Binding.Resolvers
import Bindery.Proofs.GrammarLevels
import Bindery.Proofs.QuotedText
import Bindery.Script.Reader

/-!
# What string literals stand for

`Token.Spelling` is the grammar of string literals in ECMAScript, without the octal escapes of old
scripts: it says which UTF-16 code units a literal spells. A binding that is a string literal has
the value `Text.inSource s`, where `s` are the characters that the literal spells
(`Source.expression_stringLiteral`). That is the UTF-8 text of `s` exactly if `s` is ASCII; other
characters are given as UTF-16 behind a byte-order mark, which is no UTF-8 text.

The literals of scripts spell their texts (`Text.spells_scriptQuote`).
-/

namespace Bindery.Token

open Text (digitsValue? digitStep hexDigit? units16Char)

/-! ## The grammar of string literals -/

/-- The letters that escape a control character, and its code. -/
def escapeCodes : List (Char × Nat) :=
  [('b', 0x08), ('f', 0x0C), ('n', 0x0A), ('r', 0x0D), ('t', 0x09), ('v', 0x0B)]

/-- A character that stands for itself behind a backslash. -/
def escapesItself (c : Char) : Bool :=
  !isLineEnd c && !c.isDigit && !"bfnrtvxu".toList.contains c

/-- What stands between the quotes of a string literal, and the UTF-16 code units that it spells. -/
inductive Spelling (quote : Char) : Chars → List Nat → Prop
  | nil : Spelling quote [] []
  | char {c : Char} {cs : Chars} {units : List Nat} :
    c ∉ [quote, '\\', '\n', '\r'] → Spelling quote cs units →
    Spelling quote (c :: cs) (units16Char c ++ units)
  | letter {c : Char} {n : Nat} {cs : Chars} {units : List Nat} :
    (c, n) ∈ escapeCodes → Spelling quote cs units →
    Spelling quote ('\\' :: c :: cs) (n :: units)
  | itself {c : Char} {cs : Chars} {units : List Nat} :
    escapesItself c → Spelling quote cs units →
    Spelling quote ('\\' :: c :: cs) (units16Char c ++ units)
  | null {cs : Chars} {units : List Nat} :
    (∀ c ∈ cs.head?, c.isDigit = false) → Spelling quote cs units →
    Spelling quote ('\\' :: '0' :: cs) (0 :: units)
  | byte {ds : Chars} {n : Nat} {cs : Chars} {units : List Nat} :
    ds.length = 2 → digitsValue? 16 ds = some n → Spelling quote cs units →
    Spelling quote ('\\' :: 'x' :: ds ++ cs) (n :: units)
  | unit {ds : Chars} {n : Nat} {cs : Chars} {units : List Nat} :
    ds.length = 4 → digitsValue? 16 ds = some n → Spelling quote cs units →
    Spelling quote ('\\' :: 'u' :: ds ++ cs) (n :: units)
  | code {ds : Chars} {n : Nat} {cs : Chars} {units : List Nat} :
    ds ≠ [] → digitsValue? 16 ds = some n → n ≤ 0x10FFFF → Spelling quote cs units →
    Spelling quote ('\\' :: 'u' :: '\x7b' :: ds ++ '\x7d' :: cs) (unitsOfCode n ++ units)
  | lineEnd {c : Char} {cs : Chars} {units : List Nat} :
    isLineEnd c → Spelling quote cs units → Spelling quote ('\\' :: c :: cs) units
  | lineEnds {cs : Chars} {units : List Nat} :
    Spelling quote cs units → Spelling quote ('\\' :: '\r' :: '\n' :: cs) units

variable {c quote : Char} {ds : Chars} {units : List Nat} {n v : Nat}

theorem digitStep_eq_some (h : digitStep 16 v c = some n) :
    ∃ d, hexDigit? c = some d ∧ d < 16 ∧ v * 16 + d = n := by
  unfold digitStep at h
  cases hd : hexDigit? c with
  | none => simp [hd] at h
  | some d =>
    simp only [hd] at h
    split at h
    · next hd => exact ⟨d, rfl, hd, Option.some.inj h⟩
    · cases h

theorem digits_cons (h : (c :: ds).foldlM (digitStep 16) v = some n) :
    ∃ d, hexDigit? c = some d ∧ d < 16 ∧ ds.foldlM (digitStep 16) (v * 16 + d) = some n := by
  rw [List.foldlM_cons] at h
  obtain ⟨w, hw, h⟩ := Option.bind_eq_some_iff.1 h
  obtain ⟨d, hd, hlt, rfl⟩ := digitStep_eq_some hw
  exact ⟨d, hd, hlt, h⟩

theorem hexDigits_of_foldlM (h : ds.foldlM (digitStep 16) v = some n) (rest : Chars) :
    hexDigits ds.length v (ds ++ rest) = some (n, rest) := by
  induction ds generalizing v with
  | nil =>
    obtain rfl := Option.some.inj h
    rfl
  | cons c ds ih =>
    obtain ⟨d, hd, -, h⟩ := digits_cons h
    simp only [List.length_cons, List.cons_append, hexDigits, hd, Option.bind_some, ih h]

theorem le_of_foldlM (h : ds.foldlM (digitStep 16) v = some n) : v ≤ n := by
  induction ds generalizing v with
  | nil => exact Nat.le_of_eq (Option.some.inj h)
  | cons c ds ih =>
    obtain ⟨d, -, -, h⟩ := digits_cons h
    have := ih h
    omega

theorem lt_of_foldlM (h : ds.foldlM (digitStep 16) v = some n) : n < (v + 1) * 16 ^ ds.length := by
  induction ds generalizing v with
  | nil =>
    obtain rfl := Option.some.inj h
    simp
  | cons c ds ih =>
    obtain ⟨d, -, hd, h⟩ := digits_cons h
    calc n < (v * 16 + d + 1) * 16 ^ ds.length := ih h
      _ ≤ ((v + 1) * 16) * 16 ^ ds.length := Nat.mul_le_mul_right _ (by omega)
      _ = (v + 1) * 16 ^ (ds.length + 1) := by rw [Nat.mul_assoc, Nat.pow_succ']

theorem bracedDigits_of_foldlM (value : Option Nat)
    (h : ds.foldlM (digitStep 16) (value.getD 0) = some n) (hn : n ≤ 0x10FFFF)
    (hvalue : ds = [] → value.isSome) (rest : Chars) :
    bracedDigits value (ds ++ '\x7d' :: rest) = some (n, rest) := by
  induction ds generalizing value with
  | nil =>
    obtain ⟨v, rfl⟩ := Option.isSome_iff_exists.1 (hvalue rfl)
    obtain rfl := Option.some.inj h
    rfl
  | cons c ds ih =>
    obtain ⟨d, hd, -, h⟩ := digits_cons h
    have hc : c ≠ '\x7d' := by
      rintro rfl
      cases hd
    have hle := le_of_foldlM h
    rw [List.cons_append, bracedDigits]
    · simp only [hd, Option.bind_some]
      rw [if_pos (by omega)]
      exact ih _ h fun _ => rfl
    · exact hc

variable {cs rest : Chars} {strict : Bool}

theorem escape_letter (h : (c, n) ∈ escapeCodes) (cs : Chars) :
    escape strict (c :: cs) = some ([n], cs) := by
  simp only [escapeCodes, List.mem_cons, Prod.mk.injEq, List.not_mem_nil, or_false] at h
  rcases h with ⟨rfl, rfl⟩ | ⟨rfl, rfl⟩ | ⟨rfl, rfl⟩ | ⟨rfl, rfl⟩ | ⟨rfl, rfl⟩ | ⟨rfl, rfl⟩ <;> rfl

theorem octalDigit?_of_not_isDigit (h : c.isDigit = false) : octalDigit? c = none := by
  have hdigit : ¬ ('0' ≤ c ∧ c ≤ '9') := by
    simpa [Char.isDigit, Char.le_def] using h
  rw [octalDigit?, hexDigit?, if_neg (by simpa using hdigit)]
  -- The letters stand for ten and more.
  split
  · simp only [Option.filter_some]
    exact if_neg (by simp)
  · split
    · simp only [Option.filter_some]
      exact if_neg (by simp)
    · rfl

theorem escape_itself (h : escapesItself c) (cs : Chars) :
    escape strict (c :: cs) = some (units16Char c, cs) := by
  simp only [escapesItself, Bool.and_eq_true, Bool.not_eq_true'] at h
  obtain ⟨⟨hline, hdigit⟩, hletter⟩ := h
  have hoctal := octalDigit?_of_not_isDigit hdigit
  unfold escape
  split <;> simp_all [isLineEnd]

theorem escape_null (h : ∀ c ∈ cs.head?, c.isDigit = false) :
    escape strict ('0' :: cs) = some ([0], cs) := by
  have hoctal : octalEscape 0 cs = (0, cs) := by
    cases cs with
    | nil => rfl
    | cons c cs => simp only [octalEscape, octalDigit?_of_not_isDigit (h c rfl)]
  have hzero : octalDigit? '0' = some 0 := by decide
  rw [escape]
  · simp [hzero, hoctal, isLineEnd]
  all_goals simp

theorem escape_byte (hlen : ds.length = 2) (hn : digitsValue? 16 ds = some n) (cs : Chars) :
    escape strict ('x' :: ds ++ cs) = some ([n], cs) := by
  rw [Text.digitsValue?_eq] at hn
  have := hexDigits_of_foldlM hn cs
  rw [hlen] at this
  simp only [List.cons_append, escape, this, Option.map_some]

theorem escape_unit (hlen : ds.length = 4) (hn : digitsValue? 16 ds = some n) (cs : Chars) :
    escape strict ('u' :: ds ++ cs) = some ([n], cs) := by
  rw [Text.digitsValue?_eq] at hn
  have hread := hexDigits_of_foldlM hn cs
  have hlt := lt_of_foldlM hn
  rw [hlen] at hread hlt
  have hunits : unitsOfCode n = [n] := if_pos (by omega)
  cases ds with
  | nil => cases hlen
  | cons d ds =>
    have hd : d ≠ '\x7b' := by
      rintro rfl
      cases hn
    have hcode : unicodeEscape (d :: ds ++ cs) = some (n, cs) := by
      rw [List.cons_append, unicodeEscape]
      · exact hread
      · simp [hd]
    simp only [List.cons_append, escape] at hcode ⊢
    simp only [hcode, Option.map_some, hunits]

theorem escape_code (hds : ds ≠ []) (hn : digitsValue? 16 ds = some n) (hle : n ≤ 0x10FFFF)
    (cs : Chars) :
    escape strict ('u' :: '\x7b' :: ds ++ '\x7d' :: cs) = some (unitsOfCode n, cs) := by
  rw [Text.digitsValue?_eq] at hn
  have := bracedDigits_of_foldlM none hn hle (fun h => absurd h hds) cs
  simp only [List.cons_append, escape, unicodeEscape, this, Option.map_some]

theorem escape_lineEnd (h : isLineEnd c) (hcs : cs.head? ≠ some '\n') :
    escape strict (c :: cs) = some ([], cs) := by
  rw [escape, if_pos h]
  case x_9 =>
    rintro cs' rfl rfl
    exact hcs rfl
  all_goals
    rintro rfl
    cases h

theorem escape_lineEnds (cs : Chars) : escape strict ('\r' :: '\n' :: cs) = some ([], cs) := rfl

theorem Spelling.head_ne (h : Spelling quote cs units) : cs.head? ≠ some '\n' := by
  cases h with
  | char hc _ =>
    rintro h
    obtain rfl := Option.some.inj h
    simp at hc
  | _ => simp

theorem stringBody_escape {more : List Nat} (h : escape false cs = some (units, rest))
    (hn : 0 < n) {tail : Chars} (hmore : stringBody quote (n - 1) rest = some (more, tail)) :
    stringBody quote n ('\\' :: cs) = some (units ++ more, tail) := by
  obtain ⟨n, rfl⟩ := Nat.exists_eq_add_one_of_ne_zero (Nat.ne_of_gt hn)
  rw [Nat.add_sub_cancel] at hmore
  simp [stringBody, h, hmore]

def quoteMarks : Chars := ['"', '\x27']

/-- A string literal is read as the code units it spells. -/
theorem stringBody_of_spelling (h : Spelling quote cs units) (hquote : quote ∈ quoteMarks)
    (hn : cs.length < n) (rest : Chars) :
    stringBody quote n (cs ++ quote :: rest) = some (units, rest) := by
  have hback : quote ≠ '\\' := by
    rintro rfl
    revert hquote
    decide
  have hdigit : quote.isDigit = false := by
    simp only [quoteMarks, List.mem_cons, List.not_mem_nil, or_false] at hquote
    rcases hquote with rfl | rfl <;> rfl
  induction h generalizing n with
  | nil =>
    obtain ⟨n, rfl⟩ := Nat.exists_eq_add_one_of_ne_zero (Nat.ne_zero_of_lt hn)
    rw [List.nil_append, stringBody]
    · simp
    · exact hback
  | char hc _ ih =>
    obtain ⟨n, rfl⟩ := Nat.exists_eq_add_one_of_ne_zero (Nat.ne_zero_of_lt hn)
    simp only [List.mem_cons, List.not_mem_nil, or_false, not_or] at hc
    rw [List.cons_append, stringBody]
    · simp [hc, ih (by simpa using hn)]
    · exact hc.2.1
  | letter hc _ ih =>
    exact stringBody_escape (escape_letter hc _) (by omega) (ih (by simp at hn; omega))
  | itself hc _ ih =>
    exact stringBody_escape (escape_itself hc _) (by omega) (ih (by simp at hn; omega))
  | @null cs _ hc _ ih =>
    refine stringBody_escape (escape_null fun c h => ?_) (by omega) (ih (by simp at hn; omega))
    cases cs with
    | nil =>
      obtain rfl := Option.some.inj h
      exact hdigit
    | cons d cs => exact hc c h
  | byte hlen hvalue _ ih =>
    rw [List.append_assoc]
    exact stringBody_escape (escape_byte hlen hvalue _) (by omega) (ih (by simp at hn; omega))
  | unit hlen hvalue _ ih =>
    rw [List.append_assoc]
    exact stringBody_escape (escape_unit hlen hvalue _) (by omega) (ih (by simp at hn; omega))
  | code hds hvalue hle _ ih =>
    rw [List.append_assoc]
    exact stringBody_escape (escape_code hds hvalue hle _) (by omega) (ih (by simp at hn; omega))
  | @lineEnd c cs _ hc h ih =>
    refine stringBody_escape (escape_lineEnd hc ?_) (by omega) (ih (by simp at hn; omega))
    cases cs with
    | nil =>
      rintro h
      obtain rfl := Option.some.inj h
      revert hquote
      decide
    | cons d cs => exact h.head_ne
  | lineEnds _ ih =>
    exact stringBody_escape (escape_lineEnds _) (by omega) (ih (by simp at hn; omega))

/-! ## Scanning -/

/-- The characters that a string literal spells. -/
def Spells (literal s : Chars) : Prop :=
  ∃ quote ∈ quoteMarks, ∃ cs, literal = quote :: cs ++ [quote] ∧
    Spelling quote cs (s.flatMap units16Char)

theorem scan_quote (hquote : quote ∈ quoteMarks) (bindable : String → Bool)
    (ends : Bool) (pos : Nat) (cs : Chars) : scan bindable ends pos (quote :: cs) =
      match stringBody quote (cs.length + 1) cs with
      | some (units, rest) => ⟨.string (Text.ofUnits units), pos, rest,
          pos + span (quote :: cs) rest, false, true⟩
      | none => ⟨.illegal, pos, [], pos, false, false⟩ := by
  simp only [quoteMarks, List.mem_cons, List.not_mem_nil, or_false] at hquote
  rcases hquote with rfl | rfl <;> rfl

theorem scan_string (hquote : quote ∈ quoteMarks) (h : Spelling quote cs units)
    (bindable : String → Bool) (ends : Bool) (pos : Nat) (rest : Chars) :
    ∃ p, scan bindable ends pos (quote :: cs ++ quote :: rest) =
      ⟨.string (Text.ofUnits units), pos, rest, p, false, true⟩ := by
  have hbody := stringBody_of_spelling h hquote (n := (cs ++ quote :: rest).length + 1)
    (by rw [List.length_append]; omega) rest
  rw [List.cons_append, scan_quote hquote, hbody]
  exact ⟨_, rfl⟩

theorem scan_open (bindable : String → Bool) (ends : Bool) (pos : Nat) (rest : Chars) :
    ∃ p, scan bindable ends pos ('(' :: rest) = ⟨.sym "(", pos, rest, p, false, false⟩ :=
  ⟨_, rfl⟩

end Bindery.Token

namespace Bindery

/-! ## Characters in sources -/

namespace Text

variable {units : List Nat}

/-- Characters in the form in which the values of literals in sources have them. -/
def inSource (s : Chars) : Text := ofUnits (s.flatMap units16Char)

theorem toNat_range (c : Char) : c.toNat < 0xD800 ∨ 0xDFFF < c.toNat ∧ c.toNat < 0x110000 := c.valid

theorem units16Char_lt {c : Char} {u : Nat} (h : u ∈ units16Char c) : u < 0x10000 := by
  have hrange := toNat_range c
  simp only [units16Char] at h
  split at h
  · obtain rfl := List.mem_singleton.1 h
    assumption
  · simp only [List.mem_cons, List.not_mem_nil, or_false] at h
    omega

theorem units16Char_of_lt {c : Char} (h : c.toNat < 0x10000) : units16Char c = [c.toNat] := if_pos h

theorem chars16_units16Char (c : Char) (units : List Nat) :
    chars16 (units16Char c ++ units) = c :: chars16 units := by
  have hrange := toNat_range c
  simp only [units16Char]
  split
  · have hhigh : (0xD800 ≤ c.toNat && c.toNat < 0xDC00) = false := by simp; omega
    have hlow : (0xDC00 ≤ c.toNat && c.toNat < 0xE000) = false := by simp; omega
    have hboth : (0xD800 ≤ c.toNat && c.toNat < 0xE000) = false := by simp; omega
    cases units with
    | nil => simp [chars16, hboth]
    | cons u units => simp [chars16, hhigh, hlow]
  · have hhigh : 0xD800 + (c.toNat - 0x10000) / 0x400 < 0xDC00 := by omega
    have hlow : 0xDC00 + (c.toNat - 0x10000) % 0x400 < 0xE000 := by omega
    have hcode : 0x10000 + (c.toNat - 0x10000) / 0x400 * 0x400 + (c.toNat - 0x10000) % 0x400 =
        c.toNat := by omega
    simp [chars16, hhigh, hlow, hcode]

theorem chars16_units (s : Chars) : chars16 (s.flatMap units16Char) = s := by
  induction s with
  | nil => rfl
  | cons c s ih => rw [List.flatMap_cons, chars16_units16Char, ih]

theorem pairs_bytes16 (h : ∀ u ∈ units, u < 0x10000) : unitsOf.pairs (bytes16 units) = units := by
  induction units with
  | nil => rfl
  | cons u units ih =>
    have hu := h u List.mem_cons_self
    have hlow : (UInt8.ofNat (u % 256)).toNat = u % 256 := toNat_ofNat_of_lt (by omega)
    have hhigh : (UInt8.ofNat (u / 256)).toNat = u / 256 := toNat_ofNat_of_lt (by omega)
    have hrest := ih fun v hv => h v (List.mem_cons_of_mem _ hv)
    rw [bytes16] at hrest ⊢
    rw [List.flatMap_cons]
    simp only [List.cons_append, List.nil_append, unitsOf.pairs, hlow, hhigh, hrest]
    rw [Nat.mod_add_div]

theorem unitsOf_ofUnits (h : ∀ u ∈ units, u < 0x10000) : (ofUnits units).unitsOf = units := by
  rw [ofUnits]
  split
  · next hascii =>
    have hlt : ∀ u ∈ units, u < 0x80 := by simpa using hascii
    have hmap : (units.map UInt8.ofNat).map UInt8.toNat = units := by
      rw [List.map_map]
      refine (List.map_congr_left fun u hu => ?_).trans (List.map_id units)
      exact toNat_ofNat_of_lt (Nat.lt_trans (hlt u hu) (by decide))
    rw [unitsOf]
    split
    · next hbytes =>
      -- An ASCII text has no byte-order mark.
      cases units with
      | nil => cases hbytes
      | cons u units =>
        have hu := hlt u List.mem_cons_self
        have hmark : u = 0xFF :=
          (toNat_ofNat_of_lt (by omega)).symm.trans (congrArg UInt8.toNat (List.cons.inj hbytes).1)
        omega
    · exact hmap
  · exact pairs_bytes16 h

theorem ofSource_inSource (s : Chars) : (inSource s).ofSource = ofChars s := by
  have hlt : ∀ u ∈ s.flatMap units16Char, u < 0x10000 := by
    intro u hu
    obtain ⟨c, -, hc⟩ := List.mem_flatMap.1 hu
    exact units16Char_lt hc
  rw [ofSource, inSource, unitsOf_ofUnits hlt, chars16_units]

theorem inSource_of_ascii {s : Chars} (h : ∀ c ∈ s, c.toNat < 0x80) : inSource s = ofChars s := by
  have hbytes : s.flatMap String.utf8EncodeChar = (s.map Char.toNat).map UInt8.ofNat := by
    rw [List.map_map, List.map_eq_flatMap]
    exact List.flatMap_congr fun c hc => utf8EncodeChar_ascii (h c hc)
  have hunits : s.flatMap units16Char = s.map Char.toNat := by
    rw [List.map_eq_flatMap]
    exact List.flatMap_congr fun c hc =>
      units16Char_of_lt (Nat.lt_trans (h c hc) (by decide))
  have hall : (s.map Char.toNat).all (· < 0x80) = true := by simpa using h
  rw [inSource, hunits, ofUnits, if_pos hall, ofChars, hbytes]

theorem decodeChar_mark (rest : List UInt8) : decodeChar 0xFF rest = none := by
  refine Option.map_eq_none_iff.2 (Option.not_isSome_iff_eq_none.1 fun hsome => ?_)
  have hfirst := ByteArray.isUTF8FirstByte_of_isSome_utf8DecodeChar? hsome
  simp at hfirst
  exact absurd hfirst (by decide)

theorem isUtf8_inSource {s : Chars} (h : ∃ c ∈ s, 0x80 ≤ c.toNat) :
    (inSource s).isUtf8 = false := by
  have hall : (s.flatMap units16Char).all (· < 0x80) = false := by
    obtain ⟨c, hc, hle⟩ := h
    have hunit : ∃ u ∈ units16Char c, 0x80 ≤ u := by
      rw [units16Char]
      split
      · exact ⟨_, List.mem_singleton_self _, hle⟩
      · exact ⟨_, List.mem_cons_self, by omega⟩
    obtain ⟨u, hu, hle⟩ := hunit
    refine List.all_eq_false.2 ⟨u, List.mem_flatMap.2 ⟨c, hc, hu⟩, ?_⟩
    simpa using hle
  rw [inSource, ofUnits, if_neg (by simp [hall]), isUtf8, glyphs]
  change (glyphsFrom 0 (0xFF :: 0xFE :: _)).all _ = false
  rw [glyphsFrom, decodeChar_mark]
  rfl

/-! ## Literals in scripts -/

def scriptQuoteChars : Glyph → Chars
  | .stray _ => [Glyph.replacement]
  | .char c =>
    if c == '"' || c == '\\' then ['\\', c]
    else if c.toNat == 0x08 then ['\\', 'b']
    else if c.toNat == 0x0C then ['\\', 'f']
    else if c.toNat == 0x0A then ['\\', 'n']
    else if c.toNat == 0x0D then ['\\', 'r']
    else if c.toNat == 0x09 then ['\\', 't']
    else if c.toNat < 0x20 || c == '<' || c == '>' || c == '&' || c.toNat == 0x2028
        || c.toNat == 0x2029 then
      '\\' :: 'u' :: hexChars 4 c.toNat
    else [c]

theorem scriptQuoteGlyph_eq (g : Glyph) : scriptQuoteGlyph g = ofChars (scriptQuoteChars g) := by
  cases g with
  | stray b => rfl
  | char c =>
    simp only [scriptQuoteGlyph, scriptQuoteChars]
    repeat' split
    all_goals rfl

theorem spelling_scriptQuoteChars (g : Glyph) {cs : Chars} (h : Token.Spelling '"' cs units) :
    Token.Spelling '"' (scriptQuoteChars g ++ cs) (units16Char g.toChar ++ units) := by
  cases g with
  | stray b => exact .char (by decide) h
  | char c =>
    rw [scriptQuoteChars, Glyph.toChar]
    split
    · next hc =>
      refine .itself ?_ h
      rcases (by simpa using hc : c = '"' ∨ c = '\\') with rfl | rfl <;> decide
    have hletter {l : Char} {n : Nat} (hc : (c.toNat == n) = true)
        (hl : (l, n) ∈ Token.escapeCodes) (hn : n < 0x10000) :
        Token.Spelling '"' ('\\' :: l :: cs) (units16Char c ++ units) := by
      obtain rfl := beq_iff_eq.1 hc
      rw [units16Char_of_lt hn]
      exact .letter hl h
    iterate 5
      split
      · next hc => exact hletter hc (by decide) (by decide)
    split
    · next hc =>
      have hlt : c.toNat < 0x10000 := by
        simp only [Bool.or_eq_true, decide_eq_true_eq, beq_iff_eq] at hc
        rcases hc with ((((hc | rfl) | rfl) | rfl) | hc) | hc <;> first | decide | omega
      rw [units16Char_of_lt hlt]
      exact .unit (length_hexChars (by decide) hlt) (digitsValue?_hexChars 4 c.toNat) h
    · next hmark _ _ hfeed hreturn _ _ =>
      refine .char ?_ h
      simp only [Bool.or_eq_true, beq_iff_eq, not_or] at hmark hfeed hreturn
      simp only [List.mem_cons, List.not_mem_nil, or_false, not_or]
      refine ⟨hmark.1, hmark.2, ?_, ?_⟩
      · rintro rfl
        exact hfeed rfl
      · rintro rfl
        exact hreturn rfl

/-- The literal of a text in a script spells the text. -/
theorem spells_scriptQuote (t : Text) :
    ∃ literal, t.scriptQuote = ofChars literal ∧ Token.Spells literal t.chars := by
  have hbody (gs : List Glyph) :
      concat (gs.map scriptQuoteGlyph) = ofChars (gs.flatMap scriptQuoteChars) := by
    induction gs with
    | nil => rfl
    | cons g gs ih =>
      rw [List.flatMap_cons, ofChars_append, ← ih, ← scriptQuoteGlyph_eq]
      rfl
  have hspelling (gs : List Glyph) : Token.Spelling '"' (gs.flatMap scriptQuoteChars)
      ((gs.map Glyph.toChar).flatMap units16Char) := by
    induction gs with
    | nil => exact .nil
    | cons g gs ih => exact spelling_scriptQuoteChars g ih
  refine ⟨'"' :: t.glyphs.flatMap scriptQuoteChars ++ ['"'], ?_, '"', by decide, _, rfl,
    hspelling t.glyphs⟩
  rw [scriptQuote, hbody, ← List.singleton_append, ofChars_append, ofChars_append]
  rfl

end Text

/-! ## Literals as bindings -/

theorem Code.text_ofText (t : Text) : (Code.ofText t).text = t := by
  rw [Code.ofText, Code.addText]
  split
  · next hempty =>
    obtain ⟨bytes⟩ := t
    obtain rfl := List.isEmpty_iff.1 hempty
    rfl
  · exact Text.ext (List.append_nil _)

theorem Options.format_text (o : Options) (m : Marks) (t : Text) :
    (o.format (.literal m (.text t))).text = t.scriptQuote := by
  have hfinish : o.finish (.literal m (.text t)) = .literal m (.text t) := by
    rw [Options.finish]
    split <;> rfl
  have hformat : (Script.literal m (.text t)).format o.debug = .ofText t.scriptQuote := rfl
  rw [Options.format, hfinish, hformat, Code.text_ofText]

namespace Source

/-- A source that is a string literal is the literal of the characters it spells. -/
theorem parse_stringLiteral {literal s : Chars} (h : Token.Spells literal s) (note : Text) :
    ∃ n, parse (.ofChars literal) note = .ok (.string n (Text.inSource s)) := by
  obtain ⟨quote, hquote, cs, rfl, hspelling⟩ := h
  obtain ⟨p₀, h₀⟩ := Token.scan_open ({} : Context).isBindable false 0
    (quote :: cs ++ quote :: ['\n', ')'])
  obtain ⟨p₁, h₁⟩ := Token.scan_string hquote hspelling ({} : Context).isBindable false p₀
    ['\n', ')']
  have hprogram := program?_string rfl h₀ h₁ rfl rfl rfl rfl rfl rfl
  have hsource : '(' :: (quote :: cs ++ [quote]) ++ ['\n', ')'] =
      '(' :: (quote :: cs ++ quote :: ['\n', ')']) := by simp
  refine ⟨p₀, ?_⟩
  rw [parse, Text.isUtf8_ofChars, Text.chars_ofChars, hsource, hprogram]
  rfl

/-- A binding that is a string literal has the characters that it spells, in the form they have in
sources, as its value on the server, and its script is a literal that spells that value. The form is
the UTF-8 text of the characters if these are ASCII, and otherwise no UTF-8 text. -/
theorem expression_stringLiteral {literal s : Chars} (h : Token.Spells literal s)
    (scope : Scope) (u : Universe) (o : Options) (st : Session) :
    ∃ e, ((expression (.ofChars literal) scope u).run.run st).1 =
        .ok (.const (.text (Text.inSource s)) .string) ∧
      (Expr.const (.text (Text.inSource s)) .string).convertTo .any true = .ok e ∧
      (∃ r, Reader.compile e scope = .ok r ∧
        ∀ vms control, r.read vms control = .ok (.value (.text (Text.inSource s)))) ∧
      (∃ x out, e.lower o.registry scope = .ok x ∧
        (o.format (x.resolveCells.variant false)).text = .ofChars out ∧
        Token.Spells out (Text.inSource s).chars) ∧
      (Text.inSource s).ofSource = .ofChars s ∧
      if s.all (·.toNat < 0x80) then Text.inSource s = .ofChars s ∧ (Text.inSource s).chars = s
      else (Text.inSource s).isUtf8 = false := by
  obtain ⟨n, hparse⟩ := parse_stringLiteral h _
  obtain ⟨out, hout, hspells⟩ := Text.spells_scriptQuote (Text.inSource s)
  refine ⟨_, ?_, rfl, ⟨_, rfl, fun _ _ => rfl⟩, ⟨_, out, rfl, ?_, hspells⟩,
    Text.ofSource_inSource s, ?_⟩
  · rw [expression, hparse]
    rfl
  · rw [← hout]
    exact o.format_text _ _
  · split
    · next hascii =>
      have heq := Text.inSource_of_ascii (by simpa using hascii)
      exact ⟨heq, by rw [heq, Text.chars_ofChars]⟩
    · next hascii => exact Text.isUtf8_inSource (by simpa using hascii)

/-- An accented letter and a line feed, which is escaped. -/
theorem expression_stringLiteral_accented : Token.Spells ['"', 'é', '\\', 'n', '"'] ['é', '\n'] ∧
      ((expression (.ofChars ['"', 'é', '\\', 'n', '"']) ⟨{ dataType := .any }, []⟩
        .initial).run.run {}).1 =
        .ok (.const (.text ⟨[0xFF, 0xFE, 0xE9, 0x00, 0x0A, 0x00]⟩) .string) := by
  have hspells : Token.Spells ['"', 'é', '\\', 'n', '"'] ['é', '\n'] :=
    ⟨'"', by decide, ['é', '\\', 'n'], rfl, .char (by decide) (.letter (by decide) .nil)⟩
  obtain ⟨e, h, -⟩ := expression_stringLiteral hspells ⟨{ dataType := .any }, []⟩ .initial {} {}
  exact ⟨hspells, h⟩

/-- The value of a literal is not always the UTF-8 text of the characters that it spells. -/
theorem parse_stringLiteral_ne_utf8 : Token.Spells ['"', 'é', '"'] ['é'] ∧
    ∃ n v, parse (.ofChars ['"', 'é', '"']) = .ok (.string n v) ∧ v ≠ .ofChars ['é'] := by
  have hspells : Token.Spells ['"', 'é', '"'] ['é'] :=
    ⟨'"', by decide, ['é'], rfl, .char (by decide) .nil⟩
  obtain ⟨n, h⟩ := parse_stringLiteral hspells _
  exact ⟨hspells, n, _, h, by decide⟩

end Source

end Bindery
