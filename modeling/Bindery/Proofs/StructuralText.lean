import Bindery.Script.Dump
import Bindery.Proofs.FloatText
import Bindery.Proofs.QuotedText
import Bindery.Proofs.ScriptParts

/-!
# Structural text tells scripts apart

Scripts whose names are identifiers have the same structural text only if they differ in marks alone
(`Script.bare_eq_of_dump_eq`), or in marks and in what their symbols stand for
(`Script.dump_eq_dump_iff`). The text of a script ends where a space or a closing parenthesis begins
the rest, so two texts with such rests behind them are compared from the left
(`Script.dump_append_inj`).
-/

namespace Bindery

/-! ## Identifiers -/

namespace Text

variable {b : UInt8} {t : Text}

def isIdentifier (t : Text) : Bool :=
  t.isUtf8 && match t.chars with
    | [] => false
    | c :: cs => isIdentStart c && cs.all isIdentPart

theorem isIdentPart_of_isIdentStart {c : Char} (h : isIdentStart c) : isIdentPart c := by
  simp [isIdentPart, h]

theorem isIdentifier_iff (t : Text) : t.isIdentifier ↔
    ∃ c cs, t = ofChars (c :: cs) ∧ isIdentStart c ∧ ∀ d ∈ cs, isIdentPart d := by
  constructor
  · intro h
    simp only [isIdentifier, Bool.and_eq_true] at h
    obtain ⟨hutf8, hchars⟩ := h
    have htext := ofChars_chars hutf8
    cases hcs : t.chars with
    | nil =>
      rw [hcs] at hchars
      cases hchars
    | cons c cs =>
      rw [hcs] at hchars htext
      simp only [Bool.and_eq_true, List.all_eq_true] at hchars
      exact ⟨c, cs, htext.symm, hchars.1, hchars.2⟩
  · rintro ⟨c, cs, rfl, hc, hcs⟩
    simp only [isIdentifier, isUtf8_ofChars, chars_ofChars, hc, Bool.true_and, List.all_eq_true]
    exact hcs

theorem char_mem_of_mem_ofChars {cs : Chars} (hb : b ∈ (ofChars cs).bytes)
    (hlt : b.toNat < 0x80) : Char.ofNat b.toNat ∈ cs := by
  obtain ⟨c, hc, hmem⟩ := List.mem_flatMap.1 hb
  rwa [← char_of_mem_utf8EncodeChar hmem hlt]

theorem isIdentPart_of_mem (ht : t.isIdentifier) (hb : b ∈ t.bytes) (hlt : b.toNat < 0x80) :
    isIdentPart (Char.ofNat b.toNat) := by
  obtain ⟨c, cs, rfl, hc, hcs⟩ := (isIdentifier_iff t).1 ht
  rcases List.mem_cons.1 (char_mem_of_mem_ofChars hb hlt) with heq | hmem
  · rw [heq]
    exact isIdentPart_of_isIdentStart hc
  · exact hcs _ hmem

theorem not_mem_of_isIdentifier (ht : t.isIdentifier) (hlt : b.toNat < 0x80)
    (hb : isIdentPart (Char.ofNat b.toNat) = false) : b ∉ t.bytes := by
  intro hmem
  rw [isIdentPart_of_mem ht hmem hlt] at hb
  cases hb

theorem bytes_ne_nil_of_isIdentifier (ht : t.isIdentifier) : t.bytes ≠ [] := by
  obtain ⟨c, cs, rfl, _, _⟩ := (isIdentifier_iff t).1 ht
  obtain ⟨b, bs, hencode, _⟩ := decodeChar_utf8EncodeChar c
  simp [ofChars, hencode]

theorem join_comma_inj {ps qs : List Text} (hps : ∀ p ∈ ps, p.isIdentifier)
    (hqs : ∀ q ∈ qs, q.isIdentifier) (h : join "," ps = join "," qs) : ps = qs := by
  have hnot {t : Text} (ht : t.isIdentifier) : ∀ b ∈ t.bytes, ¬ (b = 0x2C ∨ b = 0x20) := by
    rintro b hb (rfl | rfl) <;> exact not_mem_of_isIdentifier ht (by decide) (by decide) hb
  have hopen : ∀ t, t ∈ ps ∨ t ∈ qs → ∃ b bs, (id t).bytes = b :: bs ∧ b ≠ 0x20 := by
    intro t ht
    have ht := ht.elim (hps t) (hqs t)
    obtain ⟨b, bs, hb⟩ := List.exists_cons_of_ne_nil (bytes_ne_nil_of_isIdentifier ht)
    exact ⟨b, bs, hb, fun h => hnot ht b (hb ▸ List.mem_cons_self) (.inr h)⟩
  have heq : (join "," (ps.map id)).bytes ++ [0x20] = (join "," (qs.map id)).bytes ++ [0x20] := by
    rw [List.map_id, List.map_id, h]
  obtain ⟨hall, -⟩ := join_append_inj (R := (· = ·)) (by decide) hopen
    (fun p hp q hq r s hr hs h => by
      obtain ⟨hbytes, hrest⟩ := append_stop_inj (hnot (hps p hp)) (hnot (hqs q hq)) hr hs h
      exact ⟨Text.ext hbytes, hrest⟩) heq
  exact List.forall₂_eq_eq_eq ▸ hall

end Text

/-! ## Words -/

def IsWord (bs : List UInt8) : Prop := ∀ b ∈ bs, b ≠ 0x20 ∧ b ≠ 0x22 ∧ b ≠ 0x29

instance (bs : List UInt8) : Decidable (IsWord bs) := List.decidableBAll _ bs

/-- The bytes begin where a word ends. -/
def EndsWord (r : List UInt8) : Prop := ∃ b bs, r = b :: bs ∧ (b = 0x20 ∨ b = 0x29)

theorem EndsWord.space (r : List UInt8) : EndsWord (0x20 :: r) := ⟨_, _, rfl, .inl rfl⟩

theorem EndsWord.close (r : List UInt8) : EndsWord (0x29 :: r) := ⟨_, _, rfl, .inr rfl⟩

namespace IsWord

variable {u : List UInt8}

theorem append_inj {v r s : List UInt8} (hu : IsWord u) (hv : IsWord v) (hr : EndsWord r)
    (hs : EndsWord s) (h : u ++ r = v ++ s) : u = v ∧ r = s := by
  have hword {u : List UInt8} (hu : IsWord u) : ∀ b ∈ u, ¬ (b = 0x20 ∨ b = 0x29) := fun b hb h =>
    h.elim (hu b hb).1 (hu b hb).2.2
  have hend {r : List UInt8} (hr : EndsWord r) : ∀ b ∈ r.head?, b = 0x20 ∨ b = 0x29 := by
    obtain ⟨b, bs, rfl, hb⟩ := hr
    exact fun c hc => Option.some.inj hc ▸ hb
  exact Text.append_stop_inj (hword hu) (hword hv) (hend hr) (hend hs) h

theorem append {v : List UInt8} (hu : IsWord u) (hv : IsWord v) : IsWord (u ++ v) := by
  intro b hb
  rcases List.mem_append.1 hb with hb | hb
  · exact hu b hb
  · exact hv b hb

theorem ne_quote {r s : List UInt8} {a : UInt8} (hu : IsWord (a :: u)) (hr : EndsWord r) :
    a :: u ++ r ≠ a :: 0x22 :: s := by
  intro h
  cases u with
  | nil =>
    obtain ⟨b, bs, rfl, hb⟩ := hr
    have heq : b = 0x22 := (List.cons.inj (List.cons.inj h).2).1
    subst heq
    exact absurd hb (by decide)
  | cons b u =>
    have heq : b = 0x22 := (List.cons.inj (List.cons.inj h).2).1
    exact (hu b (by simp)).2.1 heq

end IsWord

theorem isWord_ofChars {cs : Chars} (h : ' ' ∉ cs ∧ '"' ∉ cs ∧ ')' ∉ cs) :
    IsWord (Text.ofChars cs).bytes := by
  intro b hb
  refine ⟨?_, ?_, ?_⟩ <;> rintro rfl
  · exact h.1 (Text.char_mem_of_mem_ofChars hb (by decide))
  · exact h.2.1 (Text.char_mem_of_mem_ofChars hb (by decide))
  · exact h.2.2 (Text.char_mem_of_mem_ofChars hb (by decide))

theorem isWord_of_isIdentifier {t : Text} (ht : t.isIdentifier = true) : IsWord t.bytes := by
  intro b hb
  refine ⟨?_, ?_, ?_⟩ <;> rintro rfl <;>
    exact Text.not_mem_of_isIdentifier ht (by decide) (by decide) hb

theorem isWord_join {ps : List Text} (hps : ∀ p ∈ ps, p.isIdentifier = true) :
    IsWord (Text.join "," ps).bytes := by
  have hcomma : IsWord ("," : Text).bytes := by decide
  intro b hb
  rcases Text.mem_join hb with hb | ⟨p, hp, hb⟩
  · exact hcomma b hb
  · exact isWord_of_isIdentifier (hps p hp) b hb

/-! ## Literals -/

namespace Literal

variable {v w : Literal}

theorem isWord_ofNat (n : Nat) : IsWord (Text.ofNat n).bytes := by
  have hdigit : ∀ {c : Char}, c ∈ Nat.toDigits 10 n → c.isDigit = true :=
    Nat.isDigit_of_mem_toDigits (by decide) (by decide)
  refine isWord_ofChars ⟨fun h => ?_, fun h => ?_, fun h => ?_⟩ <;>
    exact absurd (hdigit h) (by decide)

theorem isWord_ofInt (n : Int) : IsWord (Text.ofInt n).bytes := by
  cases n with
  | ofNat n => exact isWord_ofNat n
  | negSucc n =>
    have hminus : IsWord ("-" : Text).bytes := by decide
    exact hminus.append (isWord_ofNat (n + 1))

theorem isWord_render (x : Float) : IsWord (Value.floatLayout.render x).bytes := by
  obtain ⟨cs, htext, hcs⟩ := Decimal.rendered x
  rw [htext]
  generalize x.toModel.unpack = u at hcs
  cases hcs with
  | nan => decide
  | infinity s => cases s <;> decide
  | number _ hcs =>
    refine isWord_ofChars ⟨fun h => ?_, fun h => ?_, fun h => ?_⟩ <;>
      exact absurd (Decimal.isNumeric_number hcs h) (by decide)

inductive Kind where
  | null
  | bool
  | int
  | float
  | text
deriving DecidableEq

def kind : Literal → Kind
  | .null => .null
  | .bool _ => .bool
  | .int _ => .int
  | .float _ => .float
  | .text _ => .text

def Kind.ofByte (b : UInt8) : Kind :=
  if b = 0x6C then .null else if b = 0x65 then .bool else if b = 0x66 then .float
  else if b = 0x22 then .text else .int

theorem bytes_ofInt (n : Int) : ∃ bs b, (Text.ofInt n).bytes = bs ++ [b] ∧ 0x30 ≤ b ∧ b ≤ 0x39 := by
  have hnat (n : Nat) : ∃ bs b, (Text.ofNat n).bytes = bs ++ [b] ∧ 0x30 ≤ b ∧ b ≤ 0x39 := by
    have hsplit := List.dropLast_append_getLast (Text.bytes_ofNat_ne_nil n)
    exact ⟨_, _, hsplit.symm, Text.bytes_ofNat (List.getLast_mem _)⟩
  cases n with
  | ofNat n => exact hnat n
  | negSucc n =>
    obtain ⟨bs, b, heq, hb⟩ := hnat (n + 1)
    refine ⟨("-" : Text).bytes ++ bs, b, ?_, hb⟩
    rw [Text.ofInt, Text.bytes_append, heq, List.append_assoc]

/-- The text of a literal ends with a byte that tells its kind. -/
theorem kind_eq (v : Literal) : ∃ bs b, v.dump.bytes = bs ++ [b] ∧ v.kind = .ofByte b := by
  cases v with
  | null => exact ⟨[0x23, 0x6E, 0x75, 0x6C], 0x6C, rfl, rfl⟩
  | bool v =>
    cases v with
    | false => exact ⟨[0x23, 0x66, 0x61, 0x6C, 0x73], 0x65, rfl, rfl⟩
    | true => exact ⟨[0x23, 0x74, 0x72, 0x75], 0x65, rfl, rfl⟩
  | int n =>
    obtain ⟨bs, b, heq, hlow, hhigh⟩ := bytes_ofInt n.toInt
    refine ⟨("#" : Text).bytes ++ bs, b, ?_, ?_⟩
    · rw [dump, Text.bytes_append, heq, List.append_assoc]
    · have hne : ∀ a : UInt8, a < 0x30 ∨ 0x39 < a → b ≠ a := by
        rintro a ha rfl
        rcases ha with ha | ha
        · exact absurd hlow (UInt8.not_le.2 ha)
        · exact absurd hhigh (UInt8.not_le.2 ha)
      simp [kind, Kind.ofByte, hne 0x6C (by decide), hne 0x65 (by decide), hne 0x66 (by decide),
        hne 0x22 (by decide)]
  | float x => exact ⟨_, 0x66, rfl, rfl⟩
  | text t => exact ⟨_, 0x22, (List.append_assoc ..).symm, rfl⟩

theorem kind_eq_of_dump_eq (h : v.dump = w.dump) : v.kind = w.kind := by
  obtain ⟨bs, b, hv, hkind⟩ := kind_eq v
  obtain ⟨cs, c, hw, hkind'⟩ := kind_eq w
  have heq : bs ++ [b] = cs ++ [c] := by rw [← hv, ← hw, h]
  rw [hkind, hkind', (List.append_inj' heq rfl).2 |> List.singleton_inj.1]

theorem eq_of_dump_eq (hv : v.kind ≠ .text) (h : v.dump = w.dump) : v = w := by
  have hkind := kind_eq_of_dump_eq h
  cases v with
  | null =>
    cases w with
    | null => rfl
    | _ => cases hkind
  | bool a =>
    cases w with
    | bool b =>
      have hne : ("#true" : Text) ≠ "#false" := by decide
      cases a <;> cases b <;> first | rfl | exact absurd h hne | exact absurd h.symm hne
    | _ => cases hkind
  | int m =>
    cases w with
    | int n => rw [Int64.toInt_inj.1 (Text.ofInt_inj (Text.append_right_inj.1 h))]
    | _ => cases hkind
  | float x =>
    cases w with
    | float y =>
      have hbytes := congrArg Text.bytes h
      simp only [dump, Text.bytes_append, List.append_assoc, List.append_cancel_left_eq,
        List.append_cancel_right_eq] at hbytes
      rw [Decimal.render_inj (Text.ext hbytes)]
    | _ => cases hkind
  | text t => exact absurd rfl hv

theorem isWord_dump (hv : v.kind ≠ .text) : IsWord v.dump.bytes := by
  have hmark : IsWord ("#" : Text).bytes := by decide
  cases v with
  | null => decide
  | bool b => cases b <;> decide
  | int n => exact hmark.append (isWord_ofInt n.toInt)
  | float x =>
    exact (hmark.append (isWord_render x)).append (by decide)
  | text t => exact absurd rfl hv

theorem bytes_dump (v : Literal) : ∃ bs, v.dump.bytes = 0x23 :: bs := by
  cases v with
  | bool b => cases b <;> exact ⟨_, rfl⟩
  | _ => exact ⟨_, rfl⟩

theorem eq_text (hv : v.kind = .text) : ∃ t, v = .text t := by
  cases v with
  | text t => exact ⟨t, rfl⟩
  | _ => cases hv

theorem dump_text_ne (t : Text) (hv : v.kind ≠ .text) {r : List UInt8} (hr : EndsWord r)
    (s : List UInt8) : v.dump.bytes ++ r ≠ (text t).dump.bytes ++ s := by
  obtain ⟨bs, hbs⟩ := bytes_dump v
  have hword := isWord_dump hv
  rw [hbs] at hword ⊢
  exact hword.ne_quote hr

/-- Literals are told apart by their text, whatever follows it. -/
theorem dump_append_inj {r s : List UInt8} (hr : EndsWord r) (hs : EndsWord s)
    (h : v.dump.bytes ++ r = w.dump.bytes ++ s) : v = w ∧ r = s := by
  by_cases hv : v.kind = .text
  · obtain ⟨t, rfl⟩ := eq_text hv
    by_cases hw : w.kind = .text
    · obtain ⟨u, rfl⟩ := eq_text hw
      have heq : t.quote ++ ⟨r⟩ = u.quote ++ ⟨s⟩ := Text.ext (List.cons.inj h).2
      obtain ⟨rfl, hrest⟩ := Text.quote_append_inj heq
      exact ⟨rfl, congrArg Text.bytes hrest⟩
    · exact absurd h.symm (dump_text_ne t hw hs r)
  · by_cases hw : w.kind = .text
    · obtain ⟨u, rfl⟩ := eq_text hw
      exact absurd h (dump_text_ne u hv hr s)
    · obtain ⟨hdump, hrest⟩ := (isWord_dump hv).append_inj (isWord_dump hw) hr hs h
      exact ⟨eq_of_dump_eq hv (Text.ext hdump), hrest⟩

end Literal

/-! ## Nodes -/

/-- What a node with operands does. -/
inductive Shape where
  | member (n : Text)
  | index
  | call
  | construct
  | unary (op : UnOp)
  | binary (op : BinOp)
  | cond
  | array
  | object
  | paren
  | function
  | arrow
  | sequence
deriving DecidableEq

namespace Shape

def word : Shape → Text
  | .member n => "." ++ n
  | .index => "index"
  | .call => "call"
  | .construct => "new"
  | .unary op => "u" ++ op.text
  | .binary op => "b" ++ op.text
  | .cond => "conditional"
  | .array => "array"
  | .object => "object"
  | .paren => "paren"
  | .function => "function"
  | .arrow => "arrow"
  | .sequence => "sequence"

/-- Keys or parameters as they stand behind the word. -/
def labelText : Shape → List Text → Text
  | .object, ks => Text.concat (ks.map fun k => " " ++ k.quote)
  | .function, ps => " " ++ Text.join "," ps
  | .arrow, ps => " " ++ Text.join "," ps
  | _, _ => ∅

/-- The names that belong to the node are identifiers, and there are labels only where they are
written. -/
def IsNamed : Shape → List Text → Prop
  | .member n, ks => n.isIdentifier = true ∧ ks = []
  | .object, _ => True
  | .function, ps => ∀ p ∈ ps, p.isIdentifier = true
  | .arrow, ps => ∀ p ∈ ps, p.isIdentifier = true
  | _, ks => ks = []

def fixed : List Shape :=
  [index, call, construct, cond, array, object, paren, function, arrow, sequence] ++
    [UnOp.plus, .minus, .not, .typeof, .void].map unary ++
    [BinOp.add, .sub, .mul, .div, .rem, .lt, .le, .gt, .ge, .looseEq, .looseNe, .strictEq,
      .strictNe, .coalesce, .or, .and, .assign].map binary

theorem member_or_fixed (a : Shape) : (∃ n, a = .member n) ∨ a ∈ fixed := by
  cases a with
  | member n => exact .inl ⟨n, rfl⟩
  | unary op | binary op => exact .inr (by cases op <;> decide)
  | _ => exact .inr (by decide)

theorem fixed_words : ∀ a ∈ fixed, (∀ b ∈ fixed, a.word = b.word → a = b) ∧
    a.word.bytes.head? ≠ some 0x2E ∧ IsWord a.word.bytes := by
  decide +kernel

theorem word_inj {a b : Shape} (h : a.word = b.word) : a = b := by
  have hhead : ∀ {a : Shape} {n : Text}, a ∈ fixed → a.word ≠ (member n).word := by
    intro a n ha heq
    refine (fixed_words a ha).2.1 ?_
    rw [heq]
    rfl
  rcases member_or_fixed a with ⟨m, rfl⟩ | ha
  · rcases member_or_fixed b with ⟨n, rfl⟩ | hb
    · rw [Text.append_right_inj.1 h]
    · exact absurd h.symm (hhead hb)
  · rcases member_or_fixed b with ⟨n, rfl⟩ | hb
    · exact absurd h (hhead ha)
    · exact (fixed_words a ha).1 b hb h

theorem isWord_word {a : Shape} {labels : List Text} (h : a.IsNamed labels) :
    IsWord a.word.bytes := by
  rcases member_or_fixed a with ⟨n, rfl⟩ | ha
  · have hdot : IsWord ("." : Text).bytes := by decide
    exact hdot.append (isWord_of_isIdentifier h.1)
  · exact (fixed_words a ha).2.2

def build : Shape → List Text → List Script → Script
  | .member n, _, [x] => .member {} x n
  | .index, _, [x, k] => .index {} x k
  | .call, _, f :: as => .call {} f as
  | .construct, _, f :: as => .construct {} f as
  | .unary op, _, [x] => .unary {} op x
  | .binary op, _, [x, y] => .binary {} op x y
  | .cond, _, [c, t, e] => .cond {} c t e
  | .array, _, xs => .array {} xs
  | .object, ks, xs => .object {} (ks.zip xs)
  | .paren, _, [x] => .paren {} x
  | .function, ps, [b] => .function {} ps b
  | .arrow, ps, [b] => .arrow {} ps b
  | .sequence, _, xs => .sequence {} xs
  | _, _, _ => .literal {} .null

end Shape

namespace Script

def shape? : Script → Option (Shape × List Text)
  | .member _ _ n => some (.member n, [])
  | .index .. => some (.index, [])
  | .call .. => some (.call, [])
  | .construct .. => some (.construct, [])
  | .unary _ op _ => some (.unary op, [])
  | .binary _ op _ _ => some (.binary op, [])
  | .cond .. => some (.cond, [])
  | .array .. => some (.array, [])
  | .object _ ps => some (.object, ps.map (·.1))
  | .paren .. => some (.paren, [])
  | .function _ ps _ => some (.function, ps)
  | .arrow _ ps _ => some (.arrow, ps)
  | .sequence .. => some (.sequence, [])
  | _ => none

variable {a : Shape} {labels : List Text} {r s : List UInt8} {x y : Script}

theorem bare_of_shape (h : x.shape? = some (a, labels)) :
    x.bare = a.build labels (x.children.map bare) := by
  cases x <;> cases h <;> try (simp [bare, children, Shape.build, bareList_eq_map]; done)
  case object m ps =>
    simp only [bare, bareProps_eq_map, children, Shape.build, List.map_map, List.zip_map']
    rfl

def operandText (xs : List Script) : Text := Text.concat (xs.map fun x => " " ++ x.dump)

theorem dump_eq (x : Script) : x.dump =
    if x.isLeaf then x.head else "(" ++ x.head ++ operandText x.children ++ ")" := by
  rw [dump, fold_eq]
  simp only [operandText, dump, List.map_map]
  rfl

theorem head_of_shape (h : x.shape? = some (a, labels)) :
    x.isLeaf = false ∧ x.head = a.word ++ a.labelText labels := by
  have hempty (t : Text) : t ++ ∅ = t := Text.ext (List.append_nil _)
  cases x <;> cases h <;> refine ⟨rfl, ?_⟩
  case object m ps =>
    simp only [head, Shape.word, Shape.labelText, List.map_map]
    rfl
  case function | arrow => rfl
  all_goals exact (hempty _).symm

theorem dump_of_shape (h : x.shape? = some (a, labels)) :
    x.dump = "(" ++ (a.word ++ (a.labelText labels ++ (operandText x.children ++ ")"))) := by
  obtain ⟨hleaf, hhead⟩ := head_of_shape h
  rw [dump_eq, hleaf, hhead]
  simp [Text.append_assoc]

/-! ## Scripts -/

/-- The names at the node are identifiers, and a symbol stands for the script that its name has in
`defaults`. -/
def IsNamed (defaults : Text → Option Script) : Script → Prop
  | .ident _ n => n.isIdentifier = true
  | .symbol _ n d => 0x7D ∉ n.bytes ∧ d.map bare = defaults n
  | .member _ _ n => n.isIdentifier = true
  | .function _ ps _ => ∀ p ∈ ps, p.isIdentifier = true
  | .arrow _ ps _ => ∀ p ∈ ps, p.isIdentifier = true
  | _ => True

variable {defaults : Text → Option Script}

theorem IsNamed.shape (hx : x.IsNamed defaults) (h : x.shape? = some (a, labels)) :
    a.IsNamed labels := by
  cases x <;> cases h <;> first | exact ⟨hx, rfl⟩ | exact hx | rfl

/-- The ways in which the text of a script begins. -/
inductive Opening where
  | name
  | literal
  | symbol
  | node

def opening : Script → Opening
  | .ident .. => .name
  | .literal .. => .literal
  | .symbol .. => .symbol
  | _ => .node

def Opening.ofByte (b : UInt8) : Opening :=
  if b = 0x23 then .literal else if b = 0x7B then .symbol else if b = 0x28 then .node else .name

theorem shape_of_opening (h : x.opening = .node) : ∃ a labels, x.shape? = some (a, labels) := by
  cases x <;> first | exact ⟨_, _, rfl⟩ | cases h

/-- The text of a script begins with a byte that tells how to go on. -/
theorem opening_eq (hx : x.IsNamed defaults) :
    ∃ b bs, x.dump.bytes = b :: bs ∧ b ≠ 0x22 ∧ x.opening = .ofByte b := by
  cases hopening : x.opening with
  | name =>
    cases x <;> try cases hopening
    rename_i m n
    have hdump : (ident m n).dump = n := dump_eq (ident m n)
    rw [hdump]
    cases hn : n.bytes with
    | nil => exact absurd hn (Text.bytes_ne_nil_of_isIdentifier hx)
    | cons b bs =>
      have hne : ∀ c : UInt8, c.toNat < 0x80 → Text.isIdentPart
          (Char.ofNat c.toNat) = false → b ≠ c := by
        rintro c hlt hc rfl
        exact Text.not_mem_of_isIdentifier hx hlt hc (by simp [hn])
      refine ⟨b, bs, rfl, hne 0x22 (by decide) (by decide), ?_⟩
      simp [Opening.ofByte, hne 0x23 (by decide) (by decide), hne 0x7B (by decide) (by decide),
        hne 0x28 (by decide) (by decide)]
  | literal =>
    cases x <;> try cases hopening
    rename_i m v
    have hdump : (literal m v).dump = v.dump := dump_eq (literal m v)
    obtain ⟨bs, hbs⟩ := v.bytes_dump
    exact ⟨_, bs, hdump ▸ hbs, by decide, rfl⟩
  | symbol =>
    cases x <;> try cases hopening
    exact ⟨_, _, congrArg Text.bytes (dump_eq _), by decide, rfl⟩
  | node =>
    obtain ⟨a, labels, hshape⟩ := shape_of_opening hopening
    exact ⟨_, _, congrArg Text.bytes (dump_of_shape hshape), by decide, rfl⟩

theorem opening_eq_of_dump (hx : x.IsNamed defaults) (hy : y.IsNamed defaults)
    (h : x.dump.bytes ++ r = y.dump.bytes ++ s) : x.opening = y.opening := by
  obtain ⟨b, bs, hb, -, hopening⟩ := opening_eq hx
  obtain ⟨c, cs, hc, -, hopening'⟩ := opening_eq hy
  rw [hb, hc] at h
  rw [hopening, hopening', (List.cons.inj h).1]

/-- The bytes can follow the keys of an object: none of them begins with a quotation mark. -/
def EndsLabels (r : List UInt8) : Prop := EndsWord r ∧ ∀ bs, r ≠ 0x20 :: 0x22 :: bs

theorem bytes_operandText_cons (x : Script) (xs : List Script) :
    (operandText (x :: xs)).bytes = 0x20 :: (x.dump.bytes ++ (operandText xs).bytes) := rfl

variable {xs : List Script}

theorem endsLabels_operandText (hxs : ∀ x ∈ xs, x.IsNamed defaults) (r : List UInt8) :
    EndsLabels ((operandText xs).bytes ++ 0x29 :: r) := by
  cases xs with
  | nil => exact ⟨.close r, fun bs heq => absurd (List.cons.inj heq).1 (by decide)⟩
  | cons x xs =>
    refine ⟨.space _, fun bs heq => ?_⟩
    obtain ⟨b, cs, hb, hne, -⟩ := opening_eq (hxs x List.mem_cons_self)
    rw [bytes_operandText_cons, hb] at heq
    exact hne (List.cons.inj (List.cons.inj heq).2).1

theorem keys_append_inj {ks ls : List Text} (hr : EndsLabels r) (hs : EndsLabels s)
    (h : (Shape.object.labelText ks).bytes ++ r = (Shape.object.labelText ls).bytes ++ s) :
    ks = ls ∧ r = s := by
  have hcons (k : Text) (ks : List Text) (r : List UInt8) :
      (Shape.object.labelText (k :: ks)).bytes ++ r =
        0x20 :: (k.quote ++ ⟨(Shape.object.labelText ks).bytes ++ r⟩ : Text).bytes := by
    show _ ++ _ ++ r = _
    rw [List.append_assoc]
    rfl
  induction ks generalizing ls with
  | nil =>
    cases ls with
    | nil => exact ⟨rfl, h⟩
    | cons l ls => exact absurd h (hr.2 _)
  | cons k ks ih =>
    cases ls with
    | nil => exact absurd h.symm (hs.2 _)
    | cons l ls =>
      rw [hcons, hcons] at h
      obtain ⟨rfl, hrest⟩ := Text.quote_append_inj (Text.ext (List.cons.inj h).2)
      obtain ⟨rfl, rfl⟩ := ih (congrArg Text.bytes hrest)
      exact ⟨rfl, rfl⟩

theorem params_append_inj {ps qs : List Text} (hps : ∀ p ∈ ps, p.isIdentifier = true)
    (hqs : ∀ q ∈ qs, q.isIdentifier = true) (hr : EndsWord r) (hs : EndsWord s)
    (h : (" " ++ Text.join "," ps).bytes ++ r = (" " ++ Text.join "," qs).bytes ++ s) :
    ps = qs ∧ r = s := by
  obtain ⟨hjoin, hrest⟩ :=
    (isWord_join hps).append_inj (isWord_join hqs) hr hs (List.cons.inj h).2
  exact ⟨Text.join_comma_inj hps hqs (Text.ext hjoin), hrest⟩

theorem labels_append_inj {ks ls : List Text} (hks : a.IsNamed ks) (hls : a.IsNamed ls)
    (hr : EndsLabels r) (hs : EndsLabels s)
    (h : (a.labelText ks).bytes ++ r = (a.labelText ls).bytes ++ s) : ks = ls ∧ r = s := by
  cases a with
  | object => exact keys_append_inj hr hs h
  | function | arrow => exact params_append_inj hks hls hr.1 hs.1 h
  | member n => exact ⟨hks.2.trans hls.2.symm, h⟩
  | _ => exact ⟨Eq.trans hks (Eq.symm hls), h⟩

/-- Scripts that are told apart by their texts, whatever follows them. -/
def Distinct (defaults : Text → Option Script) (x : Script) : Prop :=
  ∀ (y : Script) (r s : List UInt8), (∀ z ∈ y.nodes, z.IsNamed defaults) → EndsWord r →
    EndsWord s → x.dump.bytes ++ r = y.dump.bytes ++ s → x.bare = y.bare ∧ r = s

theorem operands_append_inj {ys : List Script} (hxs : ∀ x ∈ xs, x.Distinct defaults)
    (hys : ∀ y ∈ ys, ∀ z ∈ y.nodes, z.IsNamed defaults)
    (h : (operandText xs).bytes ++ 0x29 :: r = (operandText ys).bytes ++ 0x29 :: s) :
    xs.map bare = ys.map bare ∧ r = s := by
  have hends (xs : List Script) (r : List UInt8) :
      EndsWord ((operandText xs).bytes ++ 0x29 :: r) := by
    cases xs with
    | nil => exact .close r
    | cons x xs => exact .space _
  induction xs generalizing ys with
  | nil =>
    cases ys with
    | nil => exact ⟨rfl, (List.cons.inj h).2⟩
    | cons y ys => exact absurd (List.cons.inj h).1 (by decide)
  | cons x xs ih =>
    cases ys with
    | nil => exact absurd (List.cons.inj h).1 (by decide)
    | cons y ys =>
      rw [bytes_operandText_cons, bytes_operandText_cons, List.cons_append, List.cons_append,
        List.append_assoc, List.append_assoc] at h
      obtain ⟨hbare, hrest⟩ := hxs x List.mem_cons_self y _ _ (hys y List.mem_cons_self)
        (hends xs r) (hends ys s) (List.cons.inj h).2
      obtain ⟨hmap, rfl⟩ := ih (fun z hz => hxs z (List.mem_cons_of_mem x hz))
        (fun z hz => hys z (List.mem_cons_of_mem y hz)) hrest
      exact ⟨by rw [List.map_cons, List.map_cons, hbare, hmap], rfl⟩

theorem node_append_inj (hx : ∀ z ∈ x.nodes, z.IsNamed defaults)
    (hy : ∀ z ∈ y.nodes, z.IsNamed defaults) (hdistinct : ∀ z ∈ x.children, z.Distinct defaults)
    (hnode : x.opening = .node) (hnode' : y.opening = .node)
    (h : x.dump.bytes ++ r = y.dump.bytes ++ s) : x.bare = y.bare ∧ r = s := by
  obtain ⟨a, ks, hshape⟩ := shape_of_opening hnode
  obtain ⟨b, ls, hshape'⟩ := shape_of_opening hnode'
  have hks := (hx x (mem_nodes_self x)).shape hshape
  have hls := (hy y (mem_nodes_self y)).shape hshape'
  have hchildren : ∀ z ∈ x.children, z.IsNamed defaults := fun z hz =>
    hx z (nodes_subset hz (mem_nodes_self z))
  have hchildren' : ∀ z ∈ y.children, z.IsNamed defaults := fun z hz =>
    hy z (nodes_subset hz (mem_nodes_self z))
  have hbytes {a : Shape} {ks : List Text} {x : Script} (hshape : x.shape? = some (a, ks))
      (r : List UInt8) : x.dump.bytes ++ r = 0x28 :: (a.word.bytes ++
        ((a.labelText ks).bytes ++ ((operandText x.children).bytes ++ 0x29 :: r))) := by
    rw [dump_of_shape hshape]
    simp only [Text.bytes_append, List.append_assoc]
    rfl
  have hends {a : Shape} (ks : List Text) {r : List UInt8} (hr : EndsLabels r) :
      EndsWord ((a.labelText ks).bytes ++ r) := by
    cases a with
    | object =>
      cases ks with
      | nil => exact hr.1
      | cons k ks => exact .space _
    | function | arrow => exact .space _
    | _ => exact hr.1
  have hlabels := endsLabels_operandText hchildren r
  have hlabels' := endsLabels_operandText hchildren' s
  rw [hbytes hshape, hbytes hshape'] at h
  obtain ⟨hword, hrest⟩ := (Shape.isWord_word hks).append_inj (Shape.isWord_word hls)
    (hends ks hlabels) (hends ls hlabels') (List.cons.inj h).2
  obtain rfl := Shape.word_inj (Text.ext hword)
  obtain ⟨rfl, hoperands⟩ := labels_append_inj hks hls hlabels hlabels' hrest
  obtain ⟨hmap, rfl⟩ := operands_append_inj hdistinct
    (fun z hz w hw => hy w (nodes_subset hz hw)) hoperands
  exact ⟨by rw [bare_of_shape hshape, bare_of_shape hshape', hmap], rfl⟩

/-- Scripts are told apart by their texts, whatever follows them. -/
theorem dump_append_inj (x : Script) (hx : ∀ z ∈ x.nodes, z.IsNamed defaults) :
    x.Distinct defaults := by
  induction x using induct_parts with
  | h x ih =>
    intro y r s hy hr hs h
    have hopening := opening_eq_of_dump (hx x (mem_nodes_self x)) (hy y (mem_nodes_self y)) h
    have hnamed := hx x (mem_nodes_self x)
    have hnamed' := hy y (mem_nodes_self y)
    cases hcase : x.opening with
    | name =>
      cases x <;> try cases hcase
      cases y <;> try cases hopening
      rename_i m n m' n'
      rw [dump_eq (ident m n), dump_eq (ident m' n')] at h
      obtain ⟨hname, hrest⟩ := (isWord_of_isIdentifier hnamed).append_inj
        (isWord_of_isIdentifier hnamed') hr hs h
      obtain rfl : n = n' := Text.ext hname
      exact ⟨rfl, hrest⟩
    | literal =>
      cases x <;> try cases hcase
      cases y <;> try cases hopening
      rename_i m v m' w
      rw [dump_eq (literal m v), dump_eq (literal m' w)] at h
      obtain ⟨rfl, hrest⟩ := Literal.dump_append_inj hr hs h
      exact ⟨rfl, hrest⟩
    | symbol =>
      cases x <;> try cases hcase
      cases y <;> try cases hopening
      rename_i m n d m' n' d'
      have hbytes (m : Marks) (n : Text) (d : Option Script) (r : List UInt8) :
          (symbol m n d).dump.bytes ++ r = 0x7B :: 0x7B :: (n.bytes ++ 0x7D :: 0x7D :: r) := by
        rw [dump_eq (symbol m n d)]
        show 0x7B :: 0x7B :: (n.bytes ++ [0x7D, 0x7D] ++ r) = _
        rw [List.append_assoc]
        rfl
      rw [hbytes, hbytes] at h
      obtain ⟨hname, hrest⟩ := Text.append_cons_inj hnamed.1 hnamed'.1
        (List.cons.inj (List.cons.inj h).2).2
      obtain rfl : n = n' := Text.ext hname
      have hdefault : d.map bare = d'.map bare := hnamed.2.trans hnamed'.2.symm
      refine ⟨?_, (List.cons.inj hrest).2⟩
      have hbare (m : Marks) (d : Option Script) :
          (symbol m n d).bare = .symbol {} n (d.map bare) := by cases d <;> rfl
      rw [hbare, hbare, hdefault]
    | node =>
      refine node_append_inj hx hy (fun z hz => ih z ?_ fun w hw => hx w (nodes_subset hz hw)) hcase
        (hopening ▸ hcase) h
      cases x <;> first | exact hz | cases hz

/-- Scripts with the same text differ in marks alone. -/
theorem bare_eq_of_dump_eq (hx : ∀ z ∈ x.nodes, z.IsNamed defaults)
    (hy : ∀ z ∈ y.nodes, z.IsNamed defaults) (h : x.dump = y.dump) : x.bare = y.bare :=
  (dump_append_inj x hx y _ _ hy (.close []) (.close []) (by rw [h])).1

/-! ## Structure alone -/

/-- The node without its marks and without the script that it stands for. -/
def plain : Script → Script
  | .symbol _ n _ => .symbol {} n none
  | s => s.setMarks {}

/-- The script without marks, and with symbols that stand for nothing. -/
def skeleton : Script → Script := transform plain

/-- The names at the node are identifiers, and that of a symbol has no closing brace. -/
def IsSpelled : Script → Prop
  | .ident _ n | .member _ _ n => n.isIdentifier = true
  | .symbol _ n _ => 0x7D ∉ n.bytes
  | .function _ ps _ | .arrow _ ps _ => ∀ p ∈ ps, p.isIdentifier = true
  | _ => True

theorem skeleton_reshaped (x : Script) :
    ∃ out, Reshaped x (x.children.map skeleton) out ∧ x.skeleton = out.plain :=
  ⟨_, reshaped (by simp), by rw [skeleton, transform, fold_eq]⟩

theorem Reshaped.children_plain {out : Script} (h : Reshaped x xs out) :
    out.plain.children = xs := by
  cases h <;> rfl

theorem dump_skeleton (x : Script) : x.skeleton.dump = x.dump := by
  induction x using induct_children with
  | h x ih =>
    obtain ⟨out, hout, hx⟩ := skeleton_reshaped x
    have hhead : out.plain.isLeaf = x.isLeaf ∧ out.plain.head = x.head := by
      generalize x.children.map skeleton = xs at hout
      cases hout with
      | @object m ps qs hkeys =>
        have hword (m : Marks) (ps : Record Script) := (head_of_shape (x := .object m ps) rfl).2
        exact ⟨rfl, by rw [hword m ps, ← hkeys]; exact hword {} qs⟩
      | _ => exact ⟨rfl, rfl⟩
    have hoperands : operandText (x.children.map skeleton) = operandText x.children := by
      rw [operandText, List.map_map]
      exact congrArg Text.concat (List.map_congr_left fun y hy => congrArg _ (ih y hy))
    rw [hx, dump_eq, dump_eq x, hhead.1, hhead.2, hout.children_plain, hoperands]

theorem bare_skeleton (x : Script) : x.skeleton.bare = x.skeleton := by
  induction x using induct_children with
  | h x ih =>
    obtain ⟨out, hout, hx⟩ := skeleton_reshaped x
    have hkids : ∀ y ∈ x.children.map skeleton, y.bare = y := by simpa using ih
    rw [hx]
    generalize x.children.map skeleton = xs at hout hkids
    have hmap : xs.map bare = xs := (List.map_congr_left hkids).trans (List.map_id' xs)
    cases hout with
    | @object m ps qs hkeys =>
      have hprops : qs.map (fun p => (p.1, p.2.bare)) = qs :=
        (List.map_congr_left fun p hp => by rw [hkids p.2 (List.mem_map_of_mem hp)]).trans
          (List.map_id' qs)
      simp only [plain, setMarks, bare, bareProps_eq_map, hprops]
    | array | sequence => simp only [plain, setMarks, bare, bareList_eq_map, hmap]
    | _ =>
      simp only [List.map_cons, List.map_nil, List.cons.injEq] at hmap
      simp only [plain, setMarks, bare, bareList_eq_map, hmap]

theorem skeleton_named (hx : ∀ z ∈ x.nodes, z.IsSpelled) :
    ∀ z ∈ x.skeleton.nodes, z.IsNamed fun _ => none := by
  induction x using induct_children with
  | h x ih =>
    obtain ⟨out, hout, hskeleton⟩ := skeleton_reshaped x
    rw [forall_mem_nodes] at hx
    rw [hskeleton, forall_mem_nodes, hout.children_plain]
    refine ⟨?_, fun y hy => ?_⟩
    · have hnode := hx.1
      generalize x.children.map skeleton = xs at hout
      cases hout <;> trivial
    · obtain ⟨z, hz, rfl⟩ := List.mem_map.1 hy
      exact ih z hz (hx.2 z hz)

/-- Scripts have the same structural text if and only if they have the same structure, apart from
their marks and from what their symbols stand for. -/
theorem dump_eq_dump_iff (hx : ∀ z ∈ x.nodes, z.IsSpelled) (hy : ∀ z ∈ y.nodes, z.IsSpelled) :
    x.dump = y.dump ↔ x.skeleton = y.skeleton := by
  constructor
  · intro h
    rw [← bare_skeleton x, ← bare_skeleton y]
    refine bare_eq_of_dump_eq (skeleton_named hx) (skeleton_named hy) ?_
    rw [dump_skeleton, dump_skeleton, h]
  · intro h
    rw [← dump_skeleton x, ← dump_skeleton y, h]

/-- A member of a symbol, where the symbol has a default and where it has none. -/
theorem dump_eq_dump_iff_symbol : let x : Script := .member {} (.symbol {} "row" (some null)) "name"
    let y : Script := .member { notNull := true } (.symbol {} "row" none) "name"
    ((∀ z ∈ x.nodes, z.IsSpelled) ∧ ∀ z ∈ y.nodes, z.IsSpelled) ∧ x.dump = y.dump := by
  intro x y
  have hspelled (m : Marks) (d : Option Script) :
      ∀ z ∈ (member m (.symbol {} "row" d) "name").nodes, z.IsSpelled := by
    have hname : ("name" : Text).isIdentifier = true := by decide +kernel
    have hrow : 0x7D ∉ ("row" : Text).bytes := by decide
    simp [nodes, fold, IsSpelled, hname, hrow]
  exact ⟨⟨hspelled _ _, hspelled _ _⟩, (dump_eq_dump_iff (hspelled _ _) (hspelled _ _)).2 rfl⟩

end Script

end Bindery
