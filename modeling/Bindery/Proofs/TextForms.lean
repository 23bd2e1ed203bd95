import Bindery.Text
import Mathlib.Data.List.Forall2

/-!
# Texts that are told apart

Characters and numbers can be read back from their texts, and the order of texts is total.
-/

namespace Bindery.Text

/-- Two lists are divided at the first place where an element that satisfies `p` stands. -/
theorem append_stop_inj {α : Type} {p : α → Prop} {xs ys r s : List α} (hx : ∀ x ∈ xs, ¬ p x)
    (hy : ∀ y ∈ ys, ¬ p y) (hr : ∀ x ∈ r.head?, p x) (hs : ∀ x ∈ s.head?, p x)
    (h : xs ++ r = ys ++ s) : xs = ys ∧ r = s := by
  induction xs generalizing ys with
  | nil =>
    cases ys with
    | nil => exact ⟨rfl, h⟩
    | cons y ys =>
      rw [List.nil_append] at h
      exact absurd (hr y (by simp [h])) (hy y List.mem_cons_self)
  | cons x xs ih =>
    cases ys with
    | nil =>
      rw [List.nil_append] at h
      exact absurd (hs x (by simp [← h])) (hx x List.mem_cons_self)
    | cons y ys =>
      obtain ⟨rfl, htail⟩ := List.cons.inj h
      obtain ⟨rfl, hrest⟩ := ih (fun z hz => hx z (List.mem_cons_of_mem _ hz))
        (fun z hz => hy z (List.mem_cons_of_mem _ hz)) htail
      exact ⟨rfl, hrest⟩

theorem append_cons_inj {α : Type} {a : α} {xs ys r s : List α} (hx : a ∉ xs) (hy : a ∉ ys)
    (h : xs ++ a :: r = ys ++ a :: s) : xs = ys ∧ r = s := by
  have hfirst {r : List α} : ∀ x ∈ (a :: r).head?, x = a := fun x hx => (Option.some.inj hx).symm
  obtain ⟨rfl, hrest⟩ := append_stop_inj (p := (· = a)) (fun x hm heq => hx (heq ▸ hm))
    (fun y hm heq => hy (heq ▸ hm)) hfirst hfirst h
  exact ⟨rfl, (List.cons.inj hrest).2⟩

/-- Two lists are divided at the last place where `a` stands. -/
theorem append_cons_inj_last {α : Type} {a : α} {xs ys r s : List α} (hr : a ∉ r) (hs : a ∉ s)
    (h : xs ++ a :: r = ys ++ a :: s) : xs = ys ∧ r = s := by
  have hrev : r.reverse ++ a :: xs.reverse = s.reverse ++ a :: ys.reverse := by
    simpa using congrArg List.reverse h
  obtain ⟨hrest, hfront⟩ := append_cons_inj (fun hm => hr (List.mem_reverse.1 hm))
    (fun hm => hs (List.mem_reverse.1 hm)) hrev
  exact ⟨List.reverse_inj.1 hfront, List.reverse_inj.1 hrest⟩

theorem append_right_inj {a b c : Text} : a ++ b = a ++ c ↔ b = c := by
  simp [Text.ext_iff]

theorem ofChars_inj {cs ds : Chars} (h : ofChars cs = ofChars ds) : cs = ds := by
  have hbytes : cs.utf8Encode = ds.utf8Encode := by
    simpa [List.utf8Encode, ofChars] using congrArg List.toByteArray (congrArg Text.bytes h)
  simpa using congrArg ByteArray.utf8Decode? hbytes

theorem ofNat_inj {m n : Nat} (h : ofNat m = ofNat n) : m = n := by
  rw [← Nat.ofDigitChars_ten_toDigits (n := m), ofChars_inj h, Nat.ofDigitChars_ten_toDigits]

theorem utf8_of_isDigit {d : Char} (hd : d.isDigit) :
    String.utf8EncodeChar d = [d.val.toUInt8] ∧ 0x30 ≤ d.val.toUInt8 ∧ d.val.toUInt8 ≤ 0x39 := by
  simp only [Char.isDigit, Bool.and_eq_true, decide_eq_true_eq] at hd
  have hlow : 48 ≤ d.val.toNat := by simpa [UInt32.le_iff_toNat_le] using hd.1
  have hhigh : d.val.toNat ≤ 57 := by simpa [UInt32.le_iff_toNat_le] using hd.2
  refine ⟨String.utf8EncodeChar_eq_singleton ?_, ?_, ?_⟩
  · rw [Char.utf8Size_eq_one_iff, UInt32.le_iff_toNat_le]
    exact Nat.le_trans hhigh (by decide)
  · have : (0x30 : UInt8).toNat = 48 := rfl
    rw [UInt8.le_iff_toNat_le, UInt32.toNat_toUInt8]
    omega
  · have : (0x39 : UInt8).toNat = 57 := rfl
    rw [UInt8.le_iff_toNat_le, UInt32.toNat_toUInt8]
    omega

theorem bytes_ofNat {n : Nat} {b : UInt8} (hb : b ∈ (ofNat n).bytes) : 0x30 ≤ b ∧ b ≤ 0x39 := by
  obtain ⟨d, hd, hb⟩ := List.mem_flatMap.1 hb
  obtain ⟨hone, hrange⟩ := utf8_of_isDigit (Nat.isDigit_of_mem_toDigits (by decide) (by decide) hd)
  rw [hone] at hb
  obtain rfl := List.mem_singleton.1 hb
  exact hrange

theorem bytes_ofNat_ne_nil (n : Nat) : (ofNat n).bytes ≠ [] := by
  have hdigits := Nat.toDigits_ne_nil (n := n) (b := 10)
  cases hds : Nat.toDigits 10 n with
  | nil => exact absurd hds hdigits
  | cons c cs => simp [ofNat, ofChars, hds]

theorem ofInt_inj {m n : Int} (h : ofInt m = ofInt n) : m = n := by
  have hminus : ∀ {m n : Nat}, ofNat m ≠ "-" ++ ofNat n := by
    intro m n h
    have hb : 0x2D ∈ (ofNat m).bytes := by
      rw [h]
      exact List.mem_cons_self
    exact absurd (bytes_ofNat hb).1 (by decide)
  cases m with
  | ofNat m =>
    cases n with
    | ofNat n => rw [ofNat_inj h]
    | negSucc n => exact absurd h hminus
  | negSucc m =>
    cases n with
    | ofNat n => exact absurd h.symm hminus
    | negSucc n =>
      have := ofNat_inj (append_right_inj.1 h)
      congr 1
      omega

@[simp] theorem ofChars_append (cs ds : Chars) : ofChars (cs ++ ds) = ofChars cs ++ ofChars ds := by
  ext1
  simp [ofChars]

theorem replicate_eq_ofChars (n : Nat) {c : Char} (hc : c.utf8Size = 1) :
    replicate n c = ofChars (List.replicate n c) := by
  ext1
  simp only [replicate, ofChars]
  induction n with
  | zero => rfl
  | succ n ih =>
    rw [List.replicate_succ, List.replicate_succ, List.flatMap_cons, ← ih,
      String.utf8EncodeChar_eq_singleton hc]
    rfl

theorem length_ofNat (n : Nat) : (ofNat n).length = (Nat.toDigits 10 n).length := by
  have hone : ∀ c ∈ Nat.toDigits 10 n, (String.utf8EncodeChar c).length = 1 := by
    intro c hc
    rw [(utf8_of_isDigit (Nat.isDigit_of_mem_toDigits (by decide) (by decide) hc)).1]
    rfl
  simp only [length, ofNat, ofChars, List.length_flatMap]
  rw [List.map_congr_left hone]
  simp

/-! ## Parts of texts -/

theorem dropLead_eq_some_iff {bs p r : List UInt8} : dropLead bs p = some r ↔ bs = p ++ r := by
  induction p generalizing bs with
  | nil => cases bs <;> simp [dropLead]
  | cons b p ih =>
    cases bs with
    | nil => simp [dropLead]
    | cons b' bs =>
      by_cases h : b' = b
      · simp [dropLead, h, ih]
      · simp [dropLead, h]

theorem dropEnd?_eq_some_iff {t s r : Text} : t.dropEnd? s = some r ↔ t = r ++ s := by
  rw [dropEnd?, Option.map_eq_some_iff, Text.ext_iff, bytes_append]
  constructor
  · rintro ⟨bs, hbs, rfl⟩
    rw [← List.reverse_inj, dropLead_eq_some_iff.1 hbs, List.reverse_append, List.reverse_reverse]
  · intro h
    refine ⟨r.bytes.reverse, dropLead_eq_some_iff.2 ?_, Text.ext (List.reverse_reverse _)⟩
    rw [h, List.reverse_append]

theorem bytes_of_cutBytes {sep bs before after : List UInt8}
    (h : cutBytes sep bs = some (before, after)) : bs = before ++ (sep ++ after) := by
  induction bs generalizing before with
  | nil =>
    rw [cutBytes] at h
    split at h
    · rename_i hsep
      obtain ⟨rfl, rfl⟩ := Prod.mk.inj (Option.some.inj h)
      rw [List.isEmpty_iff.1 hsep]
      rfl
    · cases h
  | cons b bs ih =>
    rw [cutBytes] at h
    split at h
    · rename_i rest hdrop
      obtain ⟨rfl, rfl⟩ := Prod.mk.inj (Option.some.inj h)
      exact (dropLead_eq_some_iff.1 hdrop).trans (List.nil_append _).symm
    · obtain ⟨⟨before', after'⟩, hcut, heq⟩ := Option.map_eq_some_iff.1 h
      obtain ⟨rfl, rfl⟩ := Prod.mk.inj heq
      rw [List.cons_append, ← ih hcut]

theorem length_of_cut? {t sep before after : Text} (h : t.cut? sep = some (before, after)) :
    after.length ≤ t.length := by
  obtain ⟨⟨bs, cs⟩, hcut, heq⟩ := Option.map_eq_some_iff.1 h
  obtain ⟨rfl, rfl⟩ := Prod.mk.inj heq
  have hbytes := congrArg List.length (bytes_of_cutBytes hcut)
  simp only [List.length_append] at hbytes
  simp only [length]
  omega

theorem length_append (s t : Text) : (s ++ t).length = s.length + t.length :=
  List.length_append

theorem isEmpty_append_of_right {s t : Text} (h : t.isEmpty = false) :
    (s ++ t).isEmpty = false := by
  simp_all [isEmpty]

/-! ## Lists -/

/-- The rest of a list begins after one of its items: with a comma or with the end mark. -/
def FollowsItem (stop : UInt8) (r : List UInt8) : Prop := ∀ b ∈ r.head?, b = 0x2C ∨ b = stop

section Join

variable {α : Type} {f : α → Text} {R : α → α → Prop} {stop : UInt8}

theorem join_cons_bytes (x : α) (xs : List α) (r : List UInt8) :
    (join "," ((x :: xs).map f)).bytes ++ r =
      (f x).bytes ++ match xs with
        | [] => r
        | x' :: xs => 0x2C :: ((join "," ((x' :: xs).map f)).bytes ++ r) := by
  have hcomma : ("," : Text).bytes = [0x2C] := rfl
  cases xs with
  | nil => rfl
  | cons x' xs => simp [join, hcomma]

/-- Items with commas between them are read back in front of the end mark, if each of them is read
back and none begins with the end mark. -/
theorem join_append_inj {xs ys : List α} (hstop : stop ≠ 0x2C)
    (hopen : ∀ x, x ∈ xs ∨ x ∈ ys → ∃ b bs, (f x).bytes = b :: bs ∧ b ≠ stop)
    (hitem : ∀ x ∈ xs, ∀ y ∈ ys, ∀ r s, FollowsItem stop r → FollowsItem stop s →
      (f x).bytes ++ r = (f y).bytes ++ s → R x y ∧ r = s) {r s : List UInt8}
    (h : (join "," (xs.map f)).bytes ++ stop :: r = (join "," (ys.map f)).bytes ++ stop :: s) :
    List.Forall₂ R xs ys ∧ r = s := by
  have follows (zs : List α) (r : List UInt8) : FollowsItem stop (match zs with
      | [] => stop :: r
      | z :: zs => 0x2C :: ((join "," ((z :: zs).map f)).bytes ++ stop :: r)) := by
    cases zs with
    | nil => exact fun b hb => .inr (Option.some.inj hb).symm
    | cons z zs => exact fun b hb => .inl (Option.some.inj hb).symm
  induction xs generalizing ys with
  | nil =>
    cases ys with
    | nil => exact ⟨.nil, (List.cons.inj h).2⟩
    | cons y ys =>
      obtain ⟨b, bs, hy, hb⟩ := hopen y (.inr List.mem_cons_self)
      rw [join_cons_bytes, hy] at h
      exact absurd (List.cons.inj h).1.symm hb
  | cons x xs ih =>
    cases ys with
    | nil =>
      obtain ⟨b, bs, hx, hb⟩ := hopen x (.inl List.mem_cons_self)
      rw [join_cons_bytes, hx] at h
      exact absurd (List.cons.inj h).1 hb
    | cons y ys =>
      rw [join_cons_bytes, join_cons_bytes] at h
      obtain ⟨hxy, hrest⟩ := hitem x List.mem_cons_self y List.mem_cons_self _ _ (follows xs r)
        (follows ys s) h
      -- Either both lists end here or both go on with a comma.
      cases xs with
      | nil =>
        cases ys with
        | nil => exact ⟨.cons hxy .nil, (List.cons.inj hrest).2⟩
        | cons y' ys => exact absurd (List.cons.inj hrest).1 hstop
      | cons x' xs =>
        cases ys with
        | nil => exact absurd (List.cons.inj hrest).1.symm hstop
        | cons y' ys =>
          obtain ⟨hall, hr⟩ := @ih (y' :: ys)
            (fun z hz => hopen z (hz.imp (List.mem_cons_of_mem x) (List.mem_cons_of_mem y)))
            (fun z hz w hw => hitem z (List.mem_cons_of_mem x hz) w (List.mem_cons_of_mem y hw))
            (List.cons.inj hrest).2
          exact ⟨.cons hxy hall, hr⟩

theorem mem_join {sep : Text} {ts : List Text} {b : UInt8} (h : b ∈ (join sep ts).bytes) :
    b ∈ sep.bytes ∨ ∃ t ∈ ts, b ∈ t.bytes := by
  induction ts with
  | nil => exact absurd h List.not_mem_nil
  | cons t ts ih =>
    cases ts with
    | nil => exact .inr ⟨t, List.mem_cons_self, h⟩
    | cons u ts =>
      rw [join, bytes_append, bytes_append] at h
      rcases List.mem_append.1 h with h | h
      · rcases List.mem_append.1 h with h | h
        · exact .inr ⟨t, List.mem_cons_self, h⟩
        · exact .inl h
      · exact (ih h).imp_right fun ⟨v, hv, hb⟩ => ⟨v, List.mem_cons_of_mem t hv, hb⟩

end Join

/-! ## The order of texts -/

theorem le_total (a b : Text) : (a.le b || b.le a) := by
  have h (as bs : List UInt8) : compareBytes as bs ≠ .gt ∨ compareBytes bs as ≠ .gt := by
    induction as generalizing bs with
    | nil => cases bs <;> simp [compareBytes]
    | cons a as ih =>
      cases bs with
      | nil => simp [compareBytes]
      | cons b bs =>
        simp only [compareBytes]
        by_cases hab : a < b
        · simp [hab]
        · by_cases hba : b < a
          · simp [hba]
          · simpa [hab, hba] using ih bs
  simpa [le, compare] using h a.bytes b.bytes

theorem le_trans {a b c : Text} (hab : a.le b) (hbc : b.le c) : a.le c := by
  have h (as bs cs : List UInt8) : compareBytes as bs ≠ .gt → compareBytes bs cs ≠ .gt →
      compareBytes as cs ≠ .gt := by
    induction as generalizing bs cs with
    | nil => cases cs <;> simp [compareBytes]
    | cons a as ih =>
      cases bs with
      | nil => simp [compareBytes]
      | cons b bs =>
        cases cs with
        | nil => simp [compareBytes]
        | cons c cs =>
          simp only [compareBytes, UInt8.lt_iff_toNat_lt]
          have := ih bs cs
          grind
  simp only [le, compare, bne_iff_ne] at *
  exact h _ _ _ hab hbc

end Bindery.Text
