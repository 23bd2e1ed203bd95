import Bindery.Identity
import Bindery.Proofs.TextForms
import Mathlib.Data.List.Forall2

/-!
# Canonical texts tell identities apart

`Identity.canonical_eq_iff` says that two identities have the same canonical text exactly if they
agree in index, code and property and their scopes are alike level by level. Only the code may
contain the separator; the names in the scopes are free of the marks that a description is made
with.

The text is taken apart from its end. The property is what follows the last separator: a later
occurrence would overlap the separator, so a bar would stand before it, where a description or an
earlier separator ends in a space. The description has no bar, so it is what follows the last bar
before it. The index has no space.
-/

namespace Bindery

/-! ## Names -/

namespace Text

/-- The marks that descriptions of scopes are made with: a bar, parentheses, a semicolon, a colon,
an equals sign, an asterisk and a space. -/
def delimiters : List UInt8 := [0x7C, 0x28, 0x29, 0x3B, 0x3A, 0x3D, 0x2A, 0x20]

def Undelimited (t : Text) : Prop := ∀ b ∈ t.bytes, b ∉ delimiters

def Single (t : Text) : Prop := ∀ b ∈ t.bytes, b ∉ 0x2C :: delimiters

instance (t : Text) : Decidable t.Undelimited := List.decidableBAll _ t.bytes

instance (t : Text) : Decidable t.Single := List.decidableBAll _ t.bytes

theorem Undelimited.not_mem {t : Text} (h : t.Undelimited) {b : UInt8} (hb : b ∈ delimiters) :
    b ∉ t.bytes := fun hmem => h b hmem hb

theorem Single.not_mem {t : Text} (h : t.Single) {b : UInt8} (hb : b ∈ 0x2C :: delimiters) :
    b ∉ t.bytes := fun hmem => h b hmem hb

theorem contains_of_bytes {t part : Text} {a b : List UInt8}
    (h : t.bytes = a ++ (part.bytes ++ b)) : t.contains part := by
  have hcut : (cutBytes part.bytes (a ++ (part.bytes ++ b))).isSome := by
    clear h
    induction a with
    | nil =>
      have hdrop := dropLead_eq_some_iff.2 (Eq.refl (part.bytes ++ b))
      rw [List.nil_append]
      cases hbs : part.bytes ++ b with
      | nil =>
        obtain ⟨hpart, -⟩ := List.append_eq_nil_iff.1 hbs
        simp [cutBytes, hpart]
      | cons c cs =>
        rw [hbs] at hdrop
        simp [cutBytes, hdrop]
    | cons c a ih =>
      rw [List.cons_append]
      simp only [cutBytes]
      split
      · rfl
      · simpa using ih
  rw [contains, h]
  exact hcut

/-! ## Lists -/

section Join

variable {α : Type} {f : α → Text} {R : α → α → Prop}

theorem map_eq_of_forall₂ {xs ys : List α} (h : List.Forall₂ R xs ys)
    (hf : ∀ x y, R x y → f x = f y) : xs.map f = ys.map f := by
  induction h with
  | nil => rfl
  | cons hxy _ ih => rw [List.map_cons, List.map_cons, hf _ _ hxy, ih]

theorem bar_not_mem_join {xs : List α} (h : ∀ x ∈ xs, (0x7C : UInt8) ∉ (f x).bytes) :
    (0x7C : UInt8) ∉ (join "," (xs.map f)).bytes := by
  intro hmem
  rcases mem_join hmem with hmem | ⟨t, ht, hmem⟩
  · exact absurd hmem (by decide)
  · obtain ⟨x, hx, rfl⟩ := List.mem_map.1 ht
    exact h x hx hmem

end Join

end Text

/-! ## Scopes -/

namespace Param

/-- The parameters have the same name, the same name of their type, and are of the same kind. -/
structure Alike (p q : Param) : Prop where
  name : p.name = q.name
  type : p.type.name = q.type.name
  inherit : p.inherit = q.inherit
  kind : p.kind = q.kind

/-- The names of the parameter can be told from the rest of its description. -/
structure Legible (p : Param) : Prop where
  name : p.name.Single
  type : p.type.name.Undelimited

end Param

namespace Level

/-- The levels have the same name of their data type, the same imports and alike parameters. -/
structure Alike (l k : Level) : Prop where
  dataType : l.dataType.name = k.dataType.name
  imports : l.imports = k.imports
  params : List.Forall₂ Param.Alike l.params k.params

/-- The names of the level can be told from the rest of its description. -/
structure Legible (l : Level) : Prop where
  dataType : l.dataType.name.Undelimited
  imports : ∀ i ∈ l.imports, i.label.Single ∧ i.ns.Single
  params : ∀ p ∈ l.params, p.Legible

end Level

namespace Scope

def Alike (s t : Scope) : Prop := List.Forall₂ Level.Alike s.levels t.levels

def Legible (s : Scope) : Prop := ∀ l ∈ s.levels, l.Legible

end Scope

/-- No kind's text begins another's. -/
theorem ParamKind.text_append_inj {k k' : ParamKind} {r s : List UInt8}
    (h : k.text.bytes ++ r = k'.text.bytes ++ s) : k = k' ∧ r = s := by
  have hcustom : ParamKind.custom.text.bytes = [67, 117, 115, 116, 111, 109] := rfl
  have hindex : ParamKind.index.text.bytes =
      [67, 117, 114, 114, 101, 110, 116, 67, 111, 108, 108, 101, 99, 116, 105, 111, 110, 73,
        110, 100, 101, 120] := rfl
  have hcontrol : ParamKind.control.text.bytes =
      [67, 117, 114, 114, 101, 110, 116, 67, 111, 110, 116, 114, 111, 108] := rfl
  have hcollection : ParamKind.collection.text.bytes =
      [67, 111, 108, 108, 101, 99, 116, 105, 111, 110] := rfl
  cases k <;> cases k' <;> simp_all

namespace Scope

variable {p q : Param} {l k : Level} {r s : List UInt8}

theorem describeParam_bytes (p : Param) (r : List UInt8) : (describeParam p).bytes ++ r =
    (p.name.bytes ++ if p.inherit then [0x2A] else []) ++
      0x3A :: (p.type.name.bytes ++ 0x3A :: (p.kind.text.bytes ++ r)) := by
  have hstar : ("*" : Text).bytes = [0x2A] := rfl
  have hcolon : (":" : Text).bytes = [0x3A] := rfl
  have hempty : ("" : Text).bytes = [] := rfl
  cases hp : p.inherit <;> simp [describeParam, hp, hstar, hcolon, hempty]

theorem describeParam_append_inj (hp : p.Legible) (hq : q.Legible)
    (h : (describeParam p).bytes ++ r = (describeParam q).bytes ++ s) : p.Alike q ∧ r = s := by
  have hcolon {p : Param} (hp : p.Legible) :
      (0x3A : UInt8) ∉ p.name.bytes ++ if p.inherit then [0x2A] else [] := by
    have := hp.name.not_mem (b := 0x3A) (by decide)
    cases p.inherit <;> simpa
  have hstar {p : Param} (hp : p.Legible) : (0x2A : UInt8) ∉ p.name.bytes :=
    hp.name.not_mem (by decide)
  rw [describeParam_bytes, describeParam_bytes] at h
  obtain ⟨hname, h⟩ := Text.append_cons_inj (hcolon hp) (hcolon hq) h
  obtain ⟨htype, h⟩ := Text.append_cons_inj (hp.type.not_mem (by decide))
    (hq.type.not_mem (by decide)) h
  obtain ⟨hkind, hr⟩ := ParamKind.text_append_inj h
  -- The asterisk is no part of a name.
  have hboth : p.name = q.name ∧ p.inherit = q.inherit := by
    have hp' := hstar hp
    have hq' := hstar hq
    cases hpi : p.inherit <;> cases hqi : q.inherit <;> simp only [hpi, hqi] at hname
    · exact ⟨Text.ext (by simpa using hname), rfl⟩
    · exact absurd (by simp [show p.name.bytes = q.name.bytes ++ [0x2A] by simpa using hname]) hp'
    · exact absurd (by simp [show q.name.bytes = p.name.bytes ++ [0x2A] by simpa using hname.symm])
        hq'
    · exact ⟨Text.ext (by simpa using hname), rfl⟩
  exact ⟨⟨hboth.1, Text.ext htype, hboth.2, hkind⟩, hr⟩

theorem describeParam_opening (hp : p.Legible) :
    ∃ b bs, (describeParam p).bytes = b :: bs ∧ b ≠ 0x29 := by
  have hbytes := describeParam_bytes p []
  rw [List.append_nil] at hbytes
  have hnot := hp.name.not_mem (b := 0x29) (by decide)
  cases hname : p.name.bytes with
  | nil =>
    rw [hname] at hbytes
    cases hi : p.inherit with
    | false | true => exact ⟨_, _, by rw [hbytes, hi]; rfl, by decide⟩
  | cons b bs =>
    rw [hname] at hbytes hnot
    exact ⟨_, _, by rw [hbytes]; rfl, fun heq => hnot (heq ▸ List.mem_cons_self)⟩

def describeImport (i : Import) : Text := i.label ++ "=" ++ i.ns

theorem describeImport_bytes (i : Import) (r : List UInt8) :
    (describeImport i).bytes ++ r = i.label.bytes ++ 0x3D :: (i.ns.bytes ++ r) := by
  have hequals : ("=" : Text).bytes = [0x3D] := rfl
  simp [describeImport, hequals]

theorem describeImport_append_inj {i j : Import} (hi : i.label.Single ∧ i.ns.Single)
    (hj : j.label.Single ∧ j.ns.Single) (hr : Text.FollowsItem 0x3B r)
    (hs : Text.FollowsItem 0x3B s)
    (h : (describeImport i).bytes ++ r = (describeImport j).bytes ++ s) : i = j ∧ r = s := by
  have hns {t : Text} (ht : t.Single) : ∀ b ∈ t.bytes, ¬ (b = 0x2C ∨ b = 0x3B) := by
    rintro b hb (rfl | rfl)
    · exact ht.not_mem (by decide) hb
    · exact ht.not_mem (by decide) hb
  rw [describeImport_bytes, describeImport_bytes] at h
  obtain ⟨hlabel, h⟩ := Text.append_cons_inj (hi.1.not_mem (by decide)) (hj.1.not_mem (by decide)) h
  obtain ⟨hspace, hrest⟩ := Text.append_stop_inj (hns hi.2) (hns hj.2) hr hs h
  cases i
  cases j
  obtain rfl := Text.ext hlabel
  obtain rfl := Text.ext hspace
  exact ⟨rfl, hrest⟩

theorem describeImport_opening {i : Import} (hi : i.label.Single) :
    ∃ b bs, (describeImport i).bytes = b :: bs ∧ b ≠ 0x3B := by
  have hbytes := describeImport_bytes i []
  rw [List.append_nil] at hbytes
  have hnot := hi.not_mem (b := 0x3B) (by decide)
  cases hlabel : i.label.bytes with
  | nil => exact ⟨_, _, by rw [hbytes, hlabel]; rfl, by decide⟩
  | cons b bs =>
    rw [hlabel] at hnot
    exact ⟨_, _, by rw [hbytes, hlabel]; rfl, fun heq => hnot (heq ▸ List.mem_cons_self)⟩

theorem describeLevel_bytes (l : Level) (r : List UInt8) : (describeLevel l).bytes ++ r =
    l.dataType.name.bytes ++ 0x28 :: ((Text.join "," (l.imports.map describeImport)).bytes ++
      0x3B :: ((Text.join "," (l.params.map describeParam)).bytes ++
        0x29 :: 0x20 :: 0x2D :: 0x2D :: 0x20 :: r)) := by
  have hopen : ("(" : Text).bytes = [0x28] := rfl
  have hsemicolon : (";" : Text).bytes = [0x3B] := rfl
  have hclose : (") -- " : Text).bytes = [0x29, 0x20, 0x2D, 0x2D, 0x20] := rfl
  have himports : describeImport = fun i : Import => i.label ++ ("=" : Text) ++ i.ns := rfl
  simp [describeLevel, himports, hopen, hsemicolon, hclose]

theorem describeLevel_append_inj (hl : l.Legible) (hk : k.Legible)
    (h : (describeLevel l).bytes ++ r = (describeLevel k).bytes ++ s) : l.Alike k ∧ r = s := by
  rw [describeLevel_bytes, describeLevel_bytes] at h
  obtain ⟨htype, h⟩ := Text.append_cons_inj (hl.dataType.not_mem (by decide))
    (hk.dataType.not_mem (by decide)) h
  obtain ⟨himports, h⟩ := Text.join_append_inj (R := (· = ·)) (by decide)
    (fun i hi => describeImport_opening (hi.elim (hl.imports i) (hk.imports i)).1)
    (fun i hi j hj r s hr hs => describeImport_append_inj (hl.imports i hi) (hk.imports j hj) hr hs)
      h
  obtain ⟨hparams, h⟩ := Text.join_append_inj (R := Param.Alike) (by decide)
    (fun p hp => describeParam_opening (hp.elim (hl.params p) (hk.params p)))
    (fun p hp q hq r s _ _ => describeParam_append_inj (hl.params p hp) (hk.params q hq)) h
  exact ⟨⟨Text.ext htype, List.forall₂_eq_eq_eq ▸ himports, hparams⟩, by simpa using h⟩

theorem describeLevel_ne_nil (l : Level) : (describeLevel l).bytes ≠ [] := by
  intro h
  have hbytes := describeLevel_bytes l []
  rw [h] at hbytes
  simp at hbytes

theorem bar_not_mem_describeParam (hp : p.Legible) : (0x7C : UInt8) ∉ (describeParam p).bytes := by
  have hname := hp.name.not_mem (b := 0x7C) (by decide)
  have htype := hp.type.not_mem (b := 0x7C) (by decide)
  have hkind : (0x7C : UInt8) ∉ p.kind.text.bytes := by cases p.kind <;> decide
  have hbytes := describeParam_bytes p []
  rw [List.append_nil] at hbytes
  cases hi : p.inherit <;> simp [hbytes, hi, hname, htype, hkind]

theorem bar_not_mem_describeImport {i : Import} (hi : i.label.Single ∧ i.ns.Single) :
    (0x7C : UInt8) ∉ (describeImport i).bytes := by
  have hlabel := hi.1.not_mem (b := 0x7C) (by decide)
  have hns := hi.2.not_mem (b := 0x7C) (by decide)
  have hbytes := describeImport_bytes i []
  rw [List.append_nil] at hbytes
  simp [hbytes, hlabel, hns]

theorem bar_not_mem_describeLevel (hl : l.Legible) : (0x7C : UInt8) ∉ (describeLevel l).bytes := by
  have htype := hl.dataType.not_mem (b := 0x7C) (by decide)
  have himports := Text.bar_not_mem_join fun i hi => bar_not_mem_describeImport (hl.imports i hi)
  have hparams := Text.bar_not_mem_join fun p hp => bar_not_mem_describeParam (hl.params p hp)
  have hbytes := describeLevel_bytes l []
  rw [List.append_nil] at hbytes
  simp [hbytes, htype, himports, hparams]

theorem bar_not_mem_describe {s : Scope} (hs : s.Legible) : (0x7C : UInt8) ∉ s.describe.bytes := by
  intro hmem
  obtain ⟨t, ht, hb⟩ := List.mem_flatMap.1 hmem
  obtain ⟨l, hl, rfl⟩ := List.mem_map.1 ht
  exact bar_not_mem_describeLevel (hs l hl) hb

theorem alike_of_describe {ls ks : List Level} (hls : ∀ l ∈ ls, l.Legible)
    (hks : ∀ k ∈ ks, k.Legible)
    (h : (Text.concat (ls.map describeLevel)).bytes = (Text.concat (ks.map describeLevel)).bytes) :
    List.Forall₂ Level.Alike ls ks := by
  induction ls generalizing ks with
  | nil =>
    cases ks with
    | nil => exact .nil
    | cons k ks => exact absurd (List.append_eq_nil_iff.1 h.symm).1 (describeLevel_ne_nil k)
  | cons l ls ih =>
    cases ks with
    | nil => exact absurd (List.append_eq_nil_iff.1 h).1 (describeLevel_ne_nil l)
    | cons k ks =>
      obtain ⟨hl, hls⟩ := List.forall_mem_cons.1 hls
      obtain ⟨hk, hks⟩ := List.forall_mem_cons.1 hks
      obtain ⟨halike, hrest⟩ := describeLevel_append_inj hl hk h
      exact .cons halike (ih hls hks hrest)

theorem describeParam_of_alike (h : p.Alike q) : describeParam p = describeParam q := by
  simp only [describeParam, h.name, h.type, h.inherit, h.kind]

theorem describeLevel_of_alike (h : l.Alike k) : describeLevel l = describeLevel k := by
  have hparams : l.params.map describeParam = k.params.map describeParam :=
    Text.map_eq_of_forall₂ h.params fun _ _ => describeParam_of_alike
  simp only [describeLevel, h.dataType, h.imports, hparams]

/-- Chains are described in the same way exactly if they are alike. -/
theorem describe_eq_iff {s t : Scope} (hs : s.Legible) (ht : t.Legible) :
    s.describe = t.describe ↔ s.Alike t := by
  constructor
  · exact fun h => alike_of_describe hs ht (congrArg Text.bytes h)
  · intro h
    have hlevels : s.levels.map describeLevel = t.levels.map describeLevel :=
      Text.map_eq_of_forall₂ h fun _ _ => describeLevel_of_alike
    rw [describe, hlevels, describe]

end Scope

/-! ## Identities -/

namespace Identity

/-- The names in the scope can be told from the rest of its description, and the property does not
contain the separator. -/
structure Legible (i : Identity) : Prop where
  scope : ∀ s ∈ i.scope, s.Legible
  property : i.property.contains separator = false

def indexText (i : Identity) : Text :=
  match i.index with
  | some n => Text.ofInt n
  | none => "-"

def scopeText (i : Identity) : Text :=
  match i.scope with
  | some s => s.describe
  | none => ∅

def front (i : Identity) : List UInt8 :=
  i.indexText.bytes ++ (separator.bytes ++ (i.code.bytes ++ (separator.bytes ++ i.scopeText.bytes)))

theorem canonical_bytes (i : Identity) :
    i.canonical.bytes = i.front ++ (separator.bytes ++ i.property.bytes) := by
  have hparts : i.canonical = i.indexText ++ separator ++ i.code ++ separator ++ i.scopeText ++
    separator ++ i.property := rfl
  simp [hparts, front]

variable {i j : Identity}

theorem separator_bytes : separator.bytes = [0x20, 0x7C, 0x7C, 0x20] := rfl

theorem eq_nil_of_overlap {c q : List UInt8} {p : Text} (hc : c.getLast? ≠ some 0x7C)
    (hp : p.contains separator = false)
    (h : separator.bytes ++ p.bytes = c ++ (separator.bytes ++ q)) : c = [] := by
  match c with
  | [] => rfl
  | [_] => simp [separator_bytes] at h
  | [_, y] =>
    simp only [separator_bytes, List.cons_append, List.cons.injEq] at h
    exact absurd (by simp [h.2.1]) hc
  | [_, _, z] =>
    simp only [separator_bytes, List.cons_append, List.cons.injEq] at h
    exact absurd (by simp [h.2.2.1]) hc
  | _ :: _ :: _ :: _ :: c =>
    simp only [separator_bytes, List.cons_append, List.cons.injEq, List.nil_append] at h
    have hcontains : p.contains separator := Text.contains_of_bytes h.2.2.2.2
    rw [hp] at hcontains
    cases hcontains

theorem separator_append_inj {a b : List UInt8} {p q : Text} (ha : a.getLast? ≠ some 0x7C)
    (hb : b.getLast? ≠ some 0x7C) (hp : p.contains separator = false)
    (hq : q.contains separator = false)
    (h : a ++ (separator.bytes ++ p.bytes) = b ++ (separator.bytes ++ q.bytes)) :
    a = b ∧ p = q := by
  have hlast {a c : List UInt8} (h : (a ++ c).getLast? ≠ some 0x7C) : c.getLast? ≠ some 0x7C := by
    intro hc
    exact h (by simp [List.getLast?_append, hc])
  have hproperty {p q : Text} (h : separator.bytes ++ p.bytes = separator.bytes ++ q.bytes) :
      p = q :=
    Text.ext (List.append_cancel_left h)
  rcases List.append_eq_append_iff.1 h with ⟨c, rfl, hc⟩ | ⟨c, rfl, hc⟩
  · obtain rfl := eq_nil_of_overlap (hlast hb) hp hc
    exact ⟨by simp, hproperty hc⟩
  · obtain rfl := eq_nil_of_overlap (hlast ha) hq hc
    exact ⟨by simp, (hproperty hc).symm⟩

theorem bar_not_mem_scopeText (hi : i.Legible) : (0x7C : UInt8) ∉ i.scopeText.bytes := by
  unfold scopeText
  cases hs : i.scope with
  | none => exact List.not_mem_nil
  | some s => exact Scope.bar_not_mem_describe (hi.scope s hs)

theorem front_getLast (hi : i.Legible) : i.front.getLast? ≠ some 0x7C := by
  have hbar := bar_not_mem_scopeText hi
  intro hlast
  rw [front, ← List.append_assoc, ← List.append_assoc, ← List.append_assoc,
    List.getLast?_append] at hlast
  cases hs : i.scopeText.bytes.getLast? with
  | some b =>
    rw [hs] at hlast
    obtain rfl := Option.some.inj hlast
    exact hbar (List.mem_of_getLast? hs)
  | none =>
    rw [hs, List.getLast?_append, separator_bytes] at hlast
    simp at hlast

theorem space_not_mem_indexText (i : Identity) : (0x20 : UInt8) ∉ i.indexText.bytes := by
  have hnat (n : Nat) : (0x20 : UInt8) ∉ (Text.ofNat n).bytes := fun hmem =>
    absurd (Text.bytes_ofNat hmem).1 (by decide)
  unfold indexText
  match i.index with
  | none => decide
  | some (.ofNat n) => exact hnat n
  | some (.negSucc n) => simpa [Text.ofInt] using ⟨by decide, hnat (n + 1)⟩

theorem index_of_indexText (h : i.indexText = j.indexText) : i.index = j.index := by
  have hyphen (n : Int) : Text.ofInt n ≠ "-" := by
    intro h
    match n with
    | .ofNat n =>
      have hmem : (0x2D : UInt8) ∈ (Text.ofNat n).bytes := by
        rw [show Text.ofNat n = "-" from h]
        decide
      exact absurd (Text.bytes_ofNat hmem).1 (by decide)
    | .negSucc n =>
      have hnil := congrArg List.tail (congrArg Text.bytes h)
      exact Text.bytes_ofNat_ne_nil (n + 1) hnil
  unfold indexText at h
  generalize i.index = x, j.index = y at h ⊢
  cases x with
  | none =>
    cases y with
    | none => rfl
    | some n => exact absurd h.symm (hyphen n)
  | some m =>
    cases y with
    | none => exact absurd h (hyphen m)
    | some n => rw [Text.ofInt_inj h]

theorem scopeText_eq_iff (hi : i.Legible) (hj : j.Legible) :
    i.scopeText = j.scopeText ↔ Option.Rel Scope.Alike i.scope j.scope := by
  have hne (s : Scope) : s.describe ≠ ∅ := by
    intro h
    exact Scope.describeLevel_ne_nil s.level (List.append_eq_nil_iff.1 (congrArg Text.bytes h)).1
  unfold scopeText
  cases hs : i.scope with
  | none =>
    cases j.scope with
    | none => exact iff_of_true rfl .none
    | some t => exact iff_of_false (hne t).symm (by rintro ⟨⟩)
  | some s =>
    cases ht : j.scope with
    | none => exact iff_of_false (hne s) (by rintro ⟨⟩)
    | some t =>
      exact (Scope.describe_eq_iff (hi.scope s hs) (hj.scope t ht)).trans
        ⟨.some, fun | .some h => h⟩

theorem front_inj (hi : i.Legible) (hj : j.Legible) (h : i.front = j.front) :
    i.indexText = j.indexText ∧ i.code = j.code ∧ i.scopeText = j.scopeText := by
  have hspace (i : Identity) (hi : i.Legible) : (0x7C : UInt8) ∉ 0x20 :: i.scopeText.bytes := by
    simpa using bar_not_mem_scopeText hi
  have hfront (i : Identity) : i.front =
      (i.indexText.bytes ++ 0x20 :: ([0x7C, 0x7C, 0x20] ++ i.code.bytes ++ [0x20, 0x7C])) ++
        0x7C :: 0x20 :: i.scopeText.bytes := by
    simp [front, separator_bytes]
  rw [hfront, hfront] at h
  obtain ⟨h, hscope⟩ := Text.append_cons_inj_last (hspace i hi) (hspace j hj) h
  obtain ⟨hindex, h⟩ := Text.append_cons_inj (space_not_mem_indexText i)
    (space_not_mem_indexText j) h
  have hcode := List.append_cancel_left (List.append_cancel_right h)
  exact ⟨Text.ext hindex, Text.ext hcode, Text.ext (List.cons.inj hscope).2⟩

/-- Identities have the same canonical text exactly if they agree in everything that it is made
of. -/
theorem canonical_eq_iff (hi : i.Legible) (hj : j.Legible) : i.canonical = j.canonical ↔
      i.index = j.index ∧ i.code = j.code ∧ i.property = j.property ∧
        Option.Rel Scope.Alike i.scope j.scope := by
  constructor
  · intro h
    have hbytes := congrArg Text.bytes h
    rw [canonical_bytes, canonical_bytes] at hbytes
    obtain ⟨hfront, hproperty⟩ := separator_append_inj (front_getLast hi)
      (front_getLast hj) hi.property hj.property hbytes
    obtain ⟨hindex, hcode, hscope⟩ := front_inj hi hj hfront
    exact ⟨index_of_indexText hindex, hcode, hproperty, (scopeText_eq_iff hi hj).1 hscope⟩
  · rintro ⟨hindex, hcode, hproperty, hscope⟩
    have htext : i.indexText = j.indexText := by rw [indexText, hindex, indexText]
    ext1
    rw [canonical_bytes, canonical_bytes, front, front, htext, hcode, hproperty,
      (scopeText_eq_iff hi hj).2 hscope]

/-- An identity whose code contains the separator and whose property begins like the rest of one. -/
def barred : Identity where
  index := some (-1)
  code := "a || b"
  scope := some ⟨{
    dataType := .func [.int, .string] .bool
    params := [⟨"_index", .int, true, .index⟩, ⟨"_item", .nullable .int, false, .custom⟩]
    imports := [⟨"", "App"⟩, ⟨"m", "App.Models"⟩] }, [{ dataType := .any }]⟩
  property := "|| c"

theorem barred_scope_legible (t : Text) :
    ∀ s ∈ ({ barred with property := t } : Identity).scope, s.Legible := by
  rintro s hs l hl
  obtain rfl := Option.some.inj hs
  rcases List.mem_cons.1 hl with rfl | hl
  · exact ⟨by decide, by decide, fun p hp => ⟨by revert p; decide, by revert p; decide⟩⟩
  · obtain rfl := List.mem_singleton.1 hl
    exact ⟨by decide, by decide, fun p hp => nomatch hp⟩

theorem canonical_eq_iff_barred : barred.Legible ∧
    ({ barred with property := "c" } : Identity).Legible ∧
    barred.canonical ≠ ({ barred with property := "c" } : Identity).canonical := by
  have hbarred : barred.Legible := ⟨barred_scope_legible "|| c", by decide⟩
  have hplain : ({ barred with property := "c" } : Identity).Legible :=
    ⟨barred_scope_legible "c", by decide⟩
  refine ⟨hbarred, hplain, fun h => ?_⟩
  exact absurd ((canonical_eq_iff hbarred hplain).1 h).2.2.1 (by decide)

end Identity

end Bindery
