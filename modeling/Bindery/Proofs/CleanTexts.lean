import Bindery.Proofs.BinderTyping

/-!
# Clean texts

Texts that are put together from UTF-8 are UTF-8, and what is quoted is UTF-8 whatever it was
(`Text.isUtf8_quote`). A type, member, scope or error is clean if the texts in it are UTF-8. Then
so are the name of the type and the message of the error (`Ty.Clean.isUtf8_name`,
`Error.Clean.isUtf8_message`).
-/

namespace Bindery

namespace Text

@[grind ←] theorem isUtf8_hex (width n : Nat) : (hex width n).isUtf8 := isUtf8_ofChars _

@[grind ←] theorem isUtf8_ofInt (n : Int) : (ofInt n).isUtf8 := by
  cases n with
  | ofNat n => exact isUtf8_ofNat n
  | negSucc n => exact isUtf8_append (isUtf8_ofString _) (isUtf8_ofNat _)

theorem isUtf8_of_ascii {t : Text} (h : ∀ b ∈ t.bytes, b.toNat < 0x80) : t.isUtf8 := by
  obtain ⟨bs⟩ := t
  change (glyphsFrom 0 bs).all _ = true
  induction bs with
  | nil => rfl
  | cons b bs ih =>
    rw [glyphsFrom, decodeChar_one (h b (by simp))]
    exact ih fun c hc => h c (by simp [hc])

theorem isUtf8_concat {ts : List Text} (h : ∀ t ∈ ts, t.isUtf8) : (concat ts).isUtf8 := by
  induction ts with
  | nil => rfl
  | cons t ts ih =>
    have hcons : concat (t :: ts) = t ++ concat ts := rfl
    rw [hcons, isUtf8_append (h t (by simp)) (ih fun u hu => h u (by simp [hu]))]

theorem isUtf8_join {sep : Text} (hsep : sep.isUtf8) :
    {ts : List Text} → (∀ t ∈ ts, t.isUtf8) → (join sep ts).isUtf8
  | [], _ => rfl
  | [t], h => h t (by simp)
  | t :: u :: rest, h => by
    have hrest := isUtf8_join hsep fun v hv => h v (List.mem_cons_of_mem t hv)
    rw [join, isUtf8_append (isUtf8_append (h t (by simp)) hsep) hrest]

theorem isUtf8_quoted {f : Glyph → Text} (hf : ∀ g, (f g).isUtf8) (t : Text) :
    ("\"" ++ concat (t.glyphs.map f) ++ "\"" : Text).isUtf8 := by
  have hbody : (concat (t.glyphs.map f)).isUtf8 := by
    refine isUtf8_concat fun u hu => ?_
    obtain ⟨g, -, rfl⟩ := List.mem_map.1 hu
    exact hf g
  exact isUtf8_append (isUtf8_append (isUtf8_ofString _) hbody) (isUtf8_ofString _)

@[grind ←] theorem isUtf8_quote (t : Text) : t.quote.isUtf8 := by
  refine isUtf8_quoted (fun g => ?_) t
  unfold quoteGlyph
  grind [isUtf8_ofChars]

@[grind ←] theorem isUtf8_scriptQuote (t : Text) : t.scriptQuote.isUtf8 := by
  refine isUtf8_quoted (fun g => ?_) t
  unfold scriptQuoteGlyph
  grind [isUtf8_ofChars]

end Text

namespace Decimal

theorem isUtf8_write (l : Layout) (d : Decimal) : (l.write d).isUtf8 := by
  have hzeros (n : Nat) : (Text.replicate n '0').isUtf8 := by
    rw [Text.replicate_eq_ofChars n rfl]
    exact Text.isUtf8_ofChars _
  have hdigits (ds : List Nat) : (digitText ds).isUtf8 := Text.isUtf8_ofChars _
  unfold Layout.write positional scientific
  grind

theorem isUtf8_render {l : Layout} (hnan : l.nan.isUtf8) (hinf : l.infinity.isUtf8)
    (hneg : l.negInfinity.isUtf8) (x : Float) : (l.render x).isUtf8 := by
  unfold Layout.render
  grind [isUtf8_write]

end Decimal

/-! ## Types and members -/

namespace Ty

mutual

/-- The names in the type are UTF-8. -/
def Clean : Ty → Prop
  | .basic _ => True
  | .declared d => d.name.isUtf8
  | .nullable t => Clean t
  | .list e p => Clean e ∧ Clean p
  | .func ps r => CleanAll ps ∧ Clean r

def CleanAll : List Ty → Prop
  | [] => True
  | t :: ts => Clean t ∧ CleanAll ts

end

theorem clean_basic (b : Basic) : (Ty.basic b).Clean := trivial

theorem cleanAll_iff {ts : List Ty} : CleanAll ts ↔ ∀ t ∈ ts, t.Clean := by
  induction ts with
  | nil => simp [CleanAll]
  | cons t ts ih => simp [CleanAll, ih]

mutual

theorem Clean.isUtf8_name : {t : Ty} → t.Clean → t.name.isUtf8
  | .basic b, _ => by cases b <;> exact Text.isUtf8_ofString _
  | .declared _, h => h
  | .nullable t, h => Text.isUtf8_append (Clean.isUtf8_name h) (Text.isUtf8_ofString _)
  | .list e p, h => by
    have := Clean.isUtf8_name h.1
    rw [name]
    grind
  | .func ps r, h => by
    have hnames : ∀ n ∈ names ps ++ [name r], n.isUtf8 := by
      simp only [List.mem_append, List.mem_singleton]
      rintro n (hn | rfl)
      · exact CleanAll.isUtf8_names h.1 n hn
      · exact Clean.isUtf8_name h.2
    have := Text.isUtf8_join (Text.isUtf8_ofString ",") hnames
    rw [name]
    grind

theorem CleanAll.isUtf8_names : {ts : List Ty} → CleanAll ts → ∀ n ∈ names ts, n.isUtf8
  | [], _ => nofun
  | t :: ts, h => by
    rintro n (_ | ⟨_, hn⟩)
    · exact Clean.isUtf8_name h.1
    · exact CleanAll.isUtf8_names h.2 n hn

end

theorem Clean.underlying {t : Ty} (h : t.Clean) : t.underlying.Clean := by
  cases t with
  | nullable t => rw [Ty.underlying]; split <;> exact h
  | _ => exact h

theorem Clean.elem? {t e : Ty} (h : t.Clean) (he : t.elem? = some e) : e.Clean := by
  cases t with
  | list e p => exact Option.some.inj he ▸ h.1
  | nullable t => exact Option.some.inj he ▸ h
  | _ => cases he

theorem Clean.isUtf8_definition {t : Ty} (h : t.Clean) : t.definition.isUtf8 := by
  induction t using Ty.definition.induct with
  | case1 | case2 => exact Text.isUtf8_ofString _
  | case3 t ht ih => rw [definition, if_pos ht]; exact ih h
  | case4 t ht => rw [definition, if_neg ht]; exact h.isUtf8_name
  | case5 t => rw [definition]; exact h.isUtf8_name; all_goals assumption

end Ty

structure Field.Clean (f : Field) : Prop where
  name : f.name.isUtf8
  owner : f.owner.Clean
  type : f.type.Clean

structure Method.Clean (m : Method) : Prop where
  name : m.name.isUtf8
  owner : m.owner.Clean
  params : ∀ t ∈ m.params, t.Clean
  result : m.result.Clean

theorem Field.Clean.isUtf8_fullName {f : Field} (h : f.Clean) : f.fullName.isUtf8 := by
  have := h.name
  have := h.owner.isUtf8_definition
  unfold Field.fullName
  grind

theorem Method.Clean.isUtf8_fullName {m : Method} (h : m.Clean) : m.fullName.isUtf8 := by
  have := h.name
  have := h.owner.isUtf8_definition
  unfold Method.fullName
  grind

/-- The names of types and of the members of classes are UTF-8, and so is the note on a source that
cannot be read. -/
structure Universe.Clean (u : Universe) : Prop where
  named : ∀ e ∈ u.named, e.2.Clean
  fields : ∀ e ∈ u.catalog.entries, ∀ f ∈ e.2.fields, f.Clean
  methods : ∀ e ∈ u.catalog.entries, ∀ m ∈ e.2.methods, m.Clean
  unreadable : ∀ src, src.isUtf8 → (u.unreadable src).isUtf8

namespace Universe

theorem initial_clean : initial.Clean where
  unreadable _ _ := Text.isUtf8_ofString _
  named := by
    simp only [initial, predeclared, List.forall_mem_map, List.forall_mem_cons, List.not_mem_nil,
      false_implies, implies_true, and_true]
    exact ⟨Ty.clean_basic _, Ty.clean_basic _, Ty.clean_basic _, Ty.clean_basic _,
      Ty.clean_basic _, Ty.clean_basic _, Text.isUtf8_ofString _, Text.isUtf8_ofString _⟩
  fields := by
    simp [initial, Declaration.math, Declaration.resources]
  methods := by
    have hmath : (Ty.declared .math).Clean := Text.isUtf8_ofString _
    have hresources : (Ty.declared .resources).Clean := Text.isUtf8_ofString _
    have hbasic (b : Basic) : (Ty.basic b).Clean := Ty.clean_basic b
    simp only [initial, Declaration.math, Declaration.resources, List.forall_mem_cons,
      List.not_mem_nil, false_implies, implies_true, and_true]
    refine ⟨⟨?_, ?_, ?_, ?_, ?_⟩, ?_⟩
    all_goals
      refine ⟨Text.isUtf8_ofString _, by assumption, fun t ht => ?_, hbasic _⟩
      simp only [List.mem_cons, List.not_mem_nil, or_false, or_self] at ht
      exact ht ▸ hbasic _

theorem Clean.add {u : Universe} (hu : u.Clean) {d : Declared} (hname : d.name.isUtf8)
    (members : Declaration) (hfields : ∀ f ∈ members.fields, f.Clean)
    (hmethods : ∀ m ∈ members.methods, m.Clean) (name : Text) :
    ({ u with named := u.named ++ [(name, .declared d)], catalog := u.catalog.set d members } :
      Universe).Clean where
  unreadable := hu.unreadable
  named := List.forall_mem_append.2 ⟨hu.named, List.forall_mem_singleton.2 hname⟩
  fields := List.forall_mem_cons.2 ⟨hfields, fun e he => hu.fields e (List.mem_filter.1 he).1⟩
  methods := List.forall_mem_cons.2 ⟨hmethods, fun e he => hu.methods e (List.mem_filter.1 he).1⟩

end Universe

namespace Ty

variable {u : Universe} {t : Ty}

theorem Clean.field? (h : t.Clean) (hu : u.Clean) {name : Text} {f : Field}
    (hf : t.field? u.catalog name = some f) : f.Clean := by
  have hmem := List.mem_of_find?_eq_some hf
  revert hmem
  cases ht : t.underlying with
  | basic b =>
    cases b with
    | string =>
      rintro (_ | ⟨_, ⟨⟩⟩)
      exact ⟨Text.isUtf8_ofString _, trivial, trivial⟩
    | _ => exact nofun
  | list e p =>
    rintro (_ | ⟨_, ⟨⟩⟩)
    exact ⟨Text.isUtf8_ofString _, ht ▸ h.underlying, trivial⟩
  | declared d =>
    simp only [ownFields, Catalog.find]
    split
    · rename_i hfind
      exact hu.fields _ (List.mem_of_find?_eq_some hfind) f
    · exact nofun
  | _ => exact nofun

theorem Clean.overloads (h : t.Clean) (hu : u.Clean) {name : Text} {arity : Nat} {m : Method}
    (hm : m ∈ t.overloads u.catalog name arity) : m.Clean := by
  have hany : ∀ m ∈ Method.anyMethods, m.Clean := by
    rintro _ (_ | ⟨_, ⟨⟩⟩)
    exact ⟨Text.isUtf8_ofString _, trivial, by simp, trivial⟩
  have hown : ∀ m ∈ t.underlying.ownMethods u.catalog, m.Clean := by
    intro m hm
    revert hm
    cases ht : t.underlying with
    | basic b =>
      cases b with
      | any => exact hany m
      | string =>
        intro hm
        simp only [ownMethods, Method.stringMethods, List.mem_cons, List.not_mem_nil,
          or_false] at hm
        rcases hm with rfl | rfl | rfl | rfl | rfl | rfl | rfl | rfl
        all_goals exact ⟨Text.isUtf8_ofString _, trivial, by simp [Clean, string], trivial⟩
      | _ => rintro ⟨⟩
    | list e p =>
      have hlist : (Ty.list e p).Clean := ht ▸ h.underlying
      intro hm
      simp only [ownMethods, Method.listMethods, List.mem_cons, List.not_mem_nil, or_false] at hm
      rcases hm with rfl | rfl | rfl | rfl
      · exact ⟨Text.isUtf8_ofString _, hlist, by simp [hlist.2], trivial⟩
      · exact ⟨Text.isUtf8_ofString _, hlist, by simp [hlist.2], trivial⟩
      · exact ⟨Text.isUtf8_ofString _, hlist, by simp [hlist.2], hlist⟩
      · exact ⟨Text.isUtf8_ofString _, hlist, by simp [hlist.1], trivial⟩
    | declared d =>
      simp only [ownMethods, Catalog.find]
      split
      · rename_i hfind
        exact hu.methods _ (List.mem_of_find?_eq_some hfind) m
      · rintro ⟨⟩
    | _ => rintro ⟨⟩
  exact (mem_overloads hm).1.elim (hown m) (hany m)

end Ty

/-! ## Scopes -/

structure Param.Clean (p : Param) : Prop where
  name : p.name.isUtf8
  type : p.type.Clean

def Scope.Clean (s : Scope) : Prop :=
  ∀ l ∈ s.levels, l.dataType.Clean ∧ ∀ p ∈ l.params, p.Clean

namespace Scope

variable {s : Scope}

theorem Clean.dataType (h : s.Clean) : s.dataType.Clean := (h s.level (by simp [levels])).1

theorem Clean.ancestor? (h : s.Clean) {n : Nat} {a : Scope} (ha : s.ancestor? n = some a) :
    a.Clean := by
  intro l hl
  rw [ancestor_levels ha] at hl
  exact h l (List.mem_of_mem_drop hl)

end Scope

/-! ## Errors -/

/-- The texts in the error are UTF-8, except that of the binding, which messages quote. -/
def Error.Clean : Error → Prop
  | .plain t => t.isUtf8
  | .diagnosis _ _ note none => note.isUtf8
  | .diagnosis _ _ note (some e) => note.isUtf8 ∧ e.Clean
  | .source t _ note => t.isUtf8 ∧ note.isUtf8
  | .eval x c => x.isUtf8 ∧ c.message.isUtf8
  | .noted note e => note.isUtf8 ∧ e.Clean

namespace Error

theorem isUtf8_problem (p : Problem) : p.text.isUtf8 := by
  cases p <;> simp only [Problem.text] <;> grind

theorem isUtf8_diagnosis (p : Problem) {body : Text} (h : body.isUtf8) (src : Text) :
    (if src.isEmpty then p.text ++ ": " ++ body
      else p.text ++ ": " ++ body ++ " (in " ++ src.quote ++ ")").isUtf8 := by
  have := isUtf8_problem p
  have hbody : (p.text ++ ": " ++ body).isUtf8 := by grind
  grind

theorem Clean.isUtf8_message : {e : Error} → e.Clean → e.message.isUtf8
  | .plain _, h => h
  | .diagnosis p src note none, h => isUtf8_diagnosis p h src
  | .diagnosis p src note (some e), h => by
    have := h.1
    have := Clean.isUtf8_message h.2
    exact isUtf8_diagnosis p (by grind) src
  | .source t (some n) note, ⟨ht, hnote⟩ | .source t none note, ⟨ht, hnote⟩ | .eval x c, ⟨hx, hc⟩ =>
    by rw [message]; grind
  | .noted note e, ⟨hnote, he⟩ => by
    have := Clean.isUtf8_message he
    rw [message]
    grind

theorem Clean.of {p : Problem} {note : Text} (h : note.isUtf8) : (of p note).Clean := h

theorem Clean.diagnosis? {e : Error} (h : e.Clean) {p : Problem} {s n : Text}
    {c : Option Error} (hd : e.diagnosis? = some (p, s, n, c)) (src : Text) :
    (Error.diagnosis p src n c).Clean := by
  induction e using Error.diagnosis?.induct with
  | case1 p' s' n' c' =>
    obtain ⟨rfl, rfl, rfl, rfl⟩ : p' = p ∧ s' = s ∧ n' = n ∧ c' = c := by
      simpa [Error.diagnosis?] using hd
    cases c' <;> exact h
  | case2 note e ih => exact ih h.2 hd
  | case3 e h1 h2 =>
    rw [Error.diagnosis?] at hd
    · cases hd
    all_goals assumption

theorem Clean.withSource {e : Error} (h : e.Clean) (src : Text) (fallback : Problem) :
    (e.withSource src fallback).Clean := by
  unfold Error.withSource
  split
  · rename_i hd
    split
    · exact h
    · exact h.diagnosis? hd src
  · exact ⟨Text.isUtf8_ofString _, h⟩

end Error

/-- The texts of an error are UTF-8; a crash has none that is kept. If `calm`, there is no crash. -/
def Fault.Calm (calm : Bool) : Fault → Prop
  | .error e => e.Clean
  | .crash _ => calm = false

abbrev Fault.Clean : Fault → Prop := Calm false

end Bindery
