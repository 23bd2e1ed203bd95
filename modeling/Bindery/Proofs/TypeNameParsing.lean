import Bindery.Proofs.ConstructedTypes
import Bindery.Proofs.Utf8Text
import Mathlib.Data.List.Flatten

/-!
# Reading type names

A type expression is read from the outside in: white space at its ends is dropped, then the mark of
a nullable or a list type (`Universe.form`), and what is left is read in the same way. The name of a
constructed type is a type expression with the marks in their places, so reading it asks the table
for the names under which the type was entered (`Universe.Denotes`).
-/

namespace Bindery

namespace Text

theorem length_trim (t : Text) : t.trim.length ≤ t.length := by
  have hsub : (trimGlyphs isBlank t.glyphs).Sublist t.glyphs := by
    rw [trimGlyphs, ← List.reverse_sublist, List.reverse_reverse]
    exact (List.dropWhile_sublist _).trans ((List.dropWhile_sublist _).reverse)
  have hbytes := (hsub.flatMap Glyph.bytes).length_le
  rwa [show t.glyphs.flatMap Glyph.bytes = t.bytes from (glyphsFrom_bytes t.bytes).1] at hbytes

def isSolid (t : Text) : Bool :=
  t.glyphs.all fun | .char c => !isBlank c | .stray _ => true

theorem trimGlyphs_of_forall {p : Char → Bool} {gs : List Glyph}
    (h : ∀ c, .char c ∈ gs → p c = false) : trimGlyphs p gs = gs := by
  have hnone (q : Glyph → Bool) (gs : List Glyph) (hq : ∀ g ∈ gs, q g = false) :
      gs.dropWhile q = gs := by
    cases gs with
    | nil => rfl
    | cons g gs => rw [List.dropWhile_cons_of_neg (by simp [hq g])]
  rw [trimGlyphs, hnone _ gs, hnone, List.reverse_reverse]
  all_goals
    intro g hg
    cases g with
    | char c => exact h c (by simpa using hg)
    | stray b => rfl

theorem trim_of_isSolid {t : Text} (h : t.isSolid) : t.trim = t := by
  rw [trim, trimGlyphs_of_forall, ofGlyphs_glyphs]
  intro c hc
  simpa using List.all_eq_true.1 h _ hc

theorem isSolid_append {s t : Text} {a : UInt8} (ha : t.bytes.head? = some a)
    (hlt : a.toNat < 0x80) : (s ++ t).isSolid = (s.isSolid && t.isSolid) := by
  obtain ⟨rest, hrest⟩ := List.head?_eq_some_iff.1 ha
  rw [isSolid, glyphs, bytes_append, hrest, glyphsFrom_append_ascii _ hlt, List.all_append, ← hrest]
  rfl

theorem isSolid_ofChars_append (cs : Chars) (t : Text) :
    (ofChars cs ++ t).isSolid = ((ofChars cs).isSolid && t.isSolid) := by
  simp only [isSolid, glyphs_ofChars_append, glyphs_ofChars, List.all_append]

end Text

/-! ## Universes -/

/-- The text is not empty, has no angle or square bracket, question mark or white space in it, and
is no keyword. -/
structure Text.IsTypeName (t : Text) : Prop where
  nonempty : t.isEmpty = false
  unmarked : ∀ b ∈ t.bytes, b ∉ [60, 62, 63, 91, 93]
  solid : t.isSolid
  notKeyword : Universe.keyword? t = none

namespace Universe

/-- The universe comes from the predeclared types by definitions of types with proper names, and by
declarations of members. -/
inductive Defined : Universe → Prop where
  | initial : Defined initial
  | define {u u' : Universe} {t : Ty} :
    Defined u → t.name.IsTypeName → u.define t = .ok u' → Defined u'
  | members {u : Universe} (c : Catalog) : Defined u → Defined { u with catalog := c }

structure Named (u : Universe) : Prop where
  found : ∀ {name t}, u.find? name = some t → t.name = name ∧ name.IsTypeName
  basic : ∀ b : Basic, u.find? (Ty.basic b).name = some (.basic b)

theorem isTypeName_of_mem_initial : ∀ e ∈ initial.named, e.1.IsTypeName := by
  have hnonempty : ∀ e ∈ initial.named, e.1.isEmpty = false := by decide
  have hunmarked : ∀ e ∈ initial.named, e.1.bytes.all (· ∉ [60, 62, 63, 91, 93]) := by
    decide +kernel
  have hsolid : ∀ e ∈ initial.named, e.1.isSolid := by decide +kernel
  have hkeyword : ∀ e ∈ initial.named, (keyword? e.1).isNone := by decide
  exact fun e he =>
    ⟨hnonempty e he, by simpa using hunmarked e he, hsolid e he,
      Option.isNone_iff_eq_none.1 (hkeyword e he)⟩

theorem Defined.named {u : Universe} (h : u.Defined) : u.Named := by
  induction h with
  | initial =>
    refine ⟨fun {name t} h => ?_, fun b => by cases b <;> rfl⟩
    obtain ⟨e, he, rfl⟩ := Option.map_eq_some_iff.1 h
    have hmem := List.mem_of_find?_eq_some he
    have hname := List.find?_some he
    obtain rfl : e.1 = name := by simpa using hname
    exact ⟨(initial_wellNamed.keyed e hmem).symm, isTypeName_of_mem_initial e hmem⟩
  | @define u u' t _ hname hdefine ih =>
    rw [Universe.define] at hdefine
    split at hdefine
    · split at hdefine
      · exact Except.ok.inj hdefine ▸ ih
      · cases hdefine
    · rename_i hnew
      obtain rfl := Except.ok.inj hdefine
      have hfind (name : Text) :
          ({ u with named := u.named ++ [(t.name, t)] } : Universe).find? name =
            (u.find? name).or (if t.name = name then some t else none) := by
        rw [find?, find?, List.find?_append, Option.map_or]
        congr 1
        by_cases h : t.name = name <;> simp [h]
      refine ⟨fun {name s} h => ?_, fun b => ?_⟩
      · rw [hfind] at h
        rcases Option.or_eq_some_iff.1 h with h | ⟨-, h⟩
        · exact ih.found h
        · split at h
          · rename_i heq
            cases h
            exact ⟨heq, heq ▸ hname⟩
          · cases h
      · rw [hfind, ih.basic]
        rfl
  | members c _ ih => exact ⟨ih.found, ih.basic⟩

/-! ## Parsing -/

inductive Form where
  | fault (e : TypeNameError)
  | nullable (inner : Text)
  | list (inner : Text)
  | name

def form (s : Text) : Form :=
  if s.isEmpty then .fault .empty
  else if let some inner := s.dropEnd? "?" then .nullable inner
  else if let some inner := s.dropEnd? "[]" then .list inner
  else if let some body := s.dropEnd? ">" then
    match body.cut? "<" with
    | none => .fault (.malformed s)
    | some (generic, arg) =>
      if isListName generic then .list arg else .fault (.unknownGeneric generic)
  else .name

def built (build : Ty → TypeTable → Ty × TypeTable) :
    Except TypeNameError Ty × TypeTable → Except TypeNameError Ty × TypeTable
  | (.error e, table) => (.error e, table)
  | (.ok t, table) => (.ok (build t table).1, (build t table).2)

theorem built_eq_ok {build : Ty → TypeTable → Ty × TypeTable}
    {r : Except TypeNameError Ty × TypeTable} {t : Ty} {table : TypeTable}
    (h : built build r = (.ok t, table)) : ∃ t₁ table₁, r = (.ok t₁, table₁) ∧
      build t₁ table₁ = (t, table) := by
  obtain ⟨a, table₁⟩ := r
  cases a with
  | error e => cases h
  | ok t₁ =>
    obtain ⟨ht, htable⟩ := Prod.mk.inj h
    exact ⟨t₁, table₁, rfl, Prod.ext (Except.ok.inj ht) htable⟩

variable {u : Universe} {table table' : TypeTable} {namespaces : List Text} {s : Text} {t : Ty}

theorem parseWithin_succ (n : Nat) (s : Text) (table : TypeTable) :
    u.parseWithin namespaces (n + 1) s table =
      match form s.trim with
      | .fault e => (.error e, table)
      | .nullable inner =>
        built (fun t table => table.nullable t) (u.parseWithin namespaces n inner table)
      | .list inner =>
        built (fun t table => table.listOf t) (u.parseWithin namespaces n inner table)
      | .name => match u.lookup s.trim namespaces with
        | some t => (.ok t, table)
        | none => (.error (.undefined s.trim), table) := by
  rw [parseWithin, form]
  simp only
  repeat' split
  all_goals simp_all [built]

theorem form_question (t : Text) : form (t ++ "?") = .nullable t := by
  have hempty : (t ++ "?").isEmpty = false := Text.isEmpty_append_of_right rfl
  rw [form, hempty, Text.dropEnd?_eq_some_iff.2 rfl]
  rfl

theorem form_list (t : Text) : form ("List<" ++ t ++ ">") = .list t := by
  have hempty : ("List<" ++ t ++ ">" : Text).isEmpty = false := Text.isEmpty_append_of_right rfl
  have hlast {mark : Text} (h : mark.bytes.getLast? ≠ some 62) (hne : mark.bytes ≠ []) :
      ("List<" ++ t ++ ">" : Text).dropEnd? mark = none := by
    refine Option.eq_none_iff_forall_ne_some.2 fun r hr => h ?_
    have hbytes := congrArg (·.bytes.getLast?) (Text.dropEnd?_eq_some_iff.1 hr)
    simp only [Text.bytes_append, List.getLast?_append_of_ne_nil _ hne] at hbytes
    rw [← hbytes, List.getLast?_append_of_ne_nil _ (by decide)]
    rfl
  have hcut : ("List<" ++ t : Text).cut? "<" = some (("List" : Text), t) := by
    have hbytes : ("List<" ++ t : Text).bytes = 76 :: 105 :: 115 :: 116 :: 60 :: t.bytes := rfl
    rw [Text.cut?, hbytes, show ("<" : Text).bytes = [60] from rfl]
    simp [Text.cutBytes, Text.dropLead]
    rfl
  rw [form, hempty, hlast (by decide) (by decide), hlast (by decide) (by decide),
    Text.dropEnd?_eq_some_iff.2 rfl]
  simp only [hcut]
  rfl

theorem form_name (h : s.IsTypeName) : form s = .name := by
  have hnone {mark : Text} {b : UInt8} (hb : b ∈ mark.bytes) (hmark : b ∈ [60, 62, 63, 91, 93]) :
      s.dropEnd? mark = none := by
    refine Option.eq_none_iff_forall_ne_some.2 fun r hr => ?_
    refine h.unmarked b ?_ hmark
    rw [Text.dropEnd?_eq_some_iff.1 hr]
    exact List.mem_append_right _ hb
  have hquestion : s.dropEnd? "?" = none := hnone (b := 63) (by decide) (by decide)
  have hsquare : s.dropEnd? "[]" = none := hnone (b := 93) (by decide) (by decide)
  have hangle : s.dropEnd? ">" = none := hnone (b := 62) (by decide) (by decide)
  rw [form, h.nonempty, hquestion, hsquare, hangle]
  rfl

theorem length_of_form {inner : Text} (h : form s = .nullable inner ∨ form s = .list inner) :
    inner.length < s.length := by
  have shorter {r mark : Text} (hr : s.dropEnd? mark = some r) (hmark : 0 < mark.length) :
      r.length < s.length := by
    rw [Text.dropEnd?_eq_some_iff.1 hr]
    simp only [Text.length, Text.bytes_append, List.length_append] at hmark ⊢
    omega
  rw [form] at h
  split at h
  · simp at h
  split at h
  · rename_i hdrop
    have := shorter hdrop (by decide)
    simp_all
  split at h
  · rename_i hdrop
    have := shorter hdrop (by decide)
    simp_all
  split at h
  · rename_i body hdrop
    have hbody := shorter hdrop (by decide)
    split at h
    · simp at h
    · rename_i generic arg hcut
      split at h
      · obtain rfl : arg = inner := by simpa using h
        have := Text.length_of_cut? hcut
        omega
      · simp at h
  · simp at h

theorem Named.of_keyword (hu : u.Named) {name : Text} (h : keyword? name = some t) :
    u.find? t.name = some t := by
  rw [keyword?] at h
  repeat' split at h
  all_goals first | exact Option.some.inj h ▸ hu.basic _ | cases h

theorem Named.of_lookup (hu : u.Named) {name : Text} (h : u.lookup name namespaces = some t) :
    u.find? t.name = some t := by
  rcases Option.or_eq_some_iff.1 h with h | ⟨-, h⟩
  · exact hu.of_keyword h
  · rcases Option.or_eq_some_iff.1 h with h | ⟨-, h⟩
    · rwa [(hu.found h).1]
    · obtain ⟨ns, -, h⟩ := List.exists_of_findSome?_eq_some h
      rwa [(hu.found h).1]

/-- The bound on the depth is never met. -/
theorem parseWithin_eq {n m : Nat} (hn : s.length < n) (hm : s.length < m) (table : TypeTable) :
    u.parseWithin namespaces n s table = u.parseWithin namespaces m s table := by
  induction n generalizing s m table with
  | zero => omega
  | succ n ih =>
    obtain ⟨m, rfl⟩ : ∃ k, m = k + 1 := ⟨m - 1, by omega⟩
    have inner_eq {inner : Text} (h : form s.trim = .nullable inner ∨ form s.trim = .list inner) :
        u.parseWithin namespaces n inner table = u.parseWithin namespaces m inner table := by
      have := length_of_form h
      have := s.length_trim
      exact ih (by omega) (by omega) table
    rw [parseWithin_succ, parseWithin_succ]
    split
    · rfl
    · rename_i inner hform
      rw [inner_eq (.inl hform)]
    · rename_i inner hform
      rw [inner_eq (.inr hform)]
    · rfl

/-- The type is named in the universe, or stands in the table under a name built from the name of
such a type. -/
inductive Denotes (u : Universe) (table : TypeTable) : Ty → Prop where
  | named {t : Ty} : u.find? t.name = some t → Denotes u table t
  | nullable {s t : Ty} : Denotes u table s → s.isNullable = false →
      table.find? (s.name ++ "?") = some t → Denotes u table t
  | list {s t : Ty} : Denotes u table s → table.find? ("List<" ++ s.name ++ ">") = some t →
      Denotes u table t

namespace Denotes

theorem mono (h : table.Extends table') (ht : u.Denotes table t) : u.Denotes table' t := by
  induction ht with
  | named hfind => exact .named hfind
  | nullable _ hnull hfind ih => exact .nullable ih hnull (h _ _ hfind)
  | list _ hfind ih => exact .list ih (h _ _ hfind)

theorem of_parseWithin (hu : u.Named) {n : Nat} (htable : table.Keyed)
    (h : u.parseWithin namespaces n s table = (.ok t, table')) :
    table'.Keyed ∧ u.Denotes table' t := by
  induction n generalizing s t table' with
  | zero => cases h
  | succ n ih =>
    rw [parseWithin_succ] at h
    split at h
    · cases h
    · obtain ⟨t₁, table₁, hinner, hbuild⟩ := built_eq_ok h
      obtain ⟨hkeyed, ht₁⟩ := ih hinner
      cases hnull : t₁.isNullable with
      | true =>
        rw [TypeTable.nullable, hnull] at hbuild
        cases hbuild
        exact ⟨hkeyed, ht₁⟩
      | false =>
        have hanswer := hbuild ▸ @TypeTable.nullable_answered table₁ t₁ hnull
        exact ⟨hanswer.keyed hkeyed, .nullable (ht₁.mono hanswer.grown) hnull hanswer.found⟩
    · obtain ⟨t₁, table₁, hinner, hbuild⟩ := built_eq_ok h
      obtain ⟨hkeyed, ht₁⟩ := ih hinner
      have hanswer := hbuild ▸ @TypeTable.listOf_answered table₁ t₁
      exact ⟨hanswer.keyed hkeyed, .list (ht₁.mono hanswer.grown) hanswer.found⟩
    · split at h
      · rename_i hlookup
        cases h
        exact ⟨htable, .named (hu.of_lookup hlookup)⟩
      · cases h

theorem isSolid (hu : u.Named) (htable : table.Keyed) (ht : u.Denotes table t) :
    t.name.isSolid := by
  induction ht with
  | named hfind => exact (hu.found hfind).2.solid
  | nullable _ _ hfind ih =>
    rw [(htable.of_find hfind).1, Text.isSolid_append (a := 63) rfl (by decide), ih]
    decide +kernel
  | list _ hfind ih =>
    rw [(htable.of_find hfind).1, Text.isSolid_append (a := 62) rfl (by decide), Text.ofString,
      Text.isSolid_ofChars_append, ih]
    decide +kernel

/-- The name of such a type is read as the type, and the table stays as it is. -/
theorem parseWithin_name (hu : u.Named) (htable : table.Keyed) (ht : u.Denotes table t) {n : Nat}
    (hn : t.name.length < n) : u.parseWithin namespaces n t.name table = (.ok t, table) := by
  induction ht generalizing n with
  | named hfind =>
    have hname := (hu.found hfind).2
    obtain ⟨n, rfl⟩ : ∃ k, n = k + 1 := ⟨n - 1, by omega⟩
    rw [parseWithin_succ, Text.trim_of_isSolid hname.solid, form_name hname, lookup,
      hname.notKeyword, hfind]
    rfl
  | @nullable s t hs hnull hfind ih =>
    have hname := (htable.of_find hfind).1
    have hsolid := (Denotes.nullable hs hnull hfind).isSolid hu htable
    obtain ⟨n, rfl⟩ : ∃ k, n = k + 1 := ⟨n - 1, by omega⟩
    rw [hname] at hn hsolid ⊢
    rw [Text.length_append, show ("?" : Text).length = 1 from rfl] at hn
    rw [parseWithin_succ, Text.trim_of_isSolid hsolid, form_question]
    simp only [ih (n := n) (by omega), built]
    rw [TypeTable.nullable_of_find hnull hfind]
  | @list s t hs hfind ih =>
    have hname := (htable.of_find hfind).1
    have hsolid := (Denotes.list hs hfind).isSolid hu htable
    obtain ⟨n, rfl⟩ : ∃ k, n = k + 1 := ⟨n - 1, by omega⟩
    rw [hname] at hn hsolid ⊢
    rw [Text.length_append, Text.length_append, show (">" : Text).length = 1 from rfl] at hn
    rw [parseWithin_succ, Text.trim_of_isSolid hsolid, form_list]
    simp only [ih (n := n) (by omega), built]
    rw [TypeTable.listOf_of_find hfind]

end Denotes

/-- Reading a type expression ends, since its parts are shorter, and the name of the type that it
denotes denotes that type, in whatever namespaces it is read and whatever types were asked for in
between. -/
theorem parse_name_of_parse {u : Universe} (hu : u.Defined) (history : List TypeRequest) (s : Text)
    (namespaces : List Text) :
    (∀ depth, s.length < depth →
      u.parseWithin namespaces depth s (TypeTable.after {} history) =
        u.parse s namespaces (TypeTable.after {} history)) ∧
      ∀ t table, u.parse s namespaces (TypeTable.after {} history) = (.ok t, table) →
        ∀ later namespaces',
          u.parse t.name namespaces' (table.after later) = (.ok t, table.after later) := by
  refine ⟨fun depth hdepth => parseWithin_eq hdepth (Nat.lt_succ_self _) _, ?_⟩
  intro t table hparse later namespaces'
  have hempty := TypeTable.empty_keyed.after history
  obtain ⟨hkeyed, ht⟩ := Denotes.of_parseWithin hu.named hempty hparse
  have hlater := ht.mono (table.after_extends later)
  exact hlater.parseWithin_name hu.named (hkeyed.after later) (Nat.lt_succ_self _)

theorem parse_name_of_parse_shop : let shop : Ty := .declared ⟨"App.Shop", true, 0⟩
    let shops : Ty := .list (.nullable shop) (.func [.nullable shop] .bool)
    let u : Universe := { named := initial.named ++ [(shop.name, shop)] }
    u.Defined ∧ (u.parse " IList< Shop ?>" ["App"] {}).1 = .ok shops ∧
      (u.parse "List<App.Shop?>" [] (u.parse " IList< Shop ?>" ["App"] {}).2).1 = .ok shops := by
  intro shop shops u
  have hname : ("App.Shop" : Text).IsTypeName :=
    ⟨rfl, by decide +kernel, by decide +kernel, rfl⟩
  have hu : u.Defined := .define (t := shop) .initial hname rfl
  have hparse : (u.parse " IList< Shop ?>" ["App"] {}).1 = .ok shops := by rfl
  have hagain := (parse_name_of_parse hu [] " IList< Shop ?>" ["App"]).2 shops _
    (Prod.ext hparse rfl) [] []
  exact ⟨hu, hparse, congrArg Prod.fst hagain⟩

end Universe

end Bindery
