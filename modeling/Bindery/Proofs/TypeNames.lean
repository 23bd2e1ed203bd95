import Bindery.Proofs.Outcome
import Bindery.Proofs.TextForms
import Bindery.Universe
import Mathlib.Data.List.Nodup

/-!
# Names of types

The checks compare types by name, and the table of constructed types answers by name. Where the
classes of a universe have different names without brackets, commas and question marks
(`Universe.WellNamed`), a name belongs to one type (`Ty.Formed.eq_of_name`), so both go by the type
itself.
-/

namespace Bindery

def Text.marks : List UInt8 := [60, 62, 44, 63]

/-- The text has no byte that names of constructed types are built with. -/
def Text.Plain (t : Text) : Prop := ∀ b ∈ t.bytes, b ∉ marks

instance (t : Text) : Decidable t.Plain := List.decidableBAll _ t.bytes

namespace Ty

mutual

/-- The type is built from classes of the universe in the way that the table of constructed types
builds types. -/
def Formed (u : Universe) : Ty → Prop
  | .basic _ => True
  | .declared d => (d.name, .declared d) ∈ u.named
  | .nullable t => Formed u t ∧ t.isNullable = false
  | .list e p => Formed u e ∧ p = .func [e] .bool
  | .func ps r => FormedAll u ps ∧ Formed u r

def FormedAll (u : Universe) : List Ty → Prop
  | [] => True
  | t :: ts => Formed u t ∧ FormedAll u ts

end

end Ty

theorem Ty.formedAll_iff {u : Universe} {ts : List Ty} : FormedAll u ts ↔ ∀ t ∈ ts, t.Formed u := by
  induction ts with
  | nil => simp [FormedAll]
  | cons t ts ih => simp [FormedAll, ih]

/-- The names of a universe belong to one type each, and are plain. -/
structure Universe.WellNamed (u : Universe) : Prop where
  keyed : ∀ e ∈ u.named, e.1 = e.2.name
  formed : ∀ e ∈ u.named, e.2.Formed u
  distinct : (u.named.map (·.1)).Nodup
  predeclared : ∀ t ∈ Universe.predeclared, (t.name, t) ∈ u.named
  plain : ∀ d, (d.name, .declared d) ∈ u.named → d.name.Plain

namespace Universe.WellNamed

variable {u : Universe}

theorem eq_of_name (hu : u.WellNamed) {s t : Ty} (hs : (s.name, s) ∈ u.named)
    (ht : (t.name, t) ∈ u.named) (h : s.name = t.name) : s = t :=
  congrArg Prod.snd (List.inj_on_of_nodup_map hu.distinct hs ht h)

theorem mem_basic (hu : u.WellNamed) (b : Basic) : ((Ty.basic b).name, .basic b) ∈ u.named := by
  apply hu.predeclared
  cases b <;> simp [Universe.predeclared, Ty.any, Ty.bool, Ty.int, Ty.float, Ty.string, Ty.void]

end Universe.WellNamed

namespace Ty

mutual

theorem Formed.mono {u u' : Universe} (h : ∀ e ∈ u.named, e ∈ u'.named) :
    (t : Ty) → t.Formed u → t.Formed u'
  | .basic _, _ => trivial
  | .declared _, ht => h _ ht
  | .nullable t, ht => ⟨Formed.mono h t ht.1, ht.2⟩
  | .list e _, ht => ⟨Formed.mono h e ht.1, ht.2⟩
  | .func ps r, ht => ⟨FormedAll.mono h ps ht.1, Formed.mono h r ht.2⟩

theorem FormedAll.mono {u u' : Universe} (h : ∀ e ∈ u.named, e ∈ u'.named) :
    (ts : List Ty) → FormedAll u ts → FormedAll u' ts
  | [], _ => trivial
  | t :: ts, hts => ⟨Formed.mono h t hts.1, FormedAll.mono h ts hts.2⟩

end

end Ty

namespace Universe

theorem initial_wellNamed : initial.WellNamed where
  keyed := by decide
  formed e he := by
    obtain ⟨t, ht, rfl⟩ := List.mem_map.1 he
    cases t with
    | basic b => trivial
    | declared d => exact he
    | _ => simp [predeclared, Ty.any, Ty.bool, Ty.int, Ty.float, Ty.string, Ty.void] at ht
  distinct := by decide
  predeclared t ht := List.mem_map_of_mem ht
  plain d hd := by
    simp only [initial, predeclared, List.map_cons, List.map_nil, List.mem_cons, List.not_mem_nil,
      or_false, Prod.mk.injEq, Ty.declared.injEq] at hd
    simp only [Ty.any, Ty.bool, Ty.int, Ty.float, Ty.string, Ty.void, reduceCtorEq, and_false,
      false_or] at hd
    rcases hd with ⟨-, rfl⟩ | ⟨-, rfl⟩ <;> decide

theorem WellNamed.add {u : Universe} (h : u.WellNamed) {d : Declared} (hnew : u.find? d.name = none)
    (hplain : d.name.Plain) (c : Catalog) :
    ({ named := u.named ++ [(d.name, .declared d)], catalog := c } : Universe).WellNamed where
  keyed e he := by
    rcases List.mem_append.1 he with he | he
    · exact h.keyed e he
    · obtain rfl := List.mem_singleton.1 he
      rfl
  formed e he := by
    rcases List.mem_append.1 he with he | he
    · exact (h.formed e he).mono (fun e he => List.mem_append_left _ he) _
    · obtain rfl := List.mem_singleton.1 he
      exact List.mem_append_right _ (List.mem_singleton_self _)
  distinct := by
    rw [List.map_append, List.nodup_append]
    refine ⟨h.distinct, by simp, ?_⟩
    rintro a ha b hb rfl
    obtain rfl : a = d.name := by simpa using hb
    obtain ⟨e, he, hname⟩ := List.mem_map.1 ha
    rw [find?, Option.map_eq_none_iff, List.find?_eq_none] at hnew
    exact hnew e he (by simp [hname])
  predeclared t ht := List.mem_append_left _ (h.predeclared t ht)
  plain d' hd' := by
    rcases List.mem_append.1 hd' with hd' | hd'
    · exact h.plain d' hd'
    · obtain ⟨-, rfl⟩ : d'.name = d.name ∧ d' = d := by simpa using hd'
      exact hplain

end Universe

namespace Ty

/-! ## Reading a name back -/

def core : Ty → Ty
  | .nullable t => t
  | t => t

def mark : Ty → List UInt8
  | .nullable _ => [63]
  | _ => []

theorem eq_of_core {s t : Ty} (hc : s.core = t.core) (hm : s.mark = t.mark) : s = t := by
  cases s <;> cases t <;> simp_all [core, mark]

variable (r : List UInt8)

/-- What may follow the name of a type: nothing, or a byte that names are built with other than an
opening bracket. -/
def Follows : Prop := ∀ b ∈ r.head?, b ≠ 60 ∧ b ∈ Text.marks

theorem basic_plain (b : Basic) : (Ty.basic b).name.Plain := by
  cases b <;> decide

section Bytes

variable {r r' : List UInt8}

theorem plain_append_inj {a b : List UInt8} (ha : ∀ x ∈ a, x ∉ Text.marks)
    (hb : ∀ x ∈ b, x ∉ Text.marks) (hr : ∀ x ∈ r.head?, x ∈ Text.marks)
    (hr' : ∀ x ∈ r'.head?, x ∈ Text.marks) (h : a ++ r = b ++ r') : a = b ∧ r = r' :=
  Text.append_stop_inj ha hb hr hr' h

theorem Follows.marks (h : Follows r) : ∀ x ∈ r.head?, x ∈ Text.marks := fun x hx => (h x hx).2

theorem plain_append_ne {a b : List UInt8} (ha : ∀ x ∈ a, x ∉ Text.marks)
    (hr : Follows r) (hb : ∀ x ∈ b, x ∉ Text.marks := by decide +kernel) :
    a ++ r ≠ b ++ 60 :: r' := by
  intro h
  obtain ⟨_, rfl⟩ := plain_append_inj ha hb hr.marks (by simp [Text.marks]) h
  exact (hr 60 rfl).1 rfl

end Bytes

/-- The name of a type can be read back, up to the mark that it admits null, whatever follows it. -/
def Reads (u : Universe) (s : Ty) : Prop :=
  ∀ (t : Ty) r r', t.Formed u → Follows r → Follows r' → s.name.bytes ++ r = t.name.bytes ++ r' →
    s.core = t.core ∧ s.mark ++ r = t.mark ++ r'

variable {u : Universe} {s t : Ty}

theorem mark_of_not_nullable (h : t.isNullable = false) : t.mark = [] := by
  cases t <;> simp_all [mark, isNullable]

theorem core_of_mark (h : t.mark = []) : t.core = t := by
  cases t <;> simp_all [core, mark]

theorem follows_question : Follows (63 :: r) := by
  simp [Follows, Text.marks]

theorem follows_close : Follows (62 :: r) := by
  simp [Follows, Text.marks]

theorem follows_comma : Follows (44 :: r) := by
  simp [Follows, Text.marks]

theorem reads_of_unmarked (hs : s.mark = [])
    (h : ∀ t r r', t.mark = [] → t.Formed u → Follows r → Follows r' →
      s.name.bytes ++ r = t.name.bytes ++ r' → s = t ∧ r = r') : Reads u s := by
  intro t r r' ht hr hr' heq
  rw [core_of_mark hs, hs]
  cases t with
  | nullable t =>
    have heq' : s.name.bytes ++ r = t.name.bytes ++ 63 :: r' := by
      rw [heq, name, Text.bytes_append, List.append_assoc]; rfl
    exact h t r _ (mark_of_not_nullable ht.2) ht.1 hr (follows_question r') heq'
  | _ => exact h _ r r' rfl ht hr hr' heq

theorem mark_cases (t : Ty) : t.mark = [] ∨ t.mark = [63] := by
  cases t <;> simp [mark]

theorem mark_append_inj {r r' : List UInt8} (hr : r.head? ≠ some 63) (hr' : r'.head? ≠ some 63)
    (h : s.mark ++ r = t.mark ++ r') : s.mark = t.mark ∧ r = r' := by
  rcases mark_cases s with hs | hs <;> rcases mark_cases t with ht | ht <;> rw [hs, ht] at h ⊢
  · exact ⟨rfl, h⟩
  · exact absurd (congrArg List.head? h) hr
  · exact absurd (congrArg List.head? h.symm) hr'
  · exact ⟨rfl, (List.cons.inj h).2⟩

theorem Reads.eq (hs : Reads u s) (ht : t.Formed u) {r r' : List UInt8} (hr : Follows r)
    (hr' : Follows r') (hq : r.head? ≠ some 63) (hq' : r'.head? ≠ some 63)
    (h : s.name.bytes ++ r = t.name.bytes ++ r') : s = t ∧ r = r' := by
  obtain ⟨hcore, hrest⟩ := hs t r r' ht hr hr' h
  obtain ⟨hmark, hrest⟩ := mark_append_inj hq hq' hrest
  exact ⟨eq_of_core hcore hmark, hrest⟩

theorem list_name (e p : Ty) (r : List UInt8) :
    (Ty.list e p).name.bytes ++ r = [76, 105, 115, 116] ++ 60 :: (e.name.bytes ++ 62 :: r) := by
  rw [name, Text.bytes_append, Text.bytes_append, List.append_assoc, List.append_assoc]
  rfl

theorem func_name (ps : List Ty) (res : Ty) (r : List UInt8) : (Ty.func ps res).name.bytes ++ r =
      [70, 117, 110, 99] ++ 60 :: ((Text.join "," (names ps ++ [name res])).bytes ++ 62 :: r) := by
  rw [name, Text.bytes_append, Text.bytes_append, List.append_assoc, List.append_assoc]
  rfl

theorem reads_plain (hu : u.WellNamed) (hs : (s.name, s) ∈ u.named) (hplain : s.name.Plain)
    (hmark : s.mark = []) : Reads u s := by
  refine reads_of_unmarked hmark fun t r r' ht hf hr hr' h => ?_
  have same (hmem : (t.name, t) ∈ u.named) (hp : t.name.Plain) : s = t ∧ r = r' := by
    obtain ⟨hname, hrest⟩ := plain_append_inj hplain hp hr.marks hr'.marks h
    exact ⟨hu.eq_of_name hs hmem (Text.ext hname), hrest⟩
  cases t with
  | basic b => exact same (hu.mem_basic b) (basic_plain b)
  | declared d => exact same hf (hu.plain d hf)
  | nullable t => cases ht
  | list e p => exact absurd (h.trans (list_name e p r')) (plain_append_ne hplain hr)
  | func ps res =>
    exact absurd (h.trans (func_name ps res r')) (plain_append_ne hplain hr)

/-- The names of a list of types, the last of them `res`, can be read back up to a closing
bracket. -/
def ReadsAll (u : Universe) (ps : List Ty) (res : Ty) : Prop :=
  ∀ ps' res' r r', FormedAll u ps' → res'.Formed u →
    (Text.join "," (names ps ++ [name res])).bytes ++ 62 :: r =
      (Text.join "," (names ps' ++ [name res'])).bytes ++ 62 :: r' →
    ps = ps' ∧ res = res' ∧ r = r'

theorem join_names (p q : Ty) (ps : List Ty) (r : List UInt8) :
    (Text.join "," (names (p :: ps) ++ [name q])).bytes ++ r =
      p.name.bytes ++ 44 :: ((Text.join "," (names ps ++ [name q])).bytes ++ r) := by
  cases ps with
  | nil | cons p' ps => simp [names, Text.join]; rfl

theorem readsAll_nil {res : Ty} (hres : Reads u res) : ReadsAll u [] res := by
  intro ps' res' r r' hps' hres' h
  cases ps' with
  | nil =>
    obtain ⟨hname, hrest⟩ := hres.eq hres' (follows_close r) (follows_close r')
      (by simp) (by simp) h
    exact ⟨rfl, hname, (List.cons.inj hrest).2⟩
  | cons p ps' =>
    rw [join_names] at h
    obtain ⟨_, hrest⟩ := hres.eq hps'.1 (follows_close r) (follows_comma _) (by simp) (by simp) h
    simp at hrest

theorem readsAll_cons {p res : Ty} {ps : List Ty} (hp : Reads u p) (hps : ReadsAll u ps res) :
    ReadsAll u (p :: ps) res := by
  intro ps' res' r r' hps' hres' h
  rw [join_names] at h
  cases ps' with
  | nil =>
    obtain ⟨_, hrest⟩ := hp.eq hres' (follows_comma _) (follows_close r') (by simp) (by simp) h
    simp at hrest
  | cons p' ps' =>
    rw [join_names] at h
    obtain ⟨rfl, hrest⟩ := hp.eq hps'.1 (follows_comma _) (follows_comma _) (by simp) (by simp) h
    obtain ⟨rfl, hres, hr⟩ := hps ps' res' r r' hps'.2 hres' (List.cons.inj hrest).2
    exact ⟨rfl, hres, hr⟩

mutual

theorem Formed.reads (hu : u.WellNamed) : (s : Ty) → s.Formed u → Reads u s
  | .basic b, _ => reads_plain hu (hu.mem_basic b) (basic_plain b) rfl
  | .declared d, hs => reads_plain hu hs (hu.plain d hs) rfl
  | .nullable s, hs => by
    intro t r r' ht hr hr' h
    have hmark := mark_of_not_nullable hs.2
    have h' : s.name.bytes ++ 63 :: r = t.name.bytes ++ r' := by
      rw [← h, name, Text.bytes_append, List.append_assoc]; rfl
    obtain ⟨hcore, hrest⟩ := Formed.reads hu s hs.1 t _ r' ht (follows_question r) hr' h'
    rw [core_of_mark hmark] at hcore
    rw [hmark] at hrest
    exact ⟨hcore, hrest⟩
  | .list e p, hs => by
    refine reads_of_unmarked rfl fun t r r' ht hf hr hr' h => ?_
    rw [list_name] at h
    cases t with
    | basic b => exact absurd h.symm (plain_append_ne (basic_plain b) hr')
    | declared d => exact absurd h.symm (plain_append_ne (hu.plain d hf) hr')
    | nullable t => cases ht
    | list e' p' =>
      rw [list_name, List.append_cancel_left_eq] at h
      obtain ⟨rfl, hrest⟩ := (Formed.reads hu e hs.1).eq hf.1 (follows_close r) (follows_close r')
        (by simp) (by simp) (List.cons.inj h).2
      exact ⟨by rw [hs.2, hf.2], (List.cons.inj hrest).2⟩
    | func ps res => rw [func_name] at h; simp at h
  | .func ps res, hs => by
    refine reads_of_unmarked rfl fun t r r' ht hf hr hr' h => ?_
    rw [func_name] at h
    cases t with
    | basic b => exact absurd h.symm (plain_append_ne (basic_plain b) hr')
    | declared d => exact absurd h.symm (plain_append_ne (hu.plain d hf) hr')
    | nullable t => cases ht
    | list e' p' => rw [list_name] at h; simp at h
    | func ps' res' =>
      rw [func_name, List.append_cancel_left_eq] at h
      obtain ⟨rfl, rfl, rfl⟩ := FormedAll.reads hu ps hs.1 res (Formed.reads hu res hs.2) ps' res'
        r r' hf.1 hf.2 (List.cons.inj h).2
      exact ⟨rfl, rfl⟩

theorem FormedAll.reads (hu : u.WellNamed) : (ps : List Ty) → FormedAll u ps → (res : Ty) →
    Reads u res → ReadsAll u ps res
  | [], _, _, hres => readsAll_nil hres
  | p :: ps, hps, res, hres =>
    readsAll_cons (Formed.reads hu p hps.1) (FormedAll.reads hu ps hps.2 res hres)

end

/-- A name belongs to one type. -/
theorem Formed.eq_of_name (hu : u.WellNamed) (hs : s.Formed u) (ht : t.Formed u)
    (h : s.name = t.name) : s = t := by
  have hnil : Follows [] := by simp [Follows]
  have h' : s.name.bytes ++ [] = t.name.bytes ++ [] := by rw [h]
  exact ((Formed.reads hu s hs).eq ht hnil hnil (by simp) (by simp) h').1

theorem Formed.eq_of_identical (hu : u.WellNamed) (hs : s.Formed u) (ht : t.Formed u)
    (h : s.identical t) : s = t := by
  simp only [identical, Bool.and_eq_true, beq_iff_eq] at h
  exact hs.eq_of_name hu ht h.1.1

theorem Formed.underlying (h : t.Formed u) : t.underlying.Formed u := by
  cases t with
  | nullable t =>
    rw [Ty.underlying]
    split
    · exact h.1
    · exact h
  | _ => exact h

theorem kind_ne_any_of_not_nullable (h : t.isNullable = false) : t.kind ≠ .any := by
  cases t with
  | basic b => cases b <;> first | simp [kind]; done | cases h
  | declared d => cases hd : d.isStatic <;> simp [kind, hd]
  | _ => cases h

theorem Formed.eq_any (h : t.Formed u) (hk : t.kind = .any) : t = .any := by
  cases t with
  | basic b => cases b <;> first | rfl | cases hk
  | declared d => cases hd : d.isStatic <;> simp [kind, hd] at hk
  | nullable t => exact absurd (show t.kind = .any from hk) (kind_ne_any_of_not_nullable h.2)
  | _ => cases hk

end Ty

/-! ## The table of constructed types -/

/-- A name belongs to one type of the set. -/
def Ty.Unambiguous (T : Ty → Prop) : Prop := ∀ {s t : Ty}, T s → T t → s.name = t.name → s = t

/-- A set of types that has what binding makes out of its types, and where a name belongs to one
type. -/
structure Ty.Realm (T : Ty → Prop) : Prop where
  basic (b : Basic) : T (.basic b)
  nullable {t : Ty} : T t → t.isNullable = false → T (.nullable t)
  ofNullable {t : Ty} : T (.nullable t) → T t
  list {t : Ty} : T t → T (.list t (.func [t] .bool))
  ofList {e p : Ty} : T (.list e p) → T e ∧ T p
  ofFunc {ps : List Ty} {r : Ty} : T (.func ps r) → (∀ p ∈ ps, T p) ∧ T r
  unique : Ty.Unambiguous T

theorem Ty.Realm.predicate {T : Ty → Prop} (hT : Ty.Realm T) {t : Ty} (ht : T t) :
    T (.func [t] .bool) :=
  (hT.ofList (hT.list ht)).2

theorem Universe.WellNamed.realm {u : Universe} (hu : u.WellNamed) : Ty.Realm (Ty.Formed u) where
  basic _ := trivial
  nullable ht hnull := ⟨ht, hnull⟩
  ofNullable ht := ht.1
  list ht := ⟨ht, rfl⟩
  ofList := by
    rintro e _ ⟨he, rfl⟩
    exact ⟨he, ⟨he, trivial⟩, trivial⟩
  ofFunc ht := ⟨Ty.formedAll_iff.1 ht.1, ht.2⟩
  unique hs ht h := hs.eq_of_name hu ht h

/-- The table holds types of the set under their names. -/
def TypeTable.Within (T : Ty → Prop) (table : TypeTable) : Prop :=
  ∀ e ∈ table.entries, e.1 = e.2.name ∧ T e.2

def TypeTable.Formed (u : Universe) (table : TypeTable) : Prop :=
  ∀ e ∈ table.entries, e.1 = e.2.name ∧ e.2.Formed u

namespace TypeTable

variable {T : Ty → Prop} {table : TypeTable} {t : Ty}

theorem Within.of_find (h : table.Within T) {name : Text} {found : Ty}
    (hfind : table.find? name = some found) : found.name = name ∧ T found := by
  obtain ⟨e, he, rfl⟩ := Option.map_eq_some_iff.1 hfind
  obtain ⟨hkey, he'⟩ := h e (List.mem_of_find?_eq_some he)
  have hname := List.find?_some he
  exact ⟨by rw [← hkey]; simpa using hname, he'⟩

theorem Within.eq_of_find (h : table.Within T) (hT : Ty.Unambiguous T) (ht : T t) {found : Ty}
    (hfind : table.find? t.name = some found) : found = t := by
  obtain ⟨hname, hfound⟩ := h.of_find hfind
  exact hT hfound ht hname

theorem Within.intern_named (h : table.Within T) (ht : T t) : (table.intern t).1.name = t.name ∧
    T (table.intern t).1 ∧ (table.intern t).2.Within T := by
  rw [TypeTable.intern]
  cases hfind : table.find? t.name with
  | some found => exact ⟨(h.of_find hfind).1, (h.of_find hfind).2, h⟩
  | none =>
    refine ⟨rfl, ht, fun e he => ?_⟩
    rcases List.mem_cons.1 he with rfl | he
    · exact ⟨rfl, ht⟩
    · exact h e he

theorem Within.intern (h : table.Within T) (hT : Ty.Unambiguous T) (ht : T t) :
    (table.intern t).1 = t ∧ (table.intern t).2.Within T :=
  have ⟨hname, hfound, h'⟩ := h.intern_named ht
  ⟨hT hfound ht hname, h'⟩

theorem Within.nullable (h : table.Within T) (hT : Ty.Unambiguous T)
    (ht : t.isNullable = false → T (.nullable t)) :
    (table.nullable t).1 = (if t.isNullable then t else .nullable t) ∧
      (table.nullable t).2.Within T := by
  rw [TypeTable.nullable]
  cases hnull : t.isNullable with
  | true => exact ⟨rfl, h⟩
  | false => exact h.intern hT (ht hnull)

theorem Within.listOf (h : table.Within T) (hT : Ty.Unambiguous T) (hfunc : T (.func [t] .bool))
    (hlist : T (.list t (.func [t] .bool))) :
    (table.listOf t).1 = .list t (.func [t] .bool) ∧ (table.listOf t).2.Within T := by
  rw [TypeTable.listOf]
  cases hfind : table.find? ("List<" ++ t.name ++ ">") with
  | some found => exact ⟨h.eq_of_find hT hlist hfind, h⟩
  | none =>
    obtain ⟨hp, h'⟩ := h.intern hT hfunc
    simp only [funcOf, hp]
    exact h'.intern hT hlist

end TypeTable

end Bindery
