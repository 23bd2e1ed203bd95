import Bindery.Proofs.TypeNames

/-!
# Requests for constructed types

The table of constructed types lives longer than a universe: types of any number of universes are
asked for in turn (`TypeTable.after`). A request is answered by the type that was entered first
under the name that it asks for, so one request has one answer for good, and the answer is the type
asked for as long as the types entered have different names.
-/

namespace Bindery

inductive TypeRequest where
  | nullable (t : Ty)
  | list (elem : Ty)
  | func (params : List Ty) (result : Ty)

namespace TypeRequest

def answer (table : TypeTable) : TypeRequest → Ty × TypeTable
  | .nullable t => table.nullable t
  | .list e => table.listOf e
  | .func ps r => table.funcOf ps r

def arguments : TypeRequest → List Ty
  | .nullable t => [t]
  | .list e => [e]
  | .func ps r => ps ++ [r]

def wanted : TypeRequest → Ty
  | .nullable t => if t.isNullable then t else .nullable t
  | .list e => .list e (.func [e] .bool)
  | .func ps r => .func ps r

/-- The types that the table has to have for the request. -/
def entered : TypeRequest → List Ty
  | .nullable t => if t.isNullable then [] else [.nullable t]
  | .list e => [.func [e] .bool, .list e (.func [e] .bool)]
  | .func ps r => [.func ps r]

end TypeRequest

namespace TypeTable

def after (table : TypeTable) (history : List TypeRequest) : TypeTable :=
  history.foldl (fun table q => (q.answer table).2) table

theorem after_append (table : TypeTable) (history later : List TypeRequest) :
    table.after (history ++ later) = (table.after history).after later :=
  List.foldl_append

/-- The table holds types under their names. -/
abbrev Keyed (table : TypeTable) : Prop := table.Within fun _ => True

/-- A larger table answers as a smaller one does. -/
def Extends (table table' : TypeTable) : Prop :=
  ∀ (name : Text) (t : Ty), table.find? name = some t → table'.find? name = some t

theorem Extends.trans {t₁ t₂ t₃ : TypeTable} (h : t₁.Extends t₂) (h' : t₂.Extends t₃) :
    t₁.Extends t₃ :=
  fun name t hfind => h' name t (h name t hfind)

/-- What it is to ask a table for a name: the table then has the answer under it. -/
structure Answered (table : TypeTable) (name : Text) (r : Ty × TypeTable) : Prop where
  found : r.2.find? name = some r.1
  grown : table.Extends r.2
  keyed : table.Keyed → r.2.Keyed

variable {table : TypeTable}

theorem Answered.of_find {name : Text} {t : Ty} (h : table.find? name = some t) :
    table.Answered name (t, table) :=
  ⟨h, fun _ _ => id, id⟩

theorem Answered.name (h : table.Keyed) {name : Text} {r : Ty × TypeTable}
    (hr : table.Answered name r) : r.1.name = name :=
  ((hr.keyed h).of_find hr.found).1

theorem intern_answered (t : Ty) : table.Answered t.name (table.intern t) := by
  rw [intern]
  cases hfind : table.find? t.name with
  | some found => exact .of_find hfind
  | none =>
    refine ⟨by simp [find?, insert], fun name s h => ?_, fun h e he => ?_⟩
    · have hne : t.name ≠ name := by
        rintro rfl
        rw [hfind] at h
        cases h
      simpa [find?, insert, hne] using h
    · rcases List.mem_cons.1 he with rfl | he
      · exact ⟨rfl, trivial⟩
      · exact h e he

theorem nullable_answered {t : Ty} (h : t.isNullable = false) :
    table.Answered (t.name ++ "?") (table.nullable t) := by
  rw [nullable, h]
  exact intern_answered (.nullable t)

theorem listOf_answered (e : Ty) : table.Answered ("List<" ++ e.name ++ ">") (table.listOf e) := by
  rw [listOf]
  cases hfind : table.find? ("List<" ++ e.name ++ ">") with
  | some found => exact .of_find hfind
  | none =>
    -- The type of the predicates is entered before the list type that keeps it.
    have hpredicate : table.Answered (Ty.func [e] .bool).name (table.funcOf [e] .bool) :=
      intern_answered (.func [e] .bool)
    have hlist := @intern_answered (table.funcOf [e] .bool).2 (.list e (table.funcOf [e] .bool).1)
    exact ⟨hlist.found, hpredicate.grown.trans hlist.grown,
      fun h => hlist.keyed (hpredicate.keyed h)⟩

theorem nullable_of_find {t found : Ty} (h : t.isNullable = false)
    (hfind : table.find? (t.name ++ "?") = some found) : table.nullable t = (found, table) := by
  rw [nullable, h, if_neg Bool.false_ne_true, intern, Ty.name, hfind]

theorem listOf_of_find {t found : Ty}
    (hfind : table.find? ("List<" ++ t.name ++ ">") = some found) :
    table.listOf t = (found, table) := by
  rw [listOf, hfind]

end TypeTable

namespace TypeRequest

open TypeTable

variable {table : TypeTable}

/-- A request for the nullable form of a type that admits null leaves the table as it is. -/
theorem answer_wanted_or_answered (q : TypeRequest) :
    (∀ table, q.answer table = (q.wanted, table)) ∨
      ∀ table : TypeTable, table.Answered q.wanted.name (q.answer table) := by
  cases q with
  | nullable t =>
    cases h : t.isNullable with
    | true => exact .inl fun table => by simp [answer, wanted, TypeTable.nullable, h]
    | false =>
      refine .inr fun table => ?_
      rw [wanted, h]
      exact nullable_answered h
  | list e => exact .inr fun table => listOf_answered e
  | func ps r => exact .inr fun table => intern_answered (.func ps r)

theorem answer_extends (q : TypeRequest) (table : TypeTable) :
    table.Extends (q.answer table).2 := by
  rcases q.answer_wanted_or_answered with h | h
  · rw [h]
    exact fun _ _ => id
  · exact (h table).grown

theorem answer_keyed (q : TypeRequest) (h : table.Keyed) : (q.answer table).2.Keyed := by
  rcases q.answer_wanted_or_answered with h' | h'
  · rwa [h']
  · exact (h' table).keyed h

end TypeRequest

namespace TypeTable

variable {table : TypeTable}

theorem after_extends (table : TypeTable) (history : List TypeRequest) :
    table.Extends (table.after history) := by
  induction history generalizing table with
  | nil => exact fun _ _ => id
  | cons q history ih => exact (q.answer_extends table).trans (ih _)

theorem Keyed.after (h : table.Keyed) (history : List TypeRequest) :
    (table.after history).Keyed := by
  induction history generalizing table with
  | nil => exact h
  | cons q history ih => exact ih (q.answer_keyed h)

theorem empty_keyed : ({} : TypeTable).Keyed := fun _ h => nomatch h

/-- Where the types entered have different names, each request is answered by the type asked for. -/
theorem Within.answer {T : Ty → Prop} (h : table.Within T) (hT : Ty.Unambiguous T) {q : TypeRequest}
    (hq : ∀ t ∈ q.entered, T t) : (q.answer table).1 = q.wanted ∧ (q.answer table).2.Within T := by
  cases q with
  | nullable t => exact h.nullable hT fun hnull => hq _ (by simp [TypeRequest.entered, hnull])
  | list e =>
    exact h.listOf hT (hq _ (by simp [TypeRequest.entered])) (hq _ (by simp [TypeRequest.entered]))
  | func ps r => exact h.intern hT (hq _ (by simp [TypeRequest.entered]))

theorem Within.after {T : Ty → Prop} (h : table.Within T) (hT : Ty.Unambiguous T)
    {history : List TypeRequest} (hhistory : ∀ q ∈ history, ∀ t ∈ q.entered, T t) :
    (table.after history).Within T := by
  induction history generalizing table with
  | nil => exact h
  | cons q history ih =>
    have hstep := (h.answer hT (hhistory q (List.mem_cons_self))).2
    exact ih hstep fun r hr => hhistory r (List.mem_cons_of_mem q hr)

end TypeTable

namespace TypeRequest

open TypeTable

/-- The first answer to a request is its answer for good. -/
theorem answer_after (q : TypeRequest) (table : TypeTable) (later : List TypeRequest) :
    (q.answer ((q.answer table).2.after later)).1 = (q.answer table).1 := by
  rcases q.answer_wanted_or_answered with h | h
  · rw [h, h]
  · have hfound := (q.answer table).2.after_extends later _ _ (h table).found
    have hagain := q.answer_extends _ _ _ hfound
    exact Option.some.inj ((h _).found.symm.trans hagain)

theorem answer_name (q : TypeRequest) {table : TypeTable} (h : table.Keyed) :
    (q.answer table).1.name = q.wanted.name := by
  rcases q.answer_wanted_or_answered with h' | h'
  · rw [h']
  · exact (h' table).name h

theorem entered_formed {u : Universe} {q : TypeRequest} (h : ∀ t ∈ q.arguments, t.Formed u) :
    ∀ t ∈ q.entered, t.Formed u := by
  cases q with
  | nullable t =>
    have ht := h t (List.mem_singleton_self t)
    cases hnull : t.isNullable <;> simp [entered, hnull, Ty.Formed, ht]
  | list e =>
    have he := h e (List.mem_singleton_self e)
    simp [entered, Ty.Formed, Ty.FormedAll, Ty.bool, he]
  | func ps r =>
    simp only [arguments, List.mem_append, List.mem_singleton] at h
    simp only [entered, List.mem_singleton, forall_eq, Ty.Formed]
    exact ⟨Ty.formedAll_iff.2 fun p hp => h p (.inl hp), h r (.inr rfl)⟩

/-- Whatever was asked for before, a request is answered by a type of the name asked for, and by
the same type whenever it is made again. It is the type asked for unless two types were entered
under one name; for types built from classes of one well named universe they never are. -/
theorem answer_eq_wanted (history later : List TypeRequest) (q : TypeRequest) :
    (q.answer (TypeTable.after {} history)).1.name = q.wanted.name ∧
      (q.answer (TypeTable.after {} (history ++ q :: later))).1 =
        (q.answer (TypeTable.after {} history)).1 ∧
      (Ty.Unambiguous (fun t => ∃ r ∈ q :: history, t ∈ r.entered) →
        (q.answer (TypeTable.after {} history)).1 = q.wanted) ∧
      ∀ u : Universe, u.WellNamed → (∀ r ∈ q :: history, ∀ t ∈ r.arguments, t.Formed u) →
        (q.answer (TypeTable.after {} history)).1 = q.wanted := by
  have hkeyed := empty_keyed.after history
  have exact_of {T : Ty → Prop} (hT : Ty.Unambiguous T)
      (h : ∀ r ∈ q :: history, ∀ t ∈ r.entered, T t) :
      (q.answer (TypeTable.after {} history)).1 = q.wanted := by
    have hempty : ({} : TypeTable).Within T := fun _ h => nomatch h
    have htable := hempty.after hT fun r hr => h r (List.mem_cons_of_mem q hr)
    exact (htable.answer hT (h q List.mem_cons_self)).1
  refine ⟨q.answer_name hkeyed, ?_, fun hT => ?_, fun u hu h => ?_⟩
  · rw [after_append]
    exact q.answer_after _ later
  · exact exact_of hT fun r hr t ht => ⟨r, hr, ht⟩
  · exact exact_of hu.realm.unique fun r hr => entered_formed (h r hr)

theorem answer_eq_wanted_shop : let shop : Declared := ⟨"App.Shop", false, 0⟩
    let u : Universe := { named := Universe.initial.named ++ [(shop.name, .declared shop)] }
    let history := [TypeRequest.list (.declared shop), .nullable .int]
    let q := TypeRequest.func [.declared shop, .nullable .int] .bool
    u.WellNamed ∧ (∀ r ∈ q :: history, ∀ t ∈ r.arguments, t.Formed u) ∧
      (q.answer (TypeTable.after {} history)).1 = .func [.declared shop, .nullable .int] .bool := by
  intro shop u history q
  have hu : u.WellNamed := Universe.initial_wellNamed.add (d := shop) (by decide) (by decide) {}
  have hargs : ∀ r ∈ q :: history, ∀ t ∈ r.arguments, t.Formed u := by
    simp [q, history, u, arguments, Ty.Formed, Ty.int, Ty.bool, Ty.isNullable]
  exact ⟨hu, hargs, (answer_eq_wanted history [] q).2.2.2 u hu hargs⟩

/-- The list type of a class serves a class of that name in another universe, and a comma in a name
makes one parameter out of two. -/
theorem answer_ne_wanted_of_shared_name : let shop : Ty := .declared ⟨"App.Address", false, 0⟩
    let post : Ty := .declared ⟨"App.Address", false, 1⟩
    let first : Ty := .declared ⟨"App.A", false, 0⟩
    let both : Ty := .declared ⟨"App.A,System.Int32", false, 1⟩
    ((TypeRequest.list post).answer (TypeTable.after {} [.list shop])).1.elem? = some shop ∧
      shop ≠ post ∧
      ((TypeRequest.func [both] .bool).answer
        (TypeTable.after {} [.func [first, .int] .bool])).1 = .func [first, .int] .bool := by
  refine ⟨rfl, ?_, rfl⟩
  simp

end TypeRequest

end Bindery
