import Bindery.Proofs.ValueTyping

/-!
# Members and types

A field or method is sound if it gives values of its declared type (`Declaration.Sound`,
`Method.Keeps`). The predeclared members are; those of other classes are given from outside, and
`Universe.Sound` is what is asked of them. Then a field that the checks find can be read wherever
its receiver is not null (`Ty.readField_gives`), and so can a method be called.
-/

namespace Bindery

open Value (HasType)

def Operand.normalize (t : Ty) : Operand → Operand
  | .value v => .value (v.normalize t)
  | f => f

/-- The method gives results of its declared type, if its receiver satisfies `R` and its arguments
are of the types of its parameters. -/
def Method.Keeps (c : Catalog) (m : Method) (R : Operand → Prop) : Prop :=
  ∀ run, m.run = some run → ∀ recv args, (m.isStatic = false → R recv) →
    List.Forall₂ (Operand.HasType c) m.params args →
    Gives (fun x => (x.normalize m.result).HasType c m.result) (run recv args)

def Operand.Receives (c : Catalog) (t : Ty) (x : Operand) : Prop :=
  x.HasType c t ∧ x.isNull = false

/-- The members of the class `d` have types of the universe, and give values of these types. -/
structure Declaration.Sound (u : Universe) (d : Declared) (members : Declaration) : Prop where
  fieldType : ∀ f ∈ members.fields, f.type.Formed u
  methodType : ∀ m ∈ members.methods, Ty.FormedAll u m.params ∧ m.result.Formed u
  getter : ∀ f ∈ members.fields, ∀ get, f.get = some get →
    ∀ v, HasType u.catalog (.declared d) v → v ≠ .null →
      (∀ w, get v = .ok w → HasType u.catalog f.type (w.normalize f.type)) ∧
        ∀ err, get v = .error err → err.Benign
  method : ∀ m ∈ members.methods, m.Keeps u.catalog (Operand.Receives u.catalog (.declared d))

/-- Stored functions keep to the types that they were stored with. -/
def Catalog.StoredSound (c : Catalog) : Prop :=
  ∀ n g, c.functions n = some g → Operand.HasType c (.func g.params g.result) (.func g.run)

/-- The static classes that every universe has are as predeclared, and the members of all other
classes and the stored functions are sound. -/
structure Universe.Sound (u : Universe) : Prop where
  math : u.catalog.find .math = .math
  resources : u.catalog.find .resources = .resources
  host : ∀ d, (d.name, .declared d) ∈ u.named → d ≠ .math → d ≠ .resources →
    (u.catalog.find d).Sound u d
  stored : u.catalog.StoredSound

namespace Method

variable {u : Universe} {c : Catalog} {m : Method} {R : Operand → Prop}

theorem applyMethod_gives (e : Expr) {recv : Operand} {args : List Operand} (hm : m.Keeps c R)
    (hrecv : m.isStatic = false → R recv)
    (hargs : List.Forall₂ (Operand.HasType c) m.params args) :
    Gives (Operand.HasType c m.result) (Expr.applyMethod e m recv args) := by
  rw [Expr.applyMethod]
  cases hrun : m.run with
  | none => exact .diagnosis _ _ _
  | some run =>
    have h := hm run hrun recv args hrecv hargs
    simp only
    cases hres : run recv args with
    | error fault => rw [hres] at h; exact Expr.failedIn_benign e h
    | ok x =>
      rw [hres] at h
      cases x with
      | value v | func f => exact h

theorem keeps_of_values {run : Operand → List Operand → Except Fault Operand}
    (hm : m.run = some run)
    (h : ∀ recv args, ∃ v, run recv args = .ok (.value v) ∧ HasType c m.result v) :
    m.Keeps c R := by
  intro run' hrun recv args _ _
  obtain rfl := Option.some.inj (hm.symm.trans hrun)
  obtain ⟨v, hv, ht⟩ := h recv args
  rw [hv]
  exact .of_value ht.normalize

theorem select_gives {p : List Value → Except Fault Operand} (wanted : Bool) {t : Ty} :
    (vs : List Value) → (∀ v ∈ vs, Gives (Operand.HasType c t) (p [v])) →
    Gives (fun picked => ∀ v ∈ picked, v ∈ vs) (select p wanted vs)
  | [], _ => by simp [select, Gives]
  | v :: vs, h => by
    rw [select]
    refine (h v (by simp)).bind fun b _ => ?_
    refine (select_gives wanted vs fun w hw => h w (by simp [hw])).bind fun rest hrest => ?_
    intro w hw
    split at hw
    · rcases List.mem_cons.1 hw with rfl | hw
      · simp
      · simp [hrest w hw]
    · simp [hrest w hw]

/-- What an operand of a function type is called as keeps to that type. -/
theorem callee?_hasType (hc : c.StoredSound) {ps : List Ty} {r : Ty} {x : Operand}
    (hx : x.HasType c (.func ps r)) {f : List Value → Except Fault Operand}
    (hf : callee? c.functions x = some f) : Operand.HasType c (.func ps r) (.func f) := by
  cases x with
  | func g => exact Option.some.inj hf ▸ hx
  | value v =>
    cases hx with
    | stored h =>
      rw [callee?, h] at hf
      exact Option.some.inj hf ▸ hc _ _ h
    | _ => cases hf

theorem filtered_gives (hc : c.StoredSound) (wanted : Bool) {elem p : Ty} {recv : Operand}
    {args : List Operand} (hrecv : recv.HasType c (.list elem p))
    (hargs : List.Forall₂ (Operand.HasType c) [.func [elem] .bool] args) :
    Gives (fun picked => ∀ v ∈ picked, HasType c elem v)
      (filtered c.functions wanted recv args) := by
  have helems : ∀ v ∈ elements recv, HasType c elem v := by
    obtain ⟨u, rfl, hu⟩ := hrecv.eq_value (by simp [Ty.kind]) (by simp [Ty.kind])
    cases hu with
    | list ref h => exact h
    | null _ | empty _ => simp [elements]
  obtain _ | ⟨hp, ⟨⟩⟩ := hargs
  rename_i a
  rw [filtered, firstArg, List.headD_cons]
  cases hf : callee? c.functions a with
  | none => exact .plain _
  | some f =>
    have hcall := callee?_hasType hc hp hf
    exact (select_gives wanted (elements recv) fun v hv => hcall [v]
      (.cons (helems v hv) .nil)).mono
      fun picked h v hv => helems v (h v hv)

/-! ## Predeclared methods -/

theorem anyMethods_keep (hm : m ∈ anyMethods) : m.Keeps c R := by
  obtain rfl := List.mem_singleton.1 hm
  exact keeps_of_values rfl fun recv _ => ⟨_, rfl, .text _⟩

theorem stringMethods_keep (hm : m ∈ stringMethods) : m.Keeps c R := by
  simp only [stringMethods, List.mem_cons, List.not_mem_nil, or_false] at hm
  rcases hm with rfl | rfl | rfl | rfl | rfl | rfl | rfl | rfl <;>
    exact keeps_of_values rfl fun _ _ => ⟨_, rfl, by constructor⟩

theorem keeps_of_filtered (hc : c.StoredSound) {elem p : Ty} {wanted : Bool}
    {f : List Value → Value}
    (hm : m.run = some fun recv args => do return f (← filtered c.functions wanted recv args))
    (hparams : m.params = [.func [elem] .bool]) (hstatic : m.isStatic = false)
    (hf : ∀ vs, (∀ v ∈ vs, HasType c elem v) → HasType c m.result (f vs)) :
    m.Keeps c (Operand.Receives c (.list elem p)) := by
  intro run hrun recv args hrecv hargs
  obtain rfl := Option.some.inj (hm.symm.trans hrun)
  rw [hparams] at hargs
  refine (filtered_gives hc wanted (hrecv hstatic).1 hargs).bind fun picked hpicked => ?_
  exact .of_value (hf picked hpicked).normalize

theorem listMethods_keep (hc : c.StoredSound) {elem : Ty}
    (hm : m ∈ listMethods c.functions elem (.func [elem] .bool)) :
    m.Keeps c (Operand.Receives c (.list elem (.func [elem] .bool))) := by
  simp only [listMethods, List.mem_cons, List.not_mem_nil, or_false] at hm
  rcases hm with rfl | rfl | rfl | rfl
  · exact keeps_of_filtered hc (f := fun vs => .bool !vs.isEmpty) rfl rfl rfl fun vs _ => .bool _
  · exact keeps_of_filtered hc (f := fun vs => .bool vs.isEmpty) rfl rfl rfl fun vs _ => .bool _
  · exact keeps_of_filtered hc (f := fun vs => .list none vs) rfl rfl rfl fun vs h => .list none h
  · exact keeps_of_values rfl fun _ _ => ⟨_, rfl, .bool _⟩

theorem keeps_of_extremum {isMax : Bool} {t : Ty} (hm : m.run = some (extremum isMax))
    (ht : t = .int ∨ t = .float) (hparams : m.params = [t, t]) (hresult : m.result = t) :
    m.Keeps c R := by
  intro run hrun recv args _ hargs
  obtain rfl := Option.some.inj (hm.symm.trans hrun)
  rw [hparams] at hargs
  obtain _ | ⟨ha, _ | ⟨hb, ⟨⟩⟩⟩ := hargs
  rw [hresult]
  rcases ht with rfl | rfl
  · obtain ⟨a, rfl, ha⟩ := ha.eq_value (by simp [Ty.kind, Ty.int]) (by simp [Ty.kind, Ty.int])
    obtain ⟨b, rfl, hb⟩ := hb.eq_value (by simp [Ty.kind, Ty.int]) (by simp [Ty.kind, Ty.int])
    obtain ⟨x, rfl⟩ := ha.eq_int rfl (ha.ne_null rfl rfl)
    obtain ⟨y, rfl⟩ := hb.eq_int rfl (hb.ne_null rfl rfl)
    exact .of_value (.normalize (.int _))
  · obtain ⟨a, rfl, ha⟩ := ha.eq_value (by simp [Ty.kind, Ty.float]) (by simp [Ty.kind, Ty.float])
    obtain ⟨b, rfl, hb⟩ := hb.eq_value (by simp [Ty.kind, Ty.float]) (by simp [Ty.kind, Ty.float])
    obtain ⟨x, rfl⟩ := ha.eq_float rfl (ha.ne_null rfl rfl)
    obtain ⟨y, rfl⟩ := hb.eq_float rfl (hb.ne_null rfl rfl)
    exact .of_value (.normalize (.float _))

end Method

theorem Declaration.math_sound (u : Universe) : Declaration.math.Sound u .math where
  fieldType _ h := nomatch h
  getter _ h := nomatch h
  methodType m hm := by
    simp only [math, List.mem_cons, List.not_mem_nil, or_false] at hm
    rcases hm with rfl | rfl | rfl | rfl | rfl <;>
      simp [Ty.FormedAll, Ty.Formed, Ty.int, Ty.float]
  method m hm := by
    simp only [math, List.mem_cons, List.not_mem_nil, or_false] at hm
    rcases hm with rfl | rfl | rfl | rfl | rfl
    iterate 2
      · exact Method.keeps_of_extremum rfl (.inl rfl) rfl rfl
      · exact Method.keeps_of_extremum rfl (.inr rfl) rfl rfl
    · refine Method.keeps_of_values rfl fun _ args => ?_
      rw [Method.magnitude]
      split <;> exact ⟨_, rfl, .float _⟩

theorem Declaration.resources_sound (u : Universe) : Declaration.resources.Sound u .resources where
  fieldType _ h := nomatch h
  getter _ h := nomatch h
  methodType m hm := by
    obtain rfl := List.mem_singleton.1 hm
    simp [Ty.FormedAll, Ty.Formed, Ty.string]
  method m hm := by
    obtain rfl := List.mem_singleton.1 hm
    exact Method.keeps_of_values rfl fun _ _ => ⟨_, rfl, .text _⟩

theorem Universe.Sound.declaration {u : Universe} (hs : u.Sound) {d : Declared}
    (hd : (d.name, .declared d) ∈ u.named) : (u.catalog.find d).Sound u d := by
  by_cases hmath : d = .math
  · rw [hmath, hs.math]
    exact Declaration.math_sound u
  by_cases hres : d = .resources
  · rw [hres, hs.resources]
    exact Declaration.resources_sound u
  · exact hs.host d hd hmath hres

namespace Ty

variable {u : Universe} {t : Ty}

/-! ## Members that the checks find -/

variable {c : Catalog} {f : Field} {m : Method} {name : Text} {v : Value}

theorem ownMethods_sound (hs : u.Sound) (ht : t.Formed u) (hm : m ∈ t.ownMethods u.catalog) :
    FormedAll u m.params ∧ m.result.Formed u ∧
      m.Keeps u.catalog (Operand.Receives u.catalog t) := by
  cases t with
  | basic b =>
    cases b with
    | any =>
      refine ⟨?_, ?_, Method.anyMethods_keep hm⟩
      all_goals obtain rfl := List.mem_singleton.1 hm; trivial
    | string =>
      refine ⟨?_, ?_, Method.stringMethods_keep hm⟩
      all_goals
        simp only [ownMethods, Method.stringMethods, List.mem_cons, List.not_mem_nil,
          or_false] at hm
        rcases hm with rfl | rfl | rfl | rfl | rfl | rfl | rfl | rfl <;>
          simp [FormedAll, Formed, string, bool]
    | _ => cases hm
  | declared d =>
    have hd := hs.declaration ht
    exact ⟨(hd.methodType m hm).1, (hd.methodType m hm).2, hd.method m hm⟩
  | list e p =>
    obtain ⟨he, rfl⟩ := ht
    refine ⟨?_, ?_, Method.listMethods_keep hs.stored hm⟩
    all_goals
      simp only [ownMethods, Method.listMethods, List.mem_cons, List.not_mem_nil, or_false] at hm
      rcases hm with rfl | rfl | rfl | rfl <;> simp [FormedAll, Formed, bool, he]
  | _ => cases hm

/-- A call chooses among methods of its name and number of parameters, which are those of the type
and those of all values. -/
theorem mem_overloads {arity : Nat} (hm : m ∈ t.overloads c name arity) :
    (m ∈ t.underlying.ownMethods c ∨ m ∈ Method.anyMethods) ∧ m.params.length = arity := by
  rw [overloads] at hm
  split at hm
  all_goals
    simp only [List.mem_append, List.mem_filter, Bool.and_eq_true, beq_iff_eq] at hm
    grind

theorem overloads_sound (hs : u.Sound) (ht : t.Formed u) {arity : Nat}
    (hm : m ∈ t.overloads u.catalog name arity) :
    m.params.length = arity ∧ FormedAll u m.params ∧ m.result.Formed u ∧
      m.Keeps u.catalog (Operand.Receives u.catalog t) := by
  obtain ⟨hm | hm, hlen⟩ := mem_overloads hm
  · obtain ⟨hparams, hresult, hkeeps⟩ := ownMethods_sound hs ht.underlying hm
    refine ⟨hlen, hparams, hresult, fun run hrun recv args hrecv => ?_⟩
    exact hkeeps run hrun recv args fun h => ⟨(hrecv h).1.underlying (hrecv h).2, (hrecv h).2⟩
  · refine ⟨hlen, ?_, ?_, Method.anyMethods_keep hm⟩
    all_goals obtain rfl := List.mem_singleton.1 hm; trivial

theorem readField_get (e : Expr) {get : Value → Except Error Value} (hget : f.get = some get)
    (hv : v ≠ .null) : Expr.readField e f v = match get v with
      | .ok w => .ok (.value (w.normalize f.type))
      | .error err => .error (e.failed (.member err.message)) := by
  rcases hw : get v with err | w
  all_goals cases v with
    | null => exact absurd rfl hv
    | _ => simp only [Expr.readField, hget, Operand.toValue, hw]

theorem readField_of_get (e : Expr) {get : Value → Except Error Value} (hget : f.get = some get)
    (hv : v ≠ .null) (hok : ∀ w, get v = .ok w → HasType c f.type (w.normalize f.type))
    (herr : ∀ err, get v = .error err → err.Benign) :
    Gives (Operand.HasType c f.type) (Expr.readField e f v) := by
  rw [readField_get e hget hv]
  cases hg : get v with
  | ok w => exact .of_value (hok w hg)
  | error err => exact .member _ (herr err hg)

theorem readField_of_object (e : Expr) {d : Declared} (hf : f ∈ (c.find d).fields)
    (hget : f.get = none) (hv : HasType c (.declared d) v) (hnull : v ≠ .null) :
    Gives (Operand.HasType c f.type) (Expr.readField e f v) := by
  cases hv with
  | null _ | empty _ => exact absurd rfl hnull
  | object ref hd hsome htype =>
    obtain ⟨w, hw⟩ := Option.isSome_iff_exists.1 (hsome f hf hget)
    simp only [Expr.readField, hget, hw, Option.getD_some]
    exact .of_value (htype f hf hget w hw).normalize

/-- A field that the checks find has a type of the universe, and reading it where its receiver is
not null gives a value of that type. -/
theorem readField_gives (hs : u.Sound) (ht : t.Formed u) (hf : t.field? u.catalog name = some f) :
    f.type.Formed u ∧ ∀ (e : Expr) {x : Operand}, Operand.Receives u.catalog t x →
      Gives (Operand.HasType u.catalog f.type) (Expr.readField e f x) := by
  have hmem := List.mem_of_find?_eq_some hf
  have hund := ht.underlying
  suffices h : f.type.Formed u ∧ ∀ (e : Expr) {v : Value}, HasType u.catalog t.underlying v →
      v ≠ .null → Gives (Operand.HasType u.catalog f.type) (Expr.readField e f v) by
    refine ⟨h.1, fun e x hx => ?_⟩
    have hx' := hx.1.underlying hx.2
    -- Neither functions nor values of all kinds have fields.
    have hkind : t.underlying.kind ≠ .any ∧ t.underlying.kind ≠ .func := by
      cases hu : t.underlying with
      | basic b => rw [hu] at hmem; cases b <;> first | simp [kind]; done | cases hmem
      | func ps r | nullable t => rw [hu] at hmem; cases hmem
      | list e p => simp [kind]
      | declared d => cases hd : d.isStatic <;> simp [kind, hd]
    obtain ⟨v, rfl, hv⟩ := hx'.eq_value hkind.1 hkind.2
    exact h.2 e hv (by rintro rfl; exact absurd hx.2 (by simp [Operand.isNull, Value.isNull]))
  cases hu : t.underlying with
  | basic b =>
    rw [hu] at hmem
    cases b with
    | string =>
      obtain rfl := List.mem_singleton.1 hmem
      refine ⟨trivial, fun e v hv hnull => ?_⟩
      refine readField_of_get e rfl hnull (fun w hw => ?_) (by rintro _ ⟨⟩)
      obtain rfl := Except.ok.inj hw
      exact .normalize (.int _)
    | _ => cases hmem
  | declared d =>
    rw [hu] at hmem hund
    have hd := hs.declaration hund
    refine ⟨hd.fieldType f hmem, fun e v hv hnull => ?_⟩
    cases hget : f.get with
    | none => exact readField_of_object e hmem hget hv hnull
    | some get =>
      obtain ⟨hok, herr⟩ := hd.getter f hmem get hget v hv hnull
      exact readField_of_get e hget hnull hok herr
  | list e p =>
    rw [hu] at hmem
    obtain rfl := List.mem_singleton.1 hmem
    refine ⟨trivial, fun e v hv hnull => ?_⟩
    cases hv with
    | null _ | empty _ => exact absurd rfl hnull
    | list ref h =>
      refine readField_of_get e rfl hnull (fun w hw => ?_) (by rintro _ ⟨⟩)
      obtain rfl := Except.ok.inj hw
      exact .normalize (.int _)
  | nullable t | func ps r => rw [hu] at hmem; cases hmem

end Ty

end Bindery
