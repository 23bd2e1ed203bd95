import Bindery.Proofs.CleanBindings
import Bindery.Proofs.ManifestData

/-!
# Manifests of pages

A page of clean inputs is recorded in a manifest that can be encoded, whichever of its bindings
failed, and what is read back has for each identity what was compiled of its first binding
(`Compiler.addPage_encodes`). A source that is UTF-8 is not enough for that: the names that its
syntax tree holds have to be UTF-8 too, or nothing of the page can be encoded
(`Linked.addPage_latin_name`).
-/

namespace Bindery

open Resolving

/-- The entry records what is compiled of a binding. -/
structure Entry.Records (e : Entry) (i : Input) (r : Compiled) : Prop where
  id : e.id = r.id
  code : e.code = i.source
  property : e.property = i.property
  value : e.value = (r.value.map Code.text).getD ∅
  cell : e.cell = (r.cell.map Code.text).getD ∅
  parameters : e.parameters = (r.value.map Code.parameters).getD []
  writable : e.writable = r.writer.isSome
  error : e.error = (r.error.map Error.message).getD ∅

namespace Compiler

variable {blank : Binding → Prop} {u : Universe} {o : Options} {b : Binding} {i : Input}
  {w x : Workspace}

/-! ## Entries -/

theorem attempt_input {p : Property} (hf : (standard u o).function? p = none)
    (hx : x.Kinded blank) {t : Text}
    (ht : x.known? b p = if t.isEmpty then none else some (.ok (.text t))) :
    (t.isEmpty ∧ ∃ e, (attempt ((standard u o).get b p)).run.run x = (.ok (.error e), x)) ∨
      (t.isEmpty = false ∧
        (attempt ((standard u o).get b p)).run.run x = (.ok (.ok (.text t)), x)) := by
  rw [run_attempt]
  split at ht
  · rename_i hempty
    have hrun := getWithin_unresolved (n := Property.all.length) ht List.not_mem_nil hf
    obtain ⟨e, he, -⟩ := annotate_clean hx b (unresolved_clean p)
    rw [get_run_error hrun, he]
    exact .inl ⟨hempty, e, rfl⟩
  · rename_i hempty
    rw [get_run_ok (getWithin_known ht)]
    exact .inr ⟨Bool.not_eq_true _ ▸ hempty, rfl⟩

theorem recordedCode_run (hu : u.Clean) (hregistry : o.registry.Clean) (hx : x.Kinded blank)
    (h : x.Holds b i) (hblank : blank b ↔ i.isBlank) :
    ∃ y, ((standard u o).recordedCode b).run.run x = (.ok i.source, y) ∧ y.Kinded blank ∧
      x.Grows (standard u o) y := by
  rcases attempt_input (u := u) (o := o) rfl hx h.source with ⟨hempty, e, hsource⟩ |
    ⟨hempty, hsource⟩
  · rw [recordedCode, run_bind_ok hsource]
    simp only [Input.source, hempty, if_true]
    cases hexpr : i.expr with
    | some e =>
      have hknown : ((standard u o).getAs b .parsedExpression .expr).run.run x =
          (.ok (some e), x) := by
        rw [getAs, run_bind_ok (get_run_ok (getWithin_known (h.expr e hexpr)))]
        rfl
      rw [run_bind_ok (by rw [run_attempt, hknown])]
      exact ⟨x, rfl, hx, .refl _ x⟩
    | none =>
      have hb : blank b := hblank.2 (by simp [Input.isBlank, hempty, hexpr])
      have hcalm : Keeps blank (standard u o) true
          ((standard u o).getAs b .parsedExpression .expr) _ :=
        getAs_keeps rfl (parsedExpression_calm hu hregistry _ [])
      obtain ⟨r, y, hrun, hy, hgrows, hr⟩ := hcalm.attempt_run hx
      rw [run_bind_ok hrun]
      -- A blank binding has no expression.
      rcases r with e | _ | e
      · exact ⟨y, rfl, hy, hgrows⟩
      · exact absurd hb (hr.1 rfl).2
      · obtain ⟨v, hv, -⟩ := hr.2 e rfl
        exact absurd hb hv.2
  · rw [recordedCode, run_bind_ok hsource, Input.source, hempty]
    exact ⟨x, rfl, hx, .refl _ x⟩

theorem recordedProperty_run (hx : x.Kinded blank) (h : x.Holds b i) :
    ((standard u o).recordedProperty b).run.run x = (.ok i.property, x) := by
  rcases attempt_input (u := u) (o := o) rfl hx h.property with ⟨hempty, e, hrun⟩ | ⟨-, hrun⟩
  · have hproperty : i.property = ∅ := Text.ext (List.isEmpty_iff.1 hempty)
    rw [recordedProperty, run_bind_ok hrun, hproperty]
    rfl
  · rw [recordedProperty, run_bind_ok hrun]
    rfl

theorem recordedType_run (hu : u.Clean) (hregistry : o.registry.Clean) (hx : x.Kinded blank)
    (b : Binding) : ∃ t y, ((standard u o).recordedType b).run.run x = (.ok t, y) ∧
      t.isUtf8 ∧ y.Kinded blank ∧ x.Grows (standard u o) y := by
  have hcalm : Keeps blank (standard u o) true ((standard u o).getAs b .resultType .type) _ :=
    getAs_keeps rfl (resultType_calm hu hregistry _ [])
  obtain ⟨r, y, hrun, hy, hgrows, hr⟩ := hcalm.attempt_run hx
  rw [recordedType, run_bind_ok hrun]
  rcases r with e | _ | t
  · exact ⟨∅, y, rfl, rfl, hy, hgrows⟩
  · obtain ⟨_, habsent, -⟩ := hr.1 rfl
    cases habsent
  · obtain ⟨v, ⟨t', rfl, ht'⟩, hmatch⟩ := hr.2 t rfl
    obtain rfl := Option.some.inj hmatch
    exact ⟨_, y, rfl, ht'.isUtf8_name, hy, hgrows⟩

/-- The entry of a clean binding can be made, and records it in UTF-8. -/
theorem entry_run (hu : u.Clean) (hregistry : o.registry.Clean) (hx : x.Kinded blank)
    {r : Compiled} (h : x.Holds r.binding i) (hblank : blank r.binding ↔ i.isBlank)
    (hi : i.Clean) (hr : r.Clean) : ∃ e y, ((standard u o).entry r).run.run x = (.ok e, y) ∧
      e.Records i r ∧ e.isUtf8 ∧ y.Kinded blank ∧ x.Grows (standard u o) y := by
  obtain ⟨y, hcode, hy, hxy⟩ := recordedCode_run hu hregistry hx h hblank
  have hproperty := recordedProperty_run (u := u) (o := o) hy (h.grows hxy)
  obtain ⟨t, z, htype, ht, hz, hyz⟩ := recordedType_run hu hregistry hy r.binding
  rw [entry, run_bind_ok hcode, run_bind_ok hproperty, run_bind_ok htype]
  refine ⟨_, z, rfl, ⟨rfl, rfl, rfl, rfl, rfl, rfl, rfl, rfl⟩, ?_, hz, hxy.trans hyz⟩
  have hsource := hi.isUtf8_source
  have hproperty := hi.property
  have hcell : ((r.cell.map Code.text).getD ∅).isUtf8 := by
    cases hc : r.cell with
    | none => rfl
    | some c => exact (hr.cell c hc).isUtf8_text
  have hvalue : ((r.value.map Code.text).getD ∅).isUtf8 ∧
      ∀ t ∈ (r.value.map Code.parameters).getD [], t.isUtf8 := by
    cases hc : r.value with
    | none => exact ⟨rfl, nofun⟩
    | some c => exact ⟨(hr.value c hc).isUtf8_text, (hr.value c hc).parameters⟩
  have herror : ((r.error.map Error.message).getD ∅).isUtf8 := by
    cases he : r.error with
    | none => rfl
    | some e => exact (hr.error e he).isUtf8_message
  simp only [Entry.isUtf8, Entry.texts, List.all_append, List.all_cons, List.all_nil, hr.id,
    hsource, hproperty, ht, hcell, hvalue.1, herror, List.all_eq_true.2 hvalue.2, Bool.and_true]

/-! ## Pages -/

/-- The inputs of a page with what was compiled of them, where the binding has an identity. -/
def identified (inputs : List Input) (rs : List Compiled) : List (Input × Compiled) :=
  (inputs.zip rs).filter fun p => !p.2.id.isEmpty

theorem addResults_run (hu : u.Clean) (hregistry : o.registry.Clean) {inputs : List Input}
    (hinputs : ∀ i ∈ inputs, i.Clean) {rs : List Compiled} (hx : x.Kinded blank)
    (h : List.Forall₂ (fun i r => x.Holds r.binding i ∧ r.Clean ∧
      (blank r.binding ↔ i.isBlank)) inputs rs) (m : Manifest) :
    ∃ es y, (Manifest.addResults (standard u o) rs m).run.run x = (.ok (m.addAll es), y) ∧
      List.Forall₂ (fun e p => e.Records p.1 p.2) es (identified inputs rs) ∧
      ∀ e ∈ es, e.isUtf8 := by
  induction rs generalizing inputs x m with
  | nil =>
    cases h
    exact ⟨[], x, rfl, .nil, nofun⟩
  | cons r rs ih =>
    obtain _ | @⟨i, _, inputs, _, ⟨hholds, hr, hblank⟩, hrest⟩ := h
    obtain ⟨hi, hinputs⟩ := List.forall_mem_cons.1 hinputs
    rw [Manifest.addResults]
    by_cases hid : r.id.isEmpty
    · rw [if_pos hid]
      obtain ⟨es, y, hrun, hes, hall⟩ := ih hinputs hx hrest m
      refine ⟨es, y, hrun, ?_, hall⟩
      simpa [identified, hid] using hes
    · rw [if_neg hid]
      obtain ⟨e, y, hentry, hrecords, hutf8, hy, hgrows⟩ :=
        entry_run hu hregistry hx hholds hblank hi hr
      obtain ⟨es, z, hrun, hes, hall⟩ := ih hinputs hy
        (hrest.imp fun j s hs => ⟨hs.1.grows hgrows, hs.2⟩) (m.add e)
      refine ⟨e :: es, z, (run_bind_ok hentry).trans hrun, ?_, List.forall_mem_cons.2 ⟨hutf8, hall⟩⟩
      simpa [identified, hid] using ⟨hrecords, hes⟩

theorem rel_find? {α β : Type} {R : α → β → Prop} {f : α → Bool} {g : β → Bool}
    {as : List α} {bs : List β} (h : List.Forall₂ R as bs) (hfg : ∀ a b, R a b → f a = g b) :
    Option.Rel R (as.find? f) (bs.find? g) := by
  induction h with
  | nil => exact .none
  | @cons a b as bs hab _ ih =>
    rw [List.find?_cons, List.find?_cons, ← hfg a b hab]
    cases f a with
    | true => exact .some hab
    | false => exact ih

/-- A page of clean inputs can be recorded and the manifest encoded, whichever bindings failed.
What is read back has one entry for each identity, which records the first binding that has it. -/
theorem addPage_encodes (hu : u.Clean) (hregistry : o.registry.Clean)
    (hw : w.Kinded fun _ => False) {inputs : List Input} (hinputs : ∀ i ∈ inputs, i.Clean)
    {turns : List Nat} {page : Page}
    (h : ((standard u o).compileIn turns inputs).run.run w = (.ok page, x)) {name : Text}
    (hname : name.isUtf8) : page.results.length = inputs.length ∧
      ∃ m y d m', (Manifest.addPage {} (standard u o) name page).run.run x = (.ok m, y) ∧
        m.toData = .ok d ∧ Manifest.ofData d = .ok m' ∧ m'.pages = [name] ∧ m'.Distinct ∧
        ∀ id, Option.Rel (fun e p => e.Records p.1 p.2) (m'.lookup id)
          ((identified inputs page.results).find? fun p => p.2.id == id) := by
  obtain ⟨hx, hresults⟩ := compileIn_keeps hu hregistry hw hinputs h
  -- Recording does not compile anything that can crash, so there is an entry for each identity.
  let start : Manifest := ({} : Manifest).addName name
  obtain ⟨es, y, hrun, hes, hall⟩ := addResults_run hu hregistry hinputs hx hresults start
  have hdistinct : (start.addAll es).Distinct := .addAll (m := start) List.nodup_nil es
  have hpages : (start.addAll es).pages = [name] := Manifest.pages_addAll start es
  have hutf8 : (∀ t ∈ (start.addAll es).pages, t.isUtf8) ∧
      ∀ e ∈ (start.addAll es).list, e.isUtf8 := by
    refine ⟨by simpa [hpages] using hname, fun e he => ?_⟩
    rcases Manifest.mem_addAll he with he | he
    · cases he
    · exact hall e he
  refine ⟨hresults.length_eq.symm, _, y, _, _, hrun,
    Manifest.toData_eq_ok_iff.2 ⟨hutf8, rfl⟩, Manifest.ofData_data _, hpages, hdistinct.entries,
    fun id => ?_⟩
  rw [hdistinct.lookup_entries, Manifest.lookup_addAll]
  exact rel_find? hes fun e p h => by rw [h.id]

end Compiler

/-! ## Pages of an application -/

namespace Linked

open Compiler

theorem page_clean : page.Clean := Text.isUtf8_ofString _

theorem types_clean : types.Clean := by
  have hadd := Universe.initial_clean.add page_clean members (fun f hf => ?_)
    (fun m hm => ?_) page.name
  · exact ⟨hadd.named, hadd.fields, hadd.methods, hadd.unreadable⟩
  · have hfilter : (Ty.func [page] .bool).Clean := ⟨⟨page_clean, trivial⟩, trivial⟩
    simp only [members, List.mem_cons, List.not_mem_nil, or_false] at hf
    rcases hf with rfl | rfl | rfl
    · exact ⟨Text.isUtf8_ofString _, page_clean, Ty.clean_basic _⟩
    · exact ⟨Text.isUtf8_ofString _, page_clean, page_clean, hfilter⟩
    · exact ⟨Text.isUtf8_ofString _, page_clean, hfilter⟩
  · obtain rfl := List.mem_singleton.1 hm
    exact ⟨Text.isUtf8_ofString _, page_clean, nofun, Ty.clean_basic _⟩

theorem scope_clean : scope.Clean :=
  List.forall_mem_singleton.2 ⟨page_clean, nofun⟩

/-- The second binding fails, and the third has the identity of the first and fails too. -/
def repeated : List Input := [
  { code := "Name", scope := some scope },
  { code := "Title", scope := some scope },
  { code := "Name", scope := some scope, expectedType := some .int }]

theorem repeated_clean : ∀ i ∈ repeated, i.Clean := by
  have hscope : ∀ s, some scope = some s → s.Clean := fun s hs =>
    Option.some.inj hs ▸ scope_clean
  simp only [repeated, List.forall_mem_cons, List.not_mem_nil, false_implies, implies_true,
    and_true]
  refine ⟨⟨by decide +kernel, rfl, hscope, by simp, by simp⟩,
    ⟨by decide +kernel, rfl, hscope, by simp, by simp⟩, by decide +kernel, rfl, hscope, by simp, ?_⟩
  exact fun t ht => Option.some.inj ht ▸ Ty.clean_basic .int

def outline (page : Page) : List (Bool × Bool) :=
  page.results.map fun r => (r.error.isSome, some r.id == page.results.head?.map (·.id))

/-- Of two bindings with one identity the first is recorded, and of a binding that fails the
error. -/
theorem addPage_encodes_repeated : ∃ page x m y d m',
    ((standard types {}).compilePage false repeated).run.run {} = (.ok page, x) ∧
    outline page = [(false, true), (true, false), (true, true)] ∧
    (Manifest.addPage {} (standard types {}) "page" page).run.run x = (.ok m, y) ∧
    m.toData = .ok d ∧ Manifest.ofData d = .ok m' ∧ m'.pages = ["page"] ∧ m'.Distinct ∧
    ∀ id, Option.Rel (fun e p => e.Records p.1 p.2) (m'.lookup id)
      ((identified repeated page.results).find? fun p => p.2.id == id) := by
  have houtline : (((standard types {}).compilePage false repeated).run.run {}).1.toOption.map
      outline = some [(false, true), (true, false), (true, true)] := by decide +kernel
  rcases hrun : ((standard types {}).compilePage false repeated).run.run {} with ⟨e | page, x⟩
  · rw [hrun] at houtline
    cases houtline
  · rw [hrun] at houtline
    have hcompiled : ((standard types {}).compileIn ((standard types {}).inOrder repeated)
        repeated).run.run {} = (.ok page, x) := hrun
    obtain ⟨-, m, y, d, m', h⟩ := addPage_encodes types_clean Registry.standard_clean
      (Workspace.kinded_empty _) repeated_clean hcompiled (Text.isUtf8_ofString "page")
    exact ⟨page, x, m, y, d, m', rfl, Option.some.inj houtline, h⟩

/-- The name in the second binding is UTF-8 in its source. -/
def latin : List Input := [
  { code := "Name", scope := some scope },
  { code := "é", scope := some scope }]

/-- A name that is not ASCII keeps the whole page from being encoded: the syntax tree holds a byte
of the name, and so does the error of its binding. -/
theorem addPage_latin_name : types.Clean ∧ scope.Clean ∧ (∀ i ∈ latin, i.code.isUtf8 ∧
      i.property.isUtf8 ∧ i.treeRoot.isUtf8 ∧ i.scope = some scope) ∧
    latin.map (Source.isClean ·.code) = [true, false] ∧ ∃ page x m y e,
      ((standard types {}).compilePage false latin).run.run {} = (.ok page, x) ∧
      (Manifest.addPage {} (standard types {}) "page" page).run.run x = (.ok m, y) ∧
      m.toData = .error e := by
  have hutf8 : ((do
      let page ← (standard types {}).compilePage false latin
      Manifest.addPage {} (standard types {}) "page" page).run.run {}).1.toOption.map
        (fun m : Manifest => m.list.all Entry.isUtf8) = some false := by decide +kernel
  refine ⟨types_clean, scope_clean, ?_, by decide +kernel, ?_⟩
  · simp [latin]
  rcases hpage : ((standard types {}).compilePage false latin).run.run {} with ⟨e | page, x⟩
  · rw [run_bind_error hpage] at hutf8
    cases hutf8
  rw [run_bind_ok hpage] at hutf8
  rcases hm : (Manifest.addPage {} (standard types {}) "page" page).run.run x with ⟨e | m, y⟩
  · rw [hm] at hutf8
    cases hutf8
  rw [hm] at hutf8
  have hall : m.list.all Entry.isUtf8 = false := Option.some.inj hutf8
  cases hdata : m.toData with
  | error e => exact ⟨page, x, m, y, e, rfl, hm, hdata⟩
  | ok d =>
    have := List.all_eq_true.2 (Manifest.toData_eq_ok_iff.1 hdata).1.2
    rw [hall] at this
    cases this

end Linked

end Bindery
