import Bindery.Manifest
import Bindery.Proofs.CleanTexts
import Mathlib.Data.List.Find

/-!
# Manifests as data

A manifest is data exactly if its texts are UTF-8 (`Manifest.toData_eq_ok_iff`), and then the data
stands for the same manifest, with its entries by identity (`Manifest.ofData_data`). Entries have
distinct identities, and the first that was added is the one that is found
(`Manifest.lookup_addAll`).
-/

namespace Bindery

/-! ## Encodable data -/

namespace Data

theorem firstMalformedItem?_texts (ts : List Text) :
    firstMalformedItem? (ts.map .text) = none ↔ ∀ t ∈ ts, t.isUtf8 := by
  induction ts with
  | nil => simp [firstMalformedItem?]
  | cons t ts ih => simp [firstMalformedItem?, firstMalformed?, ih]

theorem map_asText_text (ts : List Text) : (ts.map Data.text).map asText = ts := by
  rw [List.map_map]
  exact List.map_id ts

end Data

namespace Entry

/-- The texts of an entry, in the order in which they are written. -/
def texts (e : Entry) : List Text :=
  [e.id, e.cell, e.code, e.error] ++ e.parameters ++ [e.property, e.resultType, e.value]

def isUtf8 (e : Entry) : Bool := e.texts.all Text.isUtf8

theorem firstMalformed?_toData (e : Entry) :
    e.id.isUtf8 ∧ e.toData.firstMalformed? = none ↔ e.isUtf8 := by
  simp [toData, Data.firstMalformed?, Data.firstMalformedField?, Data.firstMalformedItem?_texts,
    isUtf8, texts]

theorem ofData_toData (e : Entry) : Entry.ofData e.id e.toData = e := by
  have hparameters : (e.toData.field "parameters").asList.map Data.asText = e.parameters :=
    Data.map_asText_text e.parameters
  rw [Entry.ofData, hparameters]
  rfl

end Entry

/-! ## Manifests and data -/

namespace Manifest

variable {m : Manifest}

theorem firstMalformedField?_entries (es : List Entry) :
    Data.firstMalformedField? (es.map fun e => (e.id, e.toData)) = none ↔
      ∀ e ∈ es, e.isUtf8 := by
  induction es with
  | nil => simp [Data.firstMalformedField?]
  | cons e es ih =>
    rw [List.forall_mem_cons, ← e.firstMalformed?_toData, ← ih]
    simp only [List.map_cons, Data.firstMalformedField?]
    split <;> simp [*]

theorem mem_entries {e : Entry} : e ∈ m.entries ↔ e ∈ m.list := List.mem_mergeSort

/-- What a manifest is as data, if its texts can be written. -/
def data (m : Manifest) : Data :=
  .record [("bindings", .record (m.entries.map fun e => (e.id, e.toData))),
    ("pages", .list (m.pages.map .text))]

/-- A manifest is data exactly if its texts are UTF-8. -/
theorem toData_eq_ok_iff {d : Data} : m.toData = .ok d ↔
    ((∀ t ∈ m.pages, t.isUtf8) ∧ ∀ e ∈ m.list, e.isUtf8) ∧ d = m.data := by
  have hmalformed : (Data.list [.list (m.pages.map .text),
      .record (m.entries.map fun e => (e.id, e.toData))]).firstMalformed? = none ↔
      (∀ t ∈ m.pages, t.isUtf8) ∧ ∀ e ∈ m.list, e.isUtf8 := by
    simp only [Data.firstMalformed?, Data.firstMalformedItem?, Option.or_none,
      Option.or_eq_none_iff, Data.firstMalformedItem?_texts, firstMalformedField?_entries,
      mem_entries]
  rw [← hmalformed, toData]
  split
  · rename_i t ht
    simp [ht]
  · rename_i h
    simp [h, data, eq_comm]

theorem entriesOf_toData (es : List Entry) :
    entriesOf (es.map fun e => (e.id, e.toData)) = .ok es := by
  induction es with
  | nil => rfl
  | cons e es ih =>
    have h : entriesOf ((e :: es).map fun e => (e.id, e.toData)) = (do
        let es ← entriesOf (es.map fun e => (e.id, e.toData))
        return Entry.ofData e.id e.toData :: es) := rfl
    rw [h, ih, e.ofData_toData]
    rfl

/-- The data of a manifest stands for the same manifest, with its entries by identity. -/
theorem ofData_data (m : Manifest) : ofData m.data = .ok { m with list := m.entries } := by
  have hpages : (m.data.field "pages").asList.map Data.asText = m.pages :=
    Data.map_asText_text m.pages
  have h : ofData m.data = (do
      let list ← entriesOf (m.entries.map fun e => (e.id, e.toData))
      return { pages := (m.data.field "pages").asList.map Data.asText, list }) := rfl
  rw [h, entriesOf_toData, hpages]
  rfl

/-! ## Distinct identities -/

/-- No two entries have the same identity. -/
def Distinct (m : Manifest) : Prop := (m.list.map (·.id)).Nodup

theorem lookup_eq_none {id : Text} : m.lookup id = none ↔ ∀ e ∈ m.list, e.id ≠ id := by
  simp [lookup]

/-- The first entry of an identity is the one that is found. -/
theorem lookup_add (m : Manifest) (e : Entry) (id : Text) :
    (m.add e).lookup id = (m.lookup id).or (if e.id = id then some e else none) := by
  unfold add
  split
  · rename_i h
    split
    · rename_i heq
      rw [heq] at h
      rw [Option.or_of_isSome h]
    · rw [Option.or_none]
  · simp [lookup, List.find?_append]

theorem Distinct.add (h : m.Distinct) (e : Entry) : (m.add e).Distinct := by
  unfold Manifest.add
  split
  · exact h
  · rename_i hnone
    rw [Option.not_isSome_iff_eq_none, lookup_eq_none] at hnone
    simp only [Distinct, List.map_append, List.map_cons, List.map_nil]
    refine List.nodup_append.2 ⟨h, List.nodup_singleton _, ?_⟩
    rintro _ hid _ hlast rfl
    obtain ⟨e', he', hid⟩ := List.mem_map.1 hid
    exact hnone e' he' (hid.trans (List.mem_singleton.1 hlast))

theorem Distinct.entries (h : m.Distinct) : ({ m with list := m.entries } : Manifest).Distinct :=
  ((List.mergeSort_perm _ _).map _).nodup_iff.2 h

theorem Distinct.lookup_entries (h : m.Distinct) (id : Text) :
    ({ m with list := m.entries } : Manifest).lookup id = m.lookup id := by
  refine List.find?_eq_find?_of_perm (List.mergeSort_perm _ _) ?_
  rintro e ⟨he, hid⟩ e' ⟨he', hid'⟩
  exact List.inj_on_of_nodup_map h (mem_entries.1 he) (mem_entries.1 he')
    ((eq_of_beq hid).trans (eq_of_beq hid').symm)

def addAll (m : Manifest) (es : List Entry) : Manifest := es.foldl add m

theorem Distinct.addAll (h : m.Distinct) (es : List Entry) : (m.addAll es).Distinct := by
  induction es generalizing m with
  | nil => exact h
  | cons e es ih => exact ih (h.add e)

theorem lookup_addAll (m : Manifest) (es : List Entry) (id : Text) :
    (m.addAll es).lookup id = (m.lookup id).or (es.find? fun e => e.id == id) := by
  induction es generalizing m with
  | nil => simp [addAll]
  | cons e es ih =>
    have h : m.addAll (e :: es) = (m.add e).addAll es := rfl
    rw [h, ih, lookup_add, Option.or_assoc, List.find?_cons]
    by_cases he : e.id = id
    · simp [he]
    · simp [he, beq_false_of_ne he]

theorem mem_addAll {es : List Entry} {e : Entry} (he : e ∈ (m.addAll es).list) :
    e ∈ m.list ∨ e ∈ es := by
  induction es generalizing m with
  | nil => exact .inl he
  | cons e' es ih =>
    rcases ih he with he | he
    · unfold add at he
      split at he
      · exact .inl he
      · rcases List.mem_append.1 he with he | he
        · exact .inl he
        · exact .inr (List.mem_cons.2 (.inl (List.mem_singleton.1 he)))
    · exact .inr (List.mem_cons_of_mem _ he)

theorem pages_addAll (m : Manifest) (es : List Entry) : (m.addAll es).pages = m.pages := by
  induction es generalizing m with
  | nil => rfl
  | cons e es ih =>
    refine (ih (m.add e)).trans ?_
    unfold add
    split <;> rfl

end Manifest

end Bindery
