import Bindery.Server.Assign
import Mathlib.Data.List.Nodup

/-!
# Locations inside values

A location is a list of keys, which leads from a value to one that it holds: by names through
objects and by positions through lists. `Value.held` is what is held at a location and `Value.put`
holds something else there. The two fit together: what is put can be found (`Value.held_put`), and
nothing is changed at a key beside the location (`Value.child?_setChild_of_ne`).

An assignment finds its object or list by reference. The references of labelled values are distinct
(`Value.labelList_spec`), so it changes them at one location (`Value.replaceList_eq_set`). Up to
references, labelled values are those that were given (`Value.bare`).
-/

namespace Bindery.Value

inductive Key where
  | name (t : Text)
  | item (i : Int64)
deriving DecidableEq

variable (name : Text)

variable (fields : Record Value)

/-- What an object holds under a name; a missing field is null. -/
def fieldOf : Value := (fields.get? name).getD .null

def itemAt? (items : List Value) (i : Int64) : Option Value :=
  if 0 ≤ i.toInt then items[i.toInt.toNat]? else none

def child? : Key → Value → Option Value
  | .name n, .object _ fields => some (fieldOf n fields)
  | .item i, .list _ items => itemAt? items i
  | _, _ => none

variable (new : Value)

/-- The value with another one at a key at which it holds one. -/
def setChild : Key → Value → Value
  | .name n, .object r fields => .object r (Record.assign n new fields)
  | .item i, .list r items => .list r (items.set i.toInt.toNat new)
  | _, v => v

def held : List Key → Value → Option Value
  | [], v => some v
  | k :: ks, v => (child? k v).bind (held ks)

/-- The value with another one at a location at which it holds one. -/
def put (new : Value) : List Key → Value → Value
  | [], _ => new
  | k :: ks, v => match child? k v with
    | some w => setChild (put new ks w) k v
    | none => v

/-! ## Putting and finding -/

theorem lookup_assign (key name : Text) (v : Value) (fields : Record Value) :
    Record.get? name (Record.assign key v fields) =
      if key = name then some v else fields.get? name := by
  induction fields with
  | nil => simp [Record.assign, Record.get?]
  | cons f fields ih =>
    obtain ⟨k, w⟩ := f
    by_cases hk : k = key
    · subst hk
      by_cases hn : k = name <;> simp [Record.assign, Record.get?, hn]
    · simp only [Record.assign, Record.get?, if_neg hk, ih]
      by_cases hn : k = name
      · rw [if_pos hn, if_pos hn, if_neg fun h => hk (hn.trans h.symm)]
      · rw [if_neg hn, if_neg hn]

variable {k : Key} {ms : List (Option Ref)} {ks : List Key} {items : List Value} {i n next : Nat}
  {r : Ref} {v w : Value}

theorem itemAt?_eq_some {i : Int64} (h : itemAt? items i = some v) :
    0 ≤ i.toInt ∧ items[i.toInt.toNat]? = some v := by
  unfold itemAt? at h
  split at h
  · exact ⟨‹_›, h⟩
  · cases h

theorem isSome_itemAt? (items : List Value) (i : Int64) :
    (itemAt? items i).isSome = (decide (0 ≤ i.toInt) && decide (i.toInt < items.length)) := by
  unfold itemAt?
  by_cases hi : 0 ≤ i.toInt
  · have hlt : (i.toInt.toNat < items.length) ↔ i.toInt < items.length := by omega
    rw [if_pos hi, decide_eq_true hi, Bool.true_and, Bool.eq_iff_iff, isSome_getElem?,
      decide_eq_true_iff, hlt]
  · rw [if_neg hi, decide_eq_false hi, Bool.false_and, Option.isSome_none]

theorem child?_setChild (h : child? k v = some w) : child? k (setChild new k v) = some new:= by
  cases k with
  | name n =>
    cases v with
    | object r fields => simp [setChild, child?, fieldOf, lookup_assign]
    | _ => cases h
  | item i =>
    cases v with
    | list r items =>
      obtain ⟨hi, hw⟩ := itemAt?_eq_some h
      obtain ⟨hlt, -⟩ := List.getElem?_eq_some_iff.1 hw
      simp only [setChild, child?, itemAt?, hi, if_true, List.getElem?_set_self hlt]
    | _ => cases h

theorem child?_setChild_of_ne {k' : Key} (h : child? k v = some w) (hne : k ≠ k') :
    child? k' (setChild new k v) = child? k' v := by
  cases k with
  | name n =>
    cases v with
    | object r fields =>
      cases k' with
      | name n' =>
        have hn : n ≠ n' := fun hn => hne (congrArg Key.name hn)
        simp [setChild, child?, fieldOf, lookup_assign, hn]
      | item i => rfl
    | _ => cases h
  | item i =>
    cases v with
    | list r items =>
      cases k' with
      | name n => rfl
      | item j =>
        obtain ⟨hi, -⟩ := itemAt?_eq_some h
        simp only [setChild, child?, itemAt?]
        split
        · -- Two positions from zero on are the same only if the words are.
          have hij : i.toInt.toNat ≠ j.toInt.toNat := fun hij =>
            hne (congrArg Key.item (Int64.toInt.inj (by omega)))
          rw [List.getElem?_set_ne hij]
        · rfl
    | _ => cases h

theorem held_put (h : (held ks v).isSome) : held ks (put new ks v) = some new:= by
  induction ks generalizing v with
  | nil => rfl
  | cons k ks ih =>
    obtain ⟨_, h⟩ := Option.isSome_iff_exists.1 h
    obtain ⟨w, hc, h⟩ := Option.bind_eq_some_iff.1 h
    simp only [put, hc, held, child?_setChild _ hc, Option.bind_some]
    exact ih (Option.isSome_of_eq_some h)

theorem held_append (ks ls : List Key) (v : Value) :
    held (ks ++ ls) v = (held ks v).bind (held ls) := by
  induction ks generalizing v with
  | nil => rfl
  | cons k ks ih =>
    rw [List.cons_append, held, held]
    cases child? k v with
    | none => rfl
    | some w => exact ih w

theorem held_snoc (ks : List Key) (k : Key) (v : Value) :
    held (ks ++ [k]) v = (held ks v).bind (child? k) := by
  rw [held_append]
  exact congrArg (Option.bind _) (funext fun w => Option.bind_fun_some (child? k w))

/-- Putting something below a location changes what is held at the location. -/
theorem put_append (ls : List Key) (h : held ks v = some w) :
    put new (ks ++ ls) v = put (put new ls w) ks v := by
  induction ks generalizing v with
  | nil =>
    obtain rfl := Option.some.inj h
    rfl
  | cons k ks ih =>
    obtain ⟨c, hc, h⟩ := Option.bind_eq_some_iff.1 h
    simp only [List.cons_append, put, hc, ih h]

theorem put_snoc {c : Value} (h : held ks v = some w) (hc : child? k w = some c) :
    put new (ks ++ [k]) v = put (setChild new k w) ks v := by
  rw [put_append new [k] h]
  simp only [put, hc]

theorem held_put_append (ls : List Key) (h : held ks v = some w) :
    held ks (put new (ks ++ ls) v) = some (put new ls w) := by
  rw [put_append new ls h]
  exact held_put _ (by rw [h]; rfl)

/-! ## Values without references -/

mutual

def bare : Value → Value
  | .list _ items => .list none (bareList items)
  | .object _ fields => .object none (bareFields fields)
  | v => v

def bareList : List Value → List Value
  | [] => []
  | v :: vs => bare v :: bareList vs

def bareFields : Record Value → Record Value
  | [] => []
  | (k, v) :: fs => (k, bare v) :: bareFields fs

end

theorem bareList_eq_map (vs : List Value) : bareList vs = vs.map bare := by
  induction vs with
  | nil => rfl
  | cons v vs ih => rw [bareList, ih, List.map_cons]

theorem lookup_bareFields : Record.get? name (bareFields fields) = (fields.get? name).map bare:= by
  induction fields with
  | nil => rfl
  | cons f fields ih =>
    obtain ⟨k, v⟩ := f
    simp only [bareFields, Record.get?, ih]
    split <;> rfl

theorem fieldOf_bareFields : fieldOf name (bareFields fields) = (fieldOf name fields).bare:= by
  rw [fieldOf, fieldOf, lookup_bareFields]
  cases fields.get? name <;> rfl

theorem itemAt?_bareList (items : List Value) (i : Int64) :
    itemAt? (bareList items) i = (itemAt? items i).map bare := by
  rw [itemAt?, itemAt?, bareList_eq_map, List.getElem?_map]
  split <;> rfl

theorem bareFields_assign (v : Value) (fields : Record Value) :
    bareFields (Record.assign name v fields) = Record.assign name v.bare (bareFields fields) := by
  induction fields with
  | nil => rfl
  | cons f fields ih =>
    obtain ⟨k, w⟩ := f
    simp only [Record.assign, bareFields]
    split
    · rfl
    · rw [bareFields, ih]

theorem child?_bare (k : Key) (v : Value) : child? k v.bare = (child? k v).map bare := by
  cases k with
  | name n =>
    cases v with
    | object r fields => simp only [bare, child?, fieldOf_bareFields, Option.map_some]
    | _ => rfl
  | item i =>
    cases v with
    | list r items => simp only [bare, child?, itemAt?_bareList]
    | _ => rfl

theorem bare_setChild (k : Key) (v : Value) :
    (setChild new k v).bare = setChild new.bare k v.bare := by
  cases k with
  | name n =>
    cases v with
    | object r fields => simp only [setChild, bare, bareFields_assign]
    | _ => rfl
  | item i =>
    cases v with
    | list r items => simp only [setChild, bare, bareList_eq_map, List.map_set]
    | _ => rfl

theorem held_bare (ks : List Key) (v : Value) : held ks v.bare = (held ks v).map bare := by
  induction ks generalizing v with
  | nil => rfl
  | cons k ks ih =>
    rw [held, held, child?_bare]
    cases child? k v with
    | none => rfl
    | some w => exact ih w

theorem bare_put (ks : List Key) (v : Value) : (put new ks v).bare = put new.bare ks v.bare:= by
  induction ks generalizing v with
  | nil => rfl
  | cons k ks ih =>
    rw [put, put, child?_bare]
    cases child? k v with
    | none => rfl
    | some w => simp only [Option.map_some, bare_setChild, ih]

/-- Values that differ in references only hold such values at the same locations. -/
theorem held_of_bare_eq (h : v.bare = w.bare) (ks : List Key) :
    (held ks v).map bare = (held ks w).map bare := by
  rw [← held_bare, h, held_bare]

theorem isSome_held_of_bare_eq (h : v.bare = w.bare) (ks : List Key) :
    (held ks v).isSome = (held ks w).isSome := by
  rw [← Option.isSome_map (f := bare), held_of_bare_eq h, Option.isSome_map]

theorem getElem?_of_bare_eq {items' : List Value} (h : items.map bare = items'.map bare)
    (hv : items[i]? = some v) : ∃ w, items'[i]? = some w ∧ w.bare = v.bare := by
  have := congrArg (·[i]?) h
  simp only [List.getElem?_map, hv, Option.map_some] at this
  exact Option.map_eq_some_iff.1 this.symm

theorem eq_texts_of_bare {ts : List Text} (h : v.bare = .loose (.texts ts)) :
    v = .loose (.texts ts) := by
  cases v with
  | list r items | object r fields => cases h
  | _ => exact h

theorem normalize_bare (t : Ty) (v : Value) : v.bare.normalize t = (v.normalize t).bare := by
  have hint n : (normalize.ofInt t n).bare = normalize.ofInt t n := by
    unfold normalize.ofInt; split <;> rfl
  have hfloat x : (normalize.ofFloat t x).bare = normalize.ofFloat t x := by
    unfold normalize.ofFloat; split <;> rfl
  cases v with
  | int n => exact (hint n).symm
  | float x => exact (hfloat x).symm
  | loose l =>
    cases l with
    | word n => exact (hint n).symm
    | int32 n => exact (hint n.toInt64).symm
    | single x => exact (hfloat x.toFloat).symm
    | texts ts =>
      have : bareList (ts.map .text) = ts.map .text := by
        rw [bareList_eq_map, List.map_map]
        rfl
      simp only [bare, normalize, this]
  | _ => rfl

theorem normalize_normalize (t : Ty) (v : Value) : (v.normalize t).normalize t = v.normalize t := by
  have hint n : (normalize.ofInt t n).normalize t = normalize.ofInt t n := by
    cases hk : t.kind == .float <;> simp [normalize.ofInt, normalize, normalize.ofFloat, hk]
    intro hi
    simp [hi] at hk
  have hfloat x : (normalize.ofFloat t x).normalize t = normalize.ofFloat t x := by
    cases hk : t.kind == .int && Number.isWhole x with
    | true =>
      have hf : (t.kind == .float) = false := by
        simp only [Bool.and_eq_true, beq_iff_eq] at hk
        simp [hk.1]
      simp [normalize.ofFloat, normalize, normalize.ofInt, hk, hf]
    | false => simp [normalize.ofFloat, normalize, hk]
  cases v with
  | int n => exact hint n
  | float x => exact hfloat x
  | loose l => cases l <;> first | exact hint _ | exact hfloat _ | rfl
  | _ => rfl

/-! ## References -/

mutual

/-- The references, or the lack of one, of the objects and lists in a value. -/
def marks : Value → List (Option Ref)
  | .list r items => r :: marksList items
  | .object r fields => r :: marksFields fields
  | _ => []

def marksList : List Value → List (Option Ref)
  | [] => []
  | v :: vs => marks v ++ marksList vs

def marksFields : Record Value → List (Option Ref)
  | [] => []
  | (_, v) :: fs => marks v ++ marksFields fs

end

theorem marks_sublist_list (h : v ∈ items) : (marks v).Sublist (marksList items) := by
  induction items with
  | nil => cases h
  | cons w items ih =>
    rw [marksList]
    rcases List.mem_cons.1 h with rfl | h
    · exact List.sublist_append_left ..
    · exact (ih h).trans (List.sublist_append_right ..)

theorem marks_sublist_fields : (marks (fieldOf name fields)).Sublist (marksFields fields):= by
  induction fields with
  | nil => exact .slnil
  | cons f fields ih =>
    obtain ⟨k, w⟩ := f
    rw [marksFields, fieldOf, Record.get?]
    split
    · exact List.sublist_append_left ..
    · exact ih.trans (List.sublist_append_right ..)

theorem marks_sublist_child (h : child? k v = some w) : (marks w).Sublist (marks v) := by
  cases k with
  | name n =>
    cases v with
    | object r fields => exact Option.some.inj h ▸ (marks_sublist_fields n fields).cons r
    | _ => cases h
  | item i =>
    cases v with
    | list r items =>
      exact (marks_sublist_list (List.mem_of_getElem? (itemAt?_eq_some h).2)).cons r
    | _ => cases h

theorem marks_sublist_held (h : held ks v = some w) : (marks w).Sublist (marks v) := by
  induction ks generalizing v with
  | nil => exact Option.some.inj h ▸ .refl _
  | cons k ks ih =>
    obtain ⟨c, hc, h⟩ := Option.bind_eq_some_iff.1 h
    exact (ih h).trans (marks_sublist_child hc)

theorem mem_marks_of_ref (h : v.ref? = some r) : some r ∈ marks v := by
  cases v with
  | list r' items | object r' fields => exact h ▸ List.mem_cons_self
  | _ => cases h

theorem lookup_of_mem_marks {fields : Record Value} {name : Text} {r : Option Ref}
    (hr : r ∈ marks (fieldOf name fields)) :
    fields.get? name = some (fieldOf name fields) := by
  unfold fieldOf at hr ⊢
  cases hl : fields.get? name with
  | none => rw [hl] at hr; cases hr
  | some v => rfl

/-! ### Replacement by reference -/

mutual

theorem replace_of_not_mem {r : Ref} (new v : Value) (h : some r ∉ marks v) :
    replace r new v = v := by
  cases v with
  | list r' items =>
    simp only [marks, List.mem_cons, not_or] at h
    rw [replace, if_neg (by simpa using Ne.symm h.1), replaceList_of_not_mem new items h.2]
  | object r' fields =>
    simp only [marks, List.mem_cons, not_or] at h
    rw [replace, if_neg (by simpa using Ne.symm h.1), replaceFields_of_not_mem new fields h.2]
  | _ => rfl

theorem replaceList_of_not_mem {r : Ref} (new : Value) :
    (vs : List Value) → some r ∉ marksList vs → replaceList r new vs = vs
  | [], _ => rfl
  | v :: vs, h => by
    simp only [marksList, List.mem_append, not_or] at h
    rw [replaceList, replace_of_not_mem new v h.1, replaceList_of_not_mem new vs h.2]

theorem replaceFields_of_not_mem {r : Ref} (new : Value) :
    (fs : Record Value) → some r ∉ marksFields fs → replaceFields r new fs = fs
  | [], _ => rfl
  | (k, v) :: fs, h => by
    simp only [marksFields, List.mem_append, not_or] at h
    rw [replaceFields, replace_of_not_mem new v h.1, replaceFields_of_not_mem new fs h.2]

end

theorem replaceList_eq_set (hd : (marksList items).Nodup) (hv : items[i]? = some v)
    (hr : some r ∈ marks v) : replaceList r new items = items.set i (replace r new v) := by
  induction items generalizing i with
  | nil => cases hv
  | cons w items ih =>
    rw [marksList, List.nodup_append] at hd
    obtain ⟨-, hitems, hdisjoint⟩ := hd
    rw [replaceList]
    cases i with
    | zero =>
      obtain rfl := Option.some.inj hv
      rw [replaceList_of_not_mem new items fun h => hdisjoint _ hr _ h rfl, List.set_cons_zero]
    | succ i =>
      have hmem : some r ∈ marksList items :=
        (marks_sublist_list (List.mem_of_getElem? (l := items) hv)).subset hr
      rw [replace_of_not_mem new w fun h => hdisjoint _ h _ hmem rfl, ih hitems hv,
        List.set_cons_succ]

theorem replaceFields_eq_assign {fields : Record Value} {name : Text}
    (hd : (marksFields fields).Nodup) (hv : fields.get? name = some v) (hr : some r ∈ marks v) :
    replaceFields r new fields = Record.assign name (replace r new v) fields := by
  induction fields with
  | nil => cases hv
  | cons f fields ih =>
    obtain ⟨k, w⟩ := f
    rw [marksFields, List.nodup_append] at hd
    obtain ⟨-, hfields, hdisjoint⟩ := hd
    rw [Record.get?] at hv
    rw [replaceFields, Record.assign]
    split at hv
    · rename_i hk
      obtain rfl := Option.some.inj hv
      rw [replaceFields_of_not_mem new fields fun h => hdisjoint _ hr _ h rfl, if_pos hk]
    · rename_i hk
      have hmem : some r ∈ marksFields fields := by
        have hsub := marks_sublist_fields name fields
        rw [fieldOf, hv] at hsub
        exact hsub.subset hr
      rw [replace_of_not_mem new w fun h => hdisjoint _ h _ hmem rfl, ih hfields hv, if_neg hk]

theorem replace_eq_setChild (hd : (marks v).Nodup) (hc : child? k v = some w)
    (hr : some r ∈ marks w) : replace r new v = setChild (replace r new w) k v := by
  cases k with
  | name n =>
    cases v with
    | object r' fields =>
      obtain rfl := Option.some.inj hc
      rw [marks, List.nodup_cons] at hd
      have hne : r' ≠ some r := fun h => hd.1 (h ▸ (marks_sublist_fields n fields).subset hr)
      rw [replace, if_neg (by simpa using hne),
        replaceFields_eq_assign new hd.2 (lookup_of_mem_marks hr) hr, setChild]
    | _ => cases hc
  | item i =>
    cases v with
    | list r' items =>
      have hw := (itemAt?_eq_some hc).2
      rw [marks, List.nodup_cons] at hd
      have hne : r' ≠ some r := fun h =>
        hd.1 (h ▸ (marks_sublist_list (List.mem_of_getElem? hw)).subset hr)
      rw [replace, if_neg (by simpa using hne), replaceList_eq_set new hd.2 hw hr, setChild]
    | _ => cases hc

/-- Where references are distinct, the object or list of a reference is replaced at its location. -/
theorem replace_eq_put (hd : (marks v).Nodup) (h : held ks v = some w)
    (hw : w.ref? = some r) : replace r new v = put new ks v := by
  induction ks generalizing v with
  | nil =>
    obtain rfl := Option.some.inj h
    cases v with
    | list r' items | object r' fields => exact if_pos (beq_iff_eq.2 hw)
    | _ => cases hw
  | cons k ks ih =>
    obtain ⟨c, hc, h⟩ := Option.bind_eq_some_iff.1 h
    have hmem : some r ∈ marks c := (marks_sublist_held h).subset (mem_marks_of_ref hw)
    have hnodup := hd.sublist (marks_sublist_child hc)
    rw [replace_eq_setChild new hd hc hmem, ih hnodup h]
    simp only [put, hc]

/-- Where references are distinct, the object or list of a reference is replaced at its location in
the one item that holds it. -/
theorem replaceList_eq_put (hd : (marksList items).Nodup) (hv : items[i]? = some v)
    (h : held ks v = some w) (hw : w.ref? = some r) :
    replaceList r new items = items.set i (put new ks v) := by
  have hmem : some r ∈ marks v := (marks_sublist_held h).subset (mem_marks_of_ref hw)
  have hnodup := hd.sublist (marks_sublist_list (List.mem_of_getElem? hv))
  rw [replaceList_eq_set new hd hv hmem, replace_eq_put new hnodup h hw]

/-! ### Labels -/

def isCompound : Value → Bool
  | .list .. | .object .. => true
  | _ => false

/-- The labels from `n` up to the number of the next one, in order. -/
def Labels (n next : Nat) (marks : List (Option Ref)) : Prop :=
  ∃ size, next = n + size ∧ marks = (List.range' n size).map some

theorem Labels.nil (n : Nat) : Labels n n [] := ⟨0, rfl, rfl⟩

theorem Labels.cons (h : Labels (n + 1) next ms) : Labels n next (some n :: ms) := by
  obtain ⟨size, rfl, rfl⟩ := h
  exact ⟨size + 1, by omega, by rw [List.range'_succ, List.map_cons]⟩

theorem Labels.append {middle : Nat} {ms' : List (Option Ref)} (h : Labels n middle ms)
    (h' : Labels middle next ms') : Labels n next (ms ++ ms') := by
  obtain ⟨size, rfl, rfl⟩ := h
  obtain ⟨size', rfl, rfl⟩ := h'
  exact ⟨size + size', by omega, by rw [← List.map_append, List.range'_append_1]⟩

theorem Labels.nodup (h : Labels n next ms) : ms.Nodup := by
  obtain ⟨size, -, rfl⟩ := h
  exact List.Nodup.map (fun _ _ h => Option.some.inj h) List.nodup_range'

theorem Labels.isSome (h : Labels n next ms) {r : Option Ref} (hr : r ∈ ms) : ∃ i, r = some i := by
  obtain ⟨size, -, rfl⟩ := h
  obtain ⟨i, -, rfl⟩ := List.mem_map.1 hr
  exact ⟨i, rfl⟩

theorem Labels.ref (h : Labels n next (marksList items)) (hv : items[i]? = some v)
    (hw : held ks v = some w) (hc : w.isCompound) : ∃ r, w.ref? = some r := by
  have hsub := (marks_sublist_held hw).trans (marks_sublist_list (List.mem_of_getElem? hv))
  cases w with
  | list r items | object r fields => exact h.isSome (hsub.subset List.mem_cons_self)
  | _ => cases hc

mutual

theorem label_spec (v : Value) (n : Nat) :
    Labels n ((label v).run n).2 (marks ((label v).run n).1) ∧
      ((label v).run n).1.bare = v.bare := by
  cases v with
  | list r items =>
    obtain ⟨hmarks, hbare⟩ := labelList_spec items (n + 1)
    exact ⟨hmarks.cons, congrArg (Value.list none) hbare⟩
  | object r fields =>
    obtain ⟨hmarks, hbare⟩ := labelFields_spec fields (n + 1)
    exact ⟨hmarks.cons, congrArg (Value.object none) hbare⟩
  | _ => exact ⟨.nil n, rfl⟩

theorem labelList_spec : (vs : List Value) → (n : Nat) →
    Labels n ((labelList vs).run n).2 (marksList ((labelList vs).run n).1) ∧
      bareList ((labelList vs).run n).1 = bareList vs
  | [], n => ⟨.nil n, rfl⟩
  | v :: vs, n => by
    obtain ⟨hv, hbare⟩ := label_spec v n
    obtain ⟨hvs, hbares⟩ := labelList_spec vs ((label v).run n).2
    exact ⟨hv.append hvs, congrArg₂ List.cons hbare hbares⟩

theorem labelFields_spec : (fs : Record Value) → (n : Nat) →
    Labels n ((labelFields fs).run n).2 (marksFields ((labelFields fs).run n).1) ∧
      bareFields ((labelFields fs).run n).1 = bareFields fs
  | [], n => ⟨.nil n, rfl⟩
  | (k, v) :: fs, n => by
    obtain ⟨hv, hbare⟩ := label_spec v n
    obtain ⟨hfs, hbares⟩ := labelFields_spec fs ((label v).run n).2
    exact ⟨hv.append hfs, congrArg₂ (fun w ws => (k, w) :: ws) hbare hbares⟩

end

end Bindery.Value
