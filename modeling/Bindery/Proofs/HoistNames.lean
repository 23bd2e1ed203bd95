import Bindery.Proofs.HoistRegions
import Bindery.Proofs.ScriptLikeness
import Bindery.Proofs.TextForms
import Mathlib.Data.List.Nodup
import Mathlib.Data.List.Perm.Subperm

/-!
# Names of temporaries

Temporaries are named after hoisting. `Script.named` is the script with temporaries under their
names and without those that are never read. Their names differ from each other and from all names
in the script (`temporaryNames_fresh`, `temporaryNames_inj`), every temporary that is read is
assigned somewhere and so has a name (`temporaryNames_isSome`), and the script assigns to no other
names (`Hoists.named`).
-/

namespace Bindery.Script

open Hoisting (Formed Grows)

/-! ## Fresh names -/

variable {b : Bool} {h h' : Hoisting} {os xs : List Script} {refs ts used : List Text} {i : Nat}
  {out s : Script} {n t : Text}

theorem placeholder_inj {j : Nat} (h : placeholder i = placeholder j) : i = j :=
  Text.ofNat_inj (Text.append_right_inj.1 h)

theorem tempName_inj {m n : Nat} (h : tempName m = tempName n) : m = n := by
  have hletter {i j : Nat} {s t : List UInt8}
      (h : (UInt8.ofNat (0x61 + i % 26)) :: s = UInt8.ofNat (0x61 + j % 26) :: t) :
      i % 26 = j % 26 ∧ s = t := by
    obtain ⟨hhead, htail⟩ := List.cons.inj h
    have hnat := congrArg UInt8.toNat hhead
    simp only [UInt8.toNat_ofNat'] at hnat
    exact ⟨by omega, htail⟩
  have hbytes := congrArg Text.bytes h
  unfold tempName at hbytes
  split at hbytes <;> split at hbytes
  · have := (hletter hbytes).1
    omega
  · exact absurd (hletter (t := (Text.ofNat (n / 26)).bytes) hbytes).2.symm
      (Text.bytes_ofNat_ne_nil _)
  · exact absurd (hletter (s := (Text.ofNat (m / 26)).bytes) hbytes).2 (Text.bytes_ofNat_ne_nil _)
  · obtain ⟨hmod, hdiv⟩ := hletter (s := (Text.ofNat (m / 26)).bytes)
      (t := (Text.ofNat (n / 26)).bytes) hbytes
    have := Text.ofNat_inj (Text.ext hdiv)
    omega

theorem tempName_ne_empty (k : Nat) : (tempName k).isEmpty = false := by
  unfold tempName
  split <;> rfl

theorem freshName_eq (used : List Text) : ∃ k, freshName used = tempName k := by
  simp only [freshName]
  cases hfind : ((List.range (used.length + 1)).map tempName).find? fun n => !used.contains n with
  | none => exact ⟨used.length, by rw [Option.getD_none]⟩
  | some n =>
    obtain ⟨k, _, rfl⟩ := List.mem_map.1 (List.mem_of_find?_eq_some hfind)
    exact ⟨k, by rw [Option.getD_some]⟩

/-- There are more candidates than names in use. -/
theorem freshName_not_mem (used : List Text) : freshName used ∉ used := by
  simp only [freshName]
  cases hfind : ((List.range (used.length + 1)).map tempName).find? fun n => !used.contains n with
  | some n =>
    rw [Option.getD_some]
    simpa using List.find?_some hfind
  | none =>
    have hsubset : (List.range (used.length + 1)).map tempName ⊆ used := by
      intro n hn
      simpa using List.find?_eq_none.1 hfind n hn
    have hnodup : ((List.range (used.length + 1)).map tempName).Nodup :=
      List.nodup_range.map fun _ _ h => tempName_inj h
    have := (hnodup.subperm hsubset).length_le
    rw [List.length_map, List.length_range] at this
    omega

theorem nameTemps_mem (h : (t, n) ∈ nameTemps refs used ts) : n ∉ used ∧ ∃ k, n = tempName k := by
  induction ts generalizing used with
  | nil => cases h
  | cons t' ts ih =>
    rw [nameTemps] at h
    split at h
    · rcases List.mem_cons.1 h with heq | h
      · obtain ⟨rfl, rfl⟩ := Prod.mk.inj heq
        exact ⟨freshName_not_mem used, freshName_eq used⟩
      · obtain ⟨hused, hname⟩ := ih h
        exact ⟨fun hmem => hused (List.mem_cons_of_mem _ hmem), hname⟩
    · exact ih h

theorem nameTemps_nodup (refs used ts : List Text) :
    ((nameTemps refs used ts).map (·.2)).Nodup := by
  induction ts generalizing used with
  | nil => exact .nil
  | cons t ts ih =>
    rw [nameTemps]
    split
    · refine List.nodup_cons.2 ⟨fun hmem => ?_, ih _⟩
      obtain ⟨⟨t', n⟩, hp, heq⟩ := List.mem_map.1 hmem
      obtain rfl : n = freshName used := heq
      exact (nameTemps_mem hp).1 (by simp)
    · exact ih _

theorem mem_of_lookup {names : Record Text} (h : names.lookup t = some n) :
    (t, n) ∈ names := by
  obtain ⟨l₁, l₂, heq, -⟩ := List.lookup_eq_some_iff.1 h
  simp [heq]

theorem nameTemps_inj {t' : Text} (h : (nameTemps refs used ts).lookup t = some n)
    (h' : (nameTemps refs used ts).lookup t' = some n) : t = t' := by
  have heq := List.inj_on_of_nodup_map (nameTemps_nodup refs used ts) (mem_of_lookup h)
    (mem_of_lookup h') rfl
  exact (Prod.mk.inj heq).1

theorem nameTemps_isSome (ht : t ∈ ts) (hrefs : 1 < refs.count t) :
    ((nameTemps refs used ts).lookup t).isSome := by
  induction ts generalizing used with
  | nil => cases ht
  | cons t' ts ih =>
    rw [nameTemps]
    rcases List.mem_cons.1 ht with rfl | ht
    · rw [if_pos hrefs]
      simp
    · split
      · rw [List.lookup_cons]
        split
        · rfl
        · exact ih ht
      · exact ih ht

/-! ## Operands -/

theorem Operands.length_eq {P : Bool → Hoisting → Script → Script → Hoisting → Prop}
    (hops : Operands P s i h xs os h') : os.length = xs.length := by
  induction hops with
  | nil => rfl
  | branch _ _ _ ih | always _ _ _ ih => simp [ih]

/-! ## Scripts that can be hoisted -/

/-- The node belongs to no temporary and assigns nothing, is not in parentheses and mentions only
names in `X`. -/
def Plain (X : Text → Prop) : Script → Prop
  | .ident m n => m.temp = false ∧ X n
  | .symbol _ _ (some d) => d.Everywhere (Steady X)
  | .binary _ .assign .. | .paren .. => False
  | .function _ ps _ => ∀ p ∈ ps, X p
  | .arrow m ps _ => m.temp = false ∧ ∀ p ∈ ps, X p
  | _ => True

def Clear (X : Text → Prop) (s : Script) : Prop := ∀ x ∈ s.nodes, x.Plain X

variable {X : Text → Prop} {names : Record Text}

theorem Clear.node (hs : s.Clear X) : s.Plain X := hs s (mem_nodes_self s)

theorem Clear.child {x : Script} (hs : s.Clear X) (hx : x ∈ s.children) : x.Clear X :=
  fun y hy => hs y (nodes_subset hx hy)

def isTempArrow : Script → Bool
  | .arrow m _ _ => m.temp
  | _ => false

/-- The script with temporaries under their names. -/
def named (names : Record Text) : Script → Script := transform (renameNode names)

theorem named_eq (s : Script) :
    s.named names = renameNode names (s.withChildren (s.children.map (named names))) := by
  rw [named, transform, fold_eq]

theorem renameNode_of_plain {ys : List Script} (hs : s.Plain X) (h : Reshaped s ys out)
    (hys : ∀ y ∈ ys, y.isTempArrow = false) : renameNode names out = out := by
  cases h <;> try rfl
  case ident m n => simp [renameNode, hs.1]
  case binary m op x y o p => cases op <;> first | rfl | exact False.elim hs
  case call m f as g os hlen =>
    have hg := hys g (by simp)
    cases g <;> first | rfl | simp_all [renameNode, isTempArrow]

theorem named_of_plain (hs : s.Plain X) (h : Reshaped s xs out)
    (hxs : ∀ x ∈ xs, (x.named names).isTempArrow = false) :
    out.named names = s.withChildren (xs.map (named names)) := by
  have hlen : (xs.map (named names)).length = s.children.length := by simp [h.length_eq]
  rw [named_eq, h.children_eq, h.withChildren_eq (by simp)]
  refine renameNode_of_plain hs (reshaped hlen) fun y hy => ?_
  obtain ⟨x, hx, rfl⟩ := List.mem_map.1 hy
  exact hxs x hx

theorem named_tempRef (m : Marks) (t : Text) : (tempRef m t).named names =
      .ident (({ temp := true } : Marks).merge m) ((names.lookup t).getD "") := by
  simp [named_eq, tempRef, withChildren, renameNode, Marks.merge]

def NonemptyNames (names : Record Text) : Prop := ∀ p ∈ names, p.2.isEmpty = false

theorem named_assign_some (hnames : NonemptyNames names) (ht : names.lookup t = some n)
    (m : Marks) (y : Script) : (Script.binary m .assign (tempRef {} t) y).named names =
      .binary m .assign (tempRef {} n) (y.named names) := by
  have hn : n.isEmpty = false := hnames _ (mem_of_lookup ht)
  rw [named_eq]
  simp only [children, List.map_cons, List.map_nil, withChildren, named_tempRef, ht,
    Option.getD_some, renameNode, hn, Bool.and_false]
  rfl

theorem named_assign_none (ht : names.lookup t = none) (m : Marks) (y : Script) :
    (Script.binary m .assign (tempRef {} t) y).named names = y.named names := by
  rw [named_eq]
  simp only [children, List.map_cons, List.map_nil, withChildren, named_tempRef, ht,
    Option.getD_none, renameNode]
  rfl

theorem named_literal (hs : s.isFunction) (b : Script) :
    (s.withChildren [b]).named names = s.withChildren [b.named names] := by
  cases s <;> cases hs <;> (rw [named_eq]; rfl)

variable (temps : List Text)

theorem named_wrapped (out : Script) : (wrapped temps out).named names =
      if (temps.filterMap fun t => names.lookup t).isEmpty then out.named names
      else .call out.marks (.arrow { temp := true } (temps.filterMap fun t => names.lookup t)
        (out.named names)) [] := by
  cases temps with
  | nil => rfl
  | cons t ts =>
    have harrow : (arrow { temp := true } (t :: ts) out).named names =
        .arrow { temp := true } (t :: ts) (out.named names) :=
      named_literal (s := .arrow { temp := true } (t :: ts) out) rfl out
    rw [wrapped, if_neg (by simp), named_eq]
    simp only [children, List.map_cons, List.map_nil, withChildren, harrow, renameNode, if_true]

theorem Operands.forall_mem {P : Bool → Hoisting → Script → Script → Hoisting → Prop}
    {Q : Script → Prop} (hops : Operands P s i h xs os h')
    (hPQ : ∀ x ∈ xs, ∀ b h o h₁, P b h x o h₁ → Q o) : ∀ o ∈ os, Q o := by
  induction hops with
  | nil => simp
  | branch hkey hx _ ih | always hkey hx _ ih =>
    exact List.forall_mem_cons.2 ⟨hPQ _ (by simp) _ _ _ _ hx, ih fun x hx => hPQ x (by simp [hx])⟩

theorem Plain.core_eq (hs : s.Plain X) : s.core = s := by
  cases s <;> first | rfl | exact hs.elim

theorem Reshaped.isFunction_eq (h : Reshaped s xs out) (hs : s.Plain X) :
    out.core.isFunction = s.isFunction := by
  cases h <;> first | rfl | exact hs.elim

theorem Reshaped.isTempArrow_eq (h : Reshaped s xs out) (hs : s.Plain X) :
    out.isTempArrow = false := by
  cases h <;> first | rfl | exact hs.1

/-! ## Temporaries that are read -/

def tempReads : Script → List Text :=
  fold fun s kids =>
    match s with
    | .ident m n => if m.temp then [n] else []
    | .binary _ .assign (.ident ..) _ => kids.tail.flatten
    | _ => kids.flatten

def tempWrites : Script → List Text :=
  fold fun s kids =>
    match s with
    | .binary _ .assign (.ident m n) _ => if m.temp then n :: kids.flatten else kids.flatten
    | _ => kids.flatten

def ownTemp : Script → List Text
  | .ident m n => if m.temp then [n] else []
  | _ => []

/-- The temporaries that the script mentions, once for each place. -/
def tempRefs : Script → List Text := fold fun s kids => s.ownTemp ++ kids.flatten

theorem tempReads_reshaped (hs : s.Plain X) (h : Reshaped s xs out) :
    out.tempReads = xs.flatMap tempReads := by
  rw [tempReads, h.fold_eq]
  rw [List.flatMap_def]
  cases h <;> try rfl
  case ident m n => simp [hs.1]
  case binary m op x y o p => cases op <;> first | rfl | exact False.elim hs

theorem tempWrites_reshaped (hs : s.Plain X) (h : Reshaped s xs out) :
    out.tempWrites = xs.flatMap tempWrites := by
  rw [tempWrites, h.fold_eq]
  rw [List.flatMap_def]
  cases h <;> try rfl
  case binary m op x y o p => cases op <;> first | rfl | exact False.elim hs

theorem tempReads_tempRef (m : Marks) (t : Text) : (tempRef m t).tempReads = [t] := by
  simp [tempReads, tempRef, fold, Marks.merge]

theorem tempReads_assign (m : Marks) (t : Text) (y : Script) :
    (Script.binary m .assign (tempRef {} t) y).tempReads = y.tempReads := by
  simp [tempReads, tempRef, fold]

theorem tempWrites_assign (m : Marks) (t : Text) (y : Script) :
    (Script.binary m .assign (tempRef {} t) y).tempWrites = t :: y.tempWrites := by
  simp [tempWrites, tempRef, fold, Marks.merge]

theorem tempReads_literal (hs : s.isFunction) (b : Script) :
    (s.withChildren [b]).tempReads = b.tempReads := by
  cases s <;> cases hs <;> simp [withChildren, tempReads, fold]

theorem tempReads_wrapped (out : Script) : (wrapped temps out).tempReads = out.tempReads:= by
  unfold wrapped
  split
  · rfl
  · simp [tempReads, fold, foldList]

theorem tempWrites_wrapped (out : Script) : (wrapped temps out).tempWrites = out.tempWrites:= by
  unfold wrapped
  split
  · rfl
  · simp [tempWrites, fold, foldList]

/-- Every temporary that is read or introduced is assigned, unless it was there before. -/
structure Covered (h : Hoisting) (reads writes : List Text) (h' : Hoisting) : Prop where
  reads : ∀ t ∈ reads, t ∈ h.temps ∨ t ∈ writes
  temps : ∀ t ∈ h'.temps, t ∈ h.temps ∨ t ∈ writes
  writes : ∀ t ∈ writes, ∃ k < h'.count, t = placeholder k

theorem Operands.covered (hops : Operands (fun b h x o h₁ => Hoists b h x o h₁ ∧
      (x.Clear X → Formed h → Covered h o.tempReads o.tempWrites h₁)) s i h xs os h')
    (hclear : ∀ x ∈ xs, x.Clear X) (hf : Formed h) :
    Covered h (os.flatMap tempReads) (os.flatMap tempWrites) h' := by
  -- The rest runs in a state that has the temporaries of the first operand too.
  have step {h h₁ h₂ : Hoisting} {o : Script} {os : List Script} (hcount : h₁.count ≤ h₂.count)
      (ho : Covered h o.tempReads o.tempWrites h₁)
      (hos : Covered h₁ (os.flatMap tempReads) (os.flatMap tempWrites) h₂) :
      Covered h ((o :: os).flatMap tempReads) ((o :: os).flatMap tempWrites) h₂ := by
    have later {t : Text} (ht : t ∈ h₁.temps ∨ t ∈ os.flatMap tempWrites) :
        t ∈ h.temps ∨ t ∈ (o :: os).flatMap tempWrites := by
      rw [List.flatMap_cons, List.mem_append]
      rcases ht with ht | ht
      · exact (ho.temps t ht).imp_right .inl
      · exact .inr (.inr ht)
    refine ⟨fun t ht => ?_, fun t ht => later (hos.temps t ht), fun t ht => ?_⟩
    · rw [List.flatMap_cons, List.mem_append] at ht
      rcases ht with ht | ht
      · rw [List.flatMap_cons, List.mem_append]
        exact (ho.reads t ht).imp_right .inl
      · exact later (hos.reads t ht)
    · rw [List.flatMap_cons, List.mem_append] at ht
      rcases ht with ht | ht
      · obtain ⟨k, hk, rfl⟩ := ho.writes t ht
        exact ⟨k, Nat.lt_of_lt_of_le hk hcount, rfl⟩
      · exact hos.writes t ht
  have rest {h₁ h₂ : Hoisting} {i : Nat} {xs os : List Script}
      (hrest : Operands (fun b h x o h₁ => Hoists b h x o h₁ ∧
        (x.Clear X → Formed h → Covered h o.tempReads o.tempWrites h₁)) s i h₁ xs os h₂)
      (hf₁ : Formed h₁) : h₁.count ≤ h₂.count :=
    ((hrest.mono fun _ _ _ _ _ _ hx => hx.1.grows).grows hf₁).2.count
  induction hops with
  | nil => exact ⟨by simp, fun t ht => .inl ht, by simp⟩
  | branch hkey hx hrest ih =>
    rename_i key h h₁ h₂ x o xs os
    obtain ⟨hf₁, hg₁⟩ := hx.1.grows (hf.enter _)
    have hf₁' := hf.leave hf₁ hg₁
    have ho := hx.2 (hclear x (by simp)) (hf.enter _)
    have ho' : Covered h o.tempReads o.tempWrites { h₁ with stack := h.stack } :=
      ⟨by simpa using ho.reads, by simpa using ho.temps, ho.writes⟩
    exact step (rest hrest hf₁') ho' (ih (fun y hy => hclear y (by simp [hy])) hf₁')
  | always hkey hx hrest ih =>
    rename_i x o xs os
    obtain ⟨hf₁, hg₁⟩ := hx.1.grows hf
    exact step (rest hrest hf₁) (hx.2 (hclear x (by simp)) hf)
      (ih (fun y hy => hclear y (by simp [hy])) hf₁)

theorem Hoists.covered (hs : Hoists b h s out h') (hclear : s.Clear X) (hf : Formed h) :
    Covered h out.tempReads out.tempWrites h' := by
  revert hclear hf
  refine hoisted_induct (P := fun _ h s out h' => s.Clear X → Formed h →
    Covered h out.tempReads out.tempWrites h') ?_ hs
  intro b h s out h' ht hclear hf
  have operands {xs h₁} (hops : Operands (fun b h x o h₁ => Hoists b h x o h₁ ∧
      (x.Clear X → Formed h → Covered h o.tempReads o.tempWrites h₁)) s 0 h s.children xs h₁) :
      Covered h (s.withChildren xs).tempReads (s.withChildren xs).tempWrites h₁ := by
    rw [tempReads_reshaped hclear.node (reshaped hops.length_eq),
      tempWrites_reshaped hclear.node (reshaped hops.length_eq)]
    exact hops.covered (fun x hx => hclear.child hx) hf
  -- What a function body reads it assigns.
  have body {b out : Script} {h₁ : Hoisting} (hbody : Covered (.start b h.count) out.tempReads
      out.tempWrites h₁) : Covered h (wrapped h₁.temps out).tempReads
        (wrapped h₁.temps out).tempWrites { h with count := h₁.count } := by
    rw [tempReads_wrapped, tempWrites_wrapped]
    refine ⟨fun t ht => .inr ?_, fun t ht => .inl ht, hbody.writes⟩
    exact (hbody.reads t ht).resolve_left (by simp [Hoisting.start])
  cases ht with
  | shape _ _ hops => exact operands hops
  | read hs hcount hfind =>
    rw [tempReads_tempRef]
    refine ⟨fun t ht => .inl ?_, fun t ht => .inl ht, by simp [tempWrites, tempRef, fold]⟩
    obtain rfl := List.mem_singleton.1 ht
    exact (Hoisting.visible_of_find (T := fun _ => True) hfind).mem_temps hf
  | assign hs hcount hops =>
    rename_i h₁ xs
    obtain ⟨hreads, htemps, hwrites⟩ := operands hops
    rw [tempReads_assign, tempWrites_assign]
    refine ⟨fun t ht => (hreads t ht).imp_right (List.mem_cons_of_mem _), fun t ht => ?_,
      fun t ht => ?_⟩
    · rcases List.mem_append.1 ht with ht | ht
      · exact (htemps t ht).imp_right (List.mem_cons_of_mem _)
      · exact .inr (List.mem_singleton.1 ht ▸ List.mem_cons_self)
    · rcases List.mem_cons.1 ht with rfl | ht
      · exact ⟨h₁.count, Nat.lt_succ_self _, rfl⟩
      · obtain ⟨k, hk, rfl⟩ := hwrites t ht
        exact ⟨k, Nat.lt_succ_of_lt hk, rfl⟩
  | literal _ hs hb hbody =>
    have hlen (o : Script) : [o].length = s.children.length := by simp [hb]
    rw [tempReads_reshaped hclear.node (reshaped (hlen _)),
      tempWrites_reshaped hclear.node (reshaped (hlen _)), List.flatMap_singleton,
      List.flatMap_singleton]
    exact body (hbody.2 (hclear.child (by simp [hb])) (Hoisting.formed_start _ _))

theorem tempRefs_eq (s : Script) : s.tempRefs = s.ownTemp ++ s.children.flatMap tempRefs := by
  rw [tempRefs, fold_eq, List.flatMap_def]

theorem count_tempRefs (s : Script) (t : Text) :
    s.tempReads.count t + s.tempWrites.count t ≤ s.tempRefs.count t := by
  have list {xs : List Script} (hxs : ∀ x ∈ xs,
      x.tempReads.count t + x.tempWrites.count t ≤ x.tempRefs.count t) :
      (xs.flatMap tempReads).count t + (xs.flatMap tempWrites).count t ≤
        (xs.flatMap tempRefs).count t := by
    induction xs with
    | nil => simp
    | cons x xs ih =>
      have hx := hxs x (by simp)
      have hrest := ih fun y hy => hxs y (by simp [hy])
      simp only [List.flatMap_cons, List.count_append]
      omega
  induction s using induct_children with
  | h s ih =>
    have hkids := list ih
    -- All nodes but names and assignments only pass on what their operands have.
    have other (hreads : s.tempReads = s.children.flatMap tempReads)
        (hwrites : s.tempWrites = s.children.flatMap tempWrites) :
        s.tempReads.count t + s.tempWrites.count t ≤ s.tempRefs.count t := by
      rw [hreads, hwrites, tempRefs_eq, List.count_append]
      omega
    cases s with
    | ident m n =>
      have hwrites : (ident m n).tempWrites = [] := rfl
      have hrefs : (ident m n).tempRefs = (ident m n).tempReads := List.append_nil _
      rw [hwrites, hrefs]
      exact Nat.le_refl _
    | binary m op x y =>
      cases op with
      | assign =>
        have hy := ih y (by simp [children])
        cases x with
        | ident tm n =>
          have hreads : (binary m .assign (.ident tm n) y).tempReads = y.tempReads :=
            List.append_nil _
          have hrefs : (binary m .assign (.ident tm n) y).tempRefs =
              (ident tm n).tempRefs ++ (y.tempRefs ++ []) := rfl
          have hwrites : (binary m .assign (.ident tm n) y).tempWrites =
              (ident tm n).ownTemp ++ y.tempWrites := by
            change (if tm.temp then n :: (y.tempWrites ++ []) else y.tempWrites ++ []) = _
            rw [List.append_nil, ownTemp]
            split <;> rfl
          have hown : (ident tm n).tempRefs = (ident tm n).ownTemp := List.append_nil _
          rw [hreads, hwrites, hrefs, hown, List.append_nil, List.count_append, List.count_append]
          omega
        | _ =>
          exact other (by rw [tempReads, fold_eq, List.flatMap_def])
            (by rw [tempWrites, fold_eq, List.flatMap_def])
      | _ =>
        exact other (by rw [tempReads, fold_eq, List.flatMap_def])
          (by rw [tempWrites, fold_eq, List.flatMap_def])
    | _ =>
      exact other (by rw [tempReads, fold_eq, List.flatMap_def])
        (by rw [tempWrites, fold_eq, List.flatMap_def])

/-! ## Names that are assigned -/

theorem assigned_reshaped (hs : s.Plain X) (h : Reshaped s xs out) :
    out.bare.assigned = xs.flatMap fun x => x.bare.assigned := by
  cases h
  case symbol m n d =>
    cases d with
    | none => rfl
    | some d => exact assigned_bare_of_pure d (hs.mono fun _ h => h.isPure)
  case binary m op x y o p =>
    cases op <;> first | exact False.elim hs | simp [bare, assigned]
  all_goals
    simp [bare, assigned, assignedList_eq_flatMap, assignedProps_eq_flatMap, bareList_eq_map,
      bareProps_eq_map, List.flatMap_map, Function.comp_def]

theorem assigned_of_clear (hclear : s.Clear X) : s.bare.assigned = [] := by
  induction s using induct_children with
  | h s ih =>
    have hs : Reshaped s s.children s := by
      have := reshaped (s := s) rfl
      rwa [withChildren_children] at this
    rw [assigned_reshaped hclear.node hs, List.flatMap_eq_nil_iff]
    exact fun x hx => ih x hx (hclear.child hx)

theorem assigned_wrapped (out : Script) :
    ((wrapped temps out).named names).bare.assigned = (out.named names).bare.assigned := by
  rw [named_wrapped]
  split
  · rfl
  · simp [bare, bareList, assigned, assignedList]

/-! ## Temporaries in the result -/

/-- The names of temporaries that the node itself mentions or introduces. -/
def ownNames : Script → List Text
  | .ident m n => if m.temp then [n] else []
  | .arrow m ps _ => if m.temp then ps else []
  | _ => []

def temporaries (s : Script) : List Text := s.nodes.flatMap ownNames

theorem temporaries_eq (s : Script) :
    s.temporaries = s.ownNames ++ s.children.flatMap temporaries := by
  rw [temporaries, nodes, fold_eq, List.flatMap_cons, ← List.flatMap_id, List.flatMap_assoc,
    List.flatMap_map]
  rfl

theorem temporaries_reshaped (hs : s.Plain X) (h : Reshaped s xs out) :
    out.temporaries = xs.flatMap temporaries := by
  have hown : out.ownNames = [] := by
    cases h <;> first | rfl | simp [ownNames, hs.1]
  rw [temporaries_eq, hown, h.children_eq, List.nil_append]

/-- What a script is like under the names of temporaries. It assigns exactly to temporaries, to
those that are read and to nothing else, and mentions them only by name. -/
structure NamedWell (names : Record Text) (out : Script) : Prop where
  isTempArrow : (out.named names).isTempArrow = false
  writes : ∀ t ∈ out.tempWrites, ∀ n, names.lookup t = some n → n ∈ (out.named names).bare.assigned
  assigned : ∀ n ∈ (out.named names).bare.assigned, ∃ t, names.lookup t = some n
  temporaries : (∀ t ∈ out.tempReads, ∃ n, names.lookup t = some n) →
    ∀ n ∈ (out.named names).temporaries, ∃ t, names.lookup t = some n

theorem NamedWell.wrapped (hout : NamedWell names out) : NamedWell names (wrapped temps out):= by
  refine ⟨?_, ?_, ?_, fun hreads => ?_⟩
  · rw [named_wrapped]
    split
    · exact hout.isTempArrow
    · rfl
  · rw [tempWrites_wrapped, assigned_wrapped]
    exact hout.writes
  · rw [assigned_wrapped]
    exact hout.assigned
  · rw [tempReads_wrapped] at hreads
    rw [named_wrapped]
    split
    · exact hout.temporaries hreads
    · intro n hn
      simp only [temporaries_eq (.call ..), temporaries_eq (.arrow ..), ownNames, children, if_true,
        List.flatMap_cons, List.flatMap_nil, List.append_nil, List.nil_append,
        List.mem_append] at hn
      rcases hn with hn | hn
      · obtain ⟨t, _, ht⟩ := List.mem_filterMap.1 hn
        exact ⟨t, ht⟩
      · exact hout.temporaries hreads n hn

theorem NamedWell.assign (hnames : NonemptyNames names) (m : Marks) (t : Text) {y : Script}
    (hy : NamedWell names y) : NamedWell names (.binary m .assign (tempRef {} t) y) := by
  cases ht : names.lookup t with
  | none =>
    refine ⟨?_, fun t' ht' n hn => ?_, ?_, ?_⟩ <;> rw [named_assign_none ht]
    · exact hy.isTempArrow
    · rw [tempWrites_assign] at ht'
      rcases List.mem_cons.1 ht' with rfl | ht'
      · cases ht.symm.trans hn
      · exact hy.writes t' ht' n hn
    · exact hy.assigned
    · rw [tempReads_assign]
      exact hy.temporaries
  | some n =>
    refine ⟨?_, fun t' ht' n' hn => ?_, fun n' hn => ?_, fun hreads n' hn => ?_⟩ <;>
      simp only [named_assign_some hnames ht] at *
    · rfl
    · rw [tempWrites_assign] at ht'
      rcases List.mem_cons.1 ht' with rfl | ht'
      · obtain rfl : n = n' := Option.some.inj (ht.symm.trans hn)
        exact List.mem_cons_self
      · exact List.mem_cons_of_mem _ (hy.writes t' ht' n' hn)
    · rcases List.mem_cons.1 hn with rfl | hn
      · exact ⟨t, ht⟩
      · exact hy.assigned n' hn
    · rw [tempReads_assign] at hreads
      simp only [temporaries_eq (.binary ..), ownNames, children, List.flatMap_cons,
        List.flatMap_nil, List.append_nil, List.nil_append, List.mem_append] at hn
      rcases hn with hn | hn
      · obtain rfl : n' = n := by simpa [temporaries_eq, tempRef, ownNames, children,
          Marks.merge] using hn
        exact ⟨t, ht⟩
      · exact hy.temporaries hreads n' hn

theorem NamedWell.shape (hs : s.Plain X) (hlen : os.length = s.children.length)
    (hall : ∀ o ∈ os, NamedWell names o) : NamedWell names (s.withChildren os) ∧
      ((s.withChildren os).named names).core.isFunction = s.isFunction := by
  have hnamed := named_of_plain hs (reshaped hlen) fun o ho => (hall o ho).isTempArrow
  have hshape : Reshaped s (os.map (named names)) _ := reshaped (by simp [hlen])
  refine ⟨⟨?_, ?_, ?_, ?_⟩, ?_⟩ <;> rw [hnamed]
  · exact hshape.isTempArrow_eq hs
  · rw [tempWrites_reshaped hs (reshaped hlen), assigned_reshaped hs hshape, List.flatMap_map]
    intro t ht n hn
    obtain ⟨o, ho, ht⟩ := List.mem_flatMap.1 ht
    exact List.mem_flatMap.2 ⟨o, ho, (hall o ho).writes t ht n hn⟩
  · rw [assigned_reshaped hs hshape, List.flatMap_map]
    intro n hn
    obtain ⟨o, ho, hn⟩ := List.mem_flatMap.1 hn
    exact (hall o ho).assigned n hn
  · rw [tempReads_reshaped hs (reshaped hlen), temporaries_reshaped hs hshape, List.flatMap_map]
    intro hreads n hn
    obtain ⟨o, ho, hn⟩ := List.mem_flatMap.1 hn
    exact (hall o ho).temporaries (fun t ht => hreads t (List.mem_flatMap.2 ⟨o, ho, ht⟩)) n hn
  · exact hshape.isFunction_eq hs

/-- Under its names, the result of hoisting is as it should be. Function literals stay function
literals, and nothing else becomes one. -/
theorem Hoists.named (hnames : NonemptyNames names) (hs : Hoists b h s out h')
    (hclear : s.Clear X) :
    NamedWell names out ∧ (out.named names).core.isFunction = s.isFunction := by
  revert hclear
  refine hoisted_induct (P := fun _ _ s out _ => s.Clear X → NamedWell names out ∧
    (out.named names).core.isFunction = s.isFunction) ?_ hs
  intro b h s out h' ht hclear
  have shape {xs h₁} (hops : Operands (fun b h x o h₁ => Hoists b h x o h₁ ∧ (x.Clear X →
      NamedWell names o ∧ (o.named names).core.isFunction = x.isFunction)) s 0 h
        s.children xs h₁) :=
    NamedWell.shape hclear.node hops.length_eq (hops.forall_mem fun x hx _ _ _ _ hP =>
      (hP.2 (hclear.child hx)).1)
  cases ht with
  | shape _ hs hops => exact shape hops
  | read hs hcount hfind =>
    rename_i t
    refine ⟨⟨by rw [named_tempRef]; rfl, by simp [tempWrites, tempRef, fold],
      by simp [named_tempRef, bare, Script.assigned], fun hreads n hn => ?_⟩,
      by rw [named_tempRef, hs]; rfl⟩
    obtain ⟨n', hn'⟩ := hreads t (by simp [tempReads_tempRef])
    rw [named_tempRef, hn', temporaries_eq] at hn
    obtain rfl : n = n' := by simpa [ownNames, children, Marks.merge] using hn
    exact ⟨t, hn'⟩
  | assign hs hcount hops =>
    rename_i h₁ xs
    obtain ⟨hwell, hfun⟩ := shape hops
    refine ⟨hwell.assign hnames _ _, ?_⟩
    cases ht : names.lookup (placeholder h₁.count) with
    | none => rw [named_assign_none ht, hfun]
    | some n =>
      rw [named_assign_some hnames ht, hs]
      rfl
  | literal _ hs hb hbody =>
    refine NamedWell.shape hclear.node (by simp [hb]) fun o ho => ?_
    obtain rfl := List.mem_singleton.1 ho
    exact (hbody.2 (hclear.child (by simp [hb]))).1.wrapped _

theorem Operands.named_withChildren (hnames : NonemptyNames names)
    (hops : Operands Hoists s 0 h s.children xs h') (hclear : s.Clear X) :
    (s.withChildren xs).named names = s.withChildren (xs.map (named names)) :=
  named_of_plain hclear.node (reshaped hops.length_eq) (hops.forall_mem fun _ hx _ _ _ _ hP =>
    (hP.named hnames (hclear.child hx)).1.isTempArrow)

/-! ## The whole script -/

theorem named_of_clear (hclear : s.Clear X) : s.named names = s := by
  induction s using induct_children with
  | h s ih =>
    have hkids : s.children.map (named names) = s.children :=
      (List.map_congr_left fun x hx => ih x hx (hclear.child hx)).trans
        (List.map_id _)
    rw [named_eq, hkids, withChildren_children]
    refine renameNode_of_plain hclear.node (withChildren_children s ▸ reshaped rfl) fun x hx => ?_
    cases x with
    | arrow => exact (hclear.child hx).node.1
    | _ => rfl

/-- Where no temporary is introduced, nothing changes. -/
theorem Hoists.eq_of_count (hs : Hoists b h s out h') (hf : Formed h) (htemps : h.temps = [])
    (hcount : h'.count = h.count) : out = s ∧ h'.temps = [] := by
  revert hf htemps hcount
  refine hoisted_induct (P := fun _ h s out h' => Formed h → h.temps = [] → h'.count = h.count →
    out = s ∧ h'.temps = []) ?_ hs
  intro b h s out h' ht hf htemps hcount
  have operands {s : Script} {i : Nat} {h h' : Hoisting} {xs os : List Script}
      (hops : Operands (fun b h x o h₁ => Hoists b h x o h₁ ∧ (Formed h → h.temps = [] →
        h₁.count = h.count → o = x ∧ h₁.temps = [])) s i h xs os h') (hf : Formed h)
      (htemps : h.temps = []) (hcount : h'.count = h.count) : os = xs ∧ h'.temps = [] := by
    induction hops with
    | nil => exact ⟨rfl, htemps⟩
    | branch hkey hx hrest ih =>
      obtain ⟨hf₁, hg₁⟩ := hx.1.grows (hf.enter _)
      have hf₁' := hf.leave hf₁ hg₁
      have hg₂ := ((hrest.mono fun _ _ _ _ _ _ hx => hx.1.grows).grows hf₁').2
      have hle₁ := hg₁.count
      have hle₂ := hg₂.count
      rw [Hoisting.count_enter] at hle₁
      simp only at hle₂
      obtain ⟨rfl, ht₁⟩ := hx.2 (hf.enter _) (by simpa using htemps)
        (by rw [Hoisting.count_enter]; omega)
      obtain ⟨rfl, ht₂⟩ := ih hf₁' ht₁ (by simp only; omega)
      exact ⟨rfl, ht₂⟩
    | always hkey hx hrest ih =>
      obtain ⟨hf₁, hg₁⟩ := hx.1.grows hf
      have hle₁ := hg₁.count
      have hle₂ := ((hrest.mono fun _ _ _ _ _ _ hx => hx.1.grows).grows hf₁).2.count
      obtain ⟨rfl, ht₁⟩ := hx.2 hf htemps (by omega)
      obtain ⟨rfl, ht₂⟩ := ih hf₁ ht₁ (by omega)
      exact ⟨rfl, ht₂⟩
  cases ht with
  | shape _ _ hops =>
    obtain ⟨rfl, ht⟩ := operands hops hf htemps hcount
    exact ⟨withChildren_children s, ht⟩
  | read hs htexts hfind =>
    have := (Hoisting.visible_of_find (T := fun _ => True) hfind).mem_temps hf
    simp [htemps] at this
  | assign hs htexts hops =>
    have hle := ((hops.mono fun _ _ _ _ _ _ hx => hx.1.grows).grows hf).2.count
    simp only [Hoisting.addTemp] at hcount
    omega
  | literal _ hs hb hbody =>
    obtain ⟨rfl, ht⟩ := hbody.2 (Hoisting.formed_start _ _) rfl hcount
    exact ⟨by rw [ht, wrapped, List.isEmpty_nil, if_pos rfl, ← hb, withChildren_children], htemps⟩

def temporaryNames (s : Script) : Record Text :=
  nameTemps (hoistedBody s 0).1.tempRefs s.identifiers
    ((List.range (hoistedBody s 0).2).map placeholder)

theorem hoistedBody_eq {b : Script} {count : Nat} (hs : Hoists true (.start b count) b out h) :
    hoistedBody b count = (wrapped h.temps out, h.count) := by
  rw [hoistedBody, hs]

theorem tempRefs_eq_filterMap (s : Script) : s.tempRefs = s.nodes.filterMap fun
      | .ident m n => if m.temp then some n else none
      | _ => none := by
  induction s using induct_children with
  | h s ih =>
    rw [tempRefs_eq, nodes, fold_eq, List.filterMap_cons, List.filterMap_flatten, List.map_map]
    have hkids : s.children.flatMap tempRefs = (s.children.map (List.filterMap (fun
        | .ident m n => if m.temp then some n else none
        | _ => none) ∘ nodes)).flatten := by
      rw [List.flatMap_def]
      exact congrArg List.flatten (List.map_congr_left ih)
    rw [hkids]
    cases s with
    | ident m n => cases hm : m.temp <;> simp [ownTemp, hm, nodes]
    | _ => rfl

/-- Hoisting is hoisting in the whole script as in a body, and naming where there is something to
name. -/
theorem hoist_eq_ite (s : Script) : s.hoist = if (hoistedBody s 0).2 == 0 then (hoistedBody s 0).1
    else (hoistedBody s 0).1.named s.temporaryNames := by
  rw [hoist, hoistBody_run, temporaryNames, tempRefs_eq_filterMap]
  rfl

theorem hoist_eq (hclear : s.Clear X) : s.hoist = (hoistedBody s 0).1.named s.temporaryNames := by
  rw [hoist_eq_ite]
  split
  · rename_i hzero
    obtain ⟨out, h, hs⟩ : ∃ out h, Hoists true (.start s 0) s out h := ⟨_, _, rfl⟩
    rw [hoistedBody_eq hs] at hzero ⊢
    obtain ⟨rfl, htemps⟩ := hs.eq_of_count (Hoisting.formed_start s 0) rfl (beq_iff_eq.1 hzero)
    rw [htemps]
    exact (named_of_clear hclear).symm
  · rfl

def NotTemp (names : Record Text) (n : Text) : Prop := ∀ t, names.lookup t ≠ some n

theorem temporaryNames_fresh (h : s.temporaryNames.lookup t = some n) :
    n ∉ s.identifiers ∧ ∃ k, n = tempName k :=
  nameTemps_mem (mem_of_lookup h)

theorem temporaryNames_inj {t' : Text} (h : s.temporaryNames.lookup t = some n)
    (h' : s.temporaryNames.lookup t' = some n) : t = t' :=
  nameTemps_inj h h'

theorem temporaryNames_nonempty (s : Script) : NonemptyNames s.temporaryNames := by
  intro p hp
  obtain ⟨-, k, hk⟩ := nameTemps_mem (t := p.1) (n := p.2) hp
  rw [hk]
  exact tempName_ne_empty k

theorem temporaryNames_isSome (hs : Hoists true (.start s 0) s out h) (hclear : s.Clear X)
    (ht : t ∈ out.tempReads) : ∃ n, s.temporaryNames.lookup t = some n := by
  have hcovered := hs.covered hclear (Hoisting.formed_start s 0)
  have hwrites : t ∈ out.tempWrites := (hcovered.reads t ht).resolve_left (by simp [Hoisting.start])
  obtain ⟨k, hk, rfl⟩ := hcovered.writes t hwrites
  have hrefs : 1 < (hoistedBody s 0).1.tempRefs.count (placeholder k) := by
    have hcount := count_tempRefs (wrapped h.temps out) (placeholder k)
    rw [tempReads_wrapped, tempWrites_wrapped] at hcount
    have := List.count_pos_iff.2 ht
    have := List.count_pos_iff.2 hwrites
    rw [hoistedBody_eq hs]
    change 1 < (wrapped h.temps out).tempRefs.count (placeholder k)
    omega
  refine Option.isSome_iff_exists.1 (nameTemps_isSome ?_ hrefs)
  rw [hoistedBody_eq hs]
  exact List.mem_map_of_mem (List.mem_range.2 hk)

end Bindery.Script
