import Bindery.Proofs.HoistNames
import Bindery.Proofs.NullChecking
import Bindery.Script.Cells

/-!
# Conditions that passes keep

A condition that holds at every node of a script holds at every node after cells are read
(`Kept.variant`) and null checks are added (`Kept.checkNulls`). It also does after hoisting if it
holds of the nodes that belong to temporaries (`HoistKept.hoist`).
-/

namespace Bindery.Script

theorem Everywhere.child {P : Script → Prop} {s x : Script} (hs : s.Everywhere P)
    (hx : x ∈ s.children) : x.Everywhere P :=
  hs.part (mem_parts_of_mem_children hx)

namespace Kept

variable {P : Script → Prop} {s : Script} {xs : List Script} (hP : Kept P)

include hP

theorem withChildren (hs : s.Everywhere P) (hlength : xs.length = s.children.length)
    (hxs : ∀ x ∈ xs, x.Everywhere P) : (s.withChildren xs).Everywhere P :=
  hP.everywhere_reshaped hs (Script.reshaped hlength) hxs

theorem transform {f : Script → Script} (hf : ∀ s : Script, s.Everywhere P → (f s).Everywhere P)
    (hs : s.Everywhere P) : (s.transform f).Everywhere P := by
  induction s using induct_children with
  | h s ih =>
    rw [Script.transform, fold_eq]
    refine hf _ (hP.withChildren hs (List.length_map _) fun x hx => ?_)
    obtain ⟨y, hy, rfl⟩ := List.mem_map.1 hx
    exact ih y hy (hs.child hy)

theorem everywhere_mark (hs : s.Everywhere P) {m : Marks} (hm : m.temp = false) :
    (s.mark m).Everywhere P := by
  refine .mk (hP.mark hm hs.node) ?_
  cases s with
  | symbol _ n d => cases d <;> exact fun x hx => hs.part hx
  | _ => exact fun x hx => hs.part hx

/-! ## Cells -/

theorem force (hs : s.Everywhere P) : s.force.Everywhere P := by
  have hlibrary : (global "ko").Everywhere P := hP.everywhere_mark (.mk hP.library nofun) rfl
  have hunwrap : (Script.dot (global "ko") "unwrap").Everywhere P :=
    .mk (hP.unwrap _) (List.forall_mem_singleton.2 hlibrary)
  have hread : (Script.invoke s []).Everywhere P :=
    .mk (hP.invoke ..) (List.forall_mem_singleton.2 hs)
  have hask : (Script.invoke (Script.dot (global "ko") "unwrap") [s]).Everywhere P :=
    .mk (hP.invoke ..) (List.forall_mem_cons.2 ⟨hunwrap, List.forall_mem_singleton.2 hs⟩)
  unfold Script.force
  simp only
  split <;> split
  · exact hP.everywhere_mark hask rfl
  · exact hP.everywhere_mark hread rfl
  · exact hask
  · exact hread

theorem readOperands (hs : s.Everywhere P) : s.readOperands.Everywhere P := by
  unfold Script.readOperands
  split
  · exact hP.everywhere_mark hs rfl
  · refine hP.withChildren hs (List.length_map _) fun y hy => ?_
    obtain ⟨k, hk, rfl⟩ := List.mem_map.1 hy
    split
    · exact hP.force (hs.child hk)
    · exact hs.child hk

theorem resolveCells (hs : s.Everywhere P) : s.resolveCells.root.Everywhere P :=
  hP.transform (fun _ => hP.readOperands) hs

theorem variant {r : Resolved} (hr : r.root.Everywhere P) (allowCell : Bool) :
    (r.variant allowCell).Everywhere P := by
  unfold Resolved.variant
  split
  · exact hr
  · exact hP.force hr

end Kept

/-! ## Temporaries -/

open Hoisting (Formed)

/-- The text is a name of a temporary, or stands for one before it is named. -/
def IsTempText (n : Text) : Prop := n = "" ∨ (∃ k, n = placeholder k) ∨ ∃ k, n = tempName k

/-- The condition also holds of the nodes that belong to temporaries. -/
structure HoistKept (P : Script → Prop) : Prop extends Kept P where
  ident (m : Marks) {n : Text} : IsTempText n → P (.ident m n)
  assign (m : Marks) (x y : Script) : P (.binary m .assign x y)
  arrow (m : Marks) {ps : List Text} (b : Script) : (∀ p ∈ ps, IsTempText p) → P (.arrow m ps b)
  call (m : Marks) (f : Script) (as : List Script) : P (.call m f as)

theorem isTempText_temps {h : Hoisting} (hf : Formed h) : ∀ t ∈ h.temps, IsTempText t := by
  intro t ht
  obtain ⟨k, -, rfl⟩ := hf.temps_lt t ht
  exact .inr (.inl ⟨k, rfl⟩)

namespace HoistKept

variable {P : Script → Prop} {s : Script} (hP : HoistKept P)

include hP

theorem wrapped (hs : s.Everywhere P) {temps : List Text} (htemps : ∀ t ∈ temps, IsTempText t) :
    (wrapped temps s).Everywhere P := by
  unfold Script.wrapped
  split
  · exact hs
  · have harrow : (Script.arrow { temp := true } temps s).Everywhere P :=
      .mk (hP.arrow _ _ htemps) (List.forall_mem_singleton.2 hs)
    exact .mk (hP.call ..) (List.forall_mem_singleton.2 harrow)

omit hP in
theorem operands {i : Nat} {h h' : Hoisting} {xs os : List Script}
    (hops : Operands (fun b h x o h₁ => Hoists b h x o h₁ ∧
      (Formed h → x.Everywhere P → o.Everywhere P)) s i h xs os h') (hf : Formed h)
    (hxs : ∀ x ∈ xs, x.Everywhere P) : ∀ o ∈ os, o.Everywhere P := by
  induction hops with
  | nil => exact nofun
  | branch hkey hx _ ih =>
    obtain ⟨hf₁, hg₁⟩ := hx.1.grows (hf.enter _)
    rw [List.forall_mem_cons] at hxs ⊢
    exact ⟨hx.2 (hf.enter _) hxs.1, ih (hf.leave hf₁ hg₁) hxs.2⟩
  | always hkey hx _ ih =>
    obtain ⟨hf₁, hg₁⟩ := hx.1.grows hf
    rw [List.forall_mem_cons] at hxs ⊢
    exact ⟨hx.2 hf hxs.1, ih hf₁ hxs.2⟩

theorem hoists {b : Bool} {h h' : Hoisting} {out : Script} (hs : Hoists b h s out h')
    (hf : Formed h) (hnodes : s.Everywhere P) : out.Everywhere P := by
  revert hf hnodes
  refine hoisted_induct (P := fun _ h s out _ => Formed h → s.Everywhere P → out.Everywhere P) ?_ hs
  intro b h s out h' ht hf hs
  have hshape {xs h₁} (hops : Operands (fun b h x o h₁ => Hoists b h x o h₁ ∧
      (Formed h → x.Everywhere P → o.Everywhere P)) s 0 h s.children xs h₁) :
      (s.withChildren xs).Everywhere P :=
    hP.withChildren hs hops.length_eq (operands hops hf fun x hx => hs.child hx)
  cases ht with
  | shape b _ hops => exact hshape hops
  | read _ _ hfind =>
    -- A name that is found was given to a temporary, and those are placeholders so far.
    have hmem := (Hoisting.visible_of_find (T := fun _ => True) hfind).mem_temps hf
    exact .mk (hP.ident _ (isTempText_temps hf _ hmem)) nofun
  | assign _ _ hops =>
    have htemp (k : Nat) : (tempRef {} (placeholder k)).Everywhere P :=
      .mk (hP.ident _ (.inr (.inl ⟨k, rfl⟩))) nofun
    exact .mk (hP.assign ..)
      (List.forall_mem_cons.2 ⟨htemp _, List.forall_mem_singleton.2 (hshape hops)⟩)
  | @literal _ b _ _ _ _ _ hb hbody =>
    have hstart := Hoisting.formed_start b h.count
    have hbody' := hbody.2 hstart (hs.child (by simp [hb]))
    exact hP.withChildren hs (by simp [hb]) (List.forall_mem_singleton.2
      (hP.wrapped hbody' (isTempText_temps (hbody.1.grows hstart).1)))

theorem renameNode {names : Record Text} (hnames : ∀ p ∈ names, IsTempText p.2)
    (hs : s.Everywhere P) : (renameNode names s).Everywhere P := by
  have hlookup {t n : Text} (h : names.lookup t = some n) : IsTempText n := by
    obtain ⟨l₁, l₂, heq, -⟩ := List.lookup_eq_some_iff.1 h
    exact hnames (t, n) (by simp [heq])
  unfold Script.renameNode
  split
  · split
    · rename_i m n _
      refine .mk (hP.ident _ ?_) nofun
      cases h : names.lookup n with
      | none => exact .inl rfl
      | some n' => exact hlookup h
    · exact hs
  · split
    · exact hs.child (by simp [children])
    · exact hs
  · rename_i m am ps b as
    have hb : b.Everywhere P :=
      (hs.child (x := .arrow am ps b) (by simp [children])).child (by simp [children])
    split
    · simp only
      split
      · exact hb
      · have hkept : ∀ p ∈ ps.filterMap (names.lookup ·), IsTempText p := by
          intro p hp
          obtain ⟨q, -, hq⟩ := List.mem_filterMap.1 hp
          exact hlookup hq
        have harrow : (Script.arrow am (ps.filterMap (names.lookup ·)) b).Everywhere P :=
          .mk (hP.arrow _ _ hkept) (List.forall_mem_singleton.2 hb)
        refine .mk (hP.call ..) (List.forall_mem_cons.2 ⟨harrow, fun y hy => ?_⟩)
        exact hs.child (by simp [children, hy])
    · exact hs
  · exact hs

theorem hoist (hs : s.Everywhere P) : s.hoist.Everywhere P := by
  have hstart := Hoisting.formed_start s 0
  obtain ⟨out, h, hrun⟩ : ∃ out h, hoisted true (.start s 0) s = (out, h) := ⟨_, _, rfl⟩
  have hout : (Script.wrapped h.temps out).Everywhere P :=
    hP.wrapped (hP.hoists hrun hstart hs) (isTempText_temps (Hoists.grows hrun hstart).1)
  have hbody : (hoistBody s (s.fold hoistNode)).run {} =
      (Script.wrapped h.temps out, { ({} : Hoisting) with count := h.count }) := by
    rw [hoistBody_run, hoistedBody, hrun]
  unfold Script.hoist
  simp only [hbody]
  split
  · exact hout
  · refine hP.transform (fun x => hP.renameNode fun p hp => ?_) hout
    obtain ⟨-, hk⟩ := nameTemps_mem hp
    exact .inr (.inr hk)

end HoistKept

end Bindery.Script
