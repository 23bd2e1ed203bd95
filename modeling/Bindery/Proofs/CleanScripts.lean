import Bindery.Binding.Resolvers
import Bindery.Proofs.CleanExpressions
import Bindery.Proofs.KeptConditions

/-!
# Clean scripts

A script is clean if its names and the texts in it are UTF-8. Reading cells, null checks and
temporaries keep that (`Script.isClean_kept`), and so does tidying (`Options.finish_clean`).
-/

namespace Bindery

namespace Script

/-- The names and texts that the node itself has are UTF-8. -/
def IsClean : Script → Prop
  | .ident _ n => n.isUtf8
  | .literal _ (.text t) => t.isUtf8
  | .symbol _ n _ => n.isUtf8
  | .member _ _ n => n.isUtf8
  | .function _ ps _ => ∀ p ∈ ps, p.isUtf8
  | .arrow _ ps _ => ∀ p ∈ ps, p.isUtf8
  | _ => True

/-- The names and texts in the script are UTF-8. -/
def Clean (s : Script) : Prop := s.Everywhere IsClean

theorem isUtf8_tempName (n : Nat) : (tempName n).isUtf8 := by
  have hletter : (⟨[UInt8.ofNat (0x61 + n % 26)]⟩ : Text).isUtf8 := by
    refine Text.isUtf8_of_ascii (List.forall_mem_singleton.2 ?_)
    rw [UInt8.toNat_ofNat']
    omega
  unfold tempName
  grind

theorem IsTempText.isUtf8 {n : Text} (h : IsTempText n) : n.isUtf8 := by
  obtain rfl | ⟨k, rfl⟩ | ⟨k, rfl⟩ := h
  · exact Text.isUtf8_ofString _
  · exact Text.isUtf8_append (Text.isUtf8_ofString _) (Text.isUtf8_ofNat k)
  · exact isUtf8_tempName k

theorem isClean_kept : HoistKept IsClean where
  reshaped {s out xs} h hs := by cases h <;> exact hs
  mark {s m} _ hs := by
    cases s with
    | literal _ v => cases v <;> exact hs
    | _ => exact hs
  library := Text.isUtf8_ofString _
  unwrap _ := Text.isUtf8_ofString _
  invoke _ _ := trivial
  literal {v} hv := by
    cases v with
    | text t => exact absurd rfl (hv t)
    | _ => trivial
  test _ _ := trivial
  cond _ _ _ _ := trivial
  ident _ _ hn := hn.isUtf8
  assign _ _ _ := trivial
  arrow _ _ _ hps := fun p hp => (hps p hp).isUtf8
  call _ _ _ := trivial

namespace Clean

variable {s : Script}

theorem child (hs : s.Clean) {x : Script} (hx : x ∈ s.children) : x.Clean := Everywhere.child hs hx

theorem setMarks (hs : s.Clean) (m : Marks) : (s.setMarks m).Clean := by
  cases s with
  | symbol _ n d => cases d <;> exact .mk hs.node fun x hx => hs.part hx
  | literal _ v => cases v <;> exact .mk hs.node nofun
  | _ => exact .mk hs.node fun x hx => hs.part hx

theorem mark (hs : s.Clean) (m : Marks) : (s.mark m).Clean := hs.setMarks _

end Clean

/-! ## Short forms -/

section Forms

variable {x y : Script}

theorem clean_id {n : Text} (hn : n.isUtf8) : (Script.id n).Clean := .mk hn nofun

theorem clean_lit {v : Literal} (hv : ∀ t, v = .text t → t.isUtf8) : (lit v).Clean := by
  refine .mk ?_ nofun
  cases v with
  | text t => exact hv t rfl
  | _ => trivial

theorem clean_null : Script.null.Clean := clean_lit nofun

theorem Clean.dot (hx : x.Clean) {n : Text} (hn : n.isUtf8) : (x.dot n).Clean :=
  .mk hn (List.forall_mem_singleton.2 hx)

theorem Clean.invoke (hx : x.Clean) {args : List Script} (hargs : ∀ a ∈ args, a.Clean) :
    (invoke x args).Clean :=
  .mk trivial (List.forall_mem_cons.2 ⟨hx, hargs⟩)

theorem Clean.unary (hx : x.Clean) (m : Marks) (op : UnOp) : (Script.unary m op x).Clean :=
  .mk trivial (List.forall_mem_singleton.2 hx)

theorem Clean.binary (hx : x.Clean) (hy : y.Clean) (m : Marks) (op : BinOp) :
    (Script.binary m op x y).Clean :=
  .mk trivial (List.forall_mem_cons.2 ⟨hx, List.forall_mem_singleton.2 hy⟩)

theorem Clean.index (hx : x.Clean) (hy : y.Clean) (m : Marks) : (Script.index m x y).Clean :=
  .mk trivial (List.forall_mem_cons.2 ⟨hx, List.forall_mem_singleton.2 hy⟩)

theorem Clean.cond {c : Script} (hc : c.Clean) (hx : x.Clean) (hy : y.Clean) (m : Marks) :
    (Script.cond m c x y).Clean :=
  .mk trivial (List.forall_mem_cons.2
    ⟨hc, List.forall_mem_cons.2 ⟨hx, List.forall_mem_singleton.2 hy⟩⟩)

theorem Clean.arrow (hx : x.Clean) {ps : List Text} (hps : ∀ p ∈ ps, p.isUtf8)
    (m : Marks) : (Script.arrow m ps x).Clean :=
  .mk hps (List.forall_mem_singleton.2 hx)

theorem Clean.notNull (hx : x.Clean) : x.notNull.Clean := hx.mark _

theorem Clean.typed (hx : x.Clean) (t : Ty) : (x.typed t).Clean := hx.mark _

theorem Clean.asCell (hx : x.Clean) (c : CellMark) : (x.asCell c).Clean := hx.mark _

end Forms

/-! ## Tidying -/

theorem Clean.tidy {s : Script} (hs : s.Clean) : s.tidy.Clean := by
  refine isClean_kept.transform (fun s (hs : s.Clean) => ?_) hs
  unfold tidyNode
  split
  · exact (hs.child (by simp [children])).mark _
  · rename_i m bm op x y
    have hbinary : (Script.binary bm op x y).Clean := hs.child (by simp [children])
    split
    · exact (hbinary.child (by simp [children])).binary (hbinary.child (by simp [children])) _ _
    · exact hs
  · rename_i m xs
    refine .mk trivial fun y hy => ?_
    obtain ⟨x, hx, hy⟩ := List.mem_flatMap.1 hy
    have hx : x.Clean := hs.child hx
    unfold flattenSequence at hy
    split at hy
    · exact hx.child hy
    · exact List.mem_singleton.1 hy ▸ hx
  · exact hs

end Script

theorem Options.finish_clean (o : Options) {s : Script} (hs : s.Clean) : (o.finish s).Clean := by
  have hP := Script.isClean_kept
  unfold Options.finish
  split
  · exact Script.Clean.tidy (hP.hoist (hP.checkNulls hs))
  · exact Script.Clean.tidy (hP.hoist hs)

end Bindery
