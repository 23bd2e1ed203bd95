import Bindery.Binding.Resolvers
import Bindery.Proofs.Hoisting
import Bindery.Proofs.KeptConditions
import Bindery.Proofs.Tidying
import Bindery.Proofs.ValueScripts

/-!
# Finished scripts

The script of a term is finished with null checks and temporaries, and is tidied. What it gives with
null checks alone, in an environment that compares no identities, is its outcome when it is finished
(`Client.outcome_of_yields`). Hoisting and tidying keep it, since terms have no functions and no
names that temporaries could get (`Script.IsWritten`).
-/

namespace Bindery

namespace Script

variable {s : Script}

/-! ## Nodes of terms -/

theorem notTempName_of_head {n : Text} (h : n.bytes.head? = some 0x24) : NotTempName n := by
  have hletter (k : Nat) : UInt8.ofNat (0x61 + k % 26) ≠ 0x24 := by
    intro h
    have := congrArg UInt8.toNat h
    simp at this
    omega
  rintro k rfl
  unfold tempName at h
  split at h <;> exact hletter k (Option.some.inj h)

/-- The node is as it is before hoisting and no sequence, and symbols stand for the names they
have. -/
def IsWritten (s : Script) : Prop :=
  s.IsSource ∧ match s with
    | .symbol _ n d => d = some (Script.id n)
    | .sequence .. => False
    | _ => True

theorem isWritten_kept : Kept IsWritten where
  reshaped {s out xs} h hs := by cases h <;> exact hs
  mark {s m} hm hs := by
    obtain ⟨⟨htemp, hsource⟩, hwritten⟩ := hs
    have htemp' : (s.marks.merge m).temp = false := by simp [Marks.merge, htemp, hm]
    cases s <;> exact ⟨⟨htemp', hsource⟩, hwritten⟩
  library := ⟨⟨rfl, rfl⟩, trivial⟩
  unwrap _ := ⟨⟨rfl, rfl⟩, trivial⟩
  invoke _ _ := ⟨⟨rfl, trivial⟩, trivial⟩
  literal _ := ⟨⟨rfl, trivial⟩, trivial⟩
  test _ _ := ⟨⟨rfl, nofun⟩, trivial⟩
  cond _ _ _ _ := ⟨⟨rfl, trivial⟩, trivial⟩

theorem isFilled_kept : HoistKept fun s => s.isFilled = true where
  reshaped {s out xs} h hs := by
    cases h with
    | @sequence m ys _ h =>
      cases xs with
      | nil => obtain rfl := List.length_eq_zero_iff.1 h.symm; exact hs
      | cons => rfl
    | _ => rfl
  mark {s m} _ hs := by
    cases s with
    | sequence _ xs => cases xs <;> exact hs
    | _ => rfl
  library := rfl
  unwrap _ := rfl
  invoke _ _ := rfl
  literal _ := rfl
  test _ _ := rfl
  cond _ _ _ _ := rfl
  ident _ _ _ := rfl
  assign _ _ _ := rfl
  arrow _ _ _ _ := rfl
  call _ _ _ := rfl

theorem Everywhere.of_mem_nodes {P : Script → Prop} (hs : s.Everywhere P) : ∀ x ∈ s.nodes, P x := by
  induction s using induct_children with
  | h s ih => exact forall_mem_nodes.2 ⟨hs.node, fun x hx => ih x hx (hs.child hx)⟩

theorem hoistable_of_written (hs : s.Everywhere IsWritten) : s.Hoistable where
  nodes x hx := (hs.of_mem_nodes x hx).1
  symbols h h' := by
    rw [(hs.of_mem_nodes _ h).2, (hs.of_mem_nodes _ h').2]

theorem isFull_hoist (hs : s.Everywhere IsWritten) : s.hoist.isFull := by
  have hfilled : s.Everywhere fun s => s.isFilled := hs.mono fun x hx => by
    cases x with
    | sequence => exact hx.2.elim
    | _ => rfl
  exact List.all_eq_true.2 (isFilled_kept.hoist hfilled).of_mem_nodes

theorem written_slot {n : Text} (hn : n = contextSlot ∨ n = dataSlot) (m : Marks)
    (hm : m.temp = false) : (Script.symbol m n (some (Script.id n))).Everywhere IsWritten := by
  rcases hn with rfl | rfl
  all_goals
    refine .mk ⟨⟨hm, by decide, ?_⟩, rfl⟩
      (List.forall_mem_singleton.2 (.mk ⟨⟨rfl, rfl⟩, trivial⟩ nofun))
    rintro _ ⟨⟩
    exact .mk (notTempName_of_head rfl) nofun

end Script

namespace Expr

open Script (IsWritten isWritten_kept)

variable {c : Catalog} {r : Registry} {s : Scope} {e : Expr}

theorem lowerContext_written (owner : Scope) (k : Nat) :
    (lowerContext owner k).Everywhere IsWritten := by
  have hslot {n : Text} (hn : n.isIdentifier) : (Script.context.dot n).Everywhere IsWritten :=
    .mk ⟨⟨rfl, hn⟩, trivial⟩ (List.forall_mem_singleton.2 (Script.written_slot (.inl rfl) _ rfl))
  unfold lowerContext
  repeat' split
  · exact Script.written_slot (.inr rfl) _ rfl
  · exact hslot (by decide)
  · exact hslot (by decide)
  · refine .mk ⟨⟨rfl, trivial⟩, trivial⟩ (List.forall_mem_cons.2 ⟨hslot (by decide), ?_⟩)
    exact List.forall_mem_singleton.2 (.mk ⟨⟨rfl, trivial⟩, trivial⟩ nofun)

theorem IsPath.written (he : e.IsPath c r s) :
    ∃ y : Script, e.lower r s = .ok (y.typed e.type) ∧ y.Everywhere IsWritten := by
  have mark {x : Script} (hx : x.Everywhere IsWritten) {m : Marks} (hm : m.temp = false) :=
    isWritten_kept.everywhere_mark hx hm
  induction he with
  | context hk =>
    exact ⟨_, lower_context hk, mark (mark (lowerContext_written _ _) (by rfl)) (by rfl)⟩
  | field _ hd hstatic _ _ _ hform hname ih =>
    obtain ⟨y, hy, hwritten⟩ := ih
    refine ⟨_, lower_field hd hstatic hform hy, mark (.mk ⟨⟨rfl, hname⟩, trivial⟩ ?_) (by rfl)⟩
    exact List.forall_mem_singleton.2 (mark hwritten (by rfl))

theorem IsPath.typed_written (he : e.IsPath c r s) {y : Script}
    (hy : e.lower r s = .ok (y.typed e.type)) (t : Ty) : (y.typed t).Everywhere IsWritten := by
  obtain ⟨y', hy', hwritten⟩ := he.written
  have htyped : y.typed e.type = y'.typed e.type := Except.ok.inj (hy.symm.trans hy')
  rw [← y.typed_typed e.type, htyped, y'.typed_typed]
  exact isWritten_kept.everywhere_mark hwritten rfl

end Expr

namespace Client

variable {element : Bindery.Value} {vms : List Bindery.Value} {indexes : List Int64}

theorem contextScope_rel {R : Value → Value → Prop} {I : Nat → Nat → Prop}
    (hR : Likeness I R) {i : Nat}
    {fs : Record Value} (hself : R (.object i fs) (.object i fs)) {data element : Value}
    (hdata : fs.get? "$data" = some data) (helement : fs.get? "$element" = some element)
    (X : Text → Prop) : Env.Rel R X (contextScope element data (.object i fs))
      (contextScope element data (.object i fs)) := by
  cases hR.alike hself with
  | object _ hkeys hfields =>
    have hfield {n : Text} {v : Value} (hv : fs.get? n = some v) : R v v := by
      have hrel := lookup_rel hkeys hfields n
      rw [hv] at hrel
      cases hrel with
      | some h => exact h
    exact .cons (.cons (.cons (fun _ _ => .none) _ hself) _ (hfield hdata)) _ (hfield helement)

/-- Hoisting and tidying keep a primitive value that a script gives without comparing identities. -/
theorem eval_hoist_tidy {i : Nat} {fs : Record Value} {data element' : Value} {σ σ' : State}
    (hbuild : (Context.build { models := vms, indexes, element }).run.run {} =
      (.ok (.object i fs), σ))
    (hdata : fs.get? "$data" = some data) (helement : fs.get? "$element" = some element')
    {z : Script} (hz : z.Everywhere Script.IsWritten) {depth : Nat} {u : Value}
    (hu : u.isPrimitive)
    (hv : (identityFree.eval depth (contextScope element' data (.object i fs)) z).run.run σ =
      (.ok u, σ')) :
    ∃ σ', (environment.eval depth (contextScope element' data (.object i fs))
      z.hoist.tidy).run.run σ = (.ok u, σ') := by
  have hs := Script.hoistable_of_written hz
  have hR := Value.Tidied.family False
  have hE : identityFree.Rel (· = ·) (.lockstep False) environment :=
    environmentWith_rel (fun _ _ _ _ _ _ _ => .of_ok id (by rintro _ _ _ _ _ ⟨⟩)) fun _ _ _ => id
  obtain ⟨_, -, hself⟩ := build_related (K := .blind 0) (w := ())
    (Counterpart.paths (K := .blind 0)) ⟨Nat.le_refl _, Nat.le_refl _⟩ hbuild
  obtain ⟨_, hfits, hself'⟩ := build_related hR (w := ()) ⟨.nil, rfl, rfl, rfl⟩ hbuild
  have hhoist := Script.eval_hoist_rel (environmentWith_throw_pure 0) hs.clear hs.faithful
    (contextScope_rel Counterpart.likeness hself hdata helement _) depth
  have htidy := Script.eval_tidy_lockstep hE depth
    (.of_rel (contextScope_rel (hR.likeness ()) hself' hdata helement _)) (Script.isFull_hoist hz)
  obtain ⟨v, σ₁, -, hv, -, hsame⟩ := Comparison.Rel.ok hhoist ⟨Nat.zero_le _, Nat.zero_le _⟩ hv
  obtain rfl := (Counterpart.likeness.alike hsame).eq_of_isPrimitive hu
  obtain ⟨v, σ₂, -, hv, -, hsame⟩ := htidy.ok hfits hv
  obtain rfl := ((hR.likeness ()).alike hsame).eq_of_isPrimitive hu
  exact ⟨σ₂, hv⟩

/-- The outcome of a finished script that gives a primitive value wherever the view models are
around it and identities are not compared. -/
theorem outcome_of_yields {z : Script} (hz : z.Everywhere Script.IsWritten)
    (hbuild : ∃ u σ, (Context.build { models := vms, indexes, element }).run.run {} = (.ok u, σ))
    {depth : Nat} {w : Bindery.Value} (h : ∀ ρ, Surrounds ρ vms → ∃ u, Yields (hostWithin depth) ρ
    z.checkNulls u ∧ u.isPrimitive ∧ reveal u = ([], w)) :
    outcome (depth + 1) (({ nullChecks := true } : Options).finish z)
      { models := vms, indexes, element } = .ok ⟨false, w⟩ := by
  have hz := Script.isWritten_kept.checkNulls hz
  obtain ⟨_, σ, hbuild⟩ := hbuild
  obtain ⟨i, fs, data, element', rfl, hdata, helement, hρ⟩ := surrounds_of_build hbuild
  obtain ⟨u, hyields, hprimitive, hreveal⟩ := h _ hρ
  obtain ⟨p, σ₁, heval, hp⟩ := hyields σ
  obtain ⟨σ₂, hv⟩ := eval_hoist_tidy hbuild hdata helement hz hprimitive
    (hp ▸ run_bind_ok heval : (identityFree.eval (depth + 1) _ z.checkNulls).run.run σ =
      (.ok u, σ₁))
  have hassigned : ∀ n ∈ (["$context", "$data", "$element"] : List Text),
      n ∉ z.checkNulls.hoist.tidy.assigned := by
    have hhead : ∀ n ∈ (["$context", "$data", "$element"] : List Text),
        n.bytes.head? = some 0x24 := by
      decide
    intro n hn
    have hbody := Script.bodyOf_hoist (Script.hoistable_of_written hz).clear
    rw [Script.assigned_tidy, ← Script.assigned_bare]
    refine (hbody.not_assigned fun t ht => ?_).2
    obtain ⟨-, k, hk⟩ := Script.temporaryNames_fresh ht
    exact Script.notTempName_of_head (hhead n hn) k hk
  have hcell : u.isCell = false := by cases u <;> first | rfl | cases hprimitive
  change outcome (depth + 1) z.checkNulls.hoist.tidy _ = _
  rw [outcome_of_build hbuild, evalWithin_object hassigned, hdata, helement, Option.getD_some,
    Option.getD_some, run_bind_ok hv]
  simp only [contents, hcell, Bool.false_eq_true, if_false, pure_bind, hreveal]
  rfl

end Client

end Bindery
