import Bindery.Proofs.ClientPurity
import Bindery.Proofs.HoistMeaning
import Bindery.Proofs.StructuralText

/-!
# Hoisting keeps what a script means

A script whose names are identifiers evaluates as it does with temporaries
(`Script.eval_hoist_agrees`), in every environment that is pure.
-/

namespace Bindery.Script

open Client

variable {s : Script}

/-- The name is none that temporaries get. -/
def NotTempName (n : Text) : Prop := ∀ k, n ≠ tempName k

/-- The node is as it is before hoisting: it assigns nothing, is not in parentheses, belongs to no
temporary and has identifiers for names. What stands in for a symbol assigns nothing and mentions no
name that a temporary could get. -/
def IsSource (s : Script) : Prop :=
  s.marks.temp = false ∧ match s with
    | .ident _ n => n.isIdentifier
    | .member _ _ n => n.isIdentifier
    | .function _ ps _ => ∀ p ∈ ps, p.isIdentifier
    | .arrow _ ps _ => ∀ p ∈ ps, p.isIdentifier
    | .symbol _ n d => 0x7D ∉ n.bytes ∧ ∀ x ∈ d, x.Everywhere (Steady NotTempName)
    | .binary _ op _ _ => op ≠ .assign
    | .paren .. => False
    | _ => True

/-- All nodes are as they are before hoisting, and symbols of one name stand for one script. -/
structure Hoistable (s : Script) : Prop where
  nodes : ∀ x ∈ s.nodes, x.IsSource
  symbols {m m' : Marks} {n : Text} {d d' : Option Script} : .symbol m n d ∈ s.nodes →
    .symbol m' n d' ∈ s.nodes → d.map bare = d'.map bare

/-- What the first symbol of a name stands for. -/
def defaultOf (s : Script) (n : Text) : Option Script :=
  (s.nodes.findSome? fun
    | .symbol _ n' d => if n' = n then some (d.map bare) else none
    | _ => none).join

theorem defaultOf_eq (hs : s.Hoistable) {m : Marks} {n : Text} {d : Option Script}
    (hmem : .symbol m n d ∈ s.nodes) : s.defaultOf n = d.map bare := by
  rw [defaultOf]
  cases hfind : s.nodes.findSome? _ with
  | none =>
    have := List.findSome?_eq_none_iff.1 hfind _ hmem
    simp at this
  | some d' =>
    obtain ⟨x, hx, heq⟩ := List.exists_of_findSome?_eq_some hfind
    cases x <;> try cases heq
    rename_i m' n' e
    simp only [Option.ite_none_right_eq_some, Option.some_inj] at heq
    obtain ⟨rfl, rfl⟩ := heq
    exact hs.symbols hx hmem

theorem Hoistable.isNamed {x : Script} (hs : s.Hoistable) (hx : x ∈ s.nodes) :
    x.IsNamed s.defaultOf := by
  have hsource := (hs.nodes x hx).2
  cases x with
  | symbol m n d => exact ⟨hsource.1, (defaultOf_eq hs hx).symm⟩
  | binary | paren => trivial
  | _ => exact hsource

theorem Hoistable.faithful (hs : s.Hoistable) : s.Faithful := fun _ hx _ hy hdump =>
  bare_eq_of_dump_eq (fun _ hz => hs.isNamed (nodes_trans hx hz))
    (fun _ hz => hs.isNamed (nodes_trans hy hz)) hdump

def ownIdentifiers : Script → List Text
  | .ident _ n => [n]
  | .function _ ps _ => ps
  | .arrow _ ps _ => ps
  | _ => []

theorem mem_identifiers {x : Script} (hx : x ∈ s.nodes) {n : Text} (hn : n ∈ x.ownIdentifiers) :
    n ∈ s.identifiers := by
  simp only [identifiers, Text.sort, List.mem_mergeSort, List.mem_eraseDups, List.mem_flatMap]
  exact ⟨x, hx, by cases x <;> exact hn⟩

theorem Hoistable.clear (hs : s.Hoistable) : s.Clear (NotTemp s.temporaryNames) := by
  have hnot {n : Text} (hn : n ∈ s.identifiers) : NotTemp s.temporaryNames n := fun t ht =>
    (temporaryNames_fresh ht).1 hn
  have hsteady {x : Script} (hx : x.Steady NotTempName) : x.Steady (NotTemp s.temporaryNames) := by
    have hname {n : Text} (hn : NotTempName n) : NotTemp s.temporaryNames n := fun t ht => by
      obtain ⟨k, hk⟩ := (temporaryNames_fresh ht).2
      exact hn k hk
    cases x with
    | ident m n => exact hname hx
    | function m ps b | arrow m ps b => exact fun p hp => hname (hx p hp)
    | _ => exact hx
  intro x hx
  obtain ⟨htemp, hsource⟩ := hs.nodes x hx
  cases x with
  | ident m n => exact ⟨htemp, hnot (mem_identifiers hx List.mem_cons_self)⟩
  | function m ps b => exact fun p hp => hnot (mem_identifiers hx hp)
  | arrow m ps b => exact ⟨htemp, fun p hp => hnot (mem_identifiers hx hp)⟩
  | symbol m n d =>
    cases d with
    | none => trivial
    | some d => exact (hsource.2 d rfl).mono fun _ => hsteady
  | binary m op a b =>
    cases op with
    | assign => exact hsource rfl
    | _ => trivial
  | paren => exact hsource
  | _ => trivial

/-- Temporaries of a hoisted script have names that the script does not use. -/
theorem Hoistable.temporaries_fresh (hs : s.Hoistable) :
    ∀ n ∈ s.hoist.temporaries, n ∉ s.identifiers := by
  intro n hn
  obtain ⟨out, h, hhoists⟩ : ∃ out h, Hoists true (.start s 0) s out h := ⟨_, _, rfl⟩
  rw [hoist_eq hs.clear, hoistedBody_eq hhoists] at hn
  have hreads : ∀ t ∈ (wrapped h.temps out).tempReads, ∃ n, s.temporaryNames.lookup t = some n := by
    rw [tempReads_wrapped]
    exact fun _ ht => temporaryNames_isSome hhoists hs.clear ht
  have hwell := (hhoists.named (temporaryNames_nonempty s) hs.clear).1.wrapped h.temps
  obtain ⟨t, ht⟩ := hwell.temporaries hreads n hn
  exact (temporaryNames_fresh ht).1

/-- Hoisting keeps what a script means in every pure environment: the hoisted script gives the same
value or throws as the script does, every temporary is set when it is read, and no temporary has a
name of the script. -/
theorem eval_hoist_agrees {E : Environment} {base : Nat} (hE : E.Pure base) {s : Script}
    (hs : s.Hoistable) {env : Env} (henv : Env.isGiven base env) (depth : Nat) {σ : State}
    (hσ : base ≤ σ.fresh) :
    Agree (E.Same base) ((E.eval depth env s).run.run σ).1
      ((E.eval depth env s.hoist).run.run σ).1 ∧
      ((E.eval depth env s.hoist).run.run σ).2.unset = σ.unset ∧
      ∀ n ∈ s.hoist.temporaries, n ∉ s.identifiers := by
  have hlike : Likeness (SameId base) (HoistRel base s) := Counterpart.likeness
  have hsame : ∀ v w, HoistRel base s v w → E.Same base v w := fun v w hvw =>
    ⟨_, hlike, callWithin_rel hE hs.faithful, hvw⟩
  have henv := Env.Rel.of_isGiven hlike (fun _ hi => .inl ⟨rfl, hi⟩) (NotTemp s.temporaryNames) henv
  have hrel := (eval_hoist_rel hE hs.clear hs.faithful henv depth).mono hsame
  obtain ⟨hagree, -, hkeeps⟩ := Run.Rel.iff_run.1 hrel σ σ hσ hσ
  exact ⟨hagree, hkeeps.unset, hs.temporaries_fresh⟩

def cellTwice : Script :=
  .binary {} .add (.call {} (.ident {} "f") []) (.call {} (.ident {} "f") [])

theorem nodes_cellTwice : cellTwice.nodes =
    [cellTwice, .call {} (.ident {} "f") [], .ident {} "f", .call {} (.ident {} "f") [],
      .ident {} "f"] :=
  rfl

theorem hoistable_cellTwice : cellTwice.Hoistable where
  nodes := by
    have hname : Text.isIdentifier "f" := by decide
    rw [nodes_cellTwice]
    simp only [List.forall_mem_cons]
    exact ⟨⟨rfl, nofun⟩, ⟨rfl, trivial⟩, ⟨rfl, hname⟩, ⟨rfl, trivial⟩, ⟨rfl, hname⟩, nofun⟩
  symbols {m m' n d d'} hmem := by
    rw [nodes_cellTwice] at hmem
    simp [cellTwice] at hmem

/-- The hoisted sum of two reads of a cell that holds three is six. -/
theorem eval_hoist_cellTwice : cellTwice.hoist.temporaries = [Text.ofString "a", "a", "a"] ∧
      ∃ σ, ((environmentWith fun _ _ => throw .thrown).eval 1
        [("f", .fixed (.cell 0 "f" (.number (.ofInt 3))))] cellTwice.hoist).run.run { fresh := 1 } =
          (.ok (.number (.ofInt 6)), σ) ∧ σ.unset = 0 := by
  refine ⟨by decide +kernel, ?_⟩
  have henv : Env.isGiven 1 [("f", .fixed (.cell 0 "f" (.number (.ofInt 3))))] := by decide
  have hfresh : 1 ≤ ({ fresh := 1 } : State).fresh := Nat.le_refl 1
  obtain ⟨hagree, hunset, -⟩ := eval_hoist_agrees (environmentWith_throw_pure 1)
    hoistable_cellTwice henv 1 hfresh
  have hplain : (((environmentWith fun _ _ => throw .thrown).eval 1
      [("f", .fixed (.cell 0 "f" (.number (.ofInt 3))))] cellTwice).run.run { fresh := 1 }).1 =
        .ok (.number (.ofInt 6)) := rfl
  rw [hplain] at hagree
  obtain ⟨r, σ, hrun⟩ : ∃ r σ, ((environmentWith fun _ _ => throw .thrown).eval 1
      [("f", .fixed (.cell 0 "f" (.number (.ofInt 3))))] cellTwice.hoist).run.run { fresh := 1 } =
        (r, σ) := ⟨_, _, rfl⟩
  rw [hrun] at hagree hunset
  cases r with
  | error e => exact absurd hagree not_false
  | ok v => exact ⟨σ, by rw [hrun, ← hagree.eq_of_isPrimitive rfl], hunset⟩

end Bindery.Script
