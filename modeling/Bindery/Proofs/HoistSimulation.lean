import Bindery.Proofs.HoistNames

/-!
# Evaluation with temporaries

A `Scene` is one evaluation of a function body, without temporaries and with them. `Scene.Follows`
says that a step with temporaries does what the step without them does: it gives a related result or
throws too, reads only temporaries that are assigned, and afterwards every temporary in sight holds
what its subexpression gives (`Scene.Ready`). It is proved for each node from its operands, so it
holds of every script (`Hoists.follows`) and of function bodies, whose temporaries are new variables
(`Hoists.body_rel`).
-/

namespace Bindery.Client.Run

/-! ## Variables -/

theorem load_run {i : Nat} {v : Value} {s : State} (h : s.vars[i]? = some (some v)) :
    (load i).run.run s = (.ok v, s) := by
  have hget : s.vars.getD i none = some v := by
    rw [List.getD_eq_getElem?_getD, h, Option.getD_some]
  rw [run_load, hget]

theorem alloc_run (v : Option Value) (s : State) :
    (alloc v).run.run s = (.ok s.vars.length, { s with vars := s.vars ++ [v] }) := rfl

end Bindery.Client.Run

namespace Bindery.Script

open Client
open Hoisting (Formed Grows Visible)

/-- The body of a function, and the one that it is hoisted to. Bodies in scripts that stand in for
symbols are left as they are. -/
inductive BodyOf (whole : Script) (names : Record Text) : Script → Script → Prop
  | hoisted {b out : Script} {count : Nat} {h : Hoisting}
      (hs : Hoists true (.start b count) b out h)
    (hclear : b.Clear (NotTemp names)) (hwhole : b ∈ whole.nodes)
    (hreads : ∀ t ∈ out.tempReads, ∃ n, names.lookup t = some n) :
    BodyOf whole names b.bare ((wrapped h.temps out).named names).bare
  | same {b : Script} (hb : b.Everywhere (Steady (NotTemp names))) :
      BodyOf whole names b.bare b.bare

/-- The evaluation of a body on one host, and with temporaries on another. -/
structure Scene where
  /-- Numbers from here on are new. -/
  base : Nat
  /-- The script to which the body belongs. -/
  whole : Script
  names : Record Text
  host : Host
  env : Env
  host' : Host
  env' : Env
  /-- The places of the temporaries that have names. -/
  slot : Text → Option Nat

namespace Scene

variable (c : Scene)

def R : Client.Value → Client.Value → Prop :=
  Counterpart (· = ·) (SameId c.base) (fun b _ b' _ => BodyOf c.whole c.names b b')
    (NotTemp c.names)

def plain (x : Script) : Run (Client.Value × Client.Value) := x.bare.evalRef c.host c.env

def tempered (x : Script) : Run (Client.Value × Client.Value) :=
  (x.named c.names).bare.evalRef c.host' c.env'

/-- The step gives a result that is related to `b`, wherever it starts. -/
def Yields {α β : Type} (Q : α → β → Prop) (x : Run α) (b : β) : Prop :=
  ∀ σ : State, c.base ≤ σ.fresh → ∃ a σ', x.run.run σ = (.ok a, σ') ∧ Q a b ∧ Keeps σ σ'

def Fails {α : Type} (x : Run α) : Prop :=
  ∀ σ : State, c.base ≤ σ.fresh → ∃ e σ', x.run.run σ = (.error e, σ') ∧ Keeps σ σ'

def Gives (x : Script) (w : Client.Value) : Prop := c.Yields (fun p w => c.R p.2 w) (c.plain x) w

/-- What decides whether an operand is evaluated. -/
def condition? : Script → Option Script
  | .cond _ x _ _ => some x
  | .binary _ _ x _ => some x
  | _ => none

/-- The `i`-th operand is evaluated if the condition has this value. -/
def takes (i : Nat) : Script → Client.Value → Bool
  | .cond .., w => w.isTrue == (i == 1)
  | .binary _ op .., w => needsRight op w
  | _, _ => true

/-- Branches with this key are taken. -/
def Taken (key : Text) : Prop :=
  ∃ x ∈ c.whole.nodes, ∃ i d w, branchKey i x = some key ∧ condition? x = some d ∧ c.Gives d w ∧
    takes i x w

/-- The temporaries in sight hold what their subexpressions give. -/
structure Ready (h : Hoisting) (τ : State) : Prop where
  fresh : c.base ≤ τ.fresh
  inRange : ∀ t i, c.slot t = some i → i < τ.vars.length
  stored : ∀ p, Visible c.Taken h p → ∀ i, c.slot p.2 = some i →
    ∃ v, τ.vars[i]? = some (some v) ∧ ∀ x ∈ c.whole.nodes, x.dump = p.1 → c.Gives x v

/-- Of the variables only temporaries that are not among `temps` have changed. -/
structure Touches (temps : List Text) (τ τ' : State) : Prop where
  fresh : τ.fresh ≤ τ'.fresh
  unset : τ'.unset = τ.unset
  length : τ.vars.length ≤ τ'.vars.length
  vars : ∀ j < τ.vars.length, τ'.vars[j]? = τ.vars[j]? ∨ ∃ t, t ∉ temps ∧ c.slot t = some j

/-- The second step does with temporaries what the first does without. -/
def Follows {α β : Type} (h h' : Hoisting) (Q : α → β → Prop) (x : Run α) (y : Run β) : Prop :=
  ∀ τ, c.Ready h τ → ∃ r τ', y.run.run τ = (r, τ') ∧ c.Touches h.temps τ τ' ∧
    match r with
    | .ok b => c.Yields Q x b ∧ c.Ready h' τ'
    | .error _ => c.Fails x

variable {c} {α β γ δ : Type} {h h₁ h₂ h' : Hoisting} {Q : α → β → Prop} {P : γ → δ → Prop}

theorem likeness : Likeness (SameId c.base) c.R := Counterpart.likeness

theorem Yields.exists {x : Run α} {b : β} (hx : c.Yields Q x b) : ∃ a, Q a b := by
  obtain ⟨a, -, -, ha, -⟩ := hx { fresh := c.base } (Nat.le_refl _)
  exact ⟨a, ha⟩

theorem Fails.bind {x : Run α} {f : α → Run γ} (hx : c.Fails x) : c.Fails (x >>= f) := fun σ hσ =>
  have ⟨e, σ', hrun, hk⟩ := hx σ hσ
  ⟨e, σ', run_bind_error hrun, hk⟩

theorem Yields.mono {P : α → δ → Prop} {x : Run α} {b : β} {d : δ} (hx : c.Yields Q x b)
    (hQ : ∀ a, Q a b → P a d) : c.Yields P x d := by
  intro σ hσ
  obtain ⟨a, σ', hrun, ha, hk⟩ := hx σ hσ
  exact ⟨a, σ', hrun, hQ a ha, hk⟩

theorem Touches.refl (temps : List Text) (τ : State) : c.Touches temps τ τ :=
  ⟨Nat.le_refl _, rfl, Nat.le_refl _, fun _ _ => .inl rfl⟩

variable {w : Client.Value} {os : List Script} {temps : List Text} {i : Nat} {d s x y : Script}
  {τ τ' : State} {key : Text}

theorem Touches.trans {temps' : List Text} {τ'' : State} (ht : c.Touches temps τ τ')
    (ht' : c.Touches temps' τ' τ'') (hsub : temps ⊆ temps') : c.Touches temps τ τ'' where
  fresh := Nat.le_trans ht.fresh ht'.fresh
  unset := ht'.unset.trans ht.unset
  length := Nat.le_trans ht.length ht'.length
  vars j hj := by
    rcases ht'.vars j (Nat.lt_of_lt_of_le hj ht.length) with heq | ⟨t, hnot, hslot⟩
    · rw [heq]
      exact ht.vars j hj
    · exact .inr ⟨t, fun hmem => hnot (hsub hmem), hslot⟩

theorem Touches.anti {temps' : List Text} (ht : c.Touches temps' τ τ') (hsub : temps ⊆ temps') :
    c.Touches temps τ τ' :=
  (Touches.refl temps τ).trans ht hsub

theorem Touches.of_keeps (hk : Keeps τ τ') (temps : List Text) : c.Touches temps τ τ' where
  fresh := hk.fresh
  unset := hk.unset
  length := hk.vars.length_le
  vars j hj := by
    obtain ⟨rest, hrest⟩ := hk.vars
    rw [← hrest, List.getElem?_append_left hj]
    exact .inl rfl

theorem Ready.mono (hr : c.Ready h τ) (hsub : ∀ p, Visible c.Taken h' p → Visible c.Taken h p) :
    c.Ready h' τ :=
  ⟨hr.fresh, hr.inRange, fun p hp => hr.stored p (hsub p hp)⟩

/-! ## Rules -/

namespace Follows

theorem pure {a : α} {b : β} (hQ : Q a b) : c.Follows h h Q (Pure.pure a) (Pure.pure b) :=
  fun τ hr => ⟨.ok b, τ, rfl, .refl _ τ, fun σ _ => ⟨a, σ, rfl, hQ, .refl σ⟩, hr⟩

theorem mono {Q' : α → β → Prop} {x : Run α} {y : Run β} (hxy : c.Follows h h' Q x y)
    (hQ : ∀ a b, Q a b → Q' a b) : c.Follows h h' Q' x y := by
  intro τ hr
  obtain ⟨r, τ', hrun, ht, hres⟩ := hxy τ hr
  refine ⟨r, τ', hrun, ht, ?_⟩
  cases r with
  | ok b => exact ⟨hres.1.mono fun a ha => hQ a b ha, hres.2⟩
  | error e => exact hres

theorem weaken {x : Run α} {y : Run β} (hxy : c.Follows h₁ h₂ Q x y)
    (hpre : ∀ p, Visible c.Taken h₁ p → Visible c.Taken h p) (htemps : h.temps ⊆ h₁.temps)
    (hpost : ∀ p, Visible c.Taken h' p → Visible c.Taken h₂ p) : c.Follows h h' Q x y := by
  intro τ hr
  obtain ⟨r, τ', hrun, ht, hres⟩ := hxy τ (hr.mono hpre)
  refine ⟨r, τ', hrun, ht.anti htemps, ?_⟩
  cases r with
  | ok b => exact ⟨hres.1, hres.2.mono hpost⟩
  | error e => exact hres

theorem bind {x : Run α} {y : Run β} {f : α → Run γ} {g : β → Run δ} (hxy : c.Follows h h₁ Q x y)
    (htemps : h.temps ⊆ h₁.temps)
    (hfg : ∀ b, c.Yields Q x b → ∀ a, Q a b → c.Follows h₁ h' P (f a) (g b)) :
    c.Follows h h' P (x >>= f) (y >>= g) := by
  intro τ hr
  obtain ⟨r, τ₁, hrun, ht, hres⟩ := hxy τ hr
  cases r with
  | error e => exact ⟨.error e, τ₁, run_bind_error hrun, ht, hres.bind⟩
  | ok b =>
    obtain ⟨hyields, hr₁⟩ := hres
    obtain ⟨a, ha⟩ := hyields.exists
    obtain ⟨r, τ₂, hrun₂, ht₂, hres₂⟩ := hfg b hyields a ha τ₁ hr₁
    refine ⟨r, τ₂, (run_bind_ok hrun).trans hrun₂, ht.trans ht₂ htemps, ?_⟩
    -- The result of the second step is the same whatever result of the first it is compared with.
    have second {a : α} (ha : Q a b) : match r with
        | .ok d => c.Yields P (f a) d
        | .error _ => c.Fails (f a) := by
      obtain ⟨r', τ', hrun', -, hres'⟩ := hfg b hyields a ha τ₁ hr₁
      obtain ⟨rfl, rfl⟩ := Prod.mk.inj (hrun₂.symm.trans hrun')
      cases r with
      | ok d => exact hres'.1
      | error e => exact hres'
    cases r with
    | ok d =>
      refine ⟨fun σ hσ => ?_, hres₂.2⟩
      obtain ⟨a, σ₁, hx, ha, hk⟩ := hyields σ hσ
      obtain ⟨v, σ₂, hfa, hv, hk'⟩ := second ha σ₁ (Nat.le_trans hσ hk.fresh)
      exact ⟨v, σ₂, (run_bind_ok hx).trans hfa, hv, hk.trans hk'⟩
    | error e =>
      intro σ hσ
      obtain ⟨a, σ₁, hx, ha, hk⟩ := hyields σ hσ
      obtain ⟨e', σ₂, hfa, hk'⟩ := second ha σ₁ (Nat.le_trans hσ hk.fresh)
      exact ⟨e', σ₂, (run_bind_ok hx).trans hfa, hk.trans hk'⟩

theorem of_rel {x : Run α} {y : Run β} (hxy : Run.Rel c.base Q x y) : c.Follows h h Q x y := by
  intro τ hr
  obtain ⟨r, τ', hrun⟩ : ∃ r τ', y.run.run τ = (r, τ') := ⟨_, _, rfl⟩
  have hboth (σ : State) (hσ : c.base ≤ σ.fresh) : Agree Q (x.run.run σ).1 r ∧
      Keeps σ (x.run.run σ).2 ∧ Keeps τ τ' := by
    have := Run.Rel.iff_run.1 hxy σ τ hσ hr.fresh
    rwa [hrun] at this
  have hk : Keeps τ τ' := (hboth { fresh := c.base } (Nat.le_refl _)).2.2
  refine ⟨r, τ', hrun, .of_keeps hk _, ?_⟩
  cases r with
  | ok b =>
    refine ⟨fun σ hσ => ?_, Nat.le_trans hr.fresh hk.fresh,
      fun t i hi => Nat.lt_of_lt_of_le (hr.inRange t i hi) hk.vars.length_le, fun p hp i hi => ?_⟩
    · obtain ⟨hagree, hkeeps, -⟩ := hboth σ hσ
      cases hx : x.run.run σ with
      | mk q σ' =>
        rw [hx] at hagree hkeeps
        cases q with
        | ok a => exact ⟨a, σ', rfl, hagree, hkeeps⟩
        | error e => exact False.elim hagree
    · obtain ⟨v, hv, hgives⟩ := hr.stored p hp i hi
      obtain ⟨rest, hrest⟩ := hk.vars
      exact ⟨v, by rw [← hrest, List.getElem?_append_left (hr.inRange _ i hi), hv], hgives⟩
  | error e =>
    intro σ hσ
    obtain ⟨hagree, hkeeps, -⟩ := hboth σ hσ
    cases hx : x.run.run σ with
    | mk q σ' =>
      rw [hx] at hagree hkeeps
      cases q with
      | ok a => exact False.elim hagree
      | error e => exact ⟨e, σ', rfl, hkeeps⟩

end Follows

/-! ## Branches -/

theorem text_of_isShortCircuit {op : BinOp} (hop : op.isShortCircuit) :
    op = .or ∧ op.text.bytes = [0x7C, 0x7C] ∨ op = .and ∧ op.text.bytes = [0x26, 0x26] ∨
      op = .coalesce ∧ op.text.bytes = [0x3F, 0x3F] := by
  cases op with
  | or => exact .inl ⟨rfl, rfl⟩
  | and => exact .inr (.inl ⟨rfl, rfl⟩)
  | coalesce => exact .inr (.inr ⟨rfl, rfl⟩)
  | _ => cases hop

theorem branchKey_cases (h : branchKey i x = some key) :
    (∃ m d t e, x = .cond m d t e ∧ key = Text.ofNat i ++ "?" ++ d.dump) ∨
      ∃ m op d e, x = .binary m op d e ∧ op.isShortCircuit ∧ key = op.text ++ d.dump := by
  cases x with
  | cond m d t e =>
    simp only [branchKey, Option.ite_none_right_eq_some, Option.some.injEq] at h
    exact .inl ⟨m, d, t, e, rfl, h.2.symm⟩
  | binary m op d e =>
    simp only [branchKey, Option.ite_none_right_eq_some, Option.some.injEq, Bool.and_eq_true] at h
    exact .inr ⟨m, op, d, e, rfl, h.1.2, h.2.symm⟩
  | _ => cases h

/-- A key tells the condition and which operand it is about. -/
theorem branchKey_inj {j : Nat} (hx : branchKey i x = some key) (hy : branchKey j y = some key) :
    ∃ d e, condition? x = some d ∧ condition? y = some e ∧ d.dump = e.dump ∧
      takes i x = takes j y := by
  have digit (n : Nat) {b : UInt8} (h : b ∈ (Text.ofNat n).bytes) :
      b ≠ 0x3F ∧ b ≠ 0x7C ∧ b ≠ 0x26 := by
    have := Text.bytes_ofNat h
    refine ⟨?_, ?_, ?_⟩ <;> rintro rfl <;> exact absurd this (by decide)
  -- The texts of the operators do not begin with a digit.
  have mixed {n : Nat} {op : BinOp} {d e : Script} (hop : op.isShortCircuit)
      (heq : Text.ofNat n ++ "?" ++ d.dump = op.text ++ e.dump) : False := by
    have heq := congrArg Text.bytes heq
    cases hbytes : (Text.ofNat n).bytes with
    | nil => exact absurd hbytes (Text.bytes_ofNat_ne_nil n)
    | cons b rest =>
      have hb := digit n (b := b) (by simp [hbytes])
      simp only [Text.bytes_append, hbytes] at heq
      obtain ⟨-, h⟩ | ⟨-, h⟩ | ⟨-, h⟩ := text_of_isShortCircuit hop <;> rw [h] at heq <;>
        simp_all
  obtain ⟨m, d, t, e, rfl, rfl⟩ | ⟨m, op, d, e, rfl, hop, rfl⟩ := branchKey_cases hx
  · obtain ⟨m', d', t', e', rfl, heq⟩ | ⟨m', op', d', e', rfl, hop', heq⟩ := branchKey_cases hy
    · have heq := congrArg Text.bytes heq
      simp only [Text.bytes_append, List.append_assoc] at heq
      obtain ⟨hi, hd⟩ := Text.append_cons_inj (fun h => (digit i h).1 rfl)
        (fun h => (digit j h).1 rfl) heq
      obtain rfl := Text.ofNat_inj (Text.ext hi)
      exact ⟨d, d', rfl, rfl, Text.ext hd, rfl⟩
    · exact (mixed hop' heq).elim
  · obtain ⟨m', d', t', e', rfl, heq⟩ | ⟨m', op', d', e', rfl, hop', heq⟩ := branchKey_cases hy
    · exact (mixed hop heq.symm).elim
    · have heq := congrArg Text.bytes heq
      simp only [Text.bytes_append] at heq
      have hboth : op = op' ∧ d.dump = d'.dump := by
        obtain ⟨rfl, h⟩ | ⟨rfl, h⟩ | ⟨rfl, h⟩ := text_of_isShortCircuit hop <;>
          obtain ⟨rfl, h'⟩ | ⟨rfl, h'⟩ | ⟨rfl, h'⟩ := text_of_isShortCircuit hop' <;>
          simp only [h, h'] at heq <;> simp_all [Text.ext_iff]
      obtain ⟨rfl, hd⟩ := hboth
      exact ⟨d, d', rfl, rfl, hd, rfl⟩

/-- What is assumed of a scene in which the temporaries `temps` are introduced. -/
structure Valid (c : Scene) (temps : List Text) : Prop where
  hosts : HostRel (.blind c.base) () (fun _ => c.R) c.host c.host'
  envs : Env.Rel c.R (NotTemp c.names) c.env c.env'
  nonempty : NonemptyNames c.names
  /-- Subexpressions of the same structure are the same. -/
  faithful : ∀ x ∈ c.whole.nodes, ∀ y ∈ c.whole.nodes, x.dump = y.dump → x.bare = y.bare
  names_inj : ∀ t t' n, c.names.lookup t = some n → c.names.lookup t' = some n → t = t'
  slot_place : ∀ t i, c.slot t = some i →
    ∃ n, c.names.lookup t = some n ∧ c.env'.lookup n = some (.place i)
  slot_inj : ∀ t t' i, c.slot t = some i → c.slot t' = some i → t = t'
  slot_isSome : ∀ t ∈ temps, ∀ n, c.names.lookup t = some n → ∃ i, c.slot t = some i

theorem Gives.alike {w' : Client.Value} (hw : c.Gives x w) (hw' : c.Gives x w') :
    ∃ v, c.R v w ∧ c.R v w' := by
  obtain ⟨p, σ, hrun, hp, -⟩ := hw { fresh := c.base } (Nat.le_refl _)
  obtain ⟨q, σ', hrun', hq, -⟩ := hw' { fresh := c.base } (Nat.le_refl _)
  obtain ⟨h, rfl⟩ := Prod.mk.inj (hrun.symm.trans hrun')
  obtain rfl := Except.ok.inj h
  exact ⟨p.2, hp, hq⟩

theorem Gives.congr (hxy : x.bare = y.bare) (hw : c.Gives x w) : c.Gives y w := by
  rwa [Gives, plain, ← hxy]

theorem takes_eq (i : Nat) (x : Script) {v : Client.Value} (hvw : c.R v w) :
    takes i x v = takes i x w := by
  cases x <;> first | rfl | simp [takes, (likeness.alike hvw).isTrue_eq,
    needsRight_eq _ (likeness.alike hvw)]

theorem condition_mem (h : condition? x = some d) : d ∈ x.children := by
  cases x <;> simp_all [condition?, children]

/-- A branch whose condition has the wrong value is not taken, wherever it stands. -/
theorem not_taken (hc : c.Valid temps) (hx : x ∈ c.whole.nodes) (hkey : branchKey i x = some key)
    (hd : condition? x = some d) (hw : c.Gives d w) (htakes : takes i x w = false) :
    ¬ c.Taken key := by
  rintro ⟨y, hy, j, e, w', hkey', he, hw', htakes'⟩
  obtain ⟨d', e', hd', he', hdump, htakes_eq⟩ := branchKey_inj hkey hkey'
  obtain rfl := Option.some.inj (hd.symm.trans hd')
  obtain rfl := Option.some.inj (he.symm.trans he')
  have hbare := hc.faithful d (mem_nodes_of_mem_children hx (condition_mem hd)) e
    (mem_nodes_of_mem_children hy (condition_mem he)) hdump
  obtain ⟨v, hv, hv'⟩ := hw.alike (hw'.congr hbare.symm)
  rw [← htakes_eq, ← takes_eq i x hv', takes_eq i x hv, htakes] at htakes'
  cases htakes'

namespace Follows

theorem branch {x : Run α} {y : Run β} {key : Text} (hf : Formed h) (hg : Grows (h.enter key) h₁)
    (htaken : c.Taken key) (hxy : c.Follows (h.enter key) h₁ Q x y) :
    c.Follows h { h₁ with stack := h.stack } Q x y :=
  hxy.weaken (fun _ hp => hp.of_enter hf htaken) (by simp) fun _ hp => hp.of_leave hg

theorem skip_before {x : Run α} {y : Run β} {key : Text} (hf : Formed h)
    (hg : Grows (h.enter key) h₁) (hskip : ¬ c.Taken key)
    (hxy : c.Follows { h₁ with stack := h.stack } h' Q x y) : c.Follows h h' Q x y :=
  hxy.weaken (fun _ hp => hp.of_skip hf hg hskip) (hg.leave hf).temps.subset fun _ hp => hp

theorem skip_after {x : Run α} {y : Run β} {key : Text} (hf : Formed h₁)
    (hg : Grows (h₁.enter key) h₂) (hskip : ¬ c.Taken key) (hxy : c.Follows h h₁ Q x y) :
    c.Follows h { h₂ with stack := h₁.stack } Q x y :=
  hxy.weaken (fun _ hp => hp) (fun _ h => h) fun _ hp => hp.of_skip hf hg hskip

end Follows

/-! ## Nodes that keep their shape -/

/-- The values are related. The receivers are, too, unless the node is an access that may have
become a temporary. -/
def Pairs (c : Scene) (hoistable : Bool) (s : Script) (p q : Client.Value × Client.Value) : Prop :=
  c.R p.2 q.2 ∧ (hoistable = false ∨ s.isAccess = false → c.R p.1 q.1)

/-- The operand is hoisted, and evaluates as before. -/
structure Step (c : Scene) (hoistable : Bool) (h : Hoisting) (x o : Script)
    (h' : Hoisting) : Prop where
  formed' : Formed h'
  grows : Grows h h'
  isFunction : (o.named c.names).core.isFunction = x.core.isFunction
  follows : c.Follows h h' (c.Pairs hoistable x) (c.plain x) (c.tempered o)

theorem Follows.map {x : Run α} {y : Run β} {f : α → γ} {g : β → δ} (hxy : c.Follows h h' Q x y)
    (hfg : ∀ a b, Q a b → P (f a) (g b)) :
    c.Follows h h' P (do return f (← x)) (do return g (← y)) := by
  intro τ hr
  obtain ⟨r, τ', hrun, ht, hres⟩ := hxy τ hr
  cases r with
  | error e => exact ⟨.error e, τ', run_bind_error hrun, ht, hres.bind⟩
  | ok b =>
    refine ⟨.ok (g b), τ', run_bind_ok hrun, ht, fun σ hσ => ?_, hres.2⟩
    obtain ⟨a, σ', hx, ha, hk⟩ := hres.1 σ hσ
    exact ⟨f a, σ', run_bind_ok hx, hfg a b ha, hk⟩

theorem Follows.bind_rel {x : Run α} {y : Run β} {f : α → Run γ} {g : β → Run δ}
    (hxy : c.Follows h h' Q x y) (htemps : h.temps ⊆ h'.temps)
    (hfg : ∀ a b, Q a b → Run.Rel c.base P (f a) (g b)) :
    c.Follows h h' P (x >>= f) (y >>= g) :=
  hxy.bind htemps fun b _ a hab => .of_rel (hfg a b hab)

theorem list_follows {xs : List Script} (hops : Operands c.Step s i h xs os h')
    (hkeys : ∀ j, i ≤ j → branchKey j s = none) :
    c.Follows h h' (List.Forall₂ c.R) (evalList c.host c.env (bareList xs))
      (evalList c.host' c.env' (bareList (os.map (named c.names)))) := by
  induction hops with
  | nil => exact .pure .nil
  | branch hkey => simp [hkeys _ (Nat.le_refl _)] at hkey
  | always _ hx _ ih =>
    refine hx.follows.bind hx.grows.temps.subset fun q _ p hpq => ?_
    exact (ih fun j hj => hkeys j (by omega)).map fun vs ws hvs => .cons hpq.1 hvs

theorem props_follows (hkeys : ∀ j, branchKey j s = none) {ps : Record Script}
    (hops : Operands c.Step s i h (ps.map (·.2)) os h') :
    c.Follows h h' (fun fs gs => fs.map (·.1) = gs.map (·.1) ∧
        List.Forall₂ c.R (fs.map (·.2)) (gs.map (·.2)))
      (evalProps c.host c.env (bareProps ps))
      (evalProps c.host' c.env' (bareProps ((ps.map (·.1)).zip (os.map (named c.names))))) := by
  induction ps generalizing i h os with
  | nil =>
    cases hops
    exact .pure ⟨rfl, .nil⟩
  | cons p ps ih =>
    obtain ⟨k, x⟩ := p
    obtain ⟨_, _, _, hx, hrest, rfl⟩ := hops.cons_of_none (hkeys _)
    refine hx.follows.bind hx.grows.temps.subset fun b _ a hab => ?_
    refine (ih hrest).map fun fs gs hfg => ?_
    rw [isSome_eq_of_rel (lookup_rel hfg.1 hfg.2 k)]
    split
    · exact hfg
    · exact ⟨by simp [hfg.1], .cons hab.1 hfg.2⟩

theorem cond_follows (hc : c.Valid temps) {m : Marks} {t e : Script}
    (hwhole : .cond m x t e ∈ c.whole.nodes)
    (hops : Operands c.Step (.cond m x t e) 0 h [x, t, e] os h') :
    c.Follows h h' (PairRel c.R) (c.plain (.cond m x t e))
      (((Script.cond m x t e).withChildren (os.map (named c.names))).bare.evalRef
        c.host' c.env') := by
  obtain ⟨_, _, _, hx, hrest, rfl⟩ := hops.cons_of_none rfl
  cases hrest with
  | always hkey => simp [branchKey] at hkey
  | branch hkey₁ ht hrest =>
    cases hrest with
    | always hkey => simp [branchKey] at hkey
    | branch hkey₂ he hrest =>
      cases hrest
      rename_i key₁ h₂ o₂ key₂ h₃ o₃
      have hf₂ := hx.formed'.leave ht.formed' ht.grows
      have value {b : Bool} {z : Script} (p q : Client.Value × Client.Value)
          (hpq : c.Pairs b z p q) : PairRel c.R (Client.Value.undefined, p.2) (.undefined, q.2) :=
        ⟨likeness.undefined, hpq.1⟩
      refine hx.follows.bind hx.grows.temps.subset fun q hq p hpq => ?_
      have hgives : c.Gives x q.2 := hq.mono fun _ hp => hp.1
      simp only [(likeness.alike hpq.1).isTrue_eq]
      cases htrue : q.2.isTrue with
      | true =>
        have htaken : c.Taken key₁ :=
          ⟨_, hwhole, 1, x, q.2, hkey₁, rfl, hgives, by simp [takes, htrue]⟩
        have hskip : ¬ c.Taken key₂ := not_taken hc hwhole hkey₂ rfl hgives (by simp [takes, htrue])
        exact (((ht.follows.branch hx.formed' ht.grows htaken).skip_after hf₂ he.grows hskip).map
          value)
      | false =>
        have hskip : ¬ c.Taken key₁ := not_taken hc hwhole hkey₁ rfl hgives (by simp [takes, htrue])
        have htaken : c.Taken key₂ :=
          ⟨_, hwhole, 2, x, q.2, hkey₂, rfl, hgives, by simp [takes, htrue]⟩
        exact (((he.follows.branch hf₂ he.grows htaken).skip_before hx.formed' ht.grows hskip).map
          value)

/-- An operator evaluates its right operand if the left one does not decide. -/
theorem binary_follows (hc : c.Valid temps) {m : Marks} {op : BinOp} (hop : op ≠ .assign)
    (hwhole : .binary m op x y ∈ c.whole.nodes)
    (hops : Operands c.Step (.binary m op x y) 0 h [x, y] os h') :
    c.Follows h h' (PairRel c.R) (c.plain (.binary m op x y))
      (((Script.binary m op x y).withChildren (os.map (named c.names))).bare.evalRef
        c.host' c.env') := by
  -- With both operands at hand.
  have both {b : Bool} {p q : Client.Value × Client.Value} (hpq : c.R p.2 q.2)
      (p' q' : Client.Value × Client.Value) (hpq' : c.Pairs b y p' q') :
      Run.Rel c.base (PairRel c.R) (do return (Client.Value.undefined, ← c.host.binary op p.2 p'.2))
        (do return (Client.Value.undefined, ← c.host'.binary op q.2 q'.2)) :=
    (hc.hosts.binary likeness.family op hpq hpq'.1).bind fun _ v w _ hv =>
      .pure ⟨likeness.undefined, hv⟩
  obtain ⟨_, _, _, hx, hrest, rfl⟩ := hops.cons_of_none rfl
  cases hrest with
  | always hkey hy hrest =>
    cases hrest
    rename_i o₁ h₁ o₂
    have hneeds (v : Client.Value) : needsRight op v := by
      cases op <;> first | rfl | simp [branchKey, BinOp.isShortCircuit] at hkey
    simp only [plain, List.map_cons, List.map_nil, withChildren, bare]
    rw [evalRef_binary hop, evalRef_binary hop]
    refine hx.follows.bind hx.grows.temps.subset fun q _ p hpq => ?_
    simp only [hneeds, if_true]
    exact hy.follows.bind_rel hy.grows.temps.subset (both hpq.1)
  | branch hkey hy hrest =>
    cases hrest
    rename_i o₁ h₁ key h₂ o₂
    simp only [plain, List.map_cons, List.map_nil, withChildren, bare]
    rw [evalRef_binary hop, evalRef_binary hop]
    refine hx.follows.bind hx.grows.temps.subset fun q hq p hpq => ?_
    have hgives : c.Gives x q.2 := hq.mono fun _ hp => hp.1
    simp only [needsRight_eq op (likeness.alike hpq.1)]
    cases hneeds : needsRight op q.2 with
    | true =>
      have htaken : c.Taken key := ⟨_, hwhole, 1, x, q.2, hkey, rfl, hgives, hneeds⟩
      exact (hy.follows.branch hx.formed' hy.grows htaken).bind_rel
        (hy.grows.leave hx.formed').temps.subset (both hpq.1)
    | false =>
      have hskip : ¬ c.Taken key := not_taken hc hwhole hkey rfl hgives hneeds
      exact (Follows.pure ⟨likeness.undefined, hpq.1⟩).skip_after hx.formed' hy.grows hskip

theorem default_rel (hc : c.Valid temps) (hd : d.Everywhere (Steady (NotTemp c.names))) :
    Run.Rel c.base (PairRel c.R) (d.bare.evalRef c.host c.env) (d.bare.evalRef c.host' c.env') :=
  evalRef_follows likeness.family (fun hid hb hps henv => .closure hid (.same hb) hps henv) d hd
    hc.hosts hc.envs () trivial

/-- A node other than a function literal, or a call of one, that keeps its shape. -/
theorem shape_follows (hc : c.Valid temps) (hwhole : s ∈ c.whole.nodes)
    (hplain : s.Plain (NotTemp c.names)) (hs : s.isFunction = false)
    (hcall : ∀ m f as, s = .call m f as → f.core.isFunction = false) (hf : Formed h)
    (hops : Operands c.Step s 0 h s.children os h') : c.Follows h h' (PairRel c.R) (c.plain s)
      ((s.withChildren (os.map (named c.names))).bare.evalRef c.host' c.env') := by
  have value {x y : Run Client.Value} (hxy : Run.Rel c.base c.R x y) :
      Run.Rel c.base (PairRel c.R) (do return (Client.Value.undefined, ← x))
        (do return (Client.Value.undefined, ← y)) :=
    hxy.bind fun v w hv => .pure ⟨likeness.undefined, hv⟩
  have grows {i : Nat} {h h' : Hoisting} {xs os : List Script}
      (hops : Operands c.Step s i h xs os h') (hf : Formed h) : h.temps ⊆ h'.temps :=
    ((hops.mono fun _ _ _ _ _ _ hx _ => ⟨hx.formed', hx.grows⟩).grows hf).2.temps.subset
  cases s with
  | ident m n =>
    cases hops
    exact .of_rel (value (HostRel.name hc.hosts hc.envs hplain.2))
  | literal m v =>
    cases hops
    exact .pure ⟨likeness.undefined, likeness.of_isPrimitive (by cases v <;> rfl)⟩
  | symbol m n d =>
    cases hops
    cases d with
    | none => exact .of_rel (.throw _ _)
    | some d => exact .of_rel (default_rel (d := d) hc hplain)
  | member m x n =>
    obtain ⟨_, _, _, hx, hrest, rfl⟩ := hops.cons_of_none rfl
    cases hrest
    refine hx.follows.bind_rel hx.grows.temps.subset fun p q hpq => ?_
    exact (hc.hosts.member trivial n hpq.1).bind fun _ v w _ hv => .pure ⟨hpq.1, hv⟩
  | index m x k =>
    obtain ⟨_, _, _, hx, hrest, rfl⟩ := hops.cons_of_none rfl
    obtain ⟨_, _, _, hk, hnone, rfl⟩ := hrest.cons_of_none rfl
    cases hnone
    refine hx.follows.bind hx.grows.temps.subset fun q _ p hpq => ?_
    refine hk.follows.bind_rel hk.grows.temps.subset fun p' q' hpq' => ?_
    exact (hc.hosts.element trivial hpq.1 hpq'.1).bind fun _ v w _ hv => .pure ⟨hpq.1, hv⟩
  | call m f as =>
    obtain ⟨_, _, _, hx, hrest, rfl⟩ := hops.cons_of_none rfl
    have hfun := hcall m f as rfl
    have hfun' := hx.isFunction.trans hfun
    rw [← isFunction_bare, ← core_bare] at hfun hfun'
    simp only [plain, List.map_cons, withChildren, bare]
    rw [evalRef_call hfun, evalRef_call hfun']
    refine hx.follows.bind hx.grows.temps.subset fun q _ p hpq => ?_
    have hreceiver : c.R p.1 q.1 := hpq.2 (by cases f <;> simp [keepsShape, isAccess])
    refine (list_follows hrest fun j _ => rfl).bind_rel (grows hrest hx.formed') fun vs ws hvs => ?_
    exact value (hc.hosts.call trivial hpq.1 hreceiver hvs)
  | construct m f as =>
    obtain ⟨_, _, _, hx, hrest, rfl⟩ := hops.cons_of_none rfl
    refine hx.follows.bind hx.grows.temps.subset fun q _ p hpq => ?_
    refine (list_follows hrest fun j _ => rfl).bind_rel (grows hrest hx.formed') fun vs ws hvs => ?_
    exact value (hc.hosts.construct trivial hpq.1 hvs)
  | unary m op x =>
    obtain ⟨_, _, _, hx, hrest, rfl⟩ := hops.cons_of_none rfl
    cases hrest
    exact hx.follows.bind_rel hx.grows.temps.subset fun p q hpq =>
      value (hc.hosts.unary likeness.family op hpq.1)
  | binary m op x y =>
    have hop : op ≠ .assign := by
      rintro rfl
      exact hplain
    exact binary_follows hc hop hwhole hops
  | cond m x t e => exact cond_follows hc hwhole hops
  | array m xs =>
    refine (list_follows hops fun j _ => rfl).bind_rel (grows hops hf) fun vs ws hvs => ?_
    exact Run.Rel.fresh.bind fun i j hij =>
      .pure ⟨likeness.undefined, likeness.of_alike rfl (.array hij hvs)⟩
  | object m ps =>
    refine (props_follows (fun j => rfl) hops).bind_rel (grows hops hf) fun fs gs hfg => ?_
    exact Run.Rel.fresh.bind fun i j hij =>
      .pure ⟨likeness.undefined, likeness.of_alike rfl (.object hij hfg.1 hfg.2)⟩
  | paren m x => exact False.elim hplain
  | function m ps b | arrow m ps b => cases hs
  | sequence m xs =>
    exact (list_follows hops fun j _ => rfl).map fun vs ws hvs =>
      ⟨likeness.undefined, getLastD_rel hvs likeness.undefined⟩

/-! ## Nodes that become temporaries -/

theorem receiver_undefined (h : Host) (env : Env) {X : Text → Prop} (hs : s.Plain X)
    (hsymbol : ∀ m n d, s ≠ .symbol m n d) (haccess : s.isAccess = false) :
    (fun p => (Client.Value.undefined, p.2)) <$> s.bare.evalRef h env = s.bare.evalRef h env := by
  cases s with
  | symbol m n d => exact absurd rfl (hsymbol m n d)
  | member | index => cases haccess
  | paren => exact False.elim hs
  | call m f as =>
    rw [bare, evalRef_call_core]
    generalize hg : f.bare.core = g
    cases g <;> first | exact absurd hg (core_ne_paren _ _ _) | simp [evalCall]
  | binary m op x y =>
    have hop : op ≠ .assign := by
      rintro rfl
      exact hs
    simp only [bare, evalRef_binary hop, map_bind]
    congr
    funext p
    split <;> simp
  | cond m x t e =>
    simp only [bare, evalRef, map_bind]
    congr
    funext p
    split <;> simp
  | _ => simp [bare, evalRef]

theorem receiver_eq {X : Text → Prop} (hs : s.Plain X) (hsymbol : ∀ m n d, s ≠ .symbol m n d)
    (haccess : s.isAccess = false) {σ σ' : State} {p : Client.Value × Client.Value}
    (hrun : (c.plain s).run.run σ = (.ok p, σ')) : p.1 = .undefined := by
  have hmap := congrArg (fun x : Run _ => x.run.run σ)
    (receiver_undefined c.host c.env hs hsymbol haccess)
  rw [plain] at hrun
  simp only [map_eq_pure_bind] at hmap
  rw [run_bind_ok hrun] at hmap
  obtain ⟨hp, -⟩ := Prod.mk.inj (hmap.trans hrun)
  exact (congrArg Prod.fst (Except.ok.inj hp)).symm

theorem callTexts_paren (s : Script) : ∀ t ∈ s.callTexts.2, ∃ rest, t.bytes = 0x28 :: rest := by
  intro t ht
  obtain ⟨z, -, hleaf, rfl⟩ := mem_callTexts ht
  rw [dump, fold_eq, hleaf]
  exact ⟨_, rfl⟩

theorem ne_symbol_of_count (htexts : ∀ t ∈ h.texts, ∃ rest, t.bytes = 0x28 :: rest)
    (hcount : 2 ≤ h.texts.count s.dump) (m : Marks) (n : Text) (d : Option Script) :
    s ≠ .symbol m n d := by
  rintro rfl
  have hmem : (Script.symbol m n d).dump ∈ h.texts := List.count_pos_iff.1 (by omega)
  obtain ⟨rest, hrest⟩ := htexts _ hmem
  have hdump : (Script.symbol m n d).dump.bytes = 0x7B :: 0x7B :: (n ++ "\x7d\x7d").bytes := rfl
  rw [hdump] at hrest
  exact absurd (List.cons.inj hrest).1 (by decide)

/-- The value of a temporary is that of the subexpression that it stands for. -/
theorem read_follows (hc : c.Valid temps) (hwhole : s ∈ c.whole.nodes)
    (hplain : s.Plain (NotTemp c.names)) (hsymbol : ∀ m n d, s ≠ .symbol m n d) (hf : Formed h)
    {t n : Text} (hfind : h.find s.dump = some t) (hn : c.names.lookup t = some n)
    (htemps : h.temps ⊆ temps) :
    c.Follows h h (c.Pairs true s) (c.plain s) (c.tempered (tempRef s.marks t)) := by
  intro τ hr
  have hvisible : Visible c.Taken h (s.dump, t) := Hoisting.visible_of_find hfind
  obtain ⟨i, hi⟩ := hc.slot_isSome t (htemps (hvisible.mem_temps hf)) n hn
  obtain ⟨v, hv, hgives⟩ := hr.stored _ hvisible i hi
  obtain ⟨n', hn', hplace⟩ := hc.slot_place t i hi
  obtain rfl := Option.some.inj (hn.symm.trans hn')
  have hrun : (c.tempered (tempRef s.marks t)).run.run τ = (.ok (.undefined, v), τ) := by
    rw [tempered, named_tempRef, hn]
    have hname : c.host'.name c.env' n = Run.load i := by rw [Host.name, hplace]
    change (do return (Client.Value.undefined, ← c.host'.name c.env' n) : Run _).run.run τ = _
    rw [hname, run_bind_ok (Run.load_run hv)]
    rfl
  refine ⟨_, τ, hrun, .refl _ τ, fun σ hσ => ?_, hr⟩
  obtain ⟨p, σ', hp, hpv, hk⟩ := hgives s hwhole rfl σ hσ
  refine ⟨p, σ', hp, ⟨hpv, fun h => ?_⟩, hk⟩
  have haccess := h.resolve_left (by simp)
  rw [receiver_eq hplain hsymbol haccess hp]
  exact likeness.undefined

theorem Ready.store (hc : c.Valid temps) (hf : Formed h) (hr : c.Ready h τ)
    (hwhole : s ∈ c.whole.nodes) (hslot : c.slot (placeholder h.count) = some i)
    {v : Client.Value} (hgives : c.Gives s v) :
    c.Ready (h.addTemp s.dump) { τ with vars := τ.vars.set i (some v) } where
  fresh := hr.fresh
  inRange t j hj := by
    rw [List.length_set]
    exact hr.inRange t j hj
  stored p hp j hj := by
    rcases hp.of_addTemp hf with hp | rfl
    · have hne : i ≠ j := by
        rintro rfl
        obtain ⟨k, hk, heq⟩ := hf.temps_lt _ (hp.mem_temps hf)
        rw [hc.slot_inj _ _ i hj hslot] at heq
        exact absurd (placeholder_inj heq) (Nat.ne_of_gt hk)
      rw [List.getElem?_set_ne hne]
      exact hr.stored p hp j hj
    · obtain rfl := Option.some.inj (hslot.symm.trans hj)
      refine ⟨v, List.getElem?_set_self (hr.inRange _ i hslot), fun x hx hdump => ?_⟩
      exact hgives.congr (hc.faithful s hwhole x hx hdump.symm)

theorem Ready.drop (hc : c.Valid temps) (hf : Formed h) (hr : c.Ready h τ)
    (hname : c.names.lookup (placeholder h.count) = none) : c.Ready (h.addTemp key) τ where
  fresh := hr.fresh
  inRange := hr.inRange
  stored p hp j hj := by
    rcases hp.of_addTemp hf with hp | rfl
    · exact hr.stored p hp j hj
    · obtain ⟨n, hn, -⟩ := hc.slot_place _ j hj
      rw [hname] at hn
      cases hn

/-- A subexpression whose value is assigned to a new temporary. -/
theorem assign_follows (hc : c.Valid temps) (hwhole : s ∈ c.whole.nodes)
    (hplain : s.Plain (NotTemp c.names)) (hsymbol : ∀ m n d, s ≠ .symbol m n d) (hf' : Formed h')
    (hgrows : Grows h h') (htemps : placeholder h'.count ∈ temps) (m : Marks)
    (hy : c.Follows h h' (PairRel c.R) (c.plain s) (c.tempered y)) :
    c.Follows h (h'.addTemp s.dump) (c.Pairs true s) (c.plain s)
      (c.tempered (.binary m .assign (tempRef {} (placeholder h'.count)) y)) := by
  have pairs {q : Client.Value × Client.Value} (r : Client.Value)
      (hq : c.Yields (PairRel c.R) (c.plain s) q) (hr : c.R .undefined r) :
      c.Yields (c.Pairs true s) (c.plain s) (r, q.2) := by
    intro σ hσ
    obtain ⟨p, σ', hp, hpq, hk⟩ := hq σ hσ
    refine ⟨p, σ', hp, ⟨hpq.2, fun h => ?_⟩, hk⟩
    rw [receiver_eq hplain hsymbol (h.resolve_left (by simp)) hp]
    exact hr
  intro τ hr
  obtain ⟨r, τ₁, hrun, ht, hres⟩ := hy τ hr
  cases hname : c.names.lookup (placeholder h'.count) with
  | none =>
    rw [tempered, named_assign_none hname]
    refine ⟨r, τ₁, hrun, ht, ?_⟩
    cases r with
    | error e => exact hres
    | ok q => exact ⟨hres.1.mono fun p hp => ⟨hp.2, fun _ => hp.1⟩, hres.2.drop hc hf' hname⟩
  | some n =>
    obtain ⟨i, hi⟩ := hc.slot_isSome _ htemps n hname
    obtain ⟨n', hn', hplace⟩ := hc.slot_place _ i hi
    obtain rfl := Option.some.inj (hname.symm.trans hn')
    have htempered : c.tempered (.binary m .assign (tempRef {} (placeholder h'.count)) y) =
        c.tempered y >>= fun p => do
          Run.store i p.2
          return (Client.Value.undefined, p.2) := by
      rw [tempered, named_assign_some hc.nonempty hname]
      simp only [bare, tempRef, evalRef, evalTarget, pure_bind, Host.assign, hplace]
      rfl
    rw [htempered]
    cases r with
    | error e => exact ⟨.error e, τ₁, run_bind_error hrun, ht, hres⟩
    | ok q =>
      have hgives : c.Gives s q.2 := hres.1.mono fun _ hp => hp.2
      refine ⟨.ok (.undefined, q.2), { τ₁ with vars := τ₁.vars.set i (some q.2) }, ?_, ?_,
        pairs _ hres.1 likeness.undefined, hres.2.store hc hf' hwhole hi hgives⟩
      · rw [run_bind_ok hrun]
        rfl
      · refine ht.trans ⟨Nat.le_refl _, rfl, by simp, fun j hj => ?_⟩ hgrows.temps.subset
        by_cases hij : i = j
        · refine .inr ⟨placeholder h'.count, fun hmem => ?_, hij ▸ hi⟩
          obtain ⟨k, hk, heq⟩ := hf'.temps_lt _ hmem
          exact absurd (placeholder_inj heq) (Nat.ne_of_gt hk)
        · exact .inl (List.getElem?_set_ne hij)

end Scene

end Bindery.Script
