import Bindery.Proofs.ScriptParts
import Bindery.Script.Temporaries

/-!
# Hoisting step by step

`Script.hoisted` is hoisting as a function of the state before it. `Script.Treated` lists the ways a
node is treated: it keeps its shape, reads a temporary, is assigned to one, or is a function literal
whose body is hoisted on its own. `Script.hoisted_induct` is induction along them.

`Hoisting.Formed` is what states have in common, and `Hoisting.Grows` says which regions a step can
change: the innermost one and new ones.
-/

namespace Bindery.Script

namespace Hoisting

variable (h : Hoisting)

def enter (key : Text) : Hoisting :=
  match h.stack.findSome? fun i => (Hoister.region h i).branches.lookup key with
  | some taken => { h with
      regions := h.regions.push {}, stack := h.regions.size :: taken :: h.stack }
  | none => { h with
      regions := (h.regions.push {}).modify (Hoister.innermost h) fun r =>
        { r with branches := (key, h.regions.size) :: r.branches }
      stack := h.regions.size :: h.stack }

def addTemp (key : Text) : Hoisting :=
  { h with
    count := h.count + 1, temps := h.temps ++ [placeholder h.count]
    regions := h.regions.modify (Hoister.innermost h) fun r =>
      { r with temps := (key, placeholder h.count) :: r.temps } }

def find (key : Text) : Option Text :=
  h.stack.findSome? fun i => (Hoister.region h i).temps.lookup key

def start (body : Script) (count : Nat) : Hoisting :=
  { count, texts := body.callTexts.2, regions := #[{}], stack := [0] }

end Hoisting

/-- The script after hoisting, and the state. -/
def hoisted (hoistable : Bool) (h : Hoisting) (s : Script) : Script × Hoisting :=
  (s.fold hoistNode hoistable).run h

/-- A script with the temporaries that belong to it in scope. -/
def wrapped (temps : List Text) (out : Script) : Script :=
  if temps.isEmpty then out else .call out.marks (.arrow { temp := true } temps out) []

/-- A function body, or the whole script, after hoisting, and the number of temporaries so far. -/
def hoistedBody (b : Script) (count : Nat) : Script × Nat :=
  let (out, h) := hoisted true (.start b count) b
  (wrapped h.temps out, h.count)

/-! ## Texts of subexpressions with calls -/

def callTextsAll (xs : List Script) : List Text := xs.flatMap fun x => x.callTexts.2

/-- A node other than a function literal adds at most its own text. -/
theorem callTexts_cases {s : Script} (hs : s.isFunction = false) :
    s.callTexts.2 = callTextsAll s.children ∨
      s.isLeaf = false ∧ s.callTexts.2 = callTextsAll s.children ++ [s.dump] := by
  have hinside : callTextsAll s.children = (s.children.map callTexts).flatMap (·.2) :=
    (List.flatMap_map ..).symm
  rw [hinside, callTexts, fold_eq]
  cases s with
  | ident | literal | symbol => exact .inl rfl
  | function | arrow => cases hs
  | _ =>
    dsimp only
    split
    · exact .inr ⟨rfl, rfl⟩
    · exact .inl rfl

theorem mem_callTexts {s : Script} {t : Text} (ht : t ∈ s.callTexts.2) :
    ∃ z ∈ s.nodes, z.isLeaf = false ∧ z.dump = t := by
  induction s using induct_children with
  | h s ih =>
    have inside (h : t ∈ callTextsAll s.children) :
        ∃ z ∈ s.nodes, z.isLeaf = false ∧ z.dump = t := by
      obtain ⟨x, hx, ht⟩ := List.mem_flatMap.1 h
      obtain ⟨z, hz, heq⟩ := ih x hx ht
      exact ⟨z, nodes_subset hx hz, heq⟩
    cases hs : s.isFunction with
    | true =>
      cases s with
      | function | arrow => exact nomatch ht
      | _ => cases hs
    | false =>
      rcases callTexts_cases hs with h | ⟨hleaf, h⟩ <;> rw [h] at ht
      · exact inside ht
      · rcases List.mem_append.1 ht with ht | ht
        · exact inside ht
        · exact ⟨s, mem_nodes_self s, hleaf, (List.mem_singleton.1 ht).symm⟩

/-! ## The steps -/

theorem inBranch_run {α : Type} (key : Text) (step : Hoister α) (h : Hoisting) :
    (Hoister.inBranch key step).run h =
      let (a, h₁) := step.run (h.enter key)
      (a, { h₁ with stack := h.stack }) := by
  unfold Hoister.inBranch Hoisting.enter
  simp only [StateT.run_bind, StateT.run_get]
  change StateT.run (match h.stack.findSome? fun i => (Hoister.region h i).branches.lookup key with
    | some _ => _
    | none => _) h = _
  cases h.stack.findSome? fun i => (Hoister.region h i).branches.lookup key <;> rfl

theorem hoistBody_run (b : Script) (h : Hoisting) : (hoistBody b (b.fold hoistNode)).run h =
      ((hoistedBody b h.count).1, { h with count := (hoistedBody b h.count).2 }) := by
  have hrun : (hoistBody b (b.fold hoistNode)).run h =
      let (out, inner) := hoisted true (.start b h.count) b
      (if inner.temps.isEmpty then (pure out : Hoister Script)
        else pure (.call out.marks (.arrow { temp := true } inner.temps out) [])).run
        { h with count := inner.count } := rfl
  rw [hrun, hoistedBody]
  simp only [wrapped]
  split <;> rfl

variable {b : Bool} {P : Bool → Hoisting → Script → Script → Hoisting → Prop} {h h' : Hoisting}
  {out s : Script} {xs os : List Script} {i : Nat}

theorem hoistNode_run (hs : s.isFunction = false) (kids : List (Bool → Hoister Script))
    (hoistable : Bool) (h : Hoisting) : (hoistNode s kids hoistable).run h =
      let (xs, h₁) := (hoistOperands s 0 kids).run h
      let out := s.withChildren xs
      if !hoistable || h.texts.count s.dump < 2 then (out, h₁)
      else match h.find s.dump with
        | some t => (tempRef s.marks t, h)
        | none => (.binary out.marks .assign (tempRef {} (placeholder h₁.count)) out,
            h₁.addTemp s.dump) := by
  have hnode : hoistNode s kids hoistable = (do
      if !hoistable || (← get).texts.count s.dump < 2 then
        return s.withChildren (← hoistOperands s 0 kids)
      match ← Hoister.lookup s.dump with
      | some t => return tempRef s.marks t
      | none =>
        let out := s.withChildren (← hoistOperands s 0 kids)
        let t ← Hoister.newTemp s.dump
        return .binary out.marks .assign (tempRef {} t) out) := by
    cases s <;> first | rfl | cases hs
  rw [hnode]
  change StateT.run (if !hoistable || h.texts.count s.dump < 2 then _ else _) h = _
  split
  · rfl
  · change StateT.run (match h.find s.dump with
      | some _ => _
      | none => _) h = _
    cases h.find s.dump <;> rfl

/-- The operands of `s` from the `i`-th on are hoisted one after the other, and `P` holds of each.
One that is evaluated only sometimes is hoisted in the region of its branch. -/
inductive Operands (P : Bool → Hoisting → Script → Script → Hoisting → Prop) (s : Script) :
    Nat → Hoisting → List Script → List Script → Hoisting → Prop
  | nil (i : Nat) (h : Hoisting) : Operands P s i h [] [] h
  | branch {i : Nat} {key : Text} {h h₁ h₂ : Hoisting} {x o : Script} {xs os : List Script}
    (hkey : branchKey i s = some key) (hx : P true (h.enter key) x o h₁)
    (hxs : Operands P s (i + 1) { h₁ with stack := h.stack } xs os h₂) :
    Operands P s i h (x :: xs) (o :: os) h₂
  | always {i : Nat} {h h₁ h₂ : Hoisting} {x o : Script} {xs os : List Script}
    (hkey : branchKey i s = none) (hx : P (!keepsShape i s) h x o h₁)
    (hxs : Operands P s (i + 1) h₁ xs os h₂) : Operands P s i h (x :: xs) (o :: os) h₂

theorem Operands.cons_of_none {x : Script} (hops : Operands P s i h (x :: xs) os h')
    (hkey : branchKey i s = none) : ∃ h₁ o os', P (!keepsShape i s) h x o h₁ ∧
      Operands P s (i + 1) h₁ xs os' h' ∧ os = o :: os' := by
  cases hops with
  | branch hkey' => cases hkey.symm.trans hkey'
  | always _ hx hrest => exact ⟨_, _, _, hx, hrest, rfl⟩

/-- How a node is treated, where `P` holds of what is hoisted in it. -/
inductive Treated (P : Bool → Hoisting → Script → Script → Hoisting → Prop) :
    Bool → Hoisting → Script → Script → Hoisting → Prop
  | shape {s : Script} {h h₁ : Hoisting} {xs : List Script} (hoistable : Bool)
    (hs : s.isFunction = false) (hops : Operands P s 0 h s.children xs h₁) :
    Treated P hoistable h s (s.withChildren xs) h₁
  | read {s : Script} {h : Hoisting} {t : Text} (hs : s.isFunction = false)
    (hcount : 2 ≤ h.texts.count s.dump) (hfind : h.find s.dump = some t) :
    Treated P true h s (tempRef s.marks t) h
  | assign {s : Script} {h h₁ : Hoisting} {xs : List Script} (hs : s.isFunction = false)
    (hcount : 2 ≤ h.texts.count s.dump) (hops : Operands P s 0 h s.children xs h₁) :
    Treated P true h s
      (.binary (s.withChildren xs).marks .assign (tempRef {} (placeholder h₁.count))
        (s.withChildren xs))
      (h₁.addTemp s.dump)
  | literal {s b out : Script} {h h₁ : Hoisting} (hoistable : Bool) (hs : s.isFunction)
    (hb : s.children = [b]) (hbody : P true (.start b h.count) b out h₁) :
    Treated P hoistable h s (s.withChildren [wrapped h₁.temps out]) { h with count := h₁.count }

/-- The script is hoisted to `out`. -/
def Hoists (hoistable : Bool) (h : Hoisting) (s out : Script) (h' : Hoisting) : Prop :=
  hoisted hoistable h s = (out, h')

theorem hoistOperands_run (s : Script) (i : Nat) (h : Hoisting) (xs : List Script) :
    ∃ os h', (hoistOperands s i (xs.map (fold hoistNode))).run h = (os, h') ∧
      Operands Hoists s i h xs os h' := by
  induction xs generalizing i h with
  | nil => exact ⟨[], h, rfl, .nil i h⟩
  | cons x xs ih =>
    cases hkey : branchKey i s with
    | some key =>
      obtain ⟨o, h₁, hx⟩ : ∃ o h₁, hoisted true (h.enter key) x = (o, h₁) := ⟨_, _, rfl⟩
      obtain ⟨os, h₂, hrest, hxs⟩ := ih (i + 1) { h₁ with stack := h.stack }
      refine ⟨o :: os, h₂, ?_, .branch hkey hx hxs⟩
      rw [hoisted] at hx
      simp only [List.map_cons, hoistOperands, hkey, StateT.run_bind, inBranch_run, hx]
      change (do return o :: (← hoistOperands s (i + 1) (xs.map (fold hoistNode))) :
        Hoister (List Script)).run { h₁ with stack := h.stack } = _
      rw [StateT.run_bind, hrest]
      rfl
    | none =>
      obtain ⟨o, h₁, hx⟩ : ∃ o h₁, hoisted (!keepsShape i s) h x = (o, h₁) := ⟨_, _, rfl⟩
      obtain ⟨os, h₂, hrest, hxs⟩ := ih (i + 1) h₁
      refine ⟨o :: os, h₂, ?_, .always hkey hx hxs⟩
      rw [hoisted] at hx
      simp only [List.map_cons, hoistOperands, hkey, StateT.run_bind, hx]
      change (do return o :: (← hoistOperands s (i + 1) (xs.map (fold hoistNode))) :
        Hoister (List Script)).run h₁ = _
      rw [StateT.run_bind, hrest]
      rfl

theorem hoisted_function (hoistable : Bool) (h : Hoisting) {b : Script} (hs : s.isFunction)
    (hb : s.children = [b]) : hoisted hoistable h s = (s.withChildren [(hoistedBody b h.count).1],
      { h with count := (hoistedBody b h.count).2 }) := by
  have hstep : s.fold hoistNode hoistable = (do
      return s.withChildren [← hoistBody b (b.fold hoistNode)]) := by
    cases s <;> cases hs <;> cases hb <;> rfl
  rw [hoisted, hstep, StateT.run_bind, hoistBody_run]
  rfl

theorem hoisted_treated (hoistable : Bool) (h : Hoisting) (s : Script) :
    Treated Hoists hoistable h s (hoisted hoistable h s).1 (hoisted hoistable h s).2 := by
  cases hs : s.isFunction with
  | true =>
    obtain ⟨b, hb⟩ : ∃ b, s.children = [b] := by cases s <;> cases hs <;> exact ⟨_, rfl⟩
    rw [hoisted_function hoistable h hs hb]
    exact .literal hoistable hs hb rfl
  | false =>
    obtain ⟨xs, h₁, hrun, hops⟩ := hoistOperands_run s 0 h s.children
    rw [hoisted, fold_eq, hoistNode_run hs, hrun]
    simp only
    split
    · exact .shape hoistable hs hops
    · rename_i hcount
      simp only [Bool.or_eq_true, decide_eq_true_eq, not_or, Nat.not_lt] at hcount
      obtain rfl : hoistable := by simpa using hcount.1
      cases hfind : h.find s.dump with
      | some t => exact .read hs hcount.2 hfind
      | none => exact .assign hs hcount.2 hops

theorem Operands.mono {Q : Bool → Hoisting → Script → Script → Hoisting → Prop}
    (hops : Operands P s i h xs os h') (hPQ : ∀ x ∈ xs, ∀ b h o h₁, P b h x o h₁ → Q b h x o h₁) :
    Operands Q s i h xs os h' := by
  induction hops with
  | nil i h => exact .nil i h
  | branch hkey hx _ ih =>
    exact .branch hkey (hPQ _ (by simp) _ _ _ _ hx) (ih fun x hx => hPQ x (by simp [hx]))
  | always hkey hx _ ih =>
    exact .always hkey (hPQ _ (by simp) _ _ _ _ hx) (ih fun x hx => hPQ x (by simp [hx]))

theorem Treated.mono {Q : Bool → Hoisting → Script → Script → Hoisting → Prop}
    (ht : Treated P b h s out h')
    (hPQ : ∀ x ∈ s.children, ∀ b h o h₁, P b h x o h₁ → Q b h x o h₁) : Treated Q b h s out h' := by
  cases ht with
  | shape b hs hops => exact .shape b hs (hops.mono hPQ)
  | read hs hcount hfind => exact .read hs hcount hfind
  | assign hs hcount hops => exact .assign hs hcount (hops.mono hPQ)
  | literal b hs hb hbody => exact .literal b hs hb (hPQ _ (by simp [hb]) _ _ _ _ hbody)

/-- What holds of a node, however it is treated, if it holds of what is hoisted in it, holds of all
scripts. -/
theorem hoisted_induct (step : ∀ {b h s out h'},
      Treated (fun b h x o h₁ => Hoists b h x o h₁ ∧ P b h x o h₁) b h s out h' → P b h s out h')
    (hs : Hoists b h s out h') : P b h s out h' := by
  induction s using induct_children generalizing b h out h' with
  | h s ih =>
    have ht := hoisted_treated b h s
    rw [hs] at ht
    exact step (ht.mono fun x hx b h o h₁ hrun =>
      ⟨hrun, ih x hx hrun⟩)

/-! ## Regions -/

namespace Hoisting

variable {h h' h'' : Hoisting} {key : Text}

open Hoister (region innermost)

/-- Regions have numbers in range, and the temporaries in them are those of the body. -/
structure Formed (h : Hoisting) : Prop where
  nonempty : h.stack ≠ []
  stack_lt : ∀ i ∈ h.stack, i < h.regions.size
  branches_lt : ∀ i, ∀ b ∈ (region h i).branches, b.2 < h.regions.size
  temps_mem : ∀ i, ∀ p ∈ (region h i).temps, p.2 ∈ h.temps
  temps_lt : ∀ t ∈ h.temps, ∃ k < h.count, t = placeholder k

/-- The later state has more temporaries and regions. Of those that were there only the innermost
region can have changed. -/
structure Grows (h h' : Hoisting) : Prop where
  stack : h'.stack = h.stack
  texts : h'.texts = h.texts
  count : h.count ≤ h'.count
  temps : h.temps <+: h'.temps
  size : h.regions.size ≤ h'.regions.size
  region : ∀ i < h.regions.size, i ≠ innermost h → region h' i = region h i

theorem Grows.refl (h : Hoisting) : Grows h h :=
  ⟨rfl, rfl, Nat.le_refl _, List.prefix_refl _, Nat.le_refl _, fun _ _ _ => rfl⟩

theorem Grows.innermost (hg : Grows h h') : innermost h' = innermost h := by
  rw [Hoister.innermost, hg.stack, Hoister.innermost]

theorem Grows.trans (hg : Grows h h') (hg' : Grows h' h'') : Grows h h'' where
  stack := hg'.stack.trans hg.stack
  texts := hg'.texts.trans hg.texts
  count := Nat.le_trans hg.count hg'.count
  temps := hg.temps.trans hg'.temps
  size := Nat.le_trans hg.size hg'.size
  region i hi hne := by
    rw [hg'.region i (Nat.lt_of_lt_of_le hi hg.size) (by rwa [hg.innermost]), hg.region i hi hne]

theorem Formed.innermost_mem (hf : Formed h) : innermost h ∈ h.stack := by
  have := hf.nonempty
  unfold Hoister.innermost
  cases hstack : h.stack with
  | nil => exact absurd hstack this
  | cons i rest => simp

theorem Formed.innermost_lt (hf : Formed h) : innermost h < h.regions.size :=
  hf.stack_lt _ hf.innermost_mem

theorem region_start (b : Script) (count i : Nat) : region (.start b count) i = {} := by
  cases i <;> rfl

theorem formed_start (b : Script) (count : Nat) : Formed (.start b count) where
  nonempty := by simp [start]
  stack_lt := by simp [start]
  branches_lt i b hb := by simp [region_start] at hb
  temps_mem i p hp := by simp [region_start] at hp
  temps_lt := by simp [start]

theorem region_push (rs : Array Region) (i : Nat) :
    (rs.push ({} : Region)).getD i {} = rs.getD i {} := by
  simp only [Array.getD_eq_getD_getElem?, Array.getElem?_push]
  split
  · simp_all
  · rfl

theorem region_modify (rs : Array Region) (f : Region → Region) (j i : Nat) (hj : j < rs.size) :
    (rs.modify j f).getD i {} = if i = j then f (rs.getD j {}) else rs.getD i {} := by
  simp only [Array.getD_eq_getD_getElem?, Array.getElem?_modify]
  split
  · simp_all
  · simp_all [eq_comm]

/-- In a branch that was taken before under the same condition the region of that branch is on the
stack. Otherwise the new region is noted as that of the branch. -/
theorem enter_cases (hf : Formed h) (key : Text) :
    (∃ i ∈ h.stack, ∃ taken, (key, taken) ∈ (region h i).branches ∧
      (h.enter key).stack = h.regions.size :: taken :: h.stack ∧
      ∀ j, region (h.enter key) j = region h j) ∨
    ((h.enter key).stack = h.regions.size :: h.stack ∧
      ∀ j, region (h.enter key) j = if j = innermost h
        then { region h j with branches := (key, h.regions.size) :: (region h j).branches }
        else region h j) := by
  cases hfind : h.stack.findSome? fun i => (region h i).branches.lookup key with
  | some taken =>
    obtain ⟨i, hi, hlookup⟩ := List.exists_of_findSome?_eq_some hfind
    refine .inl ⟨i, hi, taken, ?_, by simp [enter, hfind], fun j => ?_⟩
    · obtain ⟨l₁, l₂, heq, -⟩ := List.lookup_eq_some_iff.1 hlookup
      simp [heq]
    · have hregions : (h.enter key).regions = h.regions.push {} := by simp [enter, hfind]
      rw [region, hregions, region_push, region]
  | none =>
    refine .inr ⟨by simp [enter, hfind], fun j => ?_⟩
    have hregions : (h.enter key).regions = (h.regions.push {}).modify (innermost h) fun r =>
        { r with branches := (key, h.regions.size) :: r.branches } := by simp [enter, hfind]
    have hlt : innermost h < (h.regions.push ({} : Region)).size := by
      simpa using Nat.lt_succ_of_lt hf.innermost_lt
    rw [region, hregions, region_modify _ _ _ _ hlt, region_push, region_push]
    split
    · rename_i hj
      rw [hj, region]
    · rw [region]

theorem size_enter (h : Hoisting) (key : Text) :
    (h.enter key).regions.size = h.regions.size + 1 := by
  unfold enter
  split <;> simp

@[simp] theorem count_enter (h : Hoisting) (key : Text) : (h.enter key).count = h.count := by
  unfold enter
  split <;> rfl

@[simp] theorem texts_enter (h : Hoisting) (key : Text) : (h.enter key).texts = h.texts := by
  unfold enter
  split <;> rfl

@[simp] theorem temps_enter (h : Hoisting) (key : Text) : (h.enter key).temps = h.temps := by
  unfold enter
  split <;> rfl

@[simp] theorem innermost_enter (h : Hoisting) (key : Text) :
    innermost (h.enter key) = h.regions.size := by
  unfold enter
  split <;> rfl

theorem stack_subset_enter (h : Hoisting) (key : Text) : h.stack ⊆ (h.enter key).stack := by
  unfold enter
  split <;> simp

theorem Formed.enter (hf : Formed h) (key : Text) : Formed (h.enter key) := by
  have hsize := size_enter h key
  obtain ⟨i, hi, taken, hmem, hstack, hregion⟩ | ⟨hstack, hregion⟩ := enter_cases hf key
  · refine ⟨by simp [hstack], fun j hj => ?_, fun j b hb => ?_, fun j p hp => ?_, by
      simpa using hf.temps_lt⟩
    · rw [hstack, List.mem_cons, List.mem_cons] at hj
      have htaken : taken < h.regions.size := hf.branches_lt i _ hmem
      rcases hj with rfl | rfl | hj
      · omega
      · omega
      · have := hf.stack_lt j hj
        omega
    · rw [hregion] at hb
      have := hf.branches_lt j b hb
      omega
    · rw [hregion] at hp
      simpa using hf.temps_mem j p hp
  · refine ⟨by simp [hstack], fun j hj => ?_, fun j b hb => ?_, fun j p hp => ?_, by
      simpa using hf.temps_lt⟩
    · rw [hstack, List.mem_cons] at hj
      rcases hj with rfl | hj
      · omega
      · have := hf.stack_lt j hj
        omega
    · have hb' : b = (key, h.regions.size) ∨ b ∈ (region h j).branches := by
        rw [hregion] at hb
        split at hb
        · simpa using hb
        · exact .inr hb
      rcases hb' with rfl | hb'
      · simp [hsize]
      · have := hf.branches_lt j b hb'
        omega
    · have hp' : p ∈ (region h j).temps := by
        rw [hregion] at hp
        split at hp <;> exact hp
      simpa using hf.temps_mem j p hp'

theorem Formed.leave (hf : Formed h) (hf' : Formed h') (hg : Grows (h.enter key) h') :
    Formed { h' with stack := h.stack } where
  nonempty := hf.nonempty
  stack_lt i hi := hf'.stack_lt i (hg.stack ▸ stack_subset_enter h key hi)
  branches_lt := hf'.branches_lt
  temps_mem := hf'.temps_mem
  temps_lt := hf'.temps_lt

theorem Grows.leave (hf : Formed h) (hg : Grows (h.enter key) h') :
    Grows h { h' with stack := h.stack } where
  stack := rfl
  texts := by simpa using hg.texts
  count := by simpa using hg.count
  temps := by simpa using hg.temps
  size := by
    have := hg.size
    rw [size_enter] at this
    exact Nat.le_of_succ_le this
  region i hi hne := by
    have hold := hg.region i (by rw [size_enter]; omega) (by rw [innermost_enter]; omega)
    obtain ⟨_, _, _, _, _, hregion⟩ | ⟨_, hregion⟩ := enter_cases hf key
    · exact hold.trans (hregion i)
    · exact hold.trans ((hregion i).trans (if_neg hne))

theorem region_addTemp (hf : Formed h) (key : Text) (i : Nat) :
    region (h.addTemp key) i = if i = innermost h
      then { region h i with temps := (key, placeholder h.count) :: (region h i).temps }
      else region h i := by
  simp only [region, addTemp]
  rw [region_modify _ _ _ _ hf.innermost_lt]
  split
  · rename_i hi
    rw [hi]
  · rfl

theorem Formed.addTemp (hf : Formed h) (key : Text) : Formed (h.addTemp key) where
  nonempty := hf.nonempty
  stack_lt i hi := by simpa [Hoisting.addTemp] using hf.stack_lt i hi
  branches_lt i b hb := by
    have hb' : b ∈ (region h i).branches := by
      rw [region_addTemp hf] at hb
      split at hb <;> exact hb
    simpa [Hoisting.addTemp] using hf.branches_lt i b hb'
  temps_mem i p hp := by
    have hp' : p = (key, placeholder h.count) ∨ p ∈ (region h i).temps := by
      rw [region_addTemp hf] at hp
      split at hp
      · simpa using hp
      · exact .inr hp
    rcases hp' with rfl | hp'
    · simp [Hoisting.addTemp]
    · simp [Hoisting.addTemp, hf.temps_mem i p hp']
  temps_lt t ht := by
    have ht' : t ∈ h.temps ∨ t = placeholder h.count := by simpa [Hoisting.addTemp] using ht
    rcases ht' with ht | rfl
    · obtain ⟨k, hk, rfl⟩ := hf.temps_lt t ht
      exact ⟨k, Nat.lt_succ_of_lt hk, rfl⟩
    · exact ⟨h.count, Nat.lt_succ_self _, rfl⟩

theorem Grows.addTemp (hf : Formed h) (key : Text) : Grows h (h.addTemp key) where
  stack := rfl
  texts := rfl
  count := Nat.le_succ _
  temps := List.prefix_append _ _
  size := by simp [Hoisting.addTemp]
  region i _ hne := by rw [region_addTemp hf, if_neg hne]

end Hoisting

open Hoisting (Formed Grows)

theorem Operands.grows
    (hops : Operands (fun _ h _ _ h₁ => Formed h → Formed h₁ ∧ Grows h h₁) s i h xs os h')
    (hf : Formed h) : Formed h' ∧ Grows h h' := by
  induction hops with
  | nil i h => exact ⟨hf, .refl h⟩
  | branch hkey hx _ ih =>
    obtain ⟨hf₁, hg₁⟩ := hx (hf.enter _)
    obtain ⟨hf₂, hg₂⟩ := ih (hf.leave hf₁ hg₁)
    exact ⟨hf₂, (hg₁.leave hf).trans hg₂⟩
  | always hkey hx _ ih =>
    obtain ⟨hf₁, hg₁⟩ := hx hf
    obtain ⟨hf₂, hg₂⟩ := ih hf₁
    exact ⟨hf₂, hg₁.trans hg₂⟩

/-- Hoisting keeps states formed, and changes only the innermost region and new ones. -/
theorem Hoists.grows (hs : Hoists b h s out h') (hf : Formed h) : Formed h' ∧ Grows h h' := by
  revert hf
  refine hoisted_induct (P := fun _ h _ _ h' => Formed h → Formed h' ∧ Grows h h') ?_ hs
  intro b h s out h' ht hf
  have operands {xs os h₁} (hops : Operands (fun b h x o h₁ => Hoists b h x o h₁ ∧
      (Formed h → Formed h₁ ∧ Grows h h₁)) s 0 h xs os h₁) : Formed h₁ ∧ Grows h h₁ :=
    (hops.mono fun _ _ _ _ _ _ hx => hx.2).grows hf
  -- The body of a function has regions of its own.
  have body {b : Script} {h₁ : Hoisting}
      (hbody : Formed (.start b h.count) → Formed h₁ ∧ Grows (.start b h.count) h₁) :
      Formed { h with count := h₁.count } ∧ Grows h { h with count := h₁.count } := by
    have hcount : h.count ≤ h₁.count := (hbody (Hoisting.formed_start b h.count)).2.count
    refine ⟨⟨hf.nonempty, hf.stack_lt, hf.branches_lt, hf.temps_mem, fun t ht => ?_⟩,
      rfl, rfl, hcount, List.prefix_refl _, Nat.le_refl _, fun _ _ _ => rfl⟩
    obtain ⟨k, hk, rfl⟩ := hf.temps_lt t ht
    exact ⟨k, Nat.lt_of_lt_of_le hk hcount, rfl⟩
  cases ht with
  | shape b _ hops => exact operands hops
  | read => exact ⟨hf, .refl h⟩
  | assign _ _ hops =>
    obtain ⟨hf₁, hg₁⟩ := operands hops
    exact ⟨hf₁.addTemp _, hg₁.trans (.addTemp hf₁ _)⟩
  | literal _ _ _ hbody => exact body hbody.2

/-! ## Temporaries in sight -/

namespace Hoisting

open Hoister (region innermost)

variable {T : Text → Prop} {h h' : Hoisting} {key : Text} {p : Text × Text}

/-- Region `j` is region `i`, or that of a branch in it that is taken. -/
inductive Reaches (T : Text → Prop) (h : Hoisting) : Nat → Nat → Prop
  | refl (i : Nat) : Reaches T h i i
  | step {i j k : Nat} {key : Text} (hmem : (key, j) ∈ (region h i).branches) (htaken : T key)
    (hrest : Reaches T h j k) : Reaches T h i k

/-- The temporary is one that is assigned if the branches that satisfy `T` are taken. -/
def Visible (T : Text → Prop) (h : Hoisting) (p : Text × Text) : Prop :=
  ∃ i ∈ h.stack, ∃ j, Reaches T h i j ∧ p ∈ (region h j).temps

theorem visible_of_find {t : Text} (hfind : h.find key = some t) : Visible T h (key, t) := by
  obtain ⟨i, hi, hlookup⟩ := List.exists_of_findSome?_eq_some hfind
  obtain ⟨l₁, l₂, heq, -⟩ := List.lookup_eq_some_iff.1 hlookup
  exact ⟨i, hi, i, .refl i, by simp [heq]⟩

theorem Visible.mem_temps (hf : Formed h) (hp : Visible T h p) : p.2 ∈ h.temps := by
  obtain ⟨i, _, j, _, hmem⟩ := hp
  exact hf.temps_mem j p hmem

theorem not_visible_start (b : Script) (count : Nat) :
    ¬ Visible T (.start b count) p := fun hp => by
  simpa [start] using hp.mem_temps (formed_start b count)

theorem region_size (h : Hoisting) : region h h.regions.size = {} := by
  simp [region, Array.getD]

theorem Reaches.mono {j : Nat} (hr : Reaches T h i j)
    (hsub : ∀ i, (region h i).branches ⊆ (region h' i).branches) : Reaches T h' i j := by
  induction hr with
  | refl i => exact .refl i
  | step hmem hT _ ih => exact .step (hsub _ hmem) hT ih

/-- A branch that is taken sees only what was seen before. -/
theorem Visible.of_enter (hf : Formed h) (htaken : T key) (hp : Visible T (h.enter key) p) :
    Visible T h p := by
  -- The new region is empty.
  have hempty := region_size h
  have hnew {j : Nat} (hr : Reaches T h h.regions.size j) : j = h.regions.size := by
    cases hr with
    | refl => rfl
    | step hbranch => simp [hempty] at hbranch
  obtain ⟨i, hi, j, hr, hmem⟩ := hp
  obtain ⟨i₀, hi₀, taken, hbranch, hstack, hregion⟩ | ⟨hstack, hregion⟩ := enter_cases hf key
  · have hr : Reaches T h i j := hr.mono fun i => hregion i ▸ List.Subset.refl _
    rw [hregion] at hmem
    rw [hstack, List.mem_cons, List.mem_cons] at hi
    rcases hi with rfl | rfl | hi
    · simp [hnew hr, hempty] at hmem
    · exact ⟨i₀, hi₀, j, .step hbranch htaken hr, hmem⟩
    · exact ⟨i, hi, j, hr, hmem⟩
  · have htemps (j : Nat) : (region (h.enter key) j).temps = (region h j).temps := by
      rw [hregion]
      split <;> rfl
    have hreach {i j : Nat} (hr : Reaches T (h.enter key) i j) :
        Reaches T h i j ∨ j = h.regions.size := by
      induction hr with
      | refl i => exact .inl (.refl i)
      | step hmem hT hrest ih =>
        rename_i i j k key'
        have hmem' : (key', j) = (key, h.regions.size) ∨ (key', j) ∈ (region h i).branches := by
          rw [hregion] at hmem
          split at hmem
          · simpa using hmem
          · exact .inr hmem
        rcases ih with hr | rfl
        · rcases hmem' with heq | hmem'
          · obtain ⟨rfl, rfl⟩ := Prod.mk.inj heq
            exact .inr (hnew hr)
          · exact .inl (.step hmem' hT hr)
        · exact .inr rfl
    rw [htemps] at hmem
    rw [hstack, List.mem_cons] at hi
    rcases hreach hr with hr | rfl
    · rcases hi with rfl | hi
      · simp [hnew hr, hempty] at hmem
      · exact ⟨i, hi, j, hr, hmem⟩
    · simp [hempty] at hmem

/-- After a branch no more is seen than at its end. -/
theorem Visible.of_leave (hg : Grows (h.enter key) h')
    (hp : Visible T { h' with stack := h.stack } p) : Visible T h' p := by
  obtain ⟨i, hi, j, hr, hmem⟩ := hp
  exact ⟨i, hg.stack ▸ stack_subset_enter h key hi, j, hr.mono fun _ => List.Subset.refl _, hmem⟩

/-- After a branch that is not taken no more is seen than before it. -/
theorem Visible.of_skip (hf : Formed h) (hg : Grows (h.enter key) h') (hskip : ¬ T key)
    (hp : Visible T { h' with stack := h.stack } p) : Visible T h p := by
  obtain ⟨i, hi, j, hr, hmem⟩ := hp
  have hregion (i : Nat) (hi : i < h.regions.size) :
      (region h' i).temps = (region h i).temps ∧
      ∀ b ∈ (region h' i).branches, b.1 = key ∨ b ∈ (region h i).branches := by
    rw [hg.region i (by rw [size_enter]; omega) (by rw [innermost_enter]; omega)]
    obtain ⟨_, _, _, _, _, hregion⟩ | ⟨_, hregion⟩ := enter_cases hf key
    · rw [hregion]
      exact ⟨rfl, fun b hb => .inr hb⟩
    · rw [hregion]
      split
      · refine ⟨rfl, fun b hb => ?_⟩
        rcases List.mem_cons.1 hb with rfl | hb
        · exact .inl rfl
        · exact .inr hb
      · exact ⟨rfl, fun b hb => .inr hb⟩
  have hreach {i j : Nat} (hr : Reaches T { h' with stack := h.stack } i j)
    (hi : i < h.regions.size) :
      Reaches T h i j ∧ j < h.regions.size := by
    induction hr with
    | refl i => exact ⟨.refl i, hi⟩
    | step hmem hT _ ih =>
      rcases (hregion _ hi).2 _ hmem with rfl | hmem
      · exact absurd hT hskip
      · obtain ⟨hr, hk⟩ := ih (hf.branches_lt _ _ hmem)
        exact ⟨.step hmem hT hr, hk⟩
  obtain ⟨hr, hj⟩ := hreach hr (hf.stack_lt i hi)
  exact ⟨i, hi, j, hr, (hregion j hj).1 ▸ hmem⟩

theorem Visible.of_addTemp (hf : Formed h) (hp : Visible T (h.addTemp key) p) :
    Visible T h p ∨ p = (key, placeholder h.count) := by
  obtain ⟨i, hi, j, hr, hmem⟩ := hp
  have hr : Reaches T h i j := hr.mono fun i => by
    rw [region_addTemp hf]
    split <;> exact List.Subset.refl _
  rw [region_addTemp hf] at hmem
  split at hmem
  · rcases List.mem_cons.1 hmem with rfl | hmem
    · exact .inr rfl
    · exact .inl ⟨i, hi, j, hr, hmem⟩
  · exact .inl ⟨i, hi, j, hr, hmem⟩

theorem Visible.of_count {n : Nat} (hp : Visible T { h with count := n } p) : Visible T h p := by
  obtain ⟨i, hi, j, hr, hmem⟩ := hp
  exact ⟨i, hi, j, hr.mono fun _ => List.Subset.refl _, hmem⟩

end Hoisting

end Bindery.Script
