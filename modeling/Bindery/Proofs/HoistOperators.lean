import Bindery.Proofs.HoistNames
import Bindery.Proofs.StructuralText
import Bindery.Script.Tidy

/-!
# Temporaries of an operator's operands

An operator that evaluates all its operands is never a temporary at the root of a script, since its
structural text is longer than any in it. What becomes a temporary is then decided in the operands
alone: `Script.hoistedTogether` hoists them one after the other, and `Script.hoist_strict` puts the
operator around the result. So another operator has the same temporaries, and so has a single
operand without the operator (`Script.hoist_alone`).
-/

namespace Bindery.Script

/-! ## Texts of subexpressions -/

theorem length_dump_lt {s x : Script} (hx : x ∈ s.children) :
    x.dump.bytes.length < s.dump.bytes.length := by
  have hleaf : s.isLeaf = false := by
    cases s <;> first | rfl | cases hx
  have hmem : (" " ++ x.dump : Text) ∈ s.children.map fun x : Script => (" " ++ x.dump : Text) :=
    List.mem_map_of_mem hx
  have hoperand : (" " ++ x.dump : Text).bytes.length ≤ (operandText s.children).bytes.length :=
    (List.sublist_flatten_of_mem (List.mem_map_of_mem hmem)).length_le
  have hspace : (" " ++ x.dump : Text).bytes.length = 1 + x.dump.bytes.length := List.length_append
  have hnode : s.dump.bytes.length =
      (("(" ++ s.head : Text).bytes.length + (operandText s.children).bytes.length) + 1 := by
    rw [dump_eq, hleaf]
    exact List.length_append.trans (congrArg (· + 1) List.length_append)
  omega

theorem length_dump_le {s : Script} : ∀ z ∈ s.nodes, z.dump.bytes.length ≤ s.dump.bytes.length := by
  induction s using induct_children with
  | h s ih =>
    refine forall_mem_nodes.2 ⟨Nat.le_refl _, fun x hx z hz => ?_⟩
    exact (ih x hx z hz).trans (length_dump_lt hx).le

theorem dump_ne {s x z : Script} (hx : x ∈ s.children) (hz : z ∈ x.nodes) : z.dump ≠ s.dump := by
  intro h
  have hlt := length_dump_lt hx
  have hle := length_dump_le z hz
  rw [h] at hle
  omega

theorem dump_not_mem_callTextsAll (s : Script) : s.dump ∉ callTextsAll s.children := by
  intro h
  obtain ⟨x, hx, ht⟩ := List.mem_flatMap.1 h
  obtain ⟨z, hz, -, heq⟩ := mem_callTexts ht
  exact dump_ne hx hz heq

theorem count_dump_lt_two {s : Script} (hs : s.isFunction = false) :
    s.callTexts.2.count s.dump < 2 := by
  have hzero := List.count_eq_zero_of_not_mem (dump_not_mem_callTextsAll s)
  rcases callTexts_cases hs with h | ⟨-, h⟩ <;> rw [h]
  · omega
  · rw [List.count_append, hzero, List.count_singleton_self]
    omega

theorem count_dump_inside {s x z : Script} (hs : s.isFunction = false) (hx : x ∈ s.children)
    (hz : z ∈ x.nodes) : s.callTexts.2.count z.dump = (callTextsAll s.children).count z.dump := by
  rcases callTexts_cases hs with h | ⟨-, h⟩ <;> rw [h]
  rw [List.count_append, List.count_singleton, if_neg (by simpa using (dump_ne hx hz).symm),
    Nat.add_zero]

/-! ## Texts in the state -/

def Hoisting.withTexts (h : Hoisting) (texts : List Text) : Hoisting := { h with texts }

theorem Hoisting.enter_withTexts (h : Hoisting) (texts : List Text) (key : Text) :
    (h.withTexts texts).enter key = (h.enter key).withTexts texts := by
  have hbranch : (h.withTexts texts).stack.findSome? (fun i =>
      (Hoister.region (h.withTexts texts) i).branches.lookup key) =
        h.stack.findSome? fun i => (Hoister.region h i).branches.lookup key := rfl
  rw [Hoisting.enter, Hoisting.enter, hbranch]
  cases h.stack.findSome? fun i => (Hoister.region h i).branches.lookup key <;> rfl

/-- Of the texts in the state, hoisting looks only at how often those of the script's nodes
occur. -/
def SeesCounts (s : Script) : Prop :=
  ∀ (b : Bool) (h : Hoisting) (texts : List Text),
    (∀ z ∈ s.nodes, texts.count z.dump = h.texts.count z.dump) →
    hoisted b (h.withTexts texts) s = ((hoisted b h s).1, (hoisted b h s).2.withTexts texts)

theorem SeesCounts.texts_eq {s : Script} (hs : s.SeesCounts) (b : Bool) (h : Hoisting) :
    (hoisted b h s).2.texts = h.texts :=
  congrArg (fun r => r.2.texts) (hs b h h.texts fun _ _ => rfl)

/-- An operand after hoisting: in the region of its branch if it is evaluated only sometimes. -/
def hoistedOperand (s : Script) (i : Nat) (h : Hoisting) (x : Script) : Script × Hoisting :=
  match branchKey i s with
  | some key =>
    let r := hoisted true (h.enter key) x
    (r.1, { r.2 with stack := h.stack })
  | none => hoisted (!keepsShape i s) h x

theorem hoistOperands_cons (s : Script) (i : Nat) (h : Hoisting) (x : Script) (xs : List Script) :
    (hoistOperands s i ((x :: xs).map (fold hoistNode))).run h =
      let r := hoistedOperand s i h x
      let rest := (hoistOperands s (i + 1) (xs.map (fold hoistNode))).run r.2
      (r.1 :: rest.1, rest.2) := by
  rw [List.map_cons, hoistOperands, hoistedOperand]
  cases branchKey i s with
  | some key =>
    simp only [StateT.run_bind, inBranch_run]
    rfl
  | none => rfl

theorem SeesCounts.operand {x : Script} (hx : x.SeesCounts) (s : Script) (i : Nat) {h : Hoisting}
    {texts : List Text} (htexts : ∀ z ∈ x.nodes, texts.count z.dump = h.texts.count z.dump) :
    hoistedOperand s i (h.withTexts texts) x =
        ((hoistedOperand s i h x).1, (hoistedOperand s i h x).2.withTexts texts) ∧
      (hoistedOperand s i h x).2.texts = h.texts := by
  rw [hoistedOperand, hoistedOperand]
  cases branchKey i s with
  | some key =>
    have hkeeps : (h.enter key).texts = h.texts := by
      rw [Hoisting.enter]
      split <;> rfl
    refine ⟨?_, (hx.texts_eq true (h.enter key)).trans hkeeps⟩
    simp only [Hoisting.enter_withTexts, hx true (h.enter key) texts (hkeeps ▸ htexts)]
    rfl
  | none => exact ⟨hx _ h texts htexts, hx.texts_eq _ h⟩

theorem hoistOperands_withTexts (s : Script) {xs : List Script} (hxs : ∀ x ∈ xs, x.SeesCounts)
    (i : Nat) (h : Hoisting) {texts : List Text}
    (htexts : ∀ x ∈ xs, ∀ z ∈ x.nodes, texts.count z.dump = h.texts.count z.dump) :
    (hoistOperands s i (xs.map (fold hoistNode))).run (h.withTexts texts) =
      (((hoistOperands s i (xs.map (fold hoistNode))).run h).1,
        ((hoistOperands s i (xs.map (fold hoistNode))).run h).2.withTexts texts) := by
  induction xs generalizing i h with
  | nil => rfl
  | cons x xs ih =>
    obtain ⟨hoperand, hkeeps⟩ := (hxs x (by simp)).operand s i (htexts x (by simp))
    rw [hoistOperands_cons, hoistOperands_cons, hoperand]
    simp only
    rw [ih (fun y hy => hxs y (by simp [hy])) (i + 1) _
      (hkeeps ▸ fun y hy => htexts y (by simp [hy]))]

theorem seesCounts (s : Script) : s.SeesCounts := by
  induction s using induct_children with
  | h s ih =>
    intro b h texts htexts
    obtain ⟨hself, hinside⟩ := forall_mem_nodes.1 htexts
    cases hs : s.isFunction with
    | true =>
      -- A function body has texts of its own.
      obtain ⟨body, hbody⟩ : ∃ body, s.children = [body] := by
        cases s <;> first | exact ⟨_, rfl⟩ | cases hs
      rw [hoisted_function b _ hs hbody, hoisted_function b _ hs hbody]
      rfl
    | false =>
      have hops := hoistOperands_withTexts s
        ih 0 h hinside
      rw [hoisted, hoisted, fold_eq, hoistNode_run hs, hoistNode_run hs, hops]
      simp only [Hoisting.withTexts, hself]
      split
      · rfl
      · change (match h.find s.dump with
          | some t => _
          | none => _) = ((match h.find s.dump with
            | some t => _
            | none => _ : Script × Hoisting).1, _)
        cases h.find s.dump <;> rfl

/-! ## Operands one after the other -/

/-- The node is an operator that evaluates all its operands and assigns nothing. -/
def isStrict : Script → Bool
  | .unary .. => true
  | .binary _ op _ _ => !op.isShortCircuit && op != .assign
  | _ => false

def hoistedAll (h : Hoisting) : List Script → List Script × Hoisting
  | [] => ([], h)
  | x :: xs =>
    let r := hoisted true h x
    let rest := hoistedAll r.2 xs
    (r.1 :: rest.1, rest.2)

/-- The state in which hoisting in the operands starts. -/
def startAll (xs : List Script) : Hoisting :=
  { texts := callTextsAll xs, regions := #[{}], stack := [0] }

variable {s : Script}

theorem hoistOperands_strict (hs : s.isStrict) (i : Nat) (h : Hoisting) (xs : List Script) :
    (hoistOperands s i (xs.map (fold hoistNode))).run h = hoistedAll h xs := by
  have hkey (j : Nat) : branchKey j s = none := by
    cases s <;> simp_all [isStrict, branchKey]
  have hshape (j : Nat) : keepsShape j s = false := by
    cases s <;> simp_all [isStrict, keepsShape]
  induction xs generalizing i h with
  | nil => rfl
  | cons x xs ih =>
    rw [hoistOperands_cons, hoistedOperand, hkey, hshape, hoistedAll]
    simp only [ih, Bool.not_false]

theorem isFunction_of_strict (hs : s.isStrict) : s.isFunction = false := by
  cases s <;> first | rfl | cases hs

/-- Hoisting in an operator at the root is hoisting in its operands. -/
theorem hoisted_strict (hs : s.isStrict) : hoisted true (.start s 0) s =
    (s.withChildren (hoistedAll (startAll s.children) s.children).1,
      (hoistedAll (startAll s.children) s.children).2.withTexts s.callTexts.2) := by
  have hfunction := isFunction_of_strict hs
  have hops := hoistOperands_withTexts s (fun x (_ : x ∈ s.children) => seesCounts x) 0
    (startAll s.children) fun x hx z hz => count_dump_inside hfunction hx hz
  have hcount : (Hoisting.start s 0).texts.count s.dump < 2 := count_dump_lt_two hfunction
  change (hoistOperands s 0 (s.children.map (fold hoistNode))).run (.start s 0) = _ at hops
  rw [hoisted, fold_eq, hoistNode_run hfunction, hops, hoistOperands_strict hs]
  simp only [hcount, Bool.not_true, Bool.false_or, decide_true, if_true]

theorem hoistedBody_strict (hs : s.isStrict) : hoistedBody s 0 =
    (wrapped (hoistedAll (startAll s.children) s.children).2.temps
      (s.withChildren (hoistedAll (startAll s.children) s.children).1),
      (hoistedAll (startAll s.children) s.children).2.count) := by
  rw [hoistedBody, hoisted_strict hs]
  rfl

theorem hoistedBody_alone (x : Script) : ∃ o, (hoistedAll (startAll [x]) [x]).1 = [o] ∧
    hoistedBody x 0 = (wrapped (hoistedAll (startAll [x]) [x]).2.temps o,
      (hoistedAll (startAll [x]) [x]).2.count) := by
  have hstart : startAll [x] = .start x 0 := by
    simp only [startAll, callTextsAll, List.flatMap_singleton, Hoisting.start]
  refine ⟨(hoisted true (.start x 0) x).1, ?_, ?_⟩ <;> rw [hstart]
  · rfl
  · rw [hoistedBody]
    rfl

/-! ## Names -/

/-- A script with the temporaries in scope, if there are any. -/
def tempered (m : Marks) (temps : List Text) (out : Script) : Script :=
  if temps.isEmpty then out else .call m (.arrow { temp := true } temps out) []

/-- The temporaries of scripts that are evaluated one after the other, under their names, and the
scripts with them. -/
def hoistedTogether (xs : List Script) : List Text × List Script :=
  let r := hoistedAll (startAll xs) xs
  if r.2.count == 0 then (r.2.temps, r.1)
  else
    let names := nameTemps (r.1.flatMap tempRefs) (Script.array {} xs).identifiers
      ((List.range r.2.count).map placeholder)
    (r.2.temps.filterMap fun t => names.lookup t, r.1.map (named names))

theorem tempRefs_wrapped (temps : List Text) (out : Script) :
    (wrapped temps out).tempRefs = out.tempRefs := by
  rw [wrapped]
  split
  · rfl
  · simp [tempRefs_eq (.call ..), tempRefs_eq (.arrow ..), children, ownTemp]

theorem withChildren_strict (hs : s.isStrict) {os : List Script}
    (hos : os.length = s.children.length) :
    (∃ m op o, os = [o] ∧ s.withChildren os = .unary m op o) ∨
      ∃ m op o p, os = [o, p] ∧ op ≠ .assign ∧ s.withChildren os = .binary m op o p := by
  cases s <;> try cases hs
  case unary m op x =>
    obtain ⟨o, rfl⟩ := List.length_eq_one_iff.1 hos
    exact .inl ⟨m, op, o, rfl, rfl⟩
  case binary m op x y =>
    obtain ⟨o, p, rfl⟩ := List.length_eq_two.1 hos
    have hop : op ≠ .assign := by rintro rfl; cases hs
    exact .inr ⟨m, op, o, p, rfl, hop, rfl⟩

theorem tempRefs_strict (hs : s.isStrict) {os : List Script}
    (hos : os.length = s.children.length) : (s.withChildren os).tempRefs = os.flatMap tempRefs := by
  obtain ⟨m, op, o, rfl, h⟩ | ⟨m, op, o, p, rfl, -, h⟩ := withChildren_strict hs hos <;>
    rw [h, tempRefs_eq] <;> rfl

theorem identifiers_strict (hs : s.isStrict) :
    s.identifiers = (Script.array {} s.children).identifiers := by
  rw [identifiers, identifiers, nodes, fold_eq, fold_eq]
  cases s <;> first | rfl | cases hs

theorem identifiers_alone (x : Script) : x.identifiers = (Script.array {} [x]).identifiers := by
  have hnodes : (Script.array {} [x]).nodes = .array {} [x] :: x.nodes := by
    rw [nodes, fold_eq]
    simp [children]
  rw [identifiers, identifiers, hnodes]
  rfl

theorem named_strict (hs : s.isStrict) {os : List Script}
    (hos : os.length = s.children.length) (names : Record Text) :
    (s.withChildren os).named names = s.withChildren (os.map (named names)) := by
  have hshape := reshaped hos
  have hlen : (os.map (named names)).length = s.children.length := (List.length_map _).trans hos
  rw [named_eq, hshape.children_eq, hshape.withChildren_eq (List.length_map _)]
  obtain ⟨m, op, o, -, h⟩ | ⟨m, op, o, p, -, hop, h⟩ := withChildren_strict hs hlen <;> rw [h]
  · rfl
  · cases op <;> first | rfl | exact absurd rfl hop

theorem named_wrapped_eq (temps : List Text) (out : Script) (names : Record Text) :
    (wrapped temps out).named names =
      tempered out.marks (temps.filterMap fun t => names.lookup t) (out.named names) :=
  named_wrapped temps out

theorem length_hoistedAll (h : Hoisting) (xs : List Script) :
    (hoistedAll h xs).1.length = xs.length := by
  induction xs generalizing h with
  | nil => rfl
  | cons x xs ih => exact congrArg (· + 1) (ih _)

theorem length_hoistedTogether (xs : List Script) : (hoistedTogether xs).2.length = xs.length := by
  have hlen := length_hoistedAll (startAll xs) xs
  rw [hoistedTogether]
  simp only
  split
  · exact hlen
  · exact (List.length_map _).trans hlen

/-- The temporaries of an operator at the root of a script are those of its operands. -/
theorem hoist_strict (hs : s.isStrict) : s.hoist =
    tempered s.marks (hoistedTogether s.children).1
      (s.withChildren (hoistedTogether s.children).2) := by
  have hlen := length_hoistedAll (startAll s.children) s.children
  rw [hoist_eq_ite, temporaryNames, hoistedBody_strict hs, tempRefs_wrapped,
    tempRefs_strict hs hlen,
    identifiers_strict hs, named_wrapped_eq, named_strict hs hlen, (reshaped hlen).marks_eq,
    hoistedTogether]
  simp only
  split
  · rw [wrapped, (reshaped hlen).marks_eq]
    rfl
  · rfl

/-- A single operand has the same temporaries where it stands alone. -/
theorem hoist_alone (x : Script) : ∃ m k, (hoistedTogether [x]).2 = [k] ∧
    x.hoist = tempered m (hoistedTogether [x]).1 k := by
  obtain ⟨o, ho, hbody⟩ := hoistedBody_alone x
  have hrefs : o.tempRefs = [o].flatMap tempRefs := by simp
  rw [hoist_eq_ite, temporaryNames, hbody, tempRefs_wrapped, identifiers_alone, hrefs,
    named_wrapped_eq, hoistedTogether, ho]
  simp only
  split
  · exact ⟨o.marks, o, rfl, rfl⟩
  · exact ⟨o.marks, _, rfl, rfl⟩

/-! ## Tidying -/

theorem tidy_tempered (m : Marks) (temps : List Text) (out : Script) :
    (tempered m temps out).tidy = tempered m temps out.tidy := by
  rw [tempered, tempered]
  split
  · rfl
  · rfl

end Bindery.Script
