import Bindery.Script
import Mathlib.Data.List.Basic

/-!
# Parts of scripts

The parts of a script are its operands and what stands in for a symbol. `Script.induct_parts` is
induction over them, and `Script.Everywhere` says that a condition holds at every node.
-/

namespace Bindery.Script

/-- The operands of a node, and the script that stands in for a symbol. -/
def parts : Script → List Script
  | .symbol _ _ (some d) => [d]
  | s => s.children

variable {s x : Script} {P : Script → Prop}

theorem sizeOf_lt_of_mem_children (h : x ∈ s.children) : sizeOf x < sizeOf s := by
  have list {xs : List Script} (hx : x ∈ xs) : sizeOf x < sizeOf xs := List.sizeOf_lt_of_mem hx
  cases s <;> simp only [children, List.mem_cons, List.not_mem_nil, or_false, List.mem_map] at h
  case member | unary | paren | function | arrow => subst h; decreasing_tactic
  case index | binary => rcases h with rfl | rfl <;> decreasing_tactic
  case cond => rcases h with rfl | rfl | rfl <;> decreasing_tactic
  case call | construct =>
    rcases h with rfl | h
    · decreasing_tactic
    · have := list h; simp; omega
  case array | sequence => have := list h; simp; omega
  case object =>
    obtain ⟨⟨k, y⟩, hp, rfl⟩ := h
    have := List.sizeOf_lt_of_mem hp
    simp at this ⊢
    omega

theorem sizeOf_lt_of_mem_parts (h : x ∈ s.parts) : sizeOf x < sizeOf s := by
  unfold parts at h
  split at h
  · obtain rfl := List.mem_singleton.1 h
    simp
    omega
  · exact sizeOf_lt_of_mem_children h

theorem mem_parts_of_mem_children (h : x ∈ s.children) : x ∈ s.parts := by
  unfold parts
  split
  · cases h
  · exact h

/-- Induction where parts of parts are needed too. -/
theorem induct_size (h : ∀ s, (∀ x : Script, sizeOf x < sizeOf s → P x) → P s) (s : Script) : P s :=
  h s fun x _ => induct_size h x
termination_by sizeOf s

theorem induct_children (h : ∀ s, (∀ x ∈ s.children, P x) → P s) (s : Script) : P s :=
  induct_size (fun s ih => h s fun x hx => ih x (sizeOf_lt_of_mem_children hx)) s

/-- What holds of a script if it holds of its parts holds of all scripts. -/
theorem induct_parts (h : ∀ s, (∀ x ∈ s.parts, P x) → P s) (s : Script) : P s :=
  induct_size (fun s ih => h s fun x hx => ih x (sizeOf_lt_of_mem_parts hx)) s

/-- The condition holds at every node, also in the scripts that stand in for symbols. -/
inductive Everywhere (P : Script → Prop) : Script → Prop
  | mk {s : Script} (node : P s) (parts : ∀ x ∈ s.parts, Everywhere P x) : Everywhere P s

namespace Everywhere

variable {P Q : Script → Prop} {s : Script}

theorem node (h : Everywhere P s) : P s := by
  cases h with
  | mk node _ => exact node

theorem part (h : Everywhere P s) {x : Script} (hx : x ∈ s.parts) : Everywhere P x := by
  cases h with
  | mk _ parts => exact parts x hx

theorem mono (h : Everywhere P s) (hPQ : ∀ s, P s → Q s) : Everywhere Q s := by
  induction h with
  | mk node _ ih => exact .mk (hPQ _ node) ih

end Everywhere

/-! ## Nodes -/

theorem mem_nodes_self (s : Script) : s ∈ s.nodes := by
  rw [nodes, fold_eq]
  simp

theorem nodes_subset (hx : x ∈ s.children) : x.nodes ⊆ s.nodes := by
  intro y hy
  rw [nodes, fold_eq]
  refine List.mem_cons_of_mem _ (List.mem_flatten.2 ⟨x.nodes, ?_, hy⟩)
  exact List.mem_map_of_mem hx

theorem nodes_trans (hx : x ∈ s.nodes) : x.nodes ⊆ s.nodes := by
  induction s using induct_children with
  | h s ih =>
    rw [nodes, fold_eq, List.mem_cons] at hx
    rcases hx with rfl | hx
    · exact fun _ h => h
    · obtain ⟨l, hl, hx⟩ := List.mem_flatten.1 hx
      obtain ⟨y, hy, rfl⟩ := List.mem_map.1 hl
      exact List.Subset.trans (ih y hy hx) (nodes_subset hy)

theorem mem_nodes_of_mem_children {y : Script} (hx : x ∈ s.nodes) (hy : y ∈ x.children) :
    y ∈ s.nodes :=
  nodes_trans hx (nodes_subset hy (mem_nodes_self y))

/-- A condition holds at all nodes if it holds at the root and at all nodes of the operands. -/
theorem forall_mem_nodes : (∀ n ∈ s.nodes, P n) ↔ P s ∧ ∀ x ∈ s.children, ∀ n ∈ x.nodes, P n := by
  constructor
  · intro h
    exact ⟨h s (mem_nodes_self s), fun x hx n hn => h n (nodes_subset hx hn)⟩
  · rintro ⟨hs, hkids⟩ n hn
    rw [nodes, fold_eq, List.mem_cons] at hn
    rcases hn with rfl | hn
    · exact hs
    · obtain ⟨l, hl, hn⟩ := List.mem_flatten.1 hn
      obtain ⟨x, hx, rfl⟩ := List.mem_map.1 hl
      exact hkids x hx n hn

/-! ## Other operands -/

/-- The node `s` with the operands `xs` in the places of its own is `out`. -/
inductive Reshaped : Script → List Script → Script → Prop
  | ident (m : Marks) (n : Text) : Reshaped (.ident m n) [] (.ident m n)
  | literal (m : Marks) (v : Literal) : Reshaped (.literal m v) [] (.literal m v)
  | symbol (m : Marks) (n : Text) (d : Option Script) : Reshaped (.symbol m n d) [] (.symbol m n d)
  | member (m : Marks) (x : Script) (n : Text) (o : Script) :
    Reshaped (.member m x n) [o] (.member m o n)
  | index (m : Marks) (x k o l : Script) : Reshaped (.index m x k) [o, l] (.index m o l)
  | call (m : Marks) (f : Script) (as : List Script) (g : Script) {os : List Script}
    (h : os.length = as.length) : Reshaped (.call m f as) (g :: os) (.call m g os)
  | construct (m : Marks) (f : Script) (as : List Script) (g : Script) {os : List Script}
    (h : os.length = as.length) : Reshaped (.construct m f as) (g :: os) (.construct m g os)
  | unary (m : Marks) (op : UnOp) (x o : Script) : Reshaped (.unary m op x) [o] (.unary m op o)
  | binary (m : Marks) (op : BinOp) (x y o p : Script) :
    Reshaped (.binary m op x y) [o, p] (.binary m op o p)
  | cond (m : Marks) (c t e o p q : Script) : Reshaped (.cond m c t e) [o, p, q] (.cond m o p q)
  | array (m : Marks) {xs os : List Script} (h : os.length = xs.length) :
    Reshaped (.array m xs) os (.array m os)
  | object (m : Marks) {ps qs : List (Text × Script)} (h : qs.map (·.1) = ps.map (·.1)) :
    Reshaped (.object m ps) (qs.map (·.2)) (.object m qs)
  | paren (m : Marks) (x o : Script) : Reshaped (.paren m x) [o] (.paren m o)
  | function (m : Marks) (ps : List Text) (b o : Script) :
    Reshaped (.function m ps b) [o] (.function m ps o)
  | arrow (m : Marks) (ps : List Text) (b o : Script) :
    Reshaped (.arrow m ps b) [o] (.arrow m ps o)
  | sequence (m : Marks) {xs os : List Script} (h : os.length = xs.length) :
    Reshaped (.sequence m xs) os (.sequence m os)

theorem reshaped {xs : List Script} (h : xs.length = s.children.length) :
    Reshaped s xs (s.withChildren xs) := by
  cases s <;> simp only [children, List.length_cons, List.length_nil, List.length_map] at h
  case ident => obtain rfl := List.length_eq_zero_iff.1 h; exact .ident ..
  case literal => obtain rfl := List.length_eq_zero_iff.1 h; exact .literal ..
  case symbol => obtain rfl := List.length_eq_zero_iff.1 h; exact .symbol ..
  case member => obtain ⟨x, rfl⟩ := List.length_eq_one_iff.1 h; exact .member ..
  case index => obtain ⟨x, y, rfl⟩ := List.length_eq_two.1 h; exact .index ..
  case call =>
    obtain ⟨f, os, rfl⟩ := List.exists_cons_of_length_eq_add_one h
    exact .call _ _ _ _ (by simpa using h)
  case construct =>
    obtain ⟨f, os, rfl⟩ := List.exists_cons_of_length_eq_add_one h
    exact .construct _ _ _ _ (by simpa using h)
  case unary => obtain ⟨x, rfl⟩ := List.length_eq_one_iff.1 h; exact .unary ..
  case binary => obtain ⟨x, y, rfl⟩ := List.length_eq_two.1 h; exact .binary ..
  case cond => obtain ⟨x, y, z, rfl⟩ := List.length_eq_three.1 h; exact .cond ..
  case array => exact .array _ h
  case object m ps =>
    have hsnd : ((ps.map (·.1)).zip xs).map (·.2) = xs := List.map_snd_zip (by simp [h])
    have hfst : ((ps.map (·.1)).zip xs).map (·.1) = ps.map (·.1) := List.map_fst_zip (by simp [h])
    have hobject : Reshaped (.object m ps) (((ps.map (·.1)).zip xs).map (·.2)) _ := .object m hfst
    rw [hsnd] at hobject
    exact hobject
  case paren => obtain ⟨x, rfl⟩ := List.length_eq_one_iff.1 h; exact .paren ..
  case function => obtain ⟨x, rfl⟩ := List.length_eq_one_iff.1 h; exact .function ..
  case arrow => obtain ⟨x, rfl⟩ := List.length_eq_one_iff.1 h; exact .arrow ..
  case sequence => exact .sequence _ h

theorem withChildren_children (s : Script) : s.withChildren s.children = s := by
  cases s <;> try rfl
  case object m ps =>
    have : (ps.map (·.1)).zip (ps.map (·.2)) = ps := by
      rw [List.zip_map']
      simp
    simp only [children, withChildren, this]

namespace Reshaped

variable {s out : Script} {xs : List Script}

theorem children_eq (h : Reshaped s xs out) : out.children = xs := by
  cases h <;> rfl

theorem marks_eq (h : Reshaped s xs out) : out.marks = s.marks := by
  cases h <;> rfl

theorem length_eq (h : Reshaped s xs out) : xs.length = s.children.length := by
  cases h <;> simp_all [children]
  case object h => simpa using congrArg List.length h

theorem withChildren_eq (h : Reshaped s xs out) {ys : List Script} (hys : ys.length = xs.length) :
    out.withChildren ys = s.withChildren ys := by
  cases h
  case object m ps qs hkeys => simp only [withChildren, hkeys]
  all_goals
    first
    | rfl
    | (obtain ⟨x, rfl⟩ := List.length_eq_one_iff.1 hys; rfl)
    | (obtain ⟨x, y, rfl⟩ := List.length_eq_two.1 hys; rfl)
    | (obtain ⟨x, y, z, rfl⟩ := List.length_eq_three.1 hys; rfl)
    | (obtain ⟨x, ys, rfl⟩ := List.exists_cons_of_length_eq_add_one hys; rfl)

theorem fold_eq (h : Reshaped s xs out) {α : Type} (f : Script → List α → α) :
    out.fold f = f out (xs.map (fold f)) := by
  rw [Script.fold_eq, h.children_eq]

end Reshaped

/-! ## Scripts without marks -/

theorem bareList_eq_map (xs : List Script) : bareList xs = xs.map bare := by
  induction xs with
  | nil => rfl
  | cons x xs ih => simp [bareList, ih]

theorem bareProps_eq_map (ps : Record Script) :
    bareProps ps = ps.map fun p => (p.1, p.2.bare) := by
  induction ps with
  | nil => rfl
  | cons p ps ih => simp [bareProps, ih]

theorem Reshaped.bare_eq {out : Script} {xs : List Script} (h : Reshaped s xs out)
    (hxs : xs.map bare = s.children.map bare) : out.bare = s.bare := by
  cases h with
  | @object m ps qs hkeys =>
    -- The properties are the keys paired with the operands.
    have hzip (ps : Record Script) :
        bareProps ps = (ps.map (·.1)).zip ((ps.map (·.2)).map bare) := by
      rw [bareProps_eq_map, List.map_map, List.zip_map']
      rfl
    have hprops : bareProps qs = bareProps ps := by
      rw [hzip, hzip, hkeys]
      exact congrArg _ hxs
    rw [bare, bare, hprops]
  | _ => simp_all [bare, children, bareList_eq_map]

theorem assignedList_eq_flatMap (xs : List Script) : assignedList xs = xs.flatMap assigned := by
  induction xs with
  | nil => rfl
  | cons x xs ih => simp [assignedList, ih]

theorem assignedProps_eq_flatMap (ps : Record Script) :
    assignedProps ps = (ps.map (·.2)).flatMap assigned := by
  induction ps with
  | nil => rfl
  | cons p ps ih => simp [assignedProps, ih]

def isPure : Script → Bool
  | .binary _ .assign .. => false
  | _ => true

theorem isPure_cases (s : Script) : s.isPure ∨ ∃ m x y, s = .binary m .assign x y := by
  cases s with
  | binary m op x y => cases op <;> first | exact .inr ⟨m, x, y, rfl⟩ | exact .inl rfl
  | _ => exact .inl rfl

theorem assigned_eq_flatMap (h : s.isPure) : s.assigned = s.parts.flatMap assigned := by
  cases s with
  | binary m op x y => cases op <;> first | (simp [assigned, parts, children]; done) | cases h
  | symbol m n d => cases d <;> simp [assigned, parts, children]
  | _ => simp [assigned, parts, children, assignedList_eq_flatMap, assignedProps_eq_flatMap]

theorem target?_bare (s : Script) : s.bare.target? = s.target? := by
  cases s with
  | paren m x => exact target?_bare x
  | symbol m n d =>
    cases d with
    | none => rfl
    | some d => exact target?_bare d
  | _ => rfl

theorem parts_bare (s : Script) : s.bare.parts = s.parts.map bare := by
  cases s with
  | symbol m n d => cases d <;> rfl
  | _ => simp [bare, parts, children, bareList_eq_map, bareProps_eq_map]

theorem isPure_bare (s : Script) : s.bare.isPure = s.isPure := by
  cases s with
  | symbol m n d => cases d <;> rfl
  | binary m op x y => cases op <;> rfl
  | _ => rfl

theorem assigned_bare (s : Script) : s.bare.assigned = s.assigned := by
  induction s using induct_parts with
  | h s ih =>
    obtain hs | ⟨m, x, y, rfl⟩ := s.isPure_cases
    · rw [assigned_eq_flatMap (s.isPure_bare.trans hs), assigned_eq_flatMap hs, parts_bare,
        List.flatMap_map]
      exact List.flatMap_congr ih
    · have hx := ih x (by simp [parts, children])
      have hy := ih y (by simp [parts, children])
      simp only [bare, assigned, target?_bare, hx, hy]

def isFunction : Script → Bool
  | .function .. | .arrow .. => true
  | _ => false

def core : Script → Script
  | .paren _ x => core x
  | s => s

theorem core_eq (h : ∀ m x, s ≠ .paren m x) : s.core = s := by
  cases s <;> first | rfl | exact absurd rfl (h _ _)

theorem core_ne_paren (s : Script) (m : Marks) (x : Script) : s.core ≠ .paren m x := by
  cases s with
  | paren _ y => exact core_ne_paren y m x
  | _ => exact nofun

theorem sizeOf_core_le (s : Script) : sizeOf s.core ≤ sizeOf s := by
  cases s with
  | paren m x =>
    have := sizeOf_core_le x
    simp only [core, paren.sizeOf_spec]
    omega
  | _ => exact Nat.le_refl _

theorem core_bare (s : Script) : s.bare.core = s.core.bare := by
  cases s with
  | paren m x => exact core_bare x
  | symbol m n d => cases d <;> rfl
  | _ => rfl

theorem isFunction_bare (s : Script) : s.bare.isFunction = s.isFunction := by
  cases s with
  | symbol m n d => cases d <;> rfl
  | _ => rfl

theorem assigned_bare_of_pure (s : Script) (h : s.Everywhere fun x => x.isPure) :
    s.bare.assigned = [] := by
  rw [assigned_bare]
  induction s using induct_parts with
  | h s ih =>
    rw [assigned_eq_flatMap h.node]
    exact List.flatMap_eq_nil_iff.2 fun x hx => ih x hx (h.part hx)

end Bindery.Script
