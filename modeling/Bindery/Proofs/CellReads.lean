import Bindery.Proofs.ScriptParts
import Bindery.Script.Cells

/-!
# Where cells are read

Reading cells puts a read around every cell whose value is needed and changes nothing else
(`Script.variant_reads`): a cell then stands in the read of it, or in parentheses that are a cell
too (`Script.ReadsCells`), and without the reads the script is what it was (`Script.unread`), but
for the marks of parentheses (`Script.inheritCells`).
-/

namespace Bindery.Script

/-- The first script reads the second one: what is a cell is called without arguments, and what may
be one is the only argument of `ko.unwrap`. -/
inductive ReadsCell : Script → Script → Prop
  | call (m : Marks) {c : Script} (hc : c.marks.cell = some .cell) : ReadsCell (.call m c []) c
  | unwrap (m : Marks) {c : Script} (hc : c.marks.cell = some .maybe) :
    ReadsCell (.call m (dot (global "ko") "unwrap") [c]) c

variable (s : Script)

/-- The node reads each of its operands that is a cell, unless it is a pair of parentheses, which
then is such a cell itself. -/
def ReadsCells : Prop :=
  ∀ c ∈ s.children, c.isCell → ReadsCell s c ∨ ∃ m, s = .paren m c ∧ m.cell = c.marks.cell

/-- Parentheses around a cell are marked as one. -/
def inheritCell : Script → Script
  | .paren m x => .paren (m.merge { cell := x.marks.cell }) x
  | s => s

/-- The script in which all parentheses around cells are marked as cells. -/
def inheritCells : Script → Script := transform inheritCell

/-- The operand of a node that reads a cell, and otherwise the node with the operands `kids`. -/
def dropRead (kids : List Script) : Script :=
  match s, kids with
  | .call _ f [], [x] => if f.marks.cell = some .cell then x else s.withChildren kids
  | .call _ (.member _ (.ident _ o) n) [c], [_, x] =>
    if o = "ko" ∧ n = "unwrap" ∧ c.marks.cell = some .maybe then x else s.withChildren kids
  | _, _ => s.withChildren kids

def unread : Script → Script := fold dropRead

theorem unread_eq : s.unread = s.dropRead (s.children.map unread) := fold_eq ..

/-- The script that gives a value and no cell. -/
abbrev value : Script := s.resolveCells.variant false

/-! ## One read -/

theorem isCell_iff {s : Script} :
    s.isCell ↔ s.marks.cell = some .cell ∨ s.marks.cell = some .maybe := by
  rw [isCell]
  cases s.marks.cell with
  | none => simp
  | some c => cases c <;> simp

theorem readsCell_force {s : Script} (hs : s.isCell) : ReadsCell s.force s := by
  unfold force
  rcases isCell_iff.1 hs with hcell | hcell <;> rw [hcell] <;> cases s.type?
  · exact .call _ hcell
  · exact .call _ hcell
  · exact .unwrap _ hcell
  · exact .unwrap _ hcell

theorem isCell_force : s.force.isCell = false := by
  unfold force
  cases s.marks.cell with
  | none => cases s.type? <;> rfl
  | some c => cases c <;> cases s.type? <;> rfl

namespace ReadsCell

variable {s c : Script}

theorem unread_eq (h : ReadsCell s c) : s.unread = c.unread := by
  rw [Script.unread_eq]
  cases h with
  | call m hc => simp [children, dropRead, hc]
  | unwrap m hc => simp [children, dropRead, dot, global, Script.id, notNull, mark, setMarks, hc]

theorem readsCells (h : ReadsCell s c) : s.ReadsCells := by
  intro x hx hcell
  cases h with
  | call m hc =>
    obtain rfl := List.mem_singleton.1 hx
    exact .inl (.call m hc)
  | unwrap m hc =>
    rcases List.mem_cons.1 hx with rfl | hx
    · cases hcell
    · obtain rfl := List.mem_singleton.1 hx
      exact .inl (.unwrap m hc)

/-- Around a script in which cells are read, a read is another one. -/
theorem forall_nodes (h : ReadsCell s c) (hc : ∀ n ∈ c.nodes, n.ReadsCells) :
    ∀ n ∈ s.nodes, n.ReadsCells := by
  refine forall_mem_nodes.2 ⟨h.readsCells, ?_⟩
  cases h with
  | call m => exact List.forall_mem_singleton.2 hc
  | unwrap m =>
    refine List.forall_mem_cons.2 ⟨?_, List.forall_mem_singleton.2 hc⟩
    -- The library and its function are no cells.
    have hname : ∀ n ∈ (global "ko").nodes, n.ReadsCells := forall_mem_nodes.2 ⟨nofun, nofun⟩
    refine forall_mem_nodes.2 ⟨?_, List.forall_mem_singleton.2 hname⟩
    exact List.forall_mem_singleton.2 nofun

end ReadsCell

/-! ## All reads -/

theorem value_eq_ite : s.value =
    if (s.transform readOperands).isCell then (s.transform readOperands).force
    else s.transform readOperands := by
  simp only [value, resolveCells, Resolved.variant, Bool.false_or]
  by_cases hcell : (s.transform readOperands).isCell = true <;> simp [hcell]

theorem isCell_value : s.value.isCell = false := by
  rw [value_eq_ite]
  split
  next => exact isCell_force _
  next hcell => exact Bool.eq_false_iff.2 hcell

theorem transform_readOperands {s : Script} (hs : ∀ m x, s ≠ .paren m x) :
    s.transform readOperands = s.withChildren (s.children.map value) := by
  have hnode {xs : List Script} {out : Script} (h : Reshaped s xs out) : out.readOperands =
      s.withChildren (xs.map fun k => if k.isCell then k.force else k) := by
    rw [← h.withChildren_eq (List.length_map _)]
    cases h with
    | paren m x => exact absurd rfl (hs _ _)
    | _ => rfl
  rw [transform, Script.fold_eq]
  refine (hnode (reshaped (List.length_map _))).trans (congrArg _ ?_)
  rw [List.map_map]
  exact List.map_congr_left fun x _ => (value_eq_ite x).symm

theorem transform_readOperands_paren (m : Marks) (x : Script) :
    (Script.paren m x).transform readOperands =
      .paren (m.merge { cell := (x.transform readOperands).marks.cell })
        (x.transform readOperands) := rfl

theorem inheritCells_paren (m : Marks) (x : Script) : (Script.paren m x).inheritCells =
    .paren (m.merge { cell := x.inheritCells.marks.cell }) x.inheritCells := rfl

theorem inheritCells_eq {s : Script} (hs : ∀ m x, s ≠ .paren m x) :
    s.inheritCells = s.withChildren (s.children.map inheritCells) := by
  have hnode {xs : List Script} {out : Script} (h : Reshaped s xs out) : out.inheritCell = out := by
    cases h with
    | paren m x => exact absurd rfl (hs _ _)
    | _ => rfl
  rw [inheritCells, transform, Script.fold_eq]
  exact hnode (reshaped (List.length_map _))

theorem paren_or : (∃ m x, s = .paren m x) ∨ ∀ m x, s ≠ .paren m x := by
  cases s with
  | paren m x => exact .inl ⟨m, x, rfl⟩
  | _ => exact .inr nofun

theorem dropRead_of_not_isCell {s : Script} (hs : ∀ c ∈ s.children, c.isCell = false)
    (kids : List Script) : s.dropRead kids = s.withChildren kids := by
  unfold dropRead
  split
  next m f x =>
    have hf := hs f (by simp [children])
    rw [if_neg]
    intro hcell
    rw [isCell, hcell] at hf
    cases hf
  next m m' m'' o n c _ x =>
    have hc := hs c (by simp [children])
    rw [if_neg]
    rintro ⟨-, -, hcell⟩
    rw [isCell, hcell] at hc
    cases hc
  next => rfl

theorem unread_value : s.value.unread = (s.transform readOperands).unread := by
  rw [value_eq_ite]
  split
  next hcell => exact (readsCell_force hcell).unread_eq
  next => rfl

theorem unread_transform : (s.transform readOperands).unread = s.inheritCells ∧
    (s.transform readOperands).marks = s.inheritCells.marks := by
  induction s using induct_children with
  | h s ih =>
    rcases paren_or s with ⟨m, x, rfl⟩ | hs
    · obtain ⟨hx, hmarks⟩ := ih x (List.mem_singleton_self x)
      rw [transform_readOperands_paren, inheritCells_paren, ← hmarks, ← hx]
      exact ⟨rfl, rfl⟩
    · have hkids : (s.children.map value).map unread = s.children.map inheritCells := by
        rw [List.map_map]
        exact List.map_congr_left fun x hx => (unread_value x).trans (ih x hx).1
      have hread := reshaped (List.length_map value : (s.children.map value).length = _)
      have hcells : ∀ c ∈ (s.withChildren (s.children.map value)).children, c.isCell = false := by
        rw [hread.children_eq, List.forall_mem_map]
        exact fun x _ => isCell_value x
      rw [transform_readOperands hs, inheritCells_eq hs, unread_eq, dropRead_of_not_isCell hcells,
        hread.children_eq, hread.withChildren_eq (List.length_map _), hkids, hread.marks_eq,
        (reshaped (List.length_map inheritCells)).marks_eq]
      exact ⟨rfl, rfl⟩

theorem bare_inheritCells : s.inheritCells.bare = s.bare := by
  induction s using induct_children with
  | h s ih =>
    rcases paren_or s with ⟨m, x, rfl⟩ | hs
    · rw [inheritCells_paren, bare, bare, ih x (List.mem_singleton_self x)]
    · rw [inheritCells_eq hs]
      refine (reshaped (List.length_map _)).bare_eq ?_
      rw [List.map_map]
      exact List.map_congr_left ih

/-- In a script whose cells are read, every cell below the root stands in a read or in
parentheses. -/
theorem readsCells_transform : ∀ n ∈ (s.transform readOperands).nodes, n.ReadsCells:= by
  induction s using induct_children with
  | h s ih =>
    rcases paren_or s with ⟨m, x, rfl⟩ | hs
    · rw [transform_readOperands_paren]
      refine forall_mem_nodes.2 ⟨?_, List.forall_mem_singleton.2 (ih x (List.mem_singleton_self x))⟩
      refine List.forall_mem_singleton.2 fun hcell => .inr ⟨_, rfl, ?_⟩
      obtain ⟨c, hc⟩ := Option.isSome_iff_exists.1 hcell
      rw [hc]
      rfl
    · have hread := reshaped (List.length_map value : (s.children.map value).length = _)
      rw [transform_readOperands hs]
      refine forall_mem_nodes.2 ⟨?_, ?_⟩
      · intro c hc hcell
        rw [hread.children_eq] at hc
        obtain ⟨x, -, rfl⟩ := List.mem_map.1 hc
        rw [isCell_value] at hcell
        cases hcell
      · rw [hread.children_eq, List.forall_mem_map]
        intro x hx
        rw [value_eq_ite]
        split
        next hcell => exact (readsCell_force hcell).forall_nodes (ih x hx)
        next => exact ih x hx

/-- Every cell of a script is read exactly where its value is needed. In the value of a script no
cell stands but in the read of it, or in parentheses that are a cell themselves; without the reads
it is the script again, but for marks of parentheses; and the script that may give a cell is the
same, except that a cell at the root is not read. -/
theorem variant_reads : (s.resolveCells.variant false).isCell = false ∧
    (∀ n ∈ (s.resolveCells.variant false).nodes, n.ReadsCells) ∧
    (s.resolveCells.variant false).unread = s.inheritCells ∧ s.inheritCells.bare = s.bare ∧
    if s.inheritCells.isCell then
      ReadsCell (s.resolveCells.variant false) (s.resolveCells.variant true)
    else s.resolveCells.variant false = s.resolveCells.variant true := by
  obtain ⟨hunread, hmarks⟩ := unread_transform s
  have hcells := readsCells_transform s
  refine ⟨isCell_value s, ?_, (unread_value s).trans hunread, bare_inheritCells s, ?_⟩
  · rw [← value, value_eq_ite]
    split
    next hcell => exact (readsCell_force hcell).forall_nodes hcells
    next => exact hcells
  · rw [← value, value_eq_ite, isCell, ← hmarks, ← isCell]
    split
    next hcell => exact readsCell_force hcell
    next => rfl

end Bindery.Script
