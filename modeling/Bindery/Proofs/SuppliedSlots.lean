import Bindery.Proofs.CleanCode

/-!
# Texts for slots

A text may be supplied for the slots of one name before or after a script becomes a code. A chain of
names, such as `options.viewModel`, may take the place of a symbol in the script, or its text may
take the place of the slots in the code: the text that results is the same. The printer chooses
parentheses and spaces while the slot is still open, so a chain must ask for neither. A text that is
assigned to a slot is one more value when the other slots are filled in. `Script.supply_commutes`
says both.
-/

namespace Bindery

/-! ## Filling in -/

namespace Code

/-- One text behind another, if there are both; otherwise the first error. -/
def join (a b : Except Error Text) : Except Error Text := do return (← a) ++ (← b)

theorem join_assoc (a b c : Except Error Text) : join (join a b) c = join a (join b c) := by
  cases a with
  | error e => rfl
  | ok a =>
    cases b with
    | error e => rfl
    | ok b =>
      cases c with
      | error e => rfl
      | ok c => exact congrArg Except.ok (Text.append_assoc a b c)

@[simp] theorem empty_join (a : Except Error Text) : join (.ok ∅) a = a := by
  cases a <;> rfl

@[simp] theorem join_empty (a : Except Error Text) : join a (.ok ∅) = a := by
  cases a with
  | error e => rfl
  | ok a => exact congrArg Except.ok (Text.ext (List.append_nil _))

def segmentText (f : Text → Except Error Text) : Segment → Except Error Text
  | .text t => .ok t
  | .slot n => f n

def fill (f : Text → Except Error Text) (segs : List Segment) : Except Error Text :=
  segs.foldr (fun seg rest => join (segmentText f seg) rest) (.ok ∅)

variable {f g : Text → Except Error Text} {c d : Code} {s t v : Text}

theorem fill_append (xs ys : List Segment) : fill f (xs ++ ys) = join (fill f xs) (fill f ys) := by
  induction xs with
  | nil => exact (empty_join _).symm
  | cons x xs ih => exact (congrArg (join _) ih).trans (join_assoc ..).symm

theorem fill_singleton (seg : Segment) : fill f [seg] = segmentText f seg := join_empty _

theorem fill_congr {segs : List Segment} (h : ∀ n, .slot n ∈ segs → f n = g n) :
    fill f segs = fill g segs := by
  induction segs with
  | nil => rfl
  | cons seg segs ih =>
    have hseg : segmentText f seg = segmentText g seg := by
      cases seg with
      | text t => rfl
      | slot n => exact h n (List.mem_cons_self ..)
    exact congrArg₂ join hseg (ih fun n hn => h n (List.mem_cons_of_mem _ hn))

theorem fill_appendText (t : Text) (segs : List Segment) :
    fill f (appendText t segs) = join (fill f segs) (.ok t) := by
  fun_induction appendText t segs with
  | case1 => rw [fill_singleton]; exact (empty_join _).symm
  | case2 u => rw [fill_singleton, fill_singleton]; rfl
  | case3 seg rest _ ih => exact (congrArg (join _) ih).trans (join_assoc ..).symm

theorem fill_addText : fill f (c.addText t).segments = join (fill f c.segments) (.ok t) := by
  unfold addText
  split
  · rename_i h
    obtain rfl : t = ∅ := Text.ext (List.isEmpty_iff.1 h)
    exact (join_empty _).symm
  · exact fill_appendText t c.segments

theorem fill_addSlot (σ : Slot) :
    fill f (c.addSlot σ).segments = join (fill f c.segments) (f σ.name) := by
  rw [addSlot, fill_append, fill_singleton]
  rfl

@[simp] theorem slot?_addText (n : Text) : (c.addText t).slot? n = c.slot? n := by
  unfold addText
  split <;> rfl

theorem slot?_addSlot (σ : Slot) (n : Text) :
    (c.addSlot σ).slot? n = (c.slot? n).or (if σ.name = n then some σ else none) := by
  by_cases h : (c.slot? σ.name).isSome
  · by_cases hn : σ.name = n
    · subst hn
      obtain ⟨τ, hτ⟩ := Option.isSome_iff_exists.1 h
      rw [if_pos rfl, hτ, Option.some_or, ← hτ, slot?, addSlot, if_pos h]
      rfl
    · rw [if_neg hn, Option.or_none, slot?, addSlot, if_pos h]
      rfl
  · rw [slot?, addSlot, if_neg h, List.find?_append]
    by_cases hn : σ.name = n <;> simp [hn, slot?]

theorem name_slot (c : Code) (n : Text) : (c.slot n).name = n := by
  unfold slot
  cases h : c.slot? n with
  | none => rfl
  | some σ =>
    rw [slot?] at h
    simpa using List.find?_some h

/-! ## Assigning -/

def assignStep (c : Code) (s v : Text) (d : Code) : Segment → Code
  | .text t => d.addText t
  | .slot n => if n == s then d.addText v else d.addSlot (c.slot n)

theorem assign_eq (c : Code) (s v : Text) :
    c.assign s v = c.segments.foldl (c.assignStep s v) {} := by
  rfl

theorem fill_assign :
    fill f (c.assign s v).segments = fill (fun n => if n = s then .ok v else f n) c.segments := by
  have hrun (segs : List Segment) (d : Code) : fill f (segs.foldl (c.assignStep s v) d).segments =
      join (fill f d.segments) (fill (fun n => if n = s then .ok v else f n) segs) := by
    induction segs generalizing d with
    | nil => exact (join_empty _).symm
    | cons seg segs ih =>
      have hstep : fill f (c.assignStep s v d seg).segments = join (fill f d.segments)
          (segmentText (fun n => if n = s then .ok v else f n) seg) := by
        cases seg with
        | text t => exact fill_addText
        | slot n =>
          by_cases h : n = s
          · simp only [assignStep, h, beq_self_eq_true, if_true, fill_addText, segmentText]
          · simp only [assignStep, beq_eq_false_iff_ne.2 h, Bool.false_eq_true, if_false,
              fill_addSlot, name_slot, segmentText, h]
      rw [List.foldl_cons, ih, hstep, join_assoc]
      rfl
  rw [assign_eq, hrun]
  exact empty_join _

theorem slot_assign {n : Text} (hn : n ≠ s) (h : .slot n ∈ c.segments) :
    (c.assign s v).slot n = c.slot n := by
  have hrun (segs : List Segment) (d : Code) : (segs.foldl (c.assignStep s v) d).slot? n =
      (d.slot? n).or (if .slot n ∈ segs then some (c.slot n) else none) := by
    induction segs generalizing d with
    | nil => simp
    | cons seg segs ih =>
      rw [List.foldl_cons, ih]
      cases seg with
      | text t => simp [assignStep]
      | slot m =>
        by_cases hms : m = s
        · simp [assignStep, hms, hn]
        · by_cases hm : m = n
          · subst hm
            cases hd : d.slot? m <;> simp [assignStep, hms, slot?_addSlot, name_slot, hd]
          · simp [assignStep, hms, slot?_addSlot, name_slot, hm, Ne.symm hm]
  have hslot : (c.assign s v).slot? n = some (c.slot n) := by
    rw [assign_eq, hrun, if_pos h]
    rfl
  rw [slot, hslot, Option.getD_some]

def value (c : Code) (m : Record Text) (n : Text) : Except Error Text :=
  match m.lookup n with
  | some v => .ok v
  | none => match (c.slot n).default with
    | some d => .ok d
    | none => .error (.plain ("no value for script parameter " ++ n.quote))

theorem resolve_eq (c : Code) (m : Record Text) :
    c.resolve m = fill (c.value m) c.segments := by
  have hfill (segs : List Segment) :
      Text.concat <$> segs.mapM (segmentText (c.value m)) = fill (c.value m) segs := by
    induction segs with
    | nil => rfl
    | cons seg segs ih =>
      rw [List.mapM_cons, fill, List.foldr_cons, ← fill, ← ih]
      cases segmentText (c.value m) seg with
      | error e => rfl
      | ok t => cases segs.mapM (segmentText (c.value m)) <;> rfl
  exact hfill c.segments

theorem text_eq (c : Code) : .ok c.text = fill (fun n => .ok (c.slotText n)) c.segments := by
  have hfill (segs : List Segment) : .ok (Text.concat (segs.map fun
      | .text t => t
      | .slot name => c.slotText name)) = fill (fun n => .ok (c.slotText n)) segs := by
    induction segs with
    | nil => rfl
    | cons seg segs ih =>
      rw [fill, List.foldr_cons, ← fill, ← ih]
      cases seg <;> rfl
  exact hfill c.segments

theorem resolve_assign (c : Code) (s v : Text) (m : Record Text) :
    (c.assign s v).resolve m = c.resolve ((s, v) :: m) := by
  rw [resolve_eq, resolve_eq, fill_assign]
  refine fill_congr fun n hn => ?_
  by_cases h : n = s
  · subst h
    simp [value]
  · simp [value, slot_assign h hn, List.lookup_cons, beq_eq_false_iff_ne.2 h, h]

/-! ## Signs -/

/-- A plus or minus sign, which the printer keeps apart from one before it. -/
def isSign (b : UInt8) : Bool := b == 0x2B || b == 0x2D

theorem lastByte?_addSlot (σ : Slot) : (c.addSlot σ).lastByte? = none := by
  simp [lastByte?, addSlot]

theorem lastByte?_addText (ht : t.bytes ≠ []) : (c.addText t).lastByte? = t.bytes.getLast? := by
  have hlast (segs : List Segment) : ∃ u : Text,
      (appendText t segs).getLast? = some (.text (u ++ t)) := by
    fun_induction appendText t segs with
    | case1 => exact ⟨∅, rfl⟩
    | case2 u => exact ⟨u, rfl⟩
    | case3 seg rest hrest ih =>
      obtain ⟨u, hu⟩ := ih
      refine ⟨u, ?_⟩
      rw [List.getLast?_cons, hu]
      rfl
  obtain ⟨u, hu⟩ := hlast c.segments
  have hempty : t.isEmpty = false := by simpa [Text.isEmpty] using ht
  simp only [lastByte?, addText, hempty, Bool.false_eq_true, if_false, hu]
  rw [Text.bytes_append, List.getLast?_append, List.getLast?_eq_some_getLast ht]
  rfl

/-- The code `d` is `c` with the text `v` behind it, and does not end in a sign. A slot does not
either. -/
structure Extended (v : Text) (c d : Code) : Prop where
  fill : ∀ f, fill f d.segments = join (fill f c.segments) (.ok v)
  slot : ∀ n, d.slot? n = c.slot? n
  sign : ∀ b, d.lastByte? = some b → isSign b = false

/-- The code `d` is `c` with the text `v` in the slots `s`. -/
structure Supplied (s v : Text) (c d : Code) : Prop where
  fill : ∀ f, fill (fun n => if n = s then .ok v else f n) c.segments = Code.fill f d.segments
  slot : ∀ n, n ≠ s → d.slot? n = c.slot? n
  sign : ∀ b, isSign b → (d.lastByte? = some b ↔ c.lastByte? = some b)

namespace Supplied

theorem empty : Supplied s v {} {} := ⟨fun _ => rfl, fun _ _ => rfl, fun _ _ => Iff.rfl⟩

theorem addText (h : Supplied s v c d) (t : Text) : Supplied s v (c.addText t) (d.addText t) := by
  refine ⟨fun f => ?_, fun n hn => ?_, fun b hb => ?_⟩
  · rw [fill_addText, fill_addText, h.fill]
  · rw [slot?_addText, slot?_addText, h.slot n hn]
  · by_cases ht : t.bytes = []
    · have hempty : t.isEmpty := by simp [Text.isEmpty, ht]
      simpa [Code.addText, hempty] using h.sign b hb
    · rw [lastByte?_addText ht, lastByte?_addText ht]

theorem addSlot (h : Supplied s v c d) {σ : Slot} (hσ : σ.name ≠ s) :
    Supplied s v (c.addSlot σ) (d.addSlot σ) := by
  refine ⟨fun f => ?_, fun n hn => ?_, fun b _ => ?_⟩
  · rw [fill_addSlot, fill_addSlot, h.fill, if_neg hσ]
  · rw [slot?_addSlot, slot?_addSlot, h.slot n hn]
  · rw [lastByte?_addSlot, lastByte?_addSlot]

theorem supply (h : Supplied s v c d) {σ : Slot} (hσ : σ.name = s) {e : Code}
    (he : Extended v d e) : Supplied s v (c.addSlot σ) e := by
  refine ⟨fun f => ?_, fun n hn => ?_, fun b hb => ?_⟩
  · rw [fill_addSlot, he.fill, h.fill, if_pos hσ]
  · rw [slot?_addSlot, he.slot, h.slot n hn, if_neg (by rw [hσ]; exact Ne.symm hn),
      Option.or_none]
  · rw [lastByte?_addSlot]
    refine ⟨fun hlast => ?_, nofun⟩
    rw [he.sign b hlast] at hb
    cases hb

theorem text (h : Supplied s v c d) : (c.assign s v).text = d.text := by
  refine Except.ok.inj (ε := Error) ?_
  rw [text_eq, text_eq, fill_assign, ← h.fill]
  refine fill_congr fun n hn => ?_
  by_cases hns : n = s
  · rw [if_pos hns, if_pos hns]
  · rw [if_neg hns, if_neg hns, slotText, slotText, slot_assign hns hn, Code.slot, Code.slot,
      h.slot n hns]

end Supplied

end Code

/-! ## Supplying a script -/

namespace Script

open Code

def isSignless (n : Text) : Bool := !n.isEmpty && n.bytes.all fun b => !isSign b

def isChain : Script → Bool
  | .ident _ n => isSignless n
  | .member _ x n => x.isChain && isSignless n
  | _ => false

def supplyNode (s : Text) (r : Script) : Script → Script
  | .symbol m n d => if n = s then r else .symbol m n d
  | x => x

/-- The script with `r` in the place of the symbols named `s`. -/
def supply (x : Script) (s : Text) (r : Script) : Script := x.transform (supplyNode s r)

def supplyPiece (s : Text) (r : List Piece) : Piece → List Piece
  | .slot σ => if σ.name = s then r else [.slot σ]
  | .text t => [.text t]

theorem addPiece_text {c : Code} {t : Text} (h : ∀ b, t.bytes.head? = some b → isSign b = false) :
    addPiece c (.text t) = c.addText t := by
  rcases t with ⟨_ | ⟨b, bs⟩⟩
  · rfl
  · have hb : (b == 0x2B || b == 0x2D) = false := h b rfl
    simp [addPiece, hb]

variable {s : Text} {r : Script} {nice : Bool}

theorem isChain_level (hr : r.isChain) : r.level = Level.member := by
  cases r <;> first | rfl | cases hr

theorem receiverPieces_isChain (hr : r.isChain) (ps : List Piece) : receiverPieces r ps = ps := by
  cases r <;> first | rfl | cases hr

theorem startsLikeStatement_isChain (hr : r.isChain) : r.startsLikeStatement = false := by
  induction r using induct_parts with
  | h r ih =>
    cases r with
    | ident => rfl
    | member m x n => exact ih x (by simp [parts, children]) (Bool.and_eq_true_iff.1 hr).1
    | _ => cases hr

theorem isChain_pieces (hr : r.isChain) :
    ∃ v : Text, ∀ c, Extended v c ((r.pieces nice).foldl addPiece c) := by
  have hname {n : Text} (hn : isSignless n) :
      n.bytes ≠ [] ∧ ∀ b ∈ n.bytes, isSign b = false := by
    simpa [isSignless, Text.isEmpty] using hn
  induction r using induct_parts with
  | h r ih =>
    cases r with
    | ident m n =>
      obtain ⟨hne, hsign⟩ := hname hr
      refine ⟨n, fun c => ?_⟩
      have hadd : addPiece c (.text n) = c.addText n :=
        addPiece_text fun b hb => hsign b (List.mem_of_head? hb)
      rw [pieces, word, List.foldl_cons, List.foldl_nil, hadd]
      refine ⟨fun f => fill_addText, fun _ => slot?_addText _, fun b hb => hsign b ?_⟩
      exact List.mem_of_getLast? (lastByte?_addText hne ▸ hb)
    | member m x n =>
      obtain ⟨hx, hn⟩ := Bool.and_eq_true_iff.1 hr
      obtain ⟨hne, hsign⟩ := hname hn
      obtain ⟨v, hv⟩ := ih x (by simp [parts, children]) hx
      refine ⟨v ++ ("." ++ n), fun c => ?_⟩
      have hadd (c : Code) : addPiece c (.text ("." ++ n)) = c.addText ("." ++ n) := by
        refine addPiece_text fun b hb => ?_
        obtain rfl : 0x2E = b := Option.some.inj hb
        rfl
      rw [pieces, receiverPieces_isChain hx, List.foldl_append, word, List.foldl_cons,
        List.foldl_nil, hadd]
      refine ⟨fun f => ?_, fun m => ?_, fun b hb => hsign b ?_⟩
      · rw [fill_addText, (hv c).fill, join_assoc]
        rfl
      · rw [slot?_addText, (hv c).slot]
      · rw [lastByte?_addText (by simp [hne]), Text.bytes_append, List.getLast?_append,
          List.getLast?_eq_some_getLast hne] at hb
        exact List.mem_of_getLast? ((List.getLast?_eq_some_getLast hne).trans hb)
    | _ => cases hr

theorem codeOf_supply {v : Text} {qs : List Piece} (hqs : ∀ c, Extended v c (qs.foldl addPiece c))
    (ps : List Piece) :
    Supplied s v (codeOf ps) (codeOf (ps.flatMap (supplyPiece s qs))) := by
  have hpiece {c d : Code} (h : Supplied s v c d) (p : Piece) :
      Supplied s v (addPiece c p) ((supplyPiece s qs p).foldl addPiece d) := by
    cases p with
    | slot σ =>
      by_cases hσ : σ.name = s
      · rw [supplyPiece, if_pos hσ]
        exact h.supply hσ (hqs d)
      · rw [supplyPiece, if_neg hσ]
        exact h.addSlot hσ
    | text t =>
      rw [supplyPiece, List.foldl_cons, List.foldl_nil]
      rcases t with ⟨_ | ⟨b, bs⟩⟩
      · exact h
      · have hspace : ((b == 0x2B || b == 0x2D) && d.lastByte? == some b) =
            ((b == 0x2B || b == 0x2D) && c.lastByte? == some b) := by
          cases hb : (b == 0x2B || b == 0x2D) with
          | false => rfl
          | true =>
            rw [Bool.true_and, Bool.true_and, Bool.eq_iff_iff, beq_iff_eq, beq_iff_eq, h.sign b hb]
        simp only [addPiece, hspace]
        split
        · exact (h.addText _).addText _
        · exact h.addText _
  have hrun {c d : Code} (h : Supplied s v c d) : Supplied s v (ps.foldl addPiece c)
      ((ps.flatMap (supplyPiece s qs)).foldl addPiece d) := by
    induction ps generalizing c d with
    | nil => exact h
    | cons p ps ih =>
      rw [List.flatMap_cons, List.foldl_append]
      exact ih (hpiece h p)
  exact hrun .empty

/-! ## Pieces -/

theorem supply_cases (x : Script) (s : Text) (r : Script) :
    (∃ m d, x = .symbol m s d ∧ x.supply s r = r) ∨
      (∀ m d, x ≠ .symbol m s d) ∧
        x.supply s r = x.withChildren (x.children.map (·.supply s r)) := by
  have h : x.supply s r = supplyNode s r (x.withChildren (x.children.map (·.supply s r))) :=
    fold_eq _ x
  rw [h]
  cases x with
  | symbol m n d =>
    by_cases hn : n = s
    · subst hn
      exact .inl ⟨m, d, rfl, if_pos rfl⟩
    · exact .inr ⟨fun _ _ h => hn (Script.symbol.inj h).2.1, if_neg hn⟩
  | _ => exact .inr ⟨nofun, rfl⟩

theorem level_supply (hr : r.isChain) (x : Script) : (x.supply s r).level = x.level := by
  obtain ⟨m, d, rfl, h⟩ | ⟨hx, h⟩ := supply_cases x s r
  · rw [h, isChain_level hr]
    rfl
  · rw [h]
    cases x <;> rfl

theorem mixesCoalescing_supply (hr : r.isChain) (op : BinOp) (x : Script) :
    mixesCoalescing op (x.supply s r) = mixesCoalescing op x := by
  obtain ⟨m, d, rfl, h⟩ | ⟨hx, h⟩ := supply_cases x s r
  · rw [h]
    cases r <;> first | rfl | cases hr
  · rw [h]
    cases x <;> rfl

section

variable (s : Text) (qs ps ps' : List Piece) (nice : Bool)

theorem supply_word (t : Text) : (word t).flatMap (supplyPiece s qs) = word t := rfl

theorem supply_ite (c : Prop) [Decidable c] : (if c then ps else ps').flatMap (supplyPiece s qs) =
      if c then ps.flatMap (supplyPiece s qs) else ps'.flatMap (supplyPiece s qs) := by
  split <;> rfl

theorem supply_gap : (gap nice).flatMap (supplyPiece s qs) = gap nice := by
  cases nice <;> rfl

theorem supply_inParens : (inParens ps).flatMap (supplyPiece s qs) =
    inParens (ps.flatMap (supplyPiece s qs)) := by
  simp only [inParens, List.flatMap_append, supply_word]

theorem supply_guardedBy (hr : r.isChain) (x : Script) (least : Nat) :
    (guardedBy x least ps).flatMap (supplyPiece s qs) =
      guardedBy (x.supply s r) least (ps.flatMap (supplyPiece s qs)) := by
  rw [guardedBy, guardedBy, level_supply hr]
  split
  · exact supply_inParens s qs ps
  · rfl

theorem supply_receiver (hr : r.isChain) (x : Script) :
    (receiverPieces x ps).flatMap (supplyPiece s qs) =
      receiverPieces (x.supply s r) (ps.flatMap (supplyPiece s qs)) := by
  have hguarded := supply_guardedBy (s := s) qs ps hr x Level.call
  obtain ⟨m, d, rfl, h⟩ | ⟨hx, h⟩ := supply_cases x s r
  · rw [h, receiverPieces_isChain hr]
    rfl
  · rw [h] at hguarded ⊢
    cases x with
    | literal m v =>
      simp only [receiverPieces, withChildren] at hguarded ⊢
      split
      · exact supply_inParens s qs ps
      · exact hguarded
    | _ => exact hguarded

theorem supply_separated (items : List (List Piece)) :
    (separated nice items).flatMap (supplyPiece s qs) =
      separated nice (items.map (·.flatMap (supplyPiece s qs))) := by
  fun_induction separated nice items with
  | case1 | case2 => rfl
  | case3 x y rest ih =>
    simp only [List.flatMap_append, ih, List.map_cons, separated, commaPieces,
      supply_word, supply_gap]

theorem supply_params (ns : List Text) :
    (paramPieces nice ns).flatMap (supplyPiece s qs) = paramPieces nice ns := by
  rw [paramPieces, supply_inParens, supply_separated, List.map_map]
  rfl

end

theorem startsLikeStatement_supply (hr : r.isChain) (x : Script) :
    (x.supply s r).startsLikeStatement = x.startsLikeStatement := by
  have hchain : r.startsLikeStatement = false := startsLikeStatement_isChain hr
  induction x using induct_parts with
  | h x ih =>
    obtain ⟨m, d, rfl, h⟩ | ⟨hx, h⟩ := supply_cases x s r
    · rw [h, hchain]
      rfl
    · rw [h]
      cases x with
      | member m x n | index m x k => exact ih x (by simp [parts, children])
      | call m f as => exact ih f (by simp [parts, children])
      | binary m op x y => exact ih x (by simp [parts, children])
      | cond m c t e => exact ih c (by simp [parts, children])
      | sequence m xs =>
        cases xs with
        | nil => rfl
        | cons x xs => exact ih x (by simp [parts, children])
      | _ => rfl

/-- The pieces of a script that is supplied are those of the script with the pieces of `r` in the
place of slots. -/
theorem pieces_supply (hr : r.isChain) (x : Script) : (x.supply s r).pieces nice =
    (x.pieces nice).flatMap (supplyPiece s (r.pieces nice)) := by
  induction x using induct_parts with
  | h x ih =>
    have hitems (xs : List Script) (hxs : ∀ y ∈ xs, y ∈ x.parts) :
        operands nice (xs.map (·.supply s r)) =
          (operands nice xs).map (·.flatMap (supplyPiece s (r.pieces nice))) := by
      rw [operands_eq_map, operands_eq_map, List.map_map, List.map_map]
      refine List.map_congr_left fun y hy => ?_
      rw [Function.comp_apply, Function.comp_apply, supply_guardedBy _ _ _ hr, ih y (hxs y hy)]
    obtain ⟨m, d, rfl, h⟩ | ⟨hx, h⟩ := supply_cases x s r
    · rw [h]
      cases d <;> simp [pieces, supplyPiece]
    · rw [h]
      cases x with
      | symbol m n d =>
        have hn : n ≠ s := fun hn => hx m d (by rw [hn])
        cases d <;> simp [withChildren, pieces, supplyPiece, hn]
      | object m ps =>
        have hprops : properties nice ((ps.map (·.1)).zip ((ps.map (·.2)).map (·.supply s r))) =
            (properties nice ps).map (·.flatMap (supplyPiece s (r.pieces nice))) := by
          rw [List.map_map, List.zip_map', properties_eq_map, properties_eq_map, List.map_map,
            List.map_map]
          refine List.map_congr_left fun p hp => ?_
          have hvalue := ih p.2 (List.mem_map_of_mem hp)
          simp only [Function.comp_apply, List.flatMap_append, supply_word, supply_gap,
            supply_guardedBy _ _ _ hr, hvalue]
        have hempty : ((ps.map (·.1)).zip ((ps.map (·.2)).map (·.supply s r))).isEmpty =
            ps.isEmpty := by cases ps <;> rfl
        simp only [children, withChildren, pieces, hempty, hprops, supply_ite, List.flatMap_append,
          supply_word, supply_gap, supply_separated]
      | _ =>
        simp_all [children, withChildren, pieces, parts, List.flatMap_append,
          supply_word, supply_gap,
          supply_ite, supply_inParens, supply_separated, supply_params, ← supply_receiver,
          ← supply_guardedBy, mixesCoalescing_supply hr, startsLikeStatement_supply hr]

/-- A chain in the place of the symbols of a name prints as its text does in the place of their
slots. -/
theorem text_supply (hr : r.isChain) (x : Script) (s : Text) (nice : Bool) :
    ((x.format nice).assign s (r.format nice).text).text = ((x.supply s r).format nice).text := by
  obtain ⟨v, hv⟩ : ∃ v : Text, ∀ c, Extended v c ((r.pieces nice).foldl addPiece c) :=
    isChain_pieces hr
  have htext : (r.format nice).text = v := by
    have hcode : r.format nice = (r.pieces nice).foldl addPiece {} := by
      rw [format, startsLikeStatement_isChain hr]
      rfl
    refine Except.ok.inj (ε := Error) ?_
    rw [text_eq, hcode, (hv {}).fill]
    exact empty_join _
  have hpieces : (if (x.supply s r).startsLikeStatement then inParens ((x.supply s r).pieces nice)
      else (x.supply s r).pieces nice) = (if x.startsLikeStatement then inParens (x.pieces nice)
        else x.pieces nice).flatMap (supplyPiece s (r.pieces nice)) := by
    rw [startsLikeStatement_supply hr, pieces_supply hr, supply_ite, supply_inParens]
  rw [htext, format, format, hpieces]
  exact (codeOf_supply hv _).text

/-- Slots may be supplied before or after a script is printed, and before or after the other slots
are filled in. -/
theorem supply_commutes (hr : r.isChain) (x : Script) (s : Text) :
    (∀ nice, ((x.format nice).assign s (r.format nice).text).text =
      ((x.supply s r).format nice).text) ∧
    ∀ (c : Code) (v : Text) (m : Record Text),
      (c.assign s v).resolve m = c.resolve ((s, v) :: m) :=
  ⟨text_supply hr x s, fun c v m => c.resolve_assign s v m⟩

/-- The count of the view model is negated, which has a sign before its slot. -/
theorem supply_commutes_viewModel :
    ((supply (.unary {} .minus (.unary {} .minus (.member {} (.symbol {} "vm" none) "count"))) "vm"
      (.member {} (.ident {} "options") "viewModel")).format false).text =
        "- -options.viewModel.count" :=
  ((supply_commutes rfl _ "vm").1 false).symm.trans (by decide +kernel)

end Script

end Bindery
