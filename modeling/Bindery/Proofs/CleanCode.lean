import Bindery.Proofs.CleanScripts

/-!
# Clean code

The client form of a clean expression is clean (`Expr.Clean.lower`), as long as the registry keeps
scripts clean, which the predeclared one does (`Registry.standard_clean`). The code of a clean
script is UTF-8 (`Script.Clean.format`, `Code.Clean.isUtf8_text`).
-/

namespace Bindery

/-! ## Code -/

/-- The texts of the code, the names of its slots and what stands there otherwise are UTF-8. -/
structure Code.Clean (c : Code) : Prop where
  text : ∀ t, .text t ∈ c.segments → t.isUtf8
  name : ∀ n, .slot n ∈ c.segments → n.isUtf8
  default : ∀ s ∈ c.slots, ∀ d ∈ s.default, d.isUtf8

namespace Code

variable {c : Code}

theorem clean_empty : ({} : Code).Clean := ⟨nofun, nofun, nofun⟩

theorem mem_appendText {t : Text} {seg : Segment} : {segs : List Segment} →
    seg ∈ appendText t segs →
      seg ∈ segs ∨ seg = .text t ∨ ∃ u, .text u ∈ segs ∧ seg = .text (u ++ t)
  | [], h => .inr (.inl (List.mem_singleton.1 h))
  | [.text u], h => .inr (.inr ⟨u, by simp, List.mem_singleton.1 h⟩)
  | [.slot n], h => by
    rcases List.mem_cons.1 h with rfl | h
    · exact .inl (by simp)
    · exact .inr (.inl (List.mem_singleton.1 h))
  | s :: s' :: rest, h => by
    rw [appendText] at h
    · rcases List.mem_cons.1 h with rfl | h
      · exact .inl (by simp)
      · rcases mem_appendText h with h | h | ⟨u, hu, h⟩
        · exact .inl (List.mem_cons_of_mem s h)
        · exact .inr (.inl h)
        · exact .inr (.inr ⟨u, List.mem_cons_of_mem s hu, h⟩)
    · exact nofun

theorem Clean.addText (h : c.Clean) {t : Text} (ht : t.isUtf8) : (c.addText t).Clean := by
  unfold Code.addText
  split
  · exact h
  · refine ⟨fun u hu => ?_, fun n hn => ?_, h.default⟩
    · rcases mem_appendText hu with hu | hu | ⟨v, hv, hu⟩
      · exact h.text u hu
      · exact Segment.text.inj hu ▸ ht
      · exact Segment.text.inj hu ▸ Text.isUtf8_append (h.text v hv) ht
    · rcases mem_appendText hn with hn | hn | ⟨v, hv, hn⟩
      · exact h.name n hn
      · cases hn
      · cases hn

theorem Clean.addSlot (h : c.Clean) {s : Slot} (hname : s.name.isUtf8)
    (hdefault : ∀ d ∈ s.default, d.isUtf8) : (c.addSlot s).Clean := by
  refine ⟨fun u hu => ?_, fun n hn => ?_, fun x hx => ?_⟩
  · rcases List.mem_append.1 hu with hu | hu
    · exact h.text u hu
    · cases List.mem_singleton.1 hu
  · rcases List.mem_append.1 hn with hn | hn
    · exact h.name n hn
    · exact Segment.slot.inj (List.mem_singleton.1 hn) ▸ hname
  · simp only [Code.addSlot] at hx
    split at hx
    · exact h.default x hx
    · rcases List.mem_append.1 hx with hx | hx
      · exact h.default x hx
      · exact List.mem_singleton.1 hx ▸ hdefault

theorem Clean.isUtf8_text (h : c.Clean) : c.text.isUtf8 := by
  refine Text.isUtf8_concat fun t ht => ?_
  obtain ⟨seg, hseg, rfl⟩ := List.mem_map.1 ht
  cases seg with
  | text t => exact h.text t hseg
  | slot n =>
    have hn := h.name n hseg
    simp only [slotText, slot]
    cases hslot : c.slot? n with
    | none => grind
    | some s =>
      have hs : s ∈ c.slots := List.mem_of_find?_eq_some hslot
      cases hd : s.default with
      | none => grind
      | some d =>
        rw [Option.getD_some, hd]
        exact h.default s hs d hd

theorem Clean.parameters (h : c.Clean) : ∀ n ∈ c.parameters, n.isUtf8 := by
  intro n hn
  rw [Code.parameters, List.mem_eraseDups] at hn
  obtain ⟨seg, hseg, hsome⟩ := List.mem_filterMap.1 hn
  split at hsome
  · exact h.name n (Option.some.inj hsome ▸ hseg)
  · cases hsome

end Code

/-! ## Printing -/

namespace Script

def Piece.Clean : Piece → Prop
  | .text t => t.isUtf8
  | .slot s => s.name.isUtf8 ∧ ∀ d ∈ s.default, d.isUtf8

def Prints (ps : List Piece) : Prop := ∀ p ∈ ps, p.Clean

namespace Prints

variable {ps qs : List Piece}

theorem nil : Prints [] := nofun

theorem append (hp : Prints ps) (hq : Prints qs) : Prints (ps ++ qs) :=
  fun p h => (List.mem_append.1 h).elim (hp p) (hq p)

theorem word {t : Text} (ht : t.isUtf8) : Prints (word t) := List.forall_mem_singleton.2 ht

theorem gap (nice : Bool) : Prints (gap nice) := by
  unfold Script.gap
  split
  · exact word (Text.isUtf8_ofString _)
  · exact nil

theorem inParens (hp : Prints ps) : Prints (inParens ps) :=
  ((word (Text.isUtf8_ofString _)).append hp).append (word (Text.isUtf8_ofString _))

theorem guardedBy (hp : Prints ps) (x : Script) (least : Nat) : Prints (guardedBy x least ps) := by
  unfold Script.guardedBy
  split
  · exact hp.inParens
  · exact hp

theorem receiver (hp : Prints ps) (x : Script) : Prints (receiverPieces x ps) := by
  unfold receiverPieces
  split
  · split
    · exact hp.inParens
    · exact hp.guardedBy _ _
  · exact hp.guardedBy _ _

theorem separated (nice : Bool) : {items : List (List Piece)} → (∀ ps ∈ items, Prints ps) →
    Prints (separated nice items)
  | [], _ => nil
  | [ps], h => h ps (by simp)
  | ps :: qs :: rest, h => by
    have hcomma : Prints (commaPieces nice) := (word (Text.isUtf8_ofString _)).append (gap nice)
    have hrest := separated nice fun ps hps => h ps (List.mem_cons_of_mem _ hps)
    exact ((h ps (by simp)).append hcomma).append hrest

theorem params (nice : Bool) {ns : List Text} (h : ∀ n ∈ ns, n.isUtf8) :
    Prints (paramPieces nice ns) := by
  refine (separated nice fun ps hps => ?_).inParens
  obtain ⟨n, hn, rfl⟩ := List.mem_map.1 hps
  exact word (h n hn)

theorem codeOf (hp : Prints ps) : (codeOf ps).Clean := by
  suffices ∀ c : Code, c.Clean → (ps.foldl addPiece c).Clean from this {} Code.clean_empty
  induction ps with
  | nil => exact fun _ hc => hc
  | cons p ps ih =>
    intro c hc
    have hhead : p.Clean := hp p (by simp)
    refine ih (fun q hq => hp q (by simp [hq])) _ ?_
    unfold addPiece
    split
    · exact hc.addSlot hhead.1 hhead.2
    · repeat' split
      · exact (hc.addText (Text.isUtf8_ofString _)).addText hhead
      · exact hc.addText hhead
      · exact hc

end Prints

theorem isUtf8_print (v : Literal) : v.print.isUtf8 := by
  cases v with
  | float x => exact Decimal.isUtf8_render (by rfl) (by rfl) (by rfl) x
  | bool b => cases b <;> rfl
  | _ => simp only [Literal.print]; grind

theorem isUtf8_keyText (key : Text) : (keyText key).isUtf8 := by
  unfold keyText
  split
  · rename_i hplain
    obtain ⟨bs⟩ := key
    refine Text.isUtf8_of_ascii fun b hb => ?_
    cases bs with
    | nil => cases hb
    | cons c bs =>
      simp only [isPlainName, Bool.and_eq_true, List.all_eq_true] at hplain
      have hle (b : UInt8) : b ≤ 0x7A ↔ b.toNat ≤ 0x7A := UInt8.le_iff_toNat_le
      rcases List.mem_cons.1 hb with rfl | hb
      · grind
      · grind
  · exact Text.isUtf8_scriptQuote key

theorem isUtf8_unOp (op : UnOp) : op.text.isUtf8 := by cases op <;> rfl

theorem isUtf8_binOp (op : BinOp) : op.text.isUtf8 := by cases op <;> rfl

theorem operands_eq_map (nice : Bool) (xs : List Script) :
    operands nice xs = xs.map fun x => guardedBy x Level.assign (pieces nice x) := by
  induction xs with
  | nil => rfl
  | cons x xs ih => rw [operands, ih, List.map_cons]

theorem properties_eq_map (nice : Bool) (ps : Record Script) :
    properties nice ps = ps.map fun p => word (keyText p.1) ++ word ":" ++ gap nice
      ++ guardedBy p.2 Level.assign (pieces nice p.2) := by
  induction ps with
  | nil => rfl
  | cons p ps ih => rw [properties, ih, List.map_cons]

theorem Clean.pieces (nice : Bool) {s : Script} (hs : s.Clean) : Prints (s.pieces nice) := by
  induction s using induct_parts with
  | h s ih =>
    have hword (t : String) : Prints (word t) := .word (Text.isUtf8_ofString t)
    have hgap : Prints (gap nice) := .gap nice
    have hpart : ∀ x ∈ s.parts, Prints (x.pieces nice) := fun x hx => ih x hx (hs.part hx)
    have hitems (xs : List Script) (hxs : ∀ x ∈ xs, x ∈ s.parts) :
        Prints (separated nice (operands nice xs)) := by
      rw [operands_eq_map]
      refine .separated nice fun ps hps => ?_
      obtain ⟨x, hx, rfl⟩ := List.mem_map.1 hps
      exact (hpart x (hxs x hx)).guardedBy _ _
    have hnode := hs.node
    cases s with
    | ident m n => exact .word hnode
    | literal m v => exact .word (isUtf8_print v)
    | symbol m n d =>
      cases d with
      | none => exact List.forall_mem_singleton.2 ⟨hnode, nofun⟩
      | some d =>
        have hd := ((hpart d (by simp [parts])).guardedBy d Level.member).codeOf.isUtf8_text
        refine List.forall_mem_singleton.2 ⟨hnode, fun t ht => ?_⟩
        exact Option.some.inj ht ▸ hd
    | member m x n =>
      have hx := hpart x (by simp [parts, children])
      exact (hx.receiver x).append (.word (Text.isUtf8_append (Text.isUtf8_ofString _) hnode))
    | index m x k =>
      have hx := hpart x (by simp [parts, children])
      have hk := hpart k (by simp [parts, children])
      exact (((hx.receiver x).append (hword _)).append hk).append (hword _)
    | call m f as =>
      have hf := hpart f (by simp [parts, children])
      have has := hitems as fun x hx => by simp [parts, children, hx]
      exact (hf.receiver f).append has.inParens
    | construct m f as =>
      have hf := hpart f (by simp [parts, children])
      have has := hitems as fun x hx => by simp [parts, children, hx]
      exact ((hword _).append (hf.guardedBy f _)).append has.inParens
    | unary m op x =>
      have hx := hpart x (by simp [parts, children])
      refine (Prints.append (.word (isUtf8_unOp op)) ?_).append (hx.guardedBy x _)
      split
      · exact hword _
      · exact .nil
    | binary m op x y =>
      have hx := hpart x (by simp [parts, children])
      have hy := hpart y (by simp [parts, children])
      have hop : Prints (word op.text) := .word (isUtf8_binOp op)
      exact ((((hx.guardedBy x _).append hgap).append hop).append hgap).append (hy.guardedBy y _)
    | cond m c t e =>
      have hc := hpart c (by simp [parts, children])
      have ht := hpart t (by simp [parts, children])
      have he := hpart e (by simp [parts, children])
      have hc := hc.guardedBy c (Level.conditional + 1)
      have ht := ht.guardedBy t Level.assign
      have htest := ((hc.append hgap).append (hword "?")).append hgap
      have hthen := (((htest.append ht).append hgap).append (hword ":")).append hgap
      exact hthen.append (he.guardedBy e _)
    | array m xs => exact ((hword _).append (hitems xs fun x hx => hx)).append (hword _)
    | object m ps =>
      have hprops : Prints (separated nice (properties nice ps)) := by
        rw [properties_eq_map]
        refine .separated nice fun qs hqs => ?_
        obtain ⟨p, hp, rfl⟩ := List.mem_map.1 hqs
        have hvalue := (hpart p.2 (List.mem_map_of_mem hp)).guardedBy p.2 Level.assign
        exact ((Prints.append (.word (isUtf8_keyText p.1)) (hword _)).append hgap).append hvalue
      rw [Script.pieces]
      split
      · exact hword _
      · exact ((((hword _).append hgap).append hprops).append hgap).append (hword _)
    | paren m x => exact (hpart x (by simp [parts, children])).inParens
    | function m ps b =>
      have hb := hpart b (by simp [parts, children])
      have hparams : Prints (paramPieces nice ps) := .params nice hnode
      have hhead := (((hword "function").append hgap).append hparams).append hgap
      have hbody := (((hhead.append (hword "\x7b")).append hgap).append (hword "return ")).append hb
      exact ((hbody.append (hword ";")).append hgap).append (hword "\x7d")
    | arrow m ps b =>
      have hb := hpart b (by simp [parts, children])
      have hparams : Prints (paramPieces nice ps) := .params nice hnode
      refine (((hparams.append hgap).append (hword _)).append hgap).append ?_
      split
      · exact hb.inParens
      · exact hb.guardedBy b _
    | sequence m xs => exact hitems xs fun x hx => hx

theorem Clean.format {s : Script} (hs : s.Clean) (nice : Bool) : (s.format nice).Clean := by
  refine Prints.codeOf ?_
  split
  · exact (hs.pieces nice).inParens
  · exact hs.pieces nice

end Script

/-! ## Client forms -/

/-- The form takes a clean receiver to a clean script. -/
def MemberForm.Clean (form : MemberForm) : Prop :=
  ∀ x : Script, x.Clean → Ends Script.Clean Fault.Clean (form x)

/-- The form takes a clean receiver and clean arguments to a clean script. -/
def MethodForm.Clean (form : MethodForm) : Prop :=
  ∀ (x : Option Script) (args : List Script), (∀ y ∈ x, y.Clean) → (∀ a ∈ args, a.Clean) →
    Ends Script.Clean Fault.Clean (form x args)

/-- All forms keep scripts clean. -/
structure Registry.Clean (r : Registry) : Prop where
  member : ∀ e ∈ r.members, MemberForm.Clean e.2
  method : ∀ e ∈ r.methods, MethodForm.Clean e.2

namespace Script

theorem Clean.orEmpty {x : Script} (hx : x.Clean) : x.orEmpty.Clean :=
  hx.binary (clean_lit fun _ h => Literal.text.inj h ▸ rfl) _ _

theorem Clean.toText {x : Script} (hx : x.Clean) : x.toText.Clean := by
  have hstring : (Script.id "String").Clean := clean_id (Text.isUtf8_ofString _)
  have hcall := hstring.notNull.invoke (List.forall_mem_singleton.2 hx)
  exact Clean.cond (hx.binary clean_null _ _) clean_null hcall _

end Script

namespace Registry

variable {r : Registry}

theorem clean_property (name : String) : MemberForm.Clean (property name) :=
  fun _ hx => hx.dot (Text.isUtf8_ofString _)

theorem clean_ofReceiver {form : Script → List Script → Script}
    (h : ∀ (x : Script) (args : List Script), x.Clean → (∀ a ∈ args, a.Clean) →
      (form x args).Clean) : MethodForm.Clean (ofReceiver form) := by
  intro x args hx hargs
  cases x with
  | none => trivial
  | some x => exact h x args (hx x rfl) hargs

theorem clean_renamed (name : String) : MethodForm.Clean (renamed name) :=
  clean_ofReceiver fun _ _ hx hargs => (hx.dot (Text.isUtf8_ofString _)).invoke hargs

theorem clean_globalCall (object name : String) : MethodForm.Clean (globalCall object name) := by
  intro x args hx hargs
  have hobject : (Script.id object).Clean := Script.clean_id (Text.isUtf8_ofString _)
  exact (hobject.notNull.dot (Text.isUtf8_ofString _)).invoke hargs

theorem clean_ofFirst {form : Script → Except Fault Script} (h : MemberForm.Clean form) :
    MethodForm.Clean (ofFirst form) := by
  intro x args hx hargs
  cases args with
  | nil => trivial
  | cons a args => exact h a (hargs a (by simp))

theorem clean_resourceUrl : MemberForm.Clean resourceUrl := by
  intro x hx
  unfold resourceUrl
  split
  · rename_i m name
    have hname : name.isUtf8 := hx.node
    split
    · exact Text.isUtf8_ofString _
    · exact .mk (Text.isUtf8_append (Text.isUtf8_ofString _) hname) nofun
  · exact Text.isUtf8_ofString _

theorem clean_defaultMembers : ∀ e ∈ defaultMembers, MemberForm.Clean e.2 := by
  simp only [defaultMembers, List.forall_mem_cons, List.not_mem_nil, false_implies, implies_true,
    and_true]
  exact ⟨clean_property _, clean_property _⟩

theorem clean_defaultMethods : ∀ e ∈ defaultMethods, MethodForm.Clean e.2 := by
  have hblank : MemberForm.Clean fun x =>
      .ok (.unary {} .not (Script.invoke (x.orEmpty.dot "trim") [])) := fun x hx =>
    ((hx.orEmpty.dot (Text.isUtf8_ofString _)).invoke (List.forall_mem_nil _)).unary _ _
  have hempty : MemberForm.Clean fun x => .ok (.unary {} .not x) := fun x hx => hx.unary _ _
  have htext : MethodForm.Clean (ofReceiver fun x _ => x.toText) :=
    clean_ofReceiver fun _ _ hx _ => hx.toText
  simp only [defaultMethods, List.forall_mem_cons, List.not_mem_nil, false_implies, implies_true,
    and_true, clean_renamed, clean_globalCall, clean_ofFirst hblank, clean_ofFirst hempty,
    clean_ofFirst clean_resourceUrl, htext]

theorem Clean.addMember (hr : r.Clean) (decl name : Text) {form : MemberForm}
    (hform : MemberForm.Clean form) : (r.addMember decl name form).Clean :=
  ⟨List.forall_mem_cons.2 ⟨hform, fun e he => hr.member e (List.mem_filter.1 he).1⟩, hr.method⟩

theorem Clean.addMethod (hr : r.Clean) (decl name : Text) {form : MethodForm}
    (hform : MethodForm.Clean form) : (r.addMethod decl name form).Clean :=
  ⟨hr.member, List.forall_mem_cons.2 ⟨hform, fun e he => hr.method e (List.mem_filter.1 he).1⟩⟩

theorem Clean.addDefaults (hr : r.Clean) : r.addDefaults.Clean := by
  unfold Registry.addDefaults
  refine List.foldlRecOn (motive := Registry.Clean) _ _ ?_ ?_
  · refine List.foldlRecOn (motive := Registry.Clean) _ _ hr ?_
    exact fun _ hr e he => hr.addMember _ _ (clean_defaultMembers e he)
  · exact fun _ hr e he => hr.addMethod _ _ (clean_defaultMethods e he)

theorem standard_clean : standard.Clean := Clean.addDefaults ⟨nofun, nofun⟩

theorem Clean.member? (hr : r.Clean) {f : Field} {form : MemberForm}
    (h : r.member? f = some form) : MemberForm.Clean form := by
  obtain ⟨e, he, rfl⟩ := Option.map_eq_some_iff.1 h
  exact hr.member e (List.mem_of_find?_eq_some he)

theorem Clean.method? (hr : r.Clean) {m : Method} {form : MethodForm}
    (h : r.method? m = some form) : MethodForm.Clean form := by
  obtain ⟨e, he, rfl⟩ := Option.map_eq_some_iff.1 h
  exact hr.method e (List.mem_of_find?_eq_some he)

end Registry

/-! ## Lowering -/

namespace Script

theorem clean_context : context.Clean :=
  .mk (Text.isUtf8_ofString _) (List.forall_mem_singleton.2 (clean_id (Text.isUtf8_ofString _)))

theorem clean_data : data.Clean :=
  .mk (Text.isUtf8_ofString _) (List.forall_mem_singleton.2 (clean_id (Text.isUtf8_ofString _)))

theorem clean_contextAt (n : Nat) : (contextAt n).Clean := by
  induction n with
  | zero => exact clean_context
  | succ n ih => exact (ih.dot (Text.isUtf8_ofString _)).notNull

end Script

namespace Expr

open Script (clean_context clean_data clean_contextAt clean_lit clean_id clean_null)

theorem noScript_clean {what : Text} (h : what.isUtf8) : (noScript what).Clean :=
  Text.isUtf8_append (Text.isUtf8_ofString _) h

theorem lowerValue_clean {v : Value} (hv : v.Clean) :
    Ends Script.Clean Fault.Clean (lowerValue v) := by
  unfold lowerValue
  split
  · rename_i l hl
    refine clean_lit fun t ht => hv.text t ?_
    subst ht
    unfold Literal.ofValue? at hl
    split at hl
    all_goals cases hl
    rfl
  · trivial

theorem lowerContext_clean (owner : Scope) (levels : Nat) : (lowerContext owner levels).Clean := by
  have hdot (n : String) : (Script.context.dot n).Clean :=
    clean_context.dot (Text.isUtf8_ofString n)
  unfold lowerContext
  repeat' split
  · exact clean_data
  · exact hdot _
  · exact hdot _
  · exact (hdot _).index (clean_lit (v := .int _) nofun) _

theorem lowerSpecial_clean {name : Text} (hname : name.isUtf8) {p : Param}
    (hp : p.Clean) (levels : Nat) :
    Ends Script.Clean Fault.Clean (lowerSpecial name p levels) := by
  unfold lowerSpecial
  split
  · exact (((clean_contextAt _).dot (Text.isUtf8_ofString _)).asCell _).notNull
  · exact (clean_id (Text.isUtf8_ofString _)).notNull
  · exact noScript_clean hname
  · exact ((clean_contextAt _).dot hp.name).asCell _

theorem lowerParam_clean {s : Scope} (hs : s.Clean) {name : Text} (hname : name.isUtf8)
    (owner : Scope) {special : Option Param} (hspecial : ∀ p, special = some p → p.Clean) :
    Ends Script.Clean Fault.Clean (lowerParam s name owner special) := by
  have hlevels := levelsOut_clean hs hname owner
  unfold lowerParam
  split
  · rename_i e he
    rw [he] at hlevels
    exact hlevels
  · split
    · exact ((lowerContext_clean owner _).notNull.typed _).mark _
    · rename_i p
      refine (lowerSpecial_clean hname (hspecial p rfl) _).bind fun x hx => ?_
      exact (hx.typed _).mark _

theorem lowerBinary_clean (op : BinaryOp) (type s t : Ty) {x y : Script} (hx : x.Clean)
    (hy : y.Clean) : (lowerBinary op type s t x y).Clean := by
  have hoperand (x : Script) (hx : x.Clean) (t : Ty) : (concatOperand x t).Clean := by
    unfold concatOperand
    split
    · exact hx
    · exact hx.orEmpty.notNull.typed _
  have hnull {t : Ty} (x body : Script) (hx : x.Clean) (hbody : body.Clean) :
      (nullIfNull t x body).Clean := by
    unfold nullIfNull
    split
    · exact (Script.Clean.cond (hx.binary clean_null _ _) clean_null hbody _).typed _
    · exact hbody
  have hplain : (Script.bin (lowerBinaryOp op) x y).Clean := hx.binary hy _ _
  have hmath : (Script.id "Math").Clean := clean_id (Text.isUtf8_ofString _)
  unfold lowerBinary
  split
  · exact ((hoperand x hx s).binary (hoperand y hy t) _ _).typed _
  · have hwhole : (if op == .div && type.underlying == .int then
          Script.invoke ((Script.id "Math").notNull.dot "trunc") [Script.bin (lowerBinaryOp op) x y]
        else Script.bin (lowerBinaryOp op) x y).Clean := by
      split
      · exact (hmath.notNull.dot (Text.isUtf8_ofString _)).invoke
          (List.forall_mem_singleton.2 hplain)
      · exact hplain
    simp only
    split
    · exact hnull x _ hx (hnull y _ hy (hwhole.typed _))
    · exact hwhole.typed _

theorem default_clean (t : Ty) : t.default.Clean := by
  unfold Ty.default
  repeat' split
  · exact Value.clean_null
  · exact Value.clean_bool false
  · exact Value.clean_int 0
  · exact Value.clean_float 0
  · exact Value.clean_null

variable {r : Registry} {s : Scope}

mutual

theorem Clean.lower (hr : r.Clean) (hs : s.Clean) {e : Expr} (h : e.Clean) :
    Ends Script.Clean Fault.Clean (e.lower r s) := by
  cases e with
  | param n owner p =>
    rw [Expr.lower]
    exact lowerParam_clean hs h.1 owner h.2.2
  | var l => exact ((clean_id h.name).asCell _).typed _
  | const v t =>
    rw [Expr.lower]
    refine (lowerValue_clean h.1).bind fun x hx => ?_
    simp only
    split
    · exact hx.typed _
    · exact (hx.typed _).notNull
  | typeRef t => exact typeNotValue_clean h
  | member x f =>
    rw [Expr.lower]
    refine (Clean.lower hr hs h.1).bind fun x hx => ?_
    split
    · rename_i form hform
      exact (hr.member? hform x hx).bind fun y hy => hy.typed _
    · simp only
      split
      · exact noScript_clean h.2.isUtf8_fullName
      · exact ((hx.dot h.2.name).asCell _).typed _
  | call x m args =>
    rw [Expr.lower]
    split
    · exact noScript_clean h.2.1.isUtf8_fullName
    · rename_i form hform
      refine (Clean.lower hr hs h.1).bind fun x hx => ?_
      refine (CleanAll.lowerList hr hs h.2.2).bind fun args hargs => ?_
      have hx' : ∀ y ∈ some x, y.Clean := fun y hy => Option.some.inj hy ▸ hx
      exact (hr.method? hform (some x) args hx' hargs).bind fun y hy => hy.typed _
  | callStatic m args =>
    rw [Expr.lower]
    split
    · exact noScript_clean h.1.isUtf8_fullName
    · rename_i form hform
      refine (CleanAll.lowerList hr hs h.2).bind fun args hargs => ?_
      exact (hr.method? hform none args nofun hargs).bind fun y hy => hy.typed _
  | index x k t =>
    rw [Expr.lower]
    refine (Clean.lower hr hs h.1).bind fun x hx => ?_
    refine (Clean.lower hr hs h.2.1).bind fun k hk => ?_
    exact ((hx.index hk _).asCell _).typed _
  | unary op x =>
    rw [Expr.lower]
    exact (Clean.lower hr hs (e := x) h).bind fun x hx => (hx.unary _ _).typed _
  | binary op x y t =>
    rw [Expr.lower]
    refine (Clean.lower hr hs h.1).bind fun x hx => ?_
    refine (Clean.lower hr hs h.2.1).bind fun y hy => ?_
    exact lowerBinary_clean op t _ _ hx hy
  | cond c t e ty =>
    rw [Expr.lower]
    refine (Clean.lower hr hs h.1).bind fun c hc => ?_
    refine (Clean.lower hr hs h.2.1).bind fun t ht => ?_
    refine (Clean.lower hr hs h.2.2.1).bind fun e he => ?_
    exact (Script.Clean.cond hc ht he _).typed _
  | convert k x t =>
    rw [Expr.lower]
    refine (Clean.lower hr hs h.1).bind fun x hx => ?_
    split
    · exact hx.toText.typed _
    · exact hx
    · exact hx
    · exact hx.typed _
  | lambda ps b t =>
    rw [Expr.lower]
    refine (Clean.lower hr hs h.2.1).bind fun b hb => ?_
    refine ((hb.arrow (fun p hp => ?_) _).notNull).typed _
    obtain ⟨l, hl, rfl⟩ := List.mem_map.1 hp
    exact (h.1 l hl).name
  | list xs t =>
    rw [Expr.lower]
    refine (CleanAll.lowerList hr hs h.1).bind fun xs hxs => ?_
    have harray : (Script.array {} xs).Clean := .mk trivial hxs
    exact harray.notNull.typed _
  | guard x v b t =>
    rw [Expr.lower]
    refine (Clean.lower hr hs h.1).bind fun x hx => ?_
    refine (Clean.lower hr hs h.2.2.1).bind fun b hb => ?_
    refine (lowerValue_clean (default_clean t)).bind fun d hd => ?_
    have htest := (clean_id h.2.1.name).binary clean_null {} .looseEq
    have hbody := Script.Clean.cond htest hd hb {}
    have harrow := hbody.arrow (List.forall_mem_singleton.2 h.2.1.name) {}
    exact (harrow.invoke (List.forall_mem_singleton.2 hx)).typed _

theorem CleanAll.lowerList (hr : r.Clean) (hs : s.Clean) {xs : List Expr} (h : CleanAll xs) :
    Ends (∀ y ∈ ·, Script.Clean y) Fault.Clean (lowerList r s xs) := by
  cases xs with
  | nil => exact List.forall_mem_nil _
  | cons x xs =>
    rw [Expr.lowerList]
    refine (Clean.lower hr hs h.1).bind fun x hx => ?_
    exact (CleanAll.lowerList hr hs h.2).bind fun xs hxs => List.forall_mem_cons.2 ⟨hx, hxs⟩

end

end Expr

end Bindery
