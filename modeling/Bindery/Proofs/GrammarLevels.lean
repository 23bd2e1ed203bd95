import Bindery.Source.Parser

/-!
# Operands that stand alone

`Parser.Reads p l a l'` says that the parser `p` gives `a` where the token `l` comes next, and that
`l'` comes next after it. Each level of the expression grammar passes on an operand that nothing
follows (`Grammar.assignmentExpression_of_primary`). A string literal in parentheses is therefore a
program of one expression (`program?_string`).
-/

namespace Bindery.Source

open Token (Lexeme)

def Context.next (c : Context) (l : Lexeme) : Lexeme :=
  Token.scan c.isBindable l.ends l.pos l.rest

namespace Parser

variable {α β : Type} {c : Context} {l l' l'' : Lexeme}

/-- The parser gives a result and moves on to the token `l'`. -/
def Reads (p : Parser α) (l : Lexeme) (a : α) (l' : Lexeme) : Prop := p.run l = some (a, l')

namespace Reads

variable {a : α} {b : β}

theorem pure (a : α) : Reads (Pure.pure a) l a l := rfl

theorem bind {p : Parser α} {f : α → Parser β} (hp : Reads p l a l') (hf : Reads (f a) l' b l'') :
    Reads (p >>= f) l b l'' := by
  rw [Reads, StateT.run_bind, hp]
  exact hf

theorem run' {p : Parser α} (l' : Lexeme) (h : Reads p l a l') : p.run' l = some a :=
  congrArg (Option.map Prod.fst) h

theorem get : Reads get l l l := rfl

theorem set (l' : Lexeme) : Reads (set l') l ⟨⟩ l' := rfl

theorem token : Reads token l l.token l := rfl

theorem pos : Reads pos l l.start l := rfl

theorem newline : Reads newline l l.newline l := rfl

theorem advance (c : Context) : Reads (advance c) l ⟨⟩ (c.next l) := rfl

theorem peek (c : Context) : Reads (peek c) l (c.next l).token l := rfl

theorem at? (s : String) : Reads (at? s) l (l.token == .sym s) l := rfl

theorem atWord? (w : String) : Reads (atWord? w) l (l.token == .word w) l := rfl

theorem expect {t : Token} (h : l.token = t) : Reads (expect c t) l ⟨⟩ (c.next l) := by
  refine .bind .token ?_
  rw [if_pos (by simpa using h)]
  exact .advance c

theorem accept_of_ne {s : String} (h : (l.token == .sym s) = false) :
    Reads (accept c s) l false l := by
  refine .bind (.at? s) ?_
  rw [h]
  exact .pure false

theorem repeatUntil {step : α → Parser (α ⊕ β)} (h : Reads (step a) l (.inr b) l') :
    Reads (repeatUntil step a) l b l' := by
  rw [Reads] at *
  simp [Parser.repeatUntil, iterate, h]

theorem repeatUntil_twice {step : α → Parser (α ⊕ β)} (a' : α) (l' : Lexeme)
    (h : Reads (step a) l (.inl a') l') (h' : Reads (step a') l' (.inr b) l'') :
    Reads (Parser.repeatUntil step a) l b l'' := by
  rw [Reads] at *
  simp [Parser.repeatUntil, iterate, h, h']

theorem endStatement (h : l.token = .eof) : Reads (endStatement c) l ⟨⟩ l := by
  refine .bind (.accept_of_ne (by simp [h])) (.bind .newline ?_)
  cases l.newline with
  | true => exact .pure _
  | false =>
    refine .bind .token ?_
    rw [h]
    exact .pure _

end Reads

end Parser

open Bindery.Source.Parser (Reads)

namespace Grammar

variable {g : Grammar} {c : Context} {l l' : Lexeme} {x : Tree}

/-- The first token of an operand that is a string literal or stands in parentheses. -/
def Opens (l : Lexeme) : Prop := l.token = .sym "(" ∨ ∃ v, l.token = .string v

/-- A token that does not continue an expression. -/
def Ends (l : Lexeme) : Prop := l.token = .sym ")" ∨ l.token = .eof

theorem Opens.ne_word (h : Opens l) (w : String) : (l.token == .word w) = false := by
  rcases h with h | ⟨v, h⟩ <;> simp [h]

theorem Opens.bound? (h : Opens l) (c : Context) : c.bound? l.token = none := by
  rcases h with h | ⟨v, h⟩ <;> rw [h] <;> rfl

theorem Ends.ne_sym (h : Ends l) {s : String} (hs : s ≠ ")") : (l.token == .sym s) = false := by
  rcases h with h | h <;> simp [h, hs.symm]

/-! ## The levels -/

theorem leftHandExpression_reads (hin : c.allowIn) (hopen : Opens l)
    (h : Reads (g.primary c) l x l') (hend : Ends l') : Reads (g.leftHandExpression c) l x l' := by
  have hc : { c with allowIn := true } = c := by rw [← hin]
  rw [leftHandExpression]
  refine .bind (.atWord? _) ?_
  rw [hopen.ne_word, hc]
  refine h.bind (.bind (.repeatUntil (b := (x, false)) (.bind .token ?_)) (.pure x))
  rcases hend with hend | hend <;> rw [hend] <;> exact .pure _

theorem postfixExpression_reads (h : Reads (g.leftHandExpression c) l x l') (hend : Ends l') :
    Reads (g.postfixExpression c) l x l' := by
  refine h.bind (.bind .token ?_)
  rcases hend with hend | hend <;> rw [hend]
  · exact .bind (.pure _) (.pure x)
  · exact .pure x

theorem unaryExpression_reads (hopen : Opens l) (h : Reads (g.postfixExpression c) l x l') :
    Reads (g.unaryExpression c) l x l' := by
  refine .bind .pos (.bind .token ?_)
  rcases hopen with hopen | ⟨v, hopen⟩ <;> rw [hopen] <;> exact h

theorem powerExpression_reads (h : Reads (g.unaryExpression c) l x l') (hend : Ends l') :
    Reads (g.powerExpression c) l x l' := by
  refine .bind (.at? _) (.bind h (.bind (.at? _) ?_))
  rw [hend.ne_sym (by decide)]
  exact .pure x

theorem leftGrouped_reads {operand : Parser Tree} {ops : List String} (h : Reads operand l x l')
    (hend : Ends l') (hops : ops.contains ")" = false) :
    Reads (leftGrouped operand c ops) l x l' := by
  refine h.bind (.repeatUntil (.bind .token ?_))
  rcases hend with hend | hend <;> rw [hend]
  · simp only [hops]
    exact .pure _
  · exact .pure _

theorem shiftExpression_reads (h : Reads (g.powerExpression c) l x l') (hend : Ends l') :
    Reads (g.shiftExpression c) l x l' := by
  have hproduct : Reads (g.productExpression c) l x l' := leftGrouped_reads h hend rfl
  have hsum : Reads (g.sumExpression c) l x l' := leftGrouped_reads hproduct hend rfl
  exact leftGrouped_reads hsum hend rfl

theorem relationalExpression_reads (hin : c.allowIn) (hopen : Opens l)
    (h : Reads (g.shiftExpression c) l x l') (hend : Ends l') :
    Reads (g.relationalExpression c) l x l' := by
  refine .bind .pos (.bind .token ?_)
  rw [hin]
  rcases hopen with hopen | ⟨v, hopen⟩ <;> rw [hopen] <;> refine h.bind (.bind .token ?_) <;>
    rcases hend with hend | hend <;> rw [hend] <;> exact .pure x

theorem conjunction_reads (h : Reads (g.relationalExpression c) l x l') (hend : Ends l') :
    Reads (g.conjunction c) l x l' := by
  have hequality : Reads (g.equalityExpression c) l x l' := leftGrouped_reads h hend rfl
  have hbits : Reads (g.bitExpression c) l x l' :=
    leftGrouped_reads (leftGrouped_reads (leftGrouped_reads hequality hend rfl) hend rfl) hend rfl
  exact leftGrouped_reads hbits hend rfl

theorem disjunction_reads (hx : isConjunction x = false) (h : Reads (g.conjunction c) l x l')
    (hend : Ends l') : Reads (g.disjunction c) l x l' := by
  refine .bind (.at? _) (.bind h (.bind (.at? _) ?_))
  rw [hx, Bool.and_false, Bool.or_false, hend.ne_sym (by decide)]
  refine .bind (.repeatUntil (.bind (.accept_of_ne (hend.ne_sym (by decide))) (.pure _)))
    (.bind (.at? _) ?_)
  rw [hend.ne_sym (by decide)]
  exact .pure x

theorem conditional_reads (h : Reads (g.disjunction c) l x l') (hend : Ends l') :
    Reads (g.conditional c) l x l' :=
  h.bind (.bind (.accept_of_ne (hend.ne_sym (by decide))) (.pure x))

theorem assignmentRest_reads {opens : Bool} (hend : Ends l) :
    Reads (g.assignmentRest c opens x) l x l := by
  refine .bind .token ?_
  rcases hend with hend | hend <;> rw [hend] <;> exact .pure x

theorem assignmentExpression_reads (hopen : Opens l) (h : Reads (g.conditional c) l x l')
    (hend : Ends l') : Reads (g.assignmentExpression c) l x l' := by
  refine .bind .pos (.bind .token (.bind .get (.bind (.peek c) ?_)))
  simp only [hopen.ne_word, hopen.bound?, Bool.false_and, Option.isSome_none, Bool.false_eq_true,
    if_false]
  generalize hdirect : StateT.run _ l = outcome
  -- The operand is read without the detour for arrow functions.
  have houtcome : outcome = some (some x, l') := by
    rw [← hdirect]
    refine h.bind (.bind (.at? _) ?_)
    rw [hend.ne_sym (by decide)]
    exact .bind (assignmentRest_reads hend) (.pure _)
  rw [houtcome]
  exact .bind (.set l') (.pure x)

/-- The levels of the grammar pass on an operand that stands alone. -/
theorem assignmentExpression_of_primary (hin : c.allowIn) (hopen : Opens l)
    (hx : isConjunction x = false) (h : Reads (g.primary c) l x l') (hend : Ends l') :
    Reads (g.assignmentExpression c) l x l' := by
  have hpostfix := postfixExpression_reads (leftHandExpression_reads hin hopen h hend) hend
  have hpower := powerExpression_reads (unaryExpression_reads hopen hpostfix) hend
  have hrelational :=
    relationalExpression_reads hin hopen (shiftExpression_reads hpower hend) hend
  have hdisjunction := disjunction_reads hx (conjunction_reads hrelational hend) hend
  exact assignmentExpression_reads hopen (conditional_reads hdisjunction hend) hend

theorem expression_reads (h : Reads (g.assignment c) l x l') (hend : Ends l') :
    Reads (g.expression c) l x l' := by
  refine h.bind (.bind (.at? _) ?_)
  rw [hend.ne_sym (by decide)]
  exact .pure x

theorem primary_string {v : Text} (h : l.token = .string v) :
    Reads (g.primary c) l (.string l.start v) (c.next l) := by
  refine .bind .pos (.bind .token ?_)
  rw [h]
  exact .bind (.advance c) (.pure _)

theorem primary_parenthesized {l₁ : Lexeme} (h : l.token = .sym "(") (h₁ : c.next l = l₁)
    (hx : Reads (g.expression c) l₁ x l') (hclose : l'.token = .sym ")") :
    Reads (g.primary c) l x (c.next l') := by
  subst h₁
  refine .bind .pos (.bind .token ?_)
  rw [h]
  exact .bind (.expect h) (.bind hx (.bind (.expect hclose) (.pure x)))

theorem statement_reads (hopen : l.token = .sym "(") (h : Reads (g.expression c) l x l')
    (hend : l'.token = .eof) : Reads (g.anyStatement c) l (.expression x) l' := by
  refine .bind .token ?_
  rw [hopen]
  refine h.bind (.bind (.at? _) ?_)
  rw [hend]
  cases x <;> exact .bind (.endStatement hend) (.pure _)

end Grammar

/-- A string literal in parentheses is an expression. -/
theorem program?_string {cs : Chars} {c : Context} {l₀ l₁ l₂ l₃ : Lexeme} {v : Text}
    (hc : c = {}) (h₀ : Token.scan c.isBindable false 0 cs = l₀) (h₁ : c.next l₀ = l₁)
    (h₂ : c.next l₁ = l₂) (h₃ : c.next l₂ = l₃) (ht₀ : l₀.token = .sym "(")
    (ht₁ : l₁.token = .string v) (ht₂ : l₂.token = .sym ")") (ht₃ : l₃.token = .eof) :
    program? cs = some [.expression (.string l₁.start v)] := by
  subst hc
  obtain ⟨n, hn⟩ : ∃ n, 4 * cs.length + 16 = n + 3 := ⟨4 * cs.length + 13, rfl⟩
  have hinner : Reads ((Grammar.within (n + 1)).expression {}) l₁ (.string l₁.start v) l₂ := by
    refine Grammar.expression_reads ?_ (.inl ht₂)
    refine Grammar.assignmentExpression_of_primary rfl (.inr ⟨v, ht₁⟩) rfl ?_ (.inl ht₂)
    rw [← h₂]
    exact Grammar.primary_string ht₁
  have houter : Reads ((Grammar.within (n + 2)).expression {}) l₀ (.string l₁.start v) l₃ := by
    refine Grammar.expression_reads ?_ (.inr ht₃)
    refine Grammar.assignmentExpression_of_primary rfl (.inl ht₀) rfl ?_ (.inr ht₃)
    rw [← h₃]
    exact Grammar.primary_parenthesized ht₀ h₁ hinner ht₂
  have hstatement : Reads ((Grammar.within (n + 3)).statement {}) l₀
      (.expression (.string l₁.start v)) l₃ := Grammar.statement_reads ht₀ houter ht₃
  rw [program?, hn, h₀]
  refine Reads.run' l₃ (.repeatUntil_twice [.expression (.string l₁.start v)] l₃
    (.bind .token ?_) (.bind .token ?_))
  · rw [ht₀]
    exact .bind hstatement (.pure _)
  · rw [ht₃]
    exact .pure _

end Bindery.Source
