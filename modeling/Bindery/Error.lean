import Bindery.Text.Quoted

/-!
# Errors

Every failure of the compiler is an `Error`. A `Diagnosis` classifies the failures of one binding;
an error keeps its diagnosis however often a note is put in front of it (`Error.diagnosis?`).
`Error.message` is the text that users see.

A `Fault` is how a computation ends without a result: by an error, or by a crash, which no caller
is meant to handle.
-/

namespace Bindery

inductive Problem where
  /-- The expression denotes a type, not a value. -/
  | ambiguity
  /-- There is no admissible conversion to the expected type. -/
  | conversion
  /-- There is no client form of an operation. -/
  | untranslatable
  /-- A derived property is not defined for this expression. -/
  | shape
  /-- A property was requested while it was being computed. -/
  | cycle
  /-- Nothing computes a property. -/
  | unresolved
  /-- A class without a name. -/
  | other (code : Nat)
deriving DecidableEq

namespace Problem

def code : Problem → Nat
  | .ambiguity => 1
  | .conversion => 2
  | .untranslatable => 3
  | .shape => 4
  | .cycle => 5
  | .unresolved => 6
  | .other n => n

def ofCode : Nat → Problem
  | 1 => .ambiguity
  | 2 => .conversion
  | 3 => .untranslatable
  | 4 => .shape
  | 5 => .cycle
  | 6 => .unresolved
  | n => .other n

def text : Problem → Text
  | .ambiguity => "parse ambiguity"
  | .conversion => "type conversion failure"
  | .untranslatable => "untranslatable operation"
  | .shape => "unsupported shape"
  | .cycle => "cyclic dependency"
  | .unresolved => "no resolver"
  | .other n => "diag.Kind(" ++ Text.ofNat n ++ ")"

end Problem

/-- Why an evaluation fails. Values appear by the name of their representation. -/
inductive EvalCause where
  | noControl (param : Text)
  | noParameter (param : Text)
  | shortChain (have_ need : Nat)
  | accessOnNull (field : Text)
  | accessOn (field rep : Text)
  | callOnNull (method : Text)
  | indexOfNull
  | indexKey (rep : Text)
  | indexRange (index : Text) (size : Nat)
  | objectKey (rep : Text)
  | notIndexable (rep : Text)
  | operand (rep : Text)
  | operands (op x y : Text)
  | divisionByZero
  | assignToNull (field : Text)
  | assignTo (field rep : Text)
  | assignElement (rep : Text)
  /-- What a field or method reported. -/
  | member (report : Text)
deriving DecidableEq

def EvalCause.message : EvalCause → Text
  | .noControl p => "no value for " ++ p ++ ": nil control"
  | .noParameter p => "no value for " ++ p
  | .shortChain n m =>
    "data context chain has " ++ Text.ofNat n ++ " levels, need " ++ Text.ofNat m
  | .accessOnNull f => "access of " ++ f ++ " on null"
  | .accessOn f r => "access of " ++ f ++ " on " ++ r
  | .callOnNull m => "call of " ++ m ++ " on null"
  | .indexOfNull => "index of null"
  | .indexKey r => "list index must be an integer, got " ++ r
  | .indexRange i n => "index " ++ i ++ " out of range [0:" ++ Text.ofNat n ++ "]"
  | .objectKey r => "object key must be a string, got " ++ r
  | .notIndexable r => "cannot index " ++ r
  | .operand r => "invalid operand " ++ r
  | .operands op x y => "invalid operands for " ++ op ++ ": " ++ x ++ ", " ++ y
  | .divisionByZero => "integer division by zero"
  | .assignToNull f => "assignment to " ++ f ++ " of null"
  | .assignTo f r => "assignment to " ++ f ++ " of " ++ r
  | .assignElement r => "cannot assign element of " ++ r
  | .member r => r

inductive Error where
  /-- A failure that only has a text. -/
  | plain (text : Text)
  /-- A classified failure, with the source text of its binding if that is known. -/
  | diagnosis (problem : Problem) (source note : Text) (cause : Option Error)
  /-- A malformed or ill-typed source, with the byte offset of the fault if that is known. -/
  | source (text : Text) (offset : Option Nat) (note : Text)
  | eval (expr : Text) (cause : EvalCause)
  | noted (note : Text) (cause : Error)

namespace Error

def of (p : Problem) (note : Text) : Error := .diagnosis p "" note none

def message : Error → Text
  | .plain t => t
  | .diagnosis p src note cause =>
    let body := match cause with
      | none => note
      | some e => if note.isEmpty then e.message else note ++ ": " ++ e.message
    if src.isEmpty then p.text ++ ": " ++ body
    else p.text ++ ": " ++ body ++ " (in " ++ src.quote ++ ")"
  | .source t (some n) note => t ++ ": offset " ++ Text.ofNat n ++ ": " ++ note
  | .source t none note => t ++ ": " ++ note
  | .eval x c => "evaluating " ++ x ++ ": " ++ c.message
  | .noted note e => note ++ ": " ++ e.message

/-- The outermost diagnosis in an error: its class, source, note and cause. -/
def diagnosis? : Error → Option (Problem × Text × Text × Option Error)
  | .diagnosis p s n c => some (p, s, n, c)
  | .noted _ e => e.diagnosis?
  | _ => none

def problem? (e : Error) : Option Problem := e.diagnosis?.map (·.1)

def isProblem (p : Problem) : Error → Bool
  | .diagnosis q _ _ c => q == p || match c with
    | some e => e.isProblem p
    | none => false
  | .noted _ e => e.isProblem p
  | _ => false

def isSource : Error → Bool
  | .source .. => true
  | .diagnosis _ _ _ (some e) => e.isSource
  | .noted _ e => e.isSource
  | _ => false

def isEval : Error → Bool
  | .eval .. => true
  | .diagnosis _ _ _ (some e) => e.isEval
  | .noted _ e => e.isEval
  | _ => false

/-- The error with the source text of its binding. An error that has a source keeps it; one without
a diagnosis gets one of class `fallback`. -/
def withSource (e : Error) (src : Text) (fallback : Problem) : Error :=
  match e.diagnosis? with
  | some (p, s, note, cause) =>
    if !s.isEmpty || src.isEmpty then e else .diagnosis p src note cause
  | none => .diagnosis fallback src "" (some e)

end Error

inductive Fault where
  | error (e : Error)
  | crash (text : Option Text)

/-- A crash without a text: a value is not of the representation that its use requires. -/
def Fault.misfit : Fault := .crash none

instance : Coe Error Fault := ⟨Fault.error⟩

inductive ReadError where
  | malformed
  | invalid (e : Error)

end Bindery
