import Bindery.Binding.Property
import Bindery.Code
import Bindery.Script.Cells
import Bindery.Server.Assign

/-!
# Values of properties
-/

namespace Bindery

structure Location where
  file : Text
  /-- The line, or -1 if it is not known. -/
  line : Int
  ranges : List (Int × Int) := []
  related : Text := ∅

/-- A binding, by its number in the workspace that holds it. -/
structure Binding where
  number : Nat
deriving DecidableEq

structure References where
  /-- The field whose value the binding is, apart from conversions, negation and arithmetic with
  constants. -/
  main : Option Field
  /-- All fields that are accessed, in pre-order. -/
  all : List Field
  /-- The binding of the expression in which `main` was found. -/
  unwrapped : Binding

inductive Artifact where
  | absent
  | text (t : Text)
  | int (n : Int)
  | id (t : Text)
  | expr (e : Expr)
  | scope (s : Scope)
  | type (t : Ty)
  | location (l : Location)
  | reader (r : Reader)
  | writer (w : Option Writer)
  | script (s : Script)
  | resolved (r : Resolved)
  | code (c : Code)
  | binding (b : Binding)
  | references (r : References)

def Expr.formName : Expr → Text
  | .param .. => "*typed.Param"
  | .var _ => "*typed.Local"
  | .const .. => "*typed.Const"
  | .member .. => "*typed.Member"
  | .call .. => "*typed.Call"
  | .callStatic .. => "*typed.Call"
  | .index .. => "*typed.Index"
  | .unary .. => "*typed.Unary"
  | .binary .. => "*typed.Binary"
  | .cond .. => "*typed.Conditional"
  | .convert .. => "*typed.Convert"
  | .lambda .. => "*typed.Lambda"
  | .list .. => "*typed.ListLit"
  | .guard .. => "*typed.NullGuard"
  | .typeRef _ => "*typed.TypeRef"

def Script.formName : Script → Text
  | .ident .. => "*jsast.Ident"
  | .literal .. => "*jsast.Literal"
  | .symbol .. => "*jsast.Symbol"
  | .member .. => "*jsast.Member"
  | .index .. => "*jsast.Index"
  | .call .. => "*jsast.Call"
  | .construct .. => "*jsast.New"
  | .unary .. => "*jsast.Unary"
  | .binary .. => "*jsast.Binary"
  | .cond .. => "*jsast.Conditional"
  | .array .. => "*jsast.Array"
  | .object .. => "*jsast.Object"
  | .paren .. => "*jsast.Paren"
  | .function .. => "*jsast.Function"
  | .arrow .. => "*jsast.Arrow"
  | .sequence .. => "*jsast.Sequence"

namespace Artifact

def formName : Artifact → Text
  | .absent => "<nil>"
  | .text _ => "string"
  | .int _ => "int"
  | .id _ => "identity.ID"
  | .expr e => e.formName
  | .scope _ => "*scope.Scope"
  | .type _ => "*types.Type"
  | .location _ => "binding.Location"
  | .reader _ => "compile.ReadFunc"
  | .writer _ => "compile.WriteFunc"
  | .script s => s.formName
  | .resolved _ => "*translate.Resolved"
  | .code _ => "*script.Code"
  | .binding _ => "*binding.Binding"
  | .references _ => "*binding.References"

def quoted : Artifact → Text
  | .text t => t.quote
  | .id t => t.quote
  | .absent => "%!q(<nil>)"
  | a => "%!q(" ++ a.formName ++ ")"

end Artifact

/-- A kind of value that is asked for, with how messages name it. -/
structure Expected (α : Type) where
  name : Text
  match? : Artifact → Option α

namespace Expected

def scope : Expected Scope := ⟨"*scope.Scope", fun | .scope s => some s | _ => none⟩
def expr : Expected Expr := ⟨"<nil>", fun | .expr e => some e | _ => none⟩
def reader : Expected Reader := ⟨"compile.ReadFunc", fun | .reader r => some r | _ => none⟩
def writer : Expected (Option Writer) :=
  ⟨"compile.WriteFunc", fun | .writer w => some w | _ => none⟩
def code : Expected Code := ⟨"*script.Code", fun | .code c => some c | _ => none⟩
def id : Expected Text := ⟨"identity.ID", fun | .id t => some t | _ => none⟩
def binding : Expected Binding := ⟨"*binding.Binding", fun | .binding b => some b | _ => none⟩
def references : Expected References :=
  ⟨"*binding.References", fun | .references r => some r | _ => none⟩
def type : Expected Ty := ⟨"*types.Type", fun | .type t => some t | _ => none⟩

end Expected

end Bindery
