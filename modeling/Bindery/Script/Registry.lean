import Bindery.Expr
import Bindery.Script

/-!
# Client forms of members

A registry says how accesses of fields and calls of methods are written in scripts. Members are
known by the definition name of the type that declares them and their own name. Only a builder can
be added to; `RegistryBuilder.build` closes it.
-/

namespace Bindery

namespace Script

/-- `x == null ? null : String(x)`. -/
def toText (x : Script) : Script :=
  .cond {} (bin .looseEq x null) null (invoke ((Script.id "String").notNull) [x])

def orEmpty (x : Script) : Script := bin .coalesce x (lit (.text ""))

end Script

abbrev MemberForm := Script → Except Fault Script

/-- The script of a call. A static method has no receiver. -/
abbrev MethodForm := Option Script → List Script → Except Fault Script

structure Registry where
  members : List ((Text × Text) × MemberForm) := []
  methods : List ((Text × Text) × MethodForm) := []

namespace Registry

variable (r : Registry)

def member? (f : Field) : Option MemberForm :=
  (r.members.find? fun e => e.1 == (f.owner.definition, f.name)).map (·.2)

def method? (m : Method) : Option MethodForm :=
  (r.methods.find? fun e => e.1 == (m.owner.definition, m.name)).map (·.2)

def size : Nat := r.members.length + r.methods.length

def addMember (decl name : Text) (form : MemberForm) : Registry :=
  { r with members := ((decl, name), form) :: r.members.filter fun e => e.1 != (decl, name) }

def addMethod (decl name : Text) (form : MethodForm) : Registry :=
  { r with methods := ((decl, name), form) :: r.methods.filter fun e => e.1 != (decl, name) }

/-! ## Forms -/

def property (name : Text) : MemberForm := fun x => .ok (x.dot name)

/-- A form of the receiver and the arguments. A static method has no receiver to give it. -/
def ofReceiver (form : Script → List Script → Script) : MethodForm := fun recv args =>
  match recv with
  | some x => .ok (form x args)
  | none => .error (.crash (some "unexpected node <nil>"))

def renamed (name : Text) : MethodForm := ofReceiver fun x args => Script.invoke (x.dot name) args

def globalCall (object name : Text) : MethodForm := fun _ args =>
  .ok (Script.invoke ((Script.id object).notNull.dot name) args)

def ofFirst (form : Script → Except Fault Script) : MethodForm := fun _ args =>
  match args with
  | x :: _ => form x
  | [] => .error .misfit

def resourceUrl (x : Script) : Except Fault Script :=
  let missing : Fault := Error.of .untranslatable "Resources.Url requires a constant resource name"
  match x with
  | .literal _ (.text name) =>
    if name.isEmpty then .error missing
    else .ok (Script.symbol { notNull := true } ("resource:" ++ name) none)
  | _ => .error missing

def defaultMembers : List ((Text × Text) × MemberForm) := [
  (("List", "Count"), property "length"),
  ((Ty.string.definition, "Length"), property "length")]

def defaultMethods : List ((Text × Text) × MethodForm) :=
  let string := Ty.string.definition
  let math := (Ty.declared .math).definition
  [(("List", "Any"), renamed "some"),
    (("List", "All"), renamed "every"),
    (("List", "Where"), renamed "filter"),
    (("List", "Contains"), renamed "includes"),
    ((string, "ToUpper"), renamed "toUpperCase"),
    ((string, "ToLower"), renamed "toLowerCase"),
    ((string, "Trim"), renamed "trim"),
    ((string, "Contains"), renamed "includes"),
    ((string, "StartsWith"), renamed "startsWith"),
    ((string, "EndsWith"), renamed "endsWith"),
    ((string, "IsNullOrEmpty"), ofFirst fun x => .ok (.unary {} .not x)),
    ((string, "IsNullOrWhiteSpace"), ofFirst fun x =>
      .ok (.unary {} .not (Script.invoke (x.orEmpty.dot "trim") []))),
    ((Ty.any.definition, "ToString"), ofReceiver fun x _ => x.toText),
    ((math, "Max"), globalCall "Math" "max"),
    ((math, "Min"), globalCall "Math" "min"),
    ((math, "Abs"), globalCall "Math" "abs"),
    (((Ty.declared .resources).definition, "Url"), ofFirst resourceUrl)]

def addDefaults : Registry :=
  let r := defaultMembers.foldl (fun r ((decl, name), form) => r.addMember decl name form) r
  defaultMethods.foldl (fun r ((decl, name), form) => r.addMethod decl name form) r

def standard : Registry := addDefaults {}

end Registry

structure RegistryBuilder where
  registry : Registry := {}
  isBuilt : Bool := false

namespace RegistryBuilder

def update (b : RegistryBuilder) (f : Registry → Registry) : Except Fault RegistryBuilder :=
  if b.isBuilt then .error (.crash (some "translate: registration into a built registry"))
  else .ok { b with registry := f b.registry }

def build (b : RegistryBuilder) : Except Fault (Registry × RegistryBuilder) := do
  let b ← b.update fun r => r
  return (b.registry, { b with isBuilt := true })

end RegistryBuilder

end Bindery
