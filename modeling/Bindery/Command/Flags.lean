import Bindery.Decimal.Reader

/-!
# Command line flags

A flag is `-name` or `--name`. Its value follows after `=`, or, unless the flag is a switch, as the
next argument. Flags end at the first argument that is none, or after `--`.
-/

namespace Bindery.Command

/-- What a command line asks for. Settings that are not given come from the page file. -/
structure Flags where
  config : Text := ∅
  debug : Option Bool := none
  nullChecks : Option Bool := none
  workers : Option Int := none
  failFast : Bool := false
  manifest : Text := ∅
  output : Text := "wire"

inductive FlagKind where
  | switch (set : Bool → Flags → Flags)
  | number (set : Int → Flags → Flags)
  | text (set : Text → Flags → Flags)

structure Flag where
  name : Text
  /-- How the description calls the value; a switch has none. -/
  value : Text
  usage : Text
  kind : FlagKind

namespace Flag

def all : List Flag := [
  ⟨"config", "file", "read the page from this TOML file", .text fun t f => { f with config := t }⟩,
  ⟨"debug", "", "format scripts for reading and trace property resolution",
    .switch fun b f => { f with debug := some b }⟩,
  ⟨"failfast", "", "stop at the first binding that fails to compile",
    .switch fun b f => { f with failFast := b }⟩,
  ⟨"manifest", "file", "write the compiled bindings to this file",
    .text fun t f => { f with manifest := t }⟩,
  ⟨"nullchecks", "", "guard member accesses on nullable values in scripts (default true)",
    .switch fun b f => { f with nullChecks := some b }⟩,
  ⟨"output", "string", "manifest format (wire, json, text) (default \"wire\")",
    .text fun t f => { f with output := t }⟩,
  ⟨"workers", "n", "compile at most n bindings at once (0 means GOMAXPROCS)",
    .number fun n f => { f with workers := some n }⟩]

def find? (name : Text) : Option Flag := all.find? fun f => f.name == name

def help : Text :=
  "Usage of bindc:\n" ++ Text.concat (all.map fun f =>
    "  -" ++ f.name ++ (if f.value.isEmpty then ∅ else " " ++ f.value) ++ "\n    \t" ++
    f.usage ++ "\n")

end Flag

def switch? (t : Text) : Option Bool :=
  let on : List Text := ["1", "t", "T", "true", "TRUE", "True"]
  let off : List Text := ["0", "f", "F", "false", "FALSE", "False"]
  if on.contains t then some true else if off.contains t then some false else none

def number (t : Text) : Except Text Int :=
  let (negative, ds) := match t.chars with
    | '-' :: ds => (true, ds)
    | '+' :: ds => (false, ds)
    | ds => (false, ds)
  match Decimal.wholeNumber? ds with
  | none => .error "parse error"
  | some n =>
    let n : Int := if negative then -n else n
    if -0x8000000000000000 ≤ n && n < 0x8000000000000000 then .ok n else .error "value out of range"

inductive FlagError where
  | help
  | invalid (note : Text)

namespace Flags

def switchOn (f : Flags) (set : Bool → Flags → Flags) (name : Text) (value : Option Text) :
    Except FlagError Flags :=
  match value with
  | none => .ok (set true f)
  | some v => match switch? v with
    | some b => .ok (set b f)
    | none => .error (.invalid
        ("invalid boolean value " ++ v.quote ++ " for -" ++ name ++ ": parse error"))

def put (f : Flags) (flag : Flag) (value : Text) : Except FlagError Flags :=
  match flag.kind with
  | .switch set => f.switchOn set flag.name (some value)
  | .text set => .ok (set value f)
  | .number set => match number value with
    | .ok n => .ok (set n f)
    | .error note => .error (.invalid
        ("invalid value " ++ value.quote ++ " for flag -" ++ flag.name ++ ": " ++ note))

def nameAndValue (t : Text) : Text × Option Text :=
  match t.cut? "=" with
  | some (name, value) => (name, some value)
  | none => (t, none)

def dashed? (arg : Text) : Option Text :=
  match arg.dropStart? "-" with
  | none => none
  | some t => if t.isEmpty then none else some ((t.dropStart? "-").getD t)

def parse (f : Flags) : List Text → Except FlagError (Flags × List Text)
  | [] => .ok (f, [])
  | arg :: args =>
    if arg == "--" then .ok (f, args)
    else match dashed? arg with
      | none => .ok (f, arg :: args)
      | some t =>
        if t.isEmpty || t.startsWith "-" || t.startsWith "=" then
          .error (.invalid ("bad flag syntax: " ++ arg))
        else
          let (name, value) := nameAndValue t
          match Flag.find? name with
          | none =>
            if name == "help" || name == "h" then .error .help
            else .error (.invalid ("flag provided but not defined: -" ++ name))
          | some flag => match flag.kind, value, args with
            | .switch set, value, args => do parse (← f.switchOn set name value) args
            | _, some v, args => do parse (← f.put flag v) args
            | _, none, v :: args => do parse (← f.put flag v) args
            | _, none, [] => .error (.invalid ("flag needs an argument: -" ++ name))
termination_by args => args.length

end Flags

end Bindery.Command
