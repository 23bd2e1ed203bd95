import Bindery.Pattern
import Bindery.Text.Blank
import Bindery.Text.Quoted

/-!
# Expected errors

A sheet of bindings says which of them fail. Its chunks are divided by lines `---`. Each line of a
chunk is the source of a binding; after `###` follows, quoted, a pattern that the message of its
error matches. A line that starts with `%` is a directive for its chunk. Blank lines and lines that
start with `//` are skipped.

`Sheet.parse` reads a sheet. `Chunk.gotError` and `Chunk.missing` compare the errors that occurred
with those expected; what differs is reported.
-/

namespace Bindery

structure SheetLine where
  number : Nat
  source : Text

structure Expectation where
  pattern : Pattern
  text : Text

structure Chunk where
  file : Text
  directives : Record Text := []
  lines : List SheetLine := []
  /-- The errors that are still expected, by line. -/
  wanted : List (Nat × Expectation) := []

namespace Chunk

def reportAt (file : Text) (line : Int) (note : Text) : Text :=
  "\n" ++ file ++ ":" ++ Text.ofInt line ++ ": " ++ note

variable (c : Chunk)

def direct (key value : Text) : Chunk :=
  { c with directives := (c.directives.filter fun d => d.1 != key) ++ [(key, value)] }

def addLine (number : Nat) (source : Text) : Chunk :=
  { c with lines := c.lines ++ [⟨number, source⟩] }

def wants (line : Nat) : Bool := (c.wanted.lookup line).isSome

/-- The chunk after an error occurred at a line, and what is to be reported. An expected error is
expected no more. -/
def gotError (line : Int) (message : Text) : Chunk × List Text :=
  match c.wanted.find? fun w => (w.1 : Int) == line with
  | some (n, e) =>
    let c := { c with wanted := c.wanted.filter fun w => w.1 != n }
    if e.pattern.occursIn message then (c, [])
    else (c, [reportAt c.file line
      ("error " ++ message.quote ++ " does not match pattern " ++ e.text.quote)])
  | none => (c, [reportAt c.file line ("unexpected error: " ++ message)])

def missing : List Text :=
  c.wanted.map fun (n, e) => reportAt c.file n ("expected error matching " ++ e.text.quote)

end Chunk

structure Sheet where
  chunks : List Chunk := []
  reports : List Text := []

namespace Sheet

/-- What follows `###` as an expectation, or a note on what is wrong with it. -/
def expectation (quoted : Text) : Except Text Expectation :=
  match quoted.unquote? with
  | none => .error ("not a quoted regexp: " ++ quoted)
  | some text => match Pattern.parse? text with
    | some pattern => .ok ⟨pattern, text⟩
    | none => .error "error parsing regexp: <detail>"

def addBinding (c : Chunk) (number : Nat) (line : Text) : Chunk × List Text :=
  match line.cut? "###" with
  | none => (c.addLine number line.trim, [])
  | some (source, rest) => match expectation rest.trim with
    | .error note => (c, [Chunk.reportAt c.file number note])
    | .ok e =>
      let c := c.addLine number source.trim
      ({ c with wanted := c.wanted ++ [(number, e)] }, [])

def parseLines (c : Chunk) (number : Nat) : List Text → Sheet
  | [] => { chunks := [c] }
  | line :: rest =>
    let t := line.trim
    if t == "---" then
      let s := parseLines { file := c.file } (number + 1) rest
      { s with chunks := c :: s.chunks }
    else if t.isEmpty || t.startsWith "//" then parseLines c (number + 1) rest
    else match t.dropStart? "%" with
      | some directive =>
        let (key, value) := (directive.cut? " ").getD (directive, ∅)
        parseLines (c.direct key value.trim) (number + 1) rest
      | none =>
        let (c, reports) := addBinding c number line
        let s := parseLines c (number + 1) rest
        { s with reports := reports ++ s.reports }

/-- A byte string in which a line ends with a line feed alone. -/
def dropReturns : List UInt8 → List UInt8
  | 13 :: 10 :: rest => 10 :: dropReturns rest
  | b :: rest => b :: dropReturns rest
  | [] => []

def parse (file data : Text) : Sheet :=
  parseLines { file } 1 (Text.splitOn ⟨dropReturns data.bytes⟩ '\n')

def read (directory : Text → Option Text) (file : Text) : Sheet :=
  match directory file with
  | some data => parse file data
  | none => { reports := ["open " ++ file ++ ": no such file or directory"] }

end Sheet

end Bindery
