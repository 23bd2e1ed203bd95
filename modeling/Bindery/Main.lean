import Bindery.Command

/-!
# The program

Reads what the command sees, runs it, and does what comes out.
-/

open Bindery

def Bindery.Main.read? (path : Text) : IO (Option Text) :=
  try
    let data ← IO.FS.readBinFile (path.toString?.getD "")
    return some ⟨data.toList⟩
  catch _ => return none

def Bindery.Main.input : IO Text := do
  let data ← (← IO.getStdin).readBinToEnd
  return ⟨data.toList⟩

def Bindery.Main.print (stream : IO.FS.Stream) (t : Text) : IO Unit := do
  stream.write ⟨t.bytes.toArray⟩
  stream.flush

def main (args : List String) : IO UInt32 := do
  let args := args.map Text.ofString
  let path := Command.configPath args
  let data ← Main.read? path
  let s : Command.Surroundings := { args, file? := fun p => if p == path then data else none }
  let input ← if Command.needsInput s then Main.input else pure ∅
  let o := Command.run { s with input }
  if let some w := o.written then
    IO.FS.writeBinFile (w.path.toString?.getD "") ⟨w.data.bytes.toArray⟩
  Main.print (← IO.getStdout) o.output
  Main.print (← IO.getStderr) o.errors
  return o.exit.toUInt32
