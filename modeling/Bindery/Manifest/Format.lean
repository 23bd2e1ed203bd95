import Bindery.Manifest
import Bindery.Data.Wire
import Bindery.Data.Json
import Bindery.Data.TextFormat

/-!
# Written manifests

A manifest is written in one of three formats.
-/

namespace Bindery

inductive Format where
  | wire
  | json
  | text
deriving DecidableEq

namespace Format

def ofName? (name : Text) : Option Format :=
  if name = "wire" then some .wire
  else if name = "json" then some .json
  else if name = "text" then some .text
  else none

def unsupported (name : Text) : Error := .plain ("unsupported manifest format: " ++ name)

def write (f : Format) (d : Data) : Text :=
  match f with
  | .wire => Data.Wire.write d
  | .json => Data.Json.write d
  | .text => Data.TextFormat.write d

def read? (f : Format) (t : Text) : Option Data :=
  match f with
  | .wire => Data.Wire.read? t
  | .json => Data.Json.read? t
  | .text => Data.TextFormat.read? t

end Format

namespace Manifest

def write (m : Manifest) (format : Text) : Except Error Text := do
  let d ← m.toData
  match Format.ofName? format with
  | some f => return f.write d
  | none => .error (Format.unsupported format)

def read (t : Text) (format : Text) : Except ReadError Manifest :=
  match Format.ofName? format with
  | none => .error (.invalid (Format.unsupported format))
  | some f => match f.read? t with
    | none => .error .malformed
    | some d => match ofData d with
      | .ok m => .ok m
      | .error e => .error (.invalid e)

end Manifest

end Bindery
