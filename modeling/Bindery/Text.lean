/-!
# Texts

A text is a string of bytes. Names, sources, scripts and messages are texts: most of them are
UTF-8, but nothing in the compiler depends on it, and a view model may hold any bytes. A string
literal stands for its UTF-8 bytes.

`Bindery.Text.Utf8` reads characters out of a text.
-/

namespace Bindery

structure Text where
  bytes : List UInt8
deriving DecidableEq, Inhabited

abbrev Chars := List Char

/-- Things by name. -/
abbrev Record (α : Type) := List (Text × α)

namespace Record

variable {α : Type}

def get? (key : Text) : Record α → Option α
  | [] => none
  | (k, v) :: rest => if k = key then some v else get? key rest

/-- The record with another thing of a name, in the place of the one it has. -/
def assign (key : Text) (v : α) : Record α → Record α
  | [] => [(key, v)]
  | (k, w) :: rest => if k = key then (k, v) :: rest else (k, w) :: assign key v rest

end Record

namespace Text

def ofChars (cs : Chars) : Text := ⟨cs.flatMap String.utf8EncodeChar⟩

def ofString (s : String) : Text := ofChars s.toList

instance : Coe String Text := ⟨ofString⟩

instance : Append Text := ⟨fun a b => ⟨a.bytes ++ b.bytes⟩⟩

instance : EmptyCollection Text := ⟨⟨[]⟩⟩

def isEmpty (t : Text) : Bool := t.bytes.isEmpty

def length (t : Text) : Nat := t.bytes.length

@[simp] theorem bytes_append (a b : Text) : (a ++ b).bytes = a.bytes ++ b.bytes := rfl

@[ext] theorem ext {a b : Text} (h : a.bytes = b.bytes) : a = b := by
  cases a; cases b; cases h; rfl

theorem append_assoc (a b c : Text) : a ++ b ++ c = a ++ (b ++ c) := by
  ext1; simp

/-! ## Order -/

/-- The order of the first byte in which two byte strings differ; a proper beginning comes first. -/
def compareBytes : List UInt8 → List UInt8 → Ordering
  | [], [] => .eq
  | [], _ :: _ => .lt
  | _ :: _, [] => .gt
  | a :: as, b :: bs => if a < b then .lt else if b < a then .gt else compareBytes as bs

def compare (a b : Text) : Ordering := compareBytes a.bytes b.bytes

def le (a b : Text) : Bool := a.compare b != .gt

def lt (a b : Text) : Bool := a.compare b == .lt

def sort (ts : List Text) : List Text := ts.mergeSort le

/-! ## Searching -/

def startsWith (t p : Text) : Bool := p.bytes.isPrefixOf t.bytes

def endsWith (t s : Text) : Bool := s.bytes.isSuffixOf t.bytes

def dropLead : List UInt8 → List UInt8 → Option (List UInt8)
  | bs, [] => some bs
  | [], _ :: _ => none
  | b :: bs, p :: ps => if b = p then dropLead bs ps else none

def dropStart? (t p : Text) : Option Text := (dropLead t.bytes p.bytes).map Text.mk

def dropEnd? (t s : Text) : Option Text :=
  (dropLead t.bytes.reverse s.bytes.reverse).map fun r => ⟨r.reverse⟩

def cutBytes (sep : List UInt8) : List UInt8 → Option (List UInt8 × List UInt8)
  | [] => if sep.isEmpty then some ([], []) else none
  | b :: bs =>
    match dropLead (b :: bs) sep with
    | some rest => some ([], rest)
    | none => (cutBytes sep bs).map fun (before, after) => (b :: before, after)

def cut? (t sep : Text) : Option (Text × Text) :=
  (cutBytes sep.bytes t.bytes).map fun (before, after) => (⟨before⟩, ⟨after⟩)

def contains (t part : Text) : Bool := (cutBytes part.bytes t.bytes).isSome

def splitBytes (sep : UInt8) : List UInt8 → List (List UInt8)
  | [] => [[]]
  | b :: bs =>
    let rest := splitBytes sep bs
    if b = sep then [] :: rest
    else match rest with
      | [] => [[b]]
      | piece :: more => (b :: piece) :: more

def splitOn (t : Text) (sep : Char) : List Text :=
  (splitBytes sep.toUInt8 t.bytes).map Text.mk

/-! ## Building -/

def join (sep : Text) : List Text → Text
  | [] => ∅
  | [t] => t
  | t :: u :: rest => t ++ sep ++ join sep (u :: rest)

def concat (ts : List Text) : Text := ⟨ts.flatMap Text.bytes⟩

def replicate (n : Nat) (c : Char) : Text := ⟨List.replicate n c.toUInt8⟩

def ofNat (n : Nat) : Text := ofChars (Nat.toDigits 10 n)

def ofInt : Int → Text
  | .ofNat n => ofNat n
  | .negSucc n => "-" ++ ofNat (n + 1)

def hex (width n : Nat) : Text :=
  let digits := Nat.toDigits 16 n
  ofChars (List.replicate (width - digits.length) '0' ++ digits)

end Text

end Bindery
