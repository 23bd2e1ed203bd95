import Bindery.Text.Width

/-!
# Printed reports

A table has its cells filled up to the width of the column. A notice is a message behind a label;
its further lines are indented to the message.
-/

namespace Bindery.Command

def columnWidths : List (List Text) → List Nat
  | [] => []
  | row :: rows => widest (row.map Text.width) (columnWidths rows)
where
  widest : List Nat → List Nat → List Nat
    | a :: as, b :: bs => max a b :: widest as bs
    | as, [] => as
    | [], bs => bs

def pad (width : Nat) (t : Text) : Text := t ++ Text.replicate (width - t.width) ' '

def table (rows : List (List Text)) : Text :=
  let widths := columnWidths rows
  Text.concat (rows.map fun row => Text.join " | " (widths.zipWith pad row) ++ "\n")

def notice (label message : Text) : Text :=
  Text.join ("\n" ++ Text.replicate 10 ' ') ((label ++ message).splitOn '\n') ++ "\n"

def failure (message : Text) : Text := notice "  ERROR   " message

def success (message : Text) : Text := notice " SUCCESS  " message

end Bindery.Command
