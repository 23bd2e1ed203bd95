import Bindery.Data

/-!
# The binary form of data

A message is a sequence of tagged fields. Records are written with their fields in the order of
their names, so equal data have equal bytes. Reading skips fields that it does not know, and of
several fields of one name the last one counts.
-/

namespace Bindery.Data.Wire

/-! ## Writing -/

def varint (n : Nat) : List UInt8 :=
  if n < 128 then [UInt8.ofNat n] else UInt8.ofNat (n % 128 + 128) :: varint (n / 128)

def delimited (field : Nat) (payload : List UInt8) : List UInt8 :=
  varint (field * 8 + 2) ++ varint payload.length ++ payload

def littleEndian : Nat → Nat → List UInt8
  | 0, _ => []
  | count + 1, n => UInt8.ofNat (n % 256) :: littleEndian count (n / 256)

mutual

def encode : Data → List UInt8
  | .unset => []
  | .null => [0x08, 0x00]
  | .number x => 0x11 :: littleEndian 8 x.toBits.toNat
  | .text t => delimited 3 t.bytes
  | .bool b => [0x20, if b then 1 else 0]
  | .record fs => delimited 5 (encodeFields fs)
  | .list xs => delimited 6 (encodeItems xs)

def encodeFields (fs : Record Data) : List UInt8 :=
  (sorted (encodePairs fs)).flatMap fun (k, payload) =>
    delimited 1 (delimited 1 k.bytes ++ delimited 2 payload)

def encodePairs : Record Data → List (Text × List UInt8)
  | [] => []
  | (k, v) :: fs => (k, encode v) :: encodePairs fs

def encodeItems : List Data → List UInt8
  | [] => []
  | x :: xs => delimited 1 (encode x) ++ encodeItems xs

end

/-! ## Reading -/

inductive Payload where
  | varint (n : Nat)
  | fixed64 (n : Nat)
  | bytes (bs : List UInt8)
  | other

/-- Reads a number of at most 64 bits, of which `place` groups have been read. -/
def varintFrom : Nat → List UInt8 → Option (Nat × List UInt8)
  | _, [] => none
  | place, b :: rest =>
    if 10 ≤ place || place == 9 && 1 < b then none
    else if b < 0x80 then some (b.toNat, rest)
    else (varintFrom (place + 1) rest).map fun (n, rest) => (b.toNat - 0x80 + 128 * n, rest)

def readVarint (bs : List UInt8) : Option (Nat × List UInt8) := varintFrom 0 bs

def split (n : Nat) (bs : List UInt8) : Option (List UInt8 × List UInt8) :=
  if bs.length < n then none else some (bs.take n, bs.drop n)

def ofLittleEndian : List UInt8 → Nat
  | [] => 0
  | b :: bs => b.toNat + 256 * ofLittleEndian bs

def maxField : Nat := 0x1FFFFFFF

/-- The fields of a message. `groups` holds the groups that are open, innermost first; what stands
in them is skipped. -/
def fieldsWithin : Nat → List Nat → List UInt8 → Option (List (Nat × Payload))
  | 0, _, _ => none
  | _, [], [] => some []
  | _, _ :: _, [] => none
  | fuel + 1, groups, bs => do
    let (tag, bs) ← readVarint bs
    let field := tag / 8
    if field == 0 || (if groups.isEmpty then maxField else 0x7FFFFFFF) < field then none
    else
      let next (p : Payload) (rest : List UInt8) : Option (List (Nat × Payload)) := do
        let more ← fieldsWithin fuel groups rest
        some (if groups.isEmpty then (field, p) :: more else more)
      match tag % 8 with
      | 0 =>
        let (n, rest) ← readVarint bs
        next (.varint n) rest
      | 1 =>
        let (payload, rest) ← split 8 bs
        next (.fixed64 (ofLittleEndian payload)) rest
      | 2 =>
        let (n, rest) ← readVarint bs
        let (payload, rest) ← split n rest
        next (.bytes payload) rest
      | 3 => fieldsWithin fuel (field :: groups) bs
      | 4 => match groups with
        | g :: outer => if g == field then fieldsWithin fuel outer bs else none
        | [] => none
      | 5 =>
        let (_, rest) ← split 4 bs
        next .other rest
      | _ => none

def fields (bs : List UInt8) : Option (List (Nat × Payload)) := fieldsWithin (bs.length + 1) [] bs

def textOf (bs : List UInt8) : Option Text :=
  let t : Text := ⟨bs⟩
  if t.isUtf8 then some t else none

def maxDepth : Nat := 10000

mutual

/-- Reads a value on top of one that was read before: records and lists are added to. -/
def decode : Nat → List UInt8 → Data → Option Data
  | 0, _, _ => none
  | depth + 1, bs, start => do
    (← fields bs).foldlM (fun d f => match f with
      | (1, .varint _) => some .null
      | (2, .fixed64 n) => some (.number (Float.ofBits (UInt64.ofNat n)))
      | (3, .bytes t) => (textOf t).map .text
      | (4, .varint n) => some (.bool (n != 0))
      | (5, .bytes r) =>
        (decodeRecord depth r (match d with | .record fs => fs | _ => [])).map .record
      | (6, .bytes l) => (decodeList depth l d.asList).map .list
      | _ => some d) start

def decodeRecord : Nat → List UInt8 → Record Data → Option (Record Data)
  | 0, _, _ => none
  | depth + 1, bs, start => do
    (← fields bs).foldlM (fun fs f => match f with
      | (1, .bytes pair) => do
        let (k, v) ← (← fields pair).foldlM (fun (k, v) f => match f with
          | (1, .bytes t) => (textOf t).map fun k => (k, v)
          | (2, .bytes p) => (decode depth p v).map fun v => (k, v)
          | _ => some (k, v)) ((∅ : Text), Data.unset)
        some (Record.assign k v fs)
      | _ => some fs) start

def decodeList : Nat → List UInt8 → List Data → Option (List Data)
  | 0, _, _ => none
  | depth + 1, bs, start => do
    (← fields bs).foldlM (fun xs f => match f with
      | (1, .bytes item) => (decode depth item .unset).map fun x => xs ++ [x]
      | _ => some xs) start

end

def write (d : Data) : Text :=
  match d with
  | .record fs => ⟨encodeFields fs⟩
  | _ => ∅

def read? (t : Text) : Option Data := (decodeRecord maxDepth t.bytes []).map .record

end Bindery.Data.Wire
