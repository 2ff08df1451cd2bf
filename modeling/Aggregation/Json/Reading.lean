import Aggregation.Json.Number

/-! Reading the tree of a JSON text: as a JSON value, or as a record of known fields. Containers may nest up
to a depth; the bound is a budget that each container opened on the way takes one from. -/

namespace Aggregation.Json

/-- The budget of a whole text: 127 containers may be open at once. -/
def depthLimit : Nat := 128

/-- The budget inside a container. -/
def enter? (depth : Nat) : Option Nat := if depth ≤ 1 then none else some (depth - 1)

/-- The characters of a string literal. Two units that form a surrogate pair are one character; a surrogate that is
not part of a pair is refused. -/
def characters? : List Piece → Option (List Char)
  | [] => some []
  | .char c :: rest => (characters? rest).map (c :: ·)
  | .unit high :: .unit low :: rest =>
    if 0xD800 ≤ high ∧ high < 0xDC00 then
      if 0xDC00 ≤ low ∧ low < 0xE000 then
        (characters? rest).map (Char.ofNat (0x10000 + (high - 0xD800) * 0x400 + (low - 0xDC00)) :: ·)
      else none
    else if 0xDC00 ≤ high ∧ high < 0xE000 then none
    else (characters? (.unit low :: rest)).map (Char.ofNat high :: ·)
  | .unit n :: rest =>
    if 0xD800 ≤ n ∧ n < 0xE000 then none else (characters? rest).map (Char.ofNat n :: ·)

def pieceText? (pieces : List Piece) : Option String := (characters? pieces).map String.ofList

namespace Tree

mutual

def json? (depth : Nat) : Tree → Option Json
  | .null => some .null
  | .bool b => some (.bool b)
  | .number n => n.number?.map .number
  | .string pieces => (pieceText? pieces).map .string
  | .array items =>
    match enter? depth with
    | none => none
    | some depth => (itemsJson? depth items).map .array
  | .object members =>
    match enter? depth with
    | none => none
    | some depth => (membersJson? depth members).map fun members => .object (.ofList members)

def itemsJson? (depth : Nat) : List Tree → Option (List Json)
  | [] => some []
  | item :: rest =>
    match item.json? depth, itemsJson? depth rest with
    | some item, some rest => some (item :: rest)
    | _, _ => none

def membersJson? (depth : Nat) : List (List Piece × Tree) → Option (List (String × Json))
  | [] => some []
  | (key, value) :: rest =>
    match pieceText? key, value.json? depth, membersJson? depth rest with
    | some key, some value, some rest => some ((key, value) :: rest)
    | _, _, _ => none

end

def text? : Tree → Option String
  | .string pieces => pieceText? pieces
  | _ => none

/-- A truth value. -/
def bool? : Tree → Option Bool
  | .bool b => some b
  | _ => none

/-- An integer between two bounds. -/
def int? (least most : Int) : Tree → Option Int
  | .number n =>
    match n.number? with
    | some (.int value) => if least ≤ value ∧ value ≤ most then some value else none
    | _ => none
  | _ => none

/-- A natural number of 64 bits. -/
def natural? (t : Tree) : Option Nat := (t.int? 0 0xFFFFFFFFFFFFFFFF).map Int.toNat

def items? (depth : Nat) : Tree → Option (List Tree × Nat)
  | .array items => (enter? depth).map fun depth => (items, depth)
  | _ => none

/-- The value of the only member with a name: `none` if the name repeats, `some none` if it is absent. -/
def unique? (members : List (String × Tree)) (name : String) : Option (Option Tree) :=
  match members.filter (·.1 == name) with
  | [] => some none
  | [(_, value)] => some (some value)
  | _ => none

/-- The values of known fields, in the order of their names, and the budget inside. An object may name each at most
once and may have other members, which are not read; a list gives the first of them in order. -/
def fields? (names : List String) (depth : Nat) : Tree → Option (List (Option Tree) × Nat)
  | .array items => do
    let depth ← enter? depth
    if items.length ≤ names.length then
      some (items.map some ++ List.replicate (names.length - items.length) none, depth)
    else none
  | .object members => do
    let depth ← enter? depth
    let members ← members.mapM fun (key, value) => (pieceText? key).map (·, value)
    let fields ← names.mapM (unique? members)
    some (fields, depth)
  | _ => none

/-- A choice among alternatives: its name alone, or an object of one member that gives it an argument. -/
def alternative? (depth : Nat) : Tree → Option (String × Option (Tree × Nat))
  | .string pieces => (pieceText? pieces).map (·, none)
  | .object [(key, value)] => do
    let depth ← enter? depth
    let name ← pieceText? key
    some (name, some (value, depth))
  | _ => none

end Tree

def parse? (text : String) : Option Json := (tree? text.toList).bind (·.json? depthLimit)

end Aggregation.Json
