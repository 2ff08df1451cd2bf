import Aggregation.Value.Basic

/-! Types that expressions declare for their results. -/

namespace Aggregation

/-- The type of a result; nothing is known about `any` before a document is there. -/
inductive ResultType where
  | any
  | null
  | bool
  | int32
  | int64
  | double
  | string
  | binary
  | document
  | array (item : ResultType)
  deriving DecidableEq, Repr, Inhabited

namespace ResultType

/-- The type of every pipeline: a stream of documents. -/
def documents : ResultType := .array .document

/-- Whether arithmetic takes the type. -/
def isNumeric : ResultType → Bool
  | .any | .int32 | .int64 | .double => true
  | _ => false

/-- Whether a connective takes the type. -/
def isBoolean : ResultType → Bool
  | .any | .bool => true
  | _ => false

/-- Whether concatenation takes the type. -/
def isString : ResultType → Bool
  | .any | .string => true
  | _ => false

/-- Whether values of two types can be ordered against each other. -/
def isComparable : ResultType → ResultType → Bool
  | .any, _ | _, .any | .null, _ | _, .null => true
  | .array s, .array t => isComparable s t
  | s, t => s.isNumeric && t.isNumeric || s == t

/-- The type of arithmetic over two numeric types. -/
def promote : ResultType → ResultType → ResultType
  | .any, _ | _, .any => .any
  | .double, _ | _, .double => .double
  | .int64, _ | _, .int64 => .int64
  | _, _ => .int32

/-- The type that covers what was seen so far and one more. -/
def join : Option ResultType → ResultType → ResultType
  | none, t => t
  | some s, t => if s = t then s else .any

mutual

def ofValue : Value → ResultType
  | .null | .undefined => .null
  | .boolean _ => .bool
  | .int32 _ => .int32
  | .int64 _ => .int64
  | .double _ => .double
  | .string _ | .symbol _ => .string
  | .binary _ _ => .binary
  | .document _ => .document
  | .array items => .array ((ofItems none items).getD .any)
  | _ => .any

/-- The type that covers items, after those seen before. -/
def ofItems (seen : Option ResultType) : List Value → Option ResultType
  | [] => seen
  | item :: rest => ofItems (some (join seen (ofValue item))) rest

end

def name : ResultType → String
  | .any => "any"
  | .null => "null"
  | .bool => "bool"
  | .int32 => "int32"
  | .int64 => "int64"
  | .double => "double"
  | .string => "string"
  | .binary => "binary"
  | .document => "document"
  | .array item => "array<" ++ item.name ++ ">"

/-- The spellings of the types that are no arrays; two of them have a second one. -/
def scalarNames : List (String × ResultType) :=
  [("any", .any), ("null", .null), ("bool", .bool), ("int32", .int32), ("int", .int32), ("int64", .int64),
    ("long", .int64), ("double", .double), ("string", .string), ("binary", .binary), ("document", .document)]

def opening : List Char := ['a', 'r', 'r', 'a', 'y', '<']

/-- What stands between the opening and the closing of an array type. -/
def itemName? (name : List Char) : Option (List Char) :=
  if opening.isPrefixOf name then
    match (name.drop opening.length).getLast? with
    | some '>' => some (name.drop opening.length).dropLast
    | _ => none
  else none

/-- The type of a spelling that is nested less deep than `fuel`. -/
def ofNameWithin : Nat → List Char → Option ResultType
  | 0, _ => none
  | fuel + 1, name =>
    match scalarNames.lookup (String.ofList name) with
    | some t => some t
    | none => do
      let item ← ofNameWithin fuel (← itemName? name)
      return .array item

/-- The type of a spelling. Every array takes characters, so none is nested deeper than the text is long. -/
def ofName? (name : String) : Option ResultType := ofNameWithin (name.toList.length + 1) name.toList

end ResultType

end Aggregation
