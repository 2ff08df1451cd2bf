/-! Operators of expressions: how queries spell them, and how stage documents do. -/

namespace Aggregation

inductive BinaryOp where
  | eq
  | ne
  | gt
  | gte
  | lt
  | lte
  | and
  | or
  | add
  | subtract
  | multiply
  | divide
  | mod
  | concat
  deriving DecidableEq, Repr, Inhabited

namespace BinaryOp

def all : List BinaryOp :=
  [.eq, .ne, .gt, .gte, .lt, .lte, .and, .or, .add, .subtract, .multiply, .divide, .mod, .concat]

/-- The spelling in queries and messages. -/
def name : BinaryOp → String
  | .eq => "eq"
  | .ne => "ne"
  | .gt => "gt"
  | .gte => "gte"
  | .lt => "lt"
  | .lte => "lte"
  | .and => "and"
  | .or => "or"
  | .add => "add"
  | .subtract => "subtract"
  | .multiply => "multiply"
  | .divide => "divide"
  | .mod => "mod"
  | .concat => "concat"

def ofName? (name : String) : Option BinaryOp := all.find? (·.name == name)

def stageKey (op : BinaryOp) : String := "$" ++ op.name

def isComparison : BinaryOp → Bool
  | .eq | .ne | .gt | .gte | .lt | .lte => true
  | _ => false

/-- Whether the operator joins truth values. -/
def isConnective : BinaryOp → Bool
  | .and | .or => true
  | _ => false

def swapped : BinaryOp → BinaryOp
  | .gt => .lt
  | .gte => .lte
  | .lt => .gt
  | .lte => .gte
  | op => op

end BinaryOp

inductive UnaryOp where
  | not
  | negate
  deriving DecidableEq, Repr, Inhabited

namespace UnaryOp

def all : List UnaryOp := [.not, .negate]

/-- The spelling in queries and messages. -/
def name : UnaryOp → String
  | .not => "not"
  | .negate => "negate"

def ofName? (name : String) : Option UnaryOp := all.find? (·.name == name)

end UnaryOp

/-- What a group computes over its rows. -/
inductive AccumulatorOp where
  | sum
  | count
  | avg
  | min
  | max
  | first
  | last
  | push
  | addToSet
  deriving DecidableEq, Repr, Inhabited

namespace AccumulatorOp

def all : List AccumulatorOp := [.sum, .count, .avg, .min, .max, .first, .last, .push, .addToSet]

/-- The spelling in queries and messages. -/
def name : AccumulatorOp → String
  | .sum => "sum"
  | .count => "count"
  | .avg => "avg"
  | .min => "min"
  | .max => "max"
  | .first => "first"
  | .last => "last"
  | .push => "push"
  | .addToSet => "addToSet"

def ofName? (name : String) : Option AccumulatorOp := all.find? (·.name == name)

/-- The key in a group stage. A count is the sum of a one for every row. -/
def stageKey : AccumulatorOp → String
  | .count => "$sum"
  | op => "$" ++ op.name

end AccumulatorOp

/-- The order of a sort key. -/
inductive Direction where
  | ascending
  | descending
  deriving DecidableEq, Repr, Inhabited

def Direction.name : Direction → String
  | .ascending => "asc"
  | .descending => "desc"

/-- A field that a sort orders by. -/
structure SortKey where
  path : String
  direction : Direction
  deriving DecidableEq, Repr, Inhabited

end Aggregation
