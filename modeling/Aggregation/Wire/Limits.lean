/-! Limits that the reader and the writer of the binary format enforce. -/

namespace Aggregation.Wire

/-- The largest encoded document, its length included, and the largest number of open containers. -/
structure Limits where
  maxDocumentSize : Int := 16777216
  maxNestingDepth : Nat := 100
  deriving DecidableEq, Repr, Inhabited

namespace Limits

inductive Fault where
  | documentSize (given : Int)
  | nestingDepth
  deriving DecidableEq, Repr

def Fault.message : Fault → String
  | .documentSize given => "max_document_size must be at least 5, got " ++ toString given
  | .nestingDepth => "max_nesting_depth must be > 0"

/-- The first fault: the smallest document has five bytes and opens one container. -/
def fault? (l : Limits) : Option Fault :=
  if l.maxDocumentSize < 5 then some (.documentSize l.maxDocumentSize)
  else if l.maxNestingDepth = 0 then some .nestingDepth
  else none

end Limits

end Aggregation.Wire
