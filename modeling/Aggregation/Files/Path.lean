import Aggregation.Files.Access

/-! Paths by their parts, and the places that they name. A part is what stands between slashes; one dot names the
place itself and two dots name the place above it. -/

namespace Aggregation.Files

def maxPathBytes : Nat := 4095

def maxNameBytes : Nat := 255

/-- Where a walk starts: a number of levels above the working directory, or at the root. -/
inductive Base where
  | above (levels : Nat)
  | root
  deriving DecidableEq, Repr

/-- A place for a file or a directory: the names that lead to it from a base, the last one first. -/
structure Location where
  base : Base := .above 0
  names : List String := []
  deriving DecidableEq, Repr

namespace Location

/-- The place above. There is none above the root, which stands for itself. -/
def parent (place : Location) : Location :=
  match place.names, place.base with
  | _ :: rest, base => ⟨base, rest⟩
  | [], .above levels => ⟨.above (levels + 1), []⟩
  | [], .root => place

/-- The place that a part names, whether anything is there or not. -/
def toward (place : Location) (part : String) : Location :=
  if part = "." then place
  else if part = ".." then place.parent
  else ⟨place.base, part :: place.names⟩

end Location

structure Path where
  start : Location
  /-- The parts before the last one. -/
  leading : List String
  last : String
  /-- Whether slashes follow the last part. -/
  slash : Bool
  deriving DecidableEq, Repr

namespace Path

/-- What stands between slashes. -/
def parts (path : List Char) : List String :=
  ((path.splitBy fun a b => a != '/' && b != '/').map String.ofList).filter (· != "/")

/-- The path that a text spells. A path of slashes alone leads to where it starts. -/
def ofText (text : String) : Except FileFault Path :=
  let cs := text.toList
  if cs.contains '\x00' then .error .nulInName
  else if cs = [] then .error .notFound
  else if maxPathBytes < text.utf8ByteSize then .error .nameTooLong
  else .ok {
    start := ⟨if cs.head? = some '/' then .root else .above 0, []⟩
    leading := (parts cs).dropLast
    last := (parts cs).getLast?.getD "."
    slash := cs.getLast? = some '/' }

end Path

end Aggregation.Files
