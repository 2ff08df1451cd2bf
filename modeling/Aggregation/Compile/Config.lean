import Aggregation.Files.Access
import Aggregation.Json.Printer
import Aggregation.Json.Reading
import Aggregation.Plan.Binding

/-! The configuration of the compiler: a JSON object in which every member has a default. -/

namespace Aggregation

open Json (Tree)

/-- What a user can set. -/
structure Config where
  /-- What the names of outputs begin with that the compiler makes. -/
  stem : String := defaultStem
  /-- Whether stages that change nothing are left out. -/
  eliminates : Bool := true
  limits : Wire.Limits := {}
  deriving DecidableEq, Repr, Inhabited

namespace Config

/-- A member that may be missing. -/
def orDefault {α : Type} (default : α) (read : Tree → Option α) : Option Tree → Option α
  | none => some default
  | some t => read t

def limitsOfTree? (depth : Nat) (t : Tree) : Option Wire.Limits := do
  let default : Wire.Limits := {}
  match ← t.fields? ["max_document_size", "max_nesting_depth"] depth with
  | ([size, nesting], _) =>
    return ⟨← orDefault default.maxDocumentSize (·.int? Int32.minValue.toInt Int32.maxValue.toInt) size,
      ← orDefault default.maxNestingDepth Tree.natural? nesting⟩
  | _ => none

def ofTree? (t : Tree) : Option Config := do
  let default : Config := {}
  match ← t.fields? ["group_field_prefix", "eliminate_redundant_stages", "codec"] Json.depthLimit with
  | ([stem, eliminates, limits], depth) =>
    return ⟨← orDefault default.stem Tree.text? stem, ← orDefault default.eliminates Tree.bool? eliminates,
      ← orDefault default.limits (limitsOfTree? depth) limits⟩
  | _ => none

def toJson (c : Config) : Json :=
  .ofMembers [("group_field_prefix", .string c.stem), ("eliminate_redundant_stages", .bool c.eliminates),
    ("codec", .ofMembers [("max_document_size", .int c.limits.maxDocumentSize),
      ("max_nesting_depth", .int c.limits.maxNestingDepth)])]

/-- What is wrong with a configuration: names that it leads to have to be fields, and documents have to be possible. -/
def flaw? (c : Config) : Option ConfigFlaw :=
  if c.stem.isEmpty then some .emptyStem
  else if c.stem.toList.contains '.' ∨ Build.startsWithDollar c.stem ∨ c.stem.toList.contains '\x00' then
    some (.stem c.stem)
  else c.limits.fault?.map .limits

def ofText (text : String) : Except CompileError Config :=
  match (Json.tree? text.toList).bind ofTree? with
  | none => .error (.config .json)
  | some c =>
    match c.flaw? with
    | some flaw => .error (.config flaw)
    | none => .ok c

def load (files : FileAccess) (path : String) : Except CompileError Config :=
  match files.readText path with
  | .error f => .error (.config (.unreadable f.message))
  | .ok text => ofText text

/-- What is logged about a configuration that has been loaded. -/
def loadedEntry (c : Config) (path : String) : Log.Entry :=
  Log.Event.configLoaded.entry [("path", path), ("group_field_prefix", c.stem)]

end Config

end Aggregation
