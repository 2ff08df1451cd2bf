import Aggregation.Text.Hex

/-! Log lines. A line is one JSON object of strings: the event, its severity, and the fields in the order
of their keys. Lines below a minimum severity are dropped. -/

namespace Aggregation.Log

/-- How serious a line is. -/
inductive Severity where
  | trace
  | info
  | warn
  | error
  deriving DecidableEq, Repr, Inhabited

namespace Severity

/-- The severities, least serious first. -/
def all : List Severity := [.trace, .info, .warn, .error]

def name : Severity → String
  | .trace => "TRACE"
  | .info => "INFO"
  | .warn => "WARN"
  | .error => "ERROR"

def ofName? (name : String) : Option Severity := all.find? (·.name == name)

/-- The place in the order. -/
def rank : Severity → Nat
  | .trace => 0
  | .info => 1
  | .warn => 2
  | .error => 3

/-- The minimum severity unless another is set. -/
def defaultMinimum : Severity := .warn

end Severity

/-- What the library reports. -/
inductive Event where
  | configLoaded
  | compileBegin
  | groupStagePlanned
  | stageEliminated
  | compileComplete
  | compileRejected
  | unknownType
  | staleBookmark
  | transportReleased
  deriving DecidableEq, Repr, Inhabited

namespace Event

/-- The events, in the order of their declaration. -/
def all : List Event :=
  [.configLoaded, .compileBegin, .groupStagePlanned, .stageEliminated, .compileComplete,
    .compileRejected, .unknownType, .staleBookmark, .transportReleased]

def name : Event → String
  | .configLoaded => "CONFIG_LOADED"
  | .compileBegin => "TRANSLATION_BEGIN"
  | .groupStagePlanned => "GROUP_STAGE_PLANNED"
  | .stageEliminated => "STAGE_ELIMINATED"
  | .compileComplete => "TRANSLATION_COMPLETE"
  | .compileRejected => "TRANSLATION_REJECTED"
  | .unknownType => "BSON_UNKNOWN_TYPE"
  | .staleBookmark => "BSON_STALE_BOOKMARK"
  | .transportReleased => "TRANSPORT_RELEASED"

def ofName? (name : String) : Option Event := all.find? (·.name == name)

def severity : Event → Severity
  | .compileRejected => .error
  | .unknownType | .staleBookmark => .warn
  | .configLoaded | .compileBegin | .compileComplete => .info
  | .groupStagePlanned | .stageEliminated | .transportReleased => .trace

end Event

/-- What a line says. -/
structure Entry where
  severity : Severity
  event : String
  fields : List (String × String)
  deriving Repr, Inhabited

def Event.entry (event : Event) (fields : List (String × String)) : Entry :=
  ⟨event.severity, event.name, fields⟩

/-- One character inside a string. Control characters, those past ASCII included, are escaped. -/
def escape (c : Char) : List Char :=
  match c with
  | '"' => ['\\', '"']
  | '\\' => ['\\', '\\']
  | '\n' => ['\\', 'n']
  | '\r' => ['\\', 'r']
  | '\t' => ['\\', 't']
  | c =>
    if c.toNat < 0x20 ∨ 0x7F ≤ c.toNat ∧ c.toNat ≤ 0x9F then '\\' :: 'u' :: (Hex.padded 4 c.toNat).toList
    else [c]

def literal (s : String) : List Char := '"' :: s.toList.flatMap escape ++ ['"']

/-- A field after a comma. -/
def member (field : String × String) : List Char := ',' :: literal field.1 ++ ':' :: literal field.2

/-- The fields in the order of their keys; fields of one key keep their order. -/
def sortFields (fields : List (String × String)) : List (String × String) :=
  fields.mergeSort fun a b => decide (a.1 ≤ b.1)

namespace Entry

/-- The characters of a line without the line break. -/
def render (e : Entry) : List Char :=
  '\x7b' :: literal "event" ++ ':' :: literal e.event ++ member ("severity", e.severity.name) ++
    (sortFields e.fields).flatMap member ++ ['\x7d']

def line (e : Entry) : String := String.ofList (e.render ++ ['\n'])

def isEnabled (minimum : Severity) (e : Entry) : Bool := minimum.rank ≤ e.severity.rank

end Entry

/-- The lines that are written under a minimum severity, without line breaks. -/
def lines (minimum : Severity) (entries : List Entry) : List String :=
  (entries.filter (·.isEnabled minimum)).map fun e => String.ofList e.render

end Aggregation.Log
