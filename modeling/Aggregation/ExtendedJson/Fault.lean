import Aggregation.Json.Printer

/-! Why a JSON value describes no value of the model. -/

namespace Aggregation.ExtendedJson

/-- What is wrong with a wrapper or with a document. -/
inductive Fault where
  | notText (what : String)
  | objectId (text : String)
  | number (wrapper text : String)
  | base64
  | subtype (text : String)
  | dateNumber
  | dateObject
  | dateForm
  | timestamp
  /-- A document was expected. -/
  | notObject (found : Json)
  deriving Repr, Inhabited

def Fault.reason : Fault → String
  | .notText what => what ++ " must be a string"
  | .objectId text => "'" ++ text ++ "' is not a 24-digit hex object id"
  | .number wrapper text => "bad " ++ wrapper ++ " '" ++ text ++ "'"
  | .base64 => "bad base64 in $binary"
  | .subtype text => "bad $binary subType '" ++ text ++ "'"
  | .dateNumber => "$date must be an integer"
  | .dateObject => "$date object must hold $numberLong"
  | .dateForm => "unsupported $date form"
  | .timestamp => "$timestamp needs unsigned 32-bit t and i"
  | .notObject found => "expected an object, found " ++ found.compact

def Fault.message (f : Fault) : String := "Invalid extended JSON: " ++ f.reason

end Aggregation.ExtendedJson
