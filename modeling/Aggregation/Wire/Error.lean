import Aggregation.ExtendedJson.Fault
import Aggregation.Wire.ElementType

/-! Failures of reading and writing the binary format, their codes and messages. -/

namespace Aggregation.Wire

/-- What keeps payload bytes from being a value. -/
inductive Malformation where
  | nameNotText
  | stringNotTerminated
  | stringNotText
  | regexPartNotText
  | booleanByte (b : UInt8)
  /-- The inner length of a legacy binary has to be four less than the outer. -/
  | legacyLength (inner outer : Int)
  | duplicateField (name : String)
  | trailingBytes
  deriving Repr

def Malformation.reason : Malformation → String
  | .nameNotText => "element name is not valid UTF-8"
  | .stringNotTerminated => "string is not NUL-terminated"
  | .stringNotText => "string is not valid UTF-8"
  | .regexPartNotText => "cstring is not valid UTF-8"
  | .booleanByte b => "invalid boolean byte 0x" ++ Hex.padded 2 b.toNat
  | .legacyLength inner outer =>
    "legacy binary inner length " ++ toString inner ++ " does not match outer length " ++ toString outer
  | .duplicateField name => "duplicate field name \"" ++ name ++ "\""
  | .trailingBytes => "trailing bytes after document"

/-- Why the end of a container cannot come now. -/
inductive Premature where
  | notADocument
  | noDocument
  | notAnArray
  | terminatorUnread (state : String)
  | nameWithoutValue
  deriving Repr

def Premature.reason : Premature → String
  | .notADocument => "the innermost open container is not a document"
  | .noDocument => "no document is open"
  | .notAnArray => "the innermost open container is not an array"
  | .terminatorUnread state => "terminator has not been read (state is " ++ state ++ ")"
  | .nameWithoutValue => "an element name was written without a value"

/-- Why a bookmark does not lead back. -/
inductive Staleness where
  | otherReader
  | notBuffered
  deriving DecidableEq, Repr

def Staleness.reason : Staleness → String
  | .otherReader => "bookmark was taken on a different reader"
  | .notBuffered => "position is no longer buffered"

/-- A failure of reading or writing. -/
inductive WireError where
  | unknownType (tag : UInt8) (path : String)
  | fieldNameMismatch (expected actual path : String)
  /-- A container did not end where its length said. -/
  | lengthMismatch (path : String) (declared : Int) (consumed : Nat)
  | prematureEnd (operation : String) (cause : Premature)
  | invalidLength (length : Int) (offset : Nat)
  | documentTooLarge (size max : Int)
  | nestingTooDeep (depth max : Nat)
  /-- The bytes ran out in the middle of a value; the offset is where. -/
  | unexpectedEnd (offset : Nat)
  | malformedValue (offset : Nat) (cause : Malformation)
  | invalidState (operation state : String)
  | unexpectedType (operation : String) (actual : ElementType)
  | extendedJson (fault : ExtendedJson.Fault)
  /-- A name or a part of a regular expression holds a NUL. -/
  | invalidName (name : String)
  | staleBookmark (position : Nat) (cause : Staleness)
  | closed
  /-- The transport failed. -/
  | io (message : String)
  deriving Repr, Inhabited

namespace WireError

/-- The stable code of a failure. -/
def code : WireError → String
  | .unknownType .. => "DOCPIPE_BSON_UNKNOWN_TYPE"
  | .fieldNameMismatch .. => "DOCPIPE_BSON_FIELD_NAME_MISMATCH"
  | .lengthMismatch .. => "DOCPIPE_BSON_LENGTH_MISMATCH"
  | .prematureEnd .. => "DOCPIPE_BSON_PREMATURE_END"
  | .invalidLength .. => "DOCPIPE_BSON_INVALID_LENGTH"
  | .documentTooLarge .. => "DOCPIPE_BSON_DOCUMENT_TOO_LARGE"
  | .nestingTooDeep .. => "DOCPIPE_BSON_NESTING_TOO_DEEP"
  | .unexpectedEnd .. => "DOCPIPE_BSON_UNEXPECTED_EOF"
  | .malformedValue .. => "DOCPIPE_BSON_MALFORMED_VALUE"
  | .invalidState .. => "DOCPIPE_BSON_INVALID_STATE"
  | .unexpectedType .. => "DOCPIPE_BSON_UNEXPECTED_TYPE"
  | .extendedJson .. => "DOCPIPE_BSON_INVALID_JSON"
  | .invalidName .. => "DOCPIPE_BSON_INVALID_NAME"
  | .staleBookmark .. => "DOCPIPE_BSON_STALE_BOOKMARK"
  | .closed => "DOCPIPE_BSON_CLOSED"
  | .io .. => "DOCPIPE_BSON_IO"

def message : WireError → String
  | .unknownType tag path =>
    "Detected unknown BSON type \"\\x" ++ Hex.padded 2 tag.toNat ++ "\" for fieldname \"" ++ path ++
      "\". Are you using the latest driver version?"
  | .fieldNameMismatch expected actual path =>
    "Expected element name '" ++ expected ++ "' but found '" ++ actual ++ "' at '" ++ path ++ "'"
  | .lengthMismatch path declared consumed =>
    "Container '" ++ path ++ "' declared " ++ toString declared ++ " bytes but " ++ toString consumed ++
      " were consumed"
  | .prematureEnd operation cause => operation ++ " is not legal here: " ++ cause.reason
  | .invalidLength length offset =>
    "Invalid length " ++ toString length ++ " at byte offset " ++ toString offset
  | .documentTooLarge size max => "Document size " ++ toString size ++ " exceeds maximum " ++ toString max
  | .nestingTooDeep depth max => "Nesting depth " ++ toString depth ++ " exceeds maximum " ++ toString max
  | .unexpectedEnd offset => "Unexpected end of stream at byte offset " ++ toString offset
  | .malformedValue offset cause => "Malformed value at byte offset " ++ toString offset ++ ": " ++ cause.reason
  | .invalidState operation state => operation ++ " cannot be called when state is " ++ state
  | .unexpectedType operation actual => operation ++ " cannot be called when current type is " ++ actual.name
  | .extendedJson fault => fault.message
  | .invalidName name => "Invalid element name '" ++ name ++ "'"
  | .staleBookmark position cause =>
    "Bookmark at byte offset " ++ toString position ++ " is not valid for this reader: " ++ cause.reason
  | .closed => "Stream is closed"
  | .io message => "I/O error: " ++ message

/-- Whether the document that is being processed is lost. Errors of usage leave the stream where it was. -/
def isFatal : WireError → Bool
  | .invalidState .. | .unexpectedType .. | .invalidName .. | .staleBookmark .. | .closed => false
  | _ => true

end WireError

end Aggregation.Wire
