import Aggregation.Text.Utf8

/-! What a program may do with files: read the bytes at a path, and make a file there. Either can fail, for the
reasons that a system gives. -/

namespace Aggregation

/-- Why a file cannot be read or written. -/
inductive FileFault where
  | notFound
  | notDirectory
  | isDirectory
  | nameTooLong
  | nulInName
  | notText
  | other (text : String)
  deriving DecidableEq, Repr

def FileFault.message : FileFault → String
  | .notFound => "No such file or directory (os error 2)"
  | .notDirectory => "Not a directory (os error 20)"
  | .isDirectory => "Is a directory (os error 21)"
  | .nameTooLong => "File name too long (os error 36)"
  | .nulInName => "file name contained an unexpected NUL byte"
  | .notText => "stream did not contain valid UTF-8"
  | .other text => text

/-- What files let a program do: read the bytes at a path, and make a file there. -/
structure FileAccess where
  read : String → Except FileFault (List UInt8)
  create : String → Except FileFault Unit

def FileAccess.readText (files : FileAccess) (path : String) : Except FileFault String := do
  match Utf8.decode? (← files.read path) with
  | some text => return text
  | none => throw .notText

end Aggregation
