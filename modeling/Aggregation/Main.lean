import Aggregation.CommandLine.Run

/-! The program: reads the files that its arguments name, runs the command, and shows what it did. -/

namespace Aggregation.CommandLine

def Command.paths : Command → List String
  | .compile query config _ => query :: config.toList
  | .explain query config => query :: config.toList
  | .decode input config => input :: config.toList

/-- Two digits for each byte, with dashes between the parts of a random name. -/
def nameOfBytes (bytes : List UInt8) : String :=
  let part (start count : Nat) := Hex.encode ((bytes.drop start).take count)
  "-".intercalate [part 0 4, part 4 2, part 6 2, part 8 2, part 10 6]

def markRandom (bytes : List UInt8) : List UInt8 :=
  bytes.zipIdx.map fun (b, i) =>
    if i = 6 then b % 16 + 0x40 else if i = 8 then b % 64 + 0x80 else b

/-- The number of a system error, which is given as it is or negated. -/
def errorNumber (code : UInt32) : Nat := code.toInt32.toInt.natAbs

/-- What the system says about a failure. -/
def faultOf : IO.Error → FileFault
  | .noFileOrDirectory .. => .notFound
  | .inappropriateType _ code _ => if errorNumber code = 20 then .notDirectory else .isDirectory
  | .invalidArgument _ code details =>
    if errorNumber code = 36 then .nameTooLong
    else if errorNumber code = 22 then .nulInName
    else .other details
  | e => .other (toString e)

def readPath (path : String) : IO (Except FileFault (List UInt8)) := do
  try
    return .ok (← IO.FS.readBinFile path).toList
  catch e => return .error (faultOf e)

def writePath (path : String) (bytes : List UInt8) : IO (Except FileFault Unit) := do
  try
    IO.FS.writeBinFile path ⟨bytes.toArray⟩
    return .ok ()
  catch e => return .error (faultOf e)

/-- Runs the program on the file system. -/
def perform (args : List String) : IO Exit := do
  match read args with
  | .error f => return f.exit
  | .ok i =>
    let id := nameOfBytes (markRandom (← IO.getRandomBytes 16).toList)
    let contents ← i.command.paths.mapM fun path => return (path, ← readPath path)
    let reading (path : String) : Except FileFault (List UInt8) := (contents.lookup path).getD (.error .notFound)
    let exit := run ⟨reading, fun _ => .ok ()⟩ id args
    match exit.written with
    | none => return exit
    | some (path, bytes) =>
      match ← writePath path bytes with
      | .ok () => return exit
      | .error f => return run ⟨reading, fun _ => .error f⟩ id args

end Aggregation.CommandLine

def main (args : List String) : IO UInt32 := do
  let exit ← Aggregation.CommandLine.perform args
  IO.print exit.output
  IO.eprint exit.errors
  return UInt32.ofNat exit.code
