import Aggregation.CommandLine.Arguments
import Aggregation.Compile.Explain
import Aggregation.Query.Building
import Aggregation.Query.Reading
import Aggregation.Wire.DocumentStream

/-! Running a command: what it prints, what it logs, and the file that it writes. -/

namespace Aggregation.CommandLine

inductive Failure where
  | config (flaw : ConfigFlaw)
  | compile (e : CompileError)
  | wire (e : Wire.WireError)
  | file (f : FileFault)
  deriving Repr

namespace Failure

def ofCompileError : CompileError → Failure
  | .config flaw => .config flaw
  | e => .compile e

def code : Failure → String
  | .config _ => "DOCPIPE_CLI_CONFIG_ERROR"
  | .compile _ => "DOCPIPE_CLI_TRANSLATE_ERROR"
  | .wire _ => "DOCPIPE_CLI_CODEC_ERROR"
  | .file _ => "DOCPIPE_CLI_IO_ERROR"

def sourceCode? : Failure → Option String
  | .compile e => some e.code
  | .wire e => some e.code
  | _ => none

def message : Failure → String
  | .config flaw => "Configuration error: " ++ flaw.reason
  | .compile e => "Query rejected: " ++ e.message
  | .wire e => "Codec error: " ++ e.message
  | .file f => "I/O error: " ++ f.message

/-- The answer that reports a failure. -/
def response (f : Failure) : Json :=
  .ofMembers [("status", .string "error"), ("code", .string (f.sourceCode?.getD f.code)),
    ("message", .string f.message)]

end Failure

/-- What a command leaves behind. -/
structure Outcome where
  result : Except Failure Unit
  /-- The lines on standard output. -/
  output : String := ""
  log : List Log.Entry := []
  /-- The file that has been written, and its bytes. -/
  written : Option (String × List UInt8) := none
  deriving Repr

namespace Outcome

def fail (f : Failure) (log : List Log.Entry := []) : Outcome := { result := .error f, log }

def after (log : List Log.Entry) (o : Outcome) : Outcome := { o with log := log ++ o.log }

end Outcome

def jsonLine (j : Json) : String := j.compact ++ "\n"

/-- Goes on with the configuration at a path, or with the default. -/
def withConfig (files : FileAccess) (path : Option String) (next : Config → Outcome) : Outcome :=
  match path with
  | none => next {}
  | some path =>
    match Config.load files path with
    | .error e => .fail (.ofCompileError e)
    | .ok c => (next c).after [c.loadedEntry path]

def loadQuery (files : FileAccess) (path : String) : Except CompileError Query :=
  match files.readText path with
  | .error f => .error (.query (.unreadable f.message))
  | .ok text => Query.ofText text

def compileQuery (c : Config) (id : String) (q : Query) : Compilation.Run :=
  match q.build.run {} with
  | .error e => ⟨.error e, []⟩
  | .ok (root, supply) => Aggregation.compile c id root supply

/-- The answer to a compiled query. -/
def response (id : String) (p : Pipeline) (written : List (String × Json)) : Json :=
  .ofMembers [("status", .string "ok"),
    ("data", .ofMembers ([("translation_id", .string id), ("command", p.toJson)] ++ written))]

/-- Writes the stages to a file and then answers. What reached the file before a failure stays there. -/
def writeStages (files : FileAccess) (c : Config) (id : String) (p : Pipeline) (path : String) : Outcome :=
  match files.create path with
  | .error f => .fail (.file f)
  | .ok () =>
    let encoded := Wire.encodeStream p.documents {} c.limits
    let written := some (path, encoded.bytes)
    match encoded.result with
    | .error e => { result := .error (.wire e), log := encoded.log, written }
    | .ok size =>
      let members := [("path", .string path), ("documents", .int p.stages.length), ("bytes", .int size)]
      let output := jsonLine (response id p [("bson", .ofMembers members)])
      { result := .ok (), output, log := encoded.log, written }

def runCompile (files : FileAccess) (id query : String) (config bson : Option String) : Outcome :=
  withConfig files config fun c =>
    match loadQuery files query with
    | .error e => .fail (.ofCompileError e)
    | .ok q =>
      let run := compileQuery c id q
      match run.result with
      | .error e => .fail (.ofCompileError e) run.log
      | .ok done =>
        let rest : Outcome := match bson with
          | none => { result := .ok (), output := jsonLine (response id done.pipeline []) }
          | some path => writeStages files c id done.pipeline path
        rest.after run.log

/-- Gives an account of the compilation of a query, whether it succeeds or not. -/
def runExplain (files : FileAccess) (id query : String) (config : Option String) : Outcome :=
  withConfig files config fun c =>
    match loadQuery files query with
    | .error e => .fail (.ofCompileError e)
    | .ok q =>
      let run := compileQuery c id q
      let output := match run.result with
        | .ok done => done.explain
        | .error e => e.explain
      { result := .ok (), output, log := run.log }

/-- Prints the documents of a source, one a line, up to its end or the first error. -/
def printDocuments (c : Config) (source : Wire.Source) : Outcome :=
  let (documents, stream) := (Wire.DocumentStream.ofSource source c.limits).collect
  { result := match stream.error with
      | none => .ok ()
      | some e => .error (.wire e)
    output := String.join (documents.map fun d => jsonLine (ExtendedJson.ofDocument d))
    log := stream.reader.log }

/-- Decodes a file. A directory can be opened, and fails when it is read. -/
def runDecode (files : FileAccess) (input : String) (config : Option String) : Outcome :=
  withConfig files config fun c =>
    match files.read input with
    | .ok bytes => printDocuments c (.ofBytes bytes)
    | .error .isDirectory => printDocuments c ⟨[], .fails FileFault.isDirectory.message⟩
    | .error f => .fail (.file f)

def Command.run (files : FileAccess) (id : String) : Command → Outcome
  | .compile query config bson => runCompile files id query config bson
  | .explain query config => runExplain files id query config
  | .decode input config => runDecode files input config

/-- What the program shows and leaves when it ends. -/
structure Exit where
  code : Nat
  output : String
  errors : String
  written : Option (String × List UInt8) := none
  deriving Repr

/-- The least severity that is logged. -/
def Invocation.severity (i : Invocation) : Log.Severity := if i.verbose then .trace else .defaultMinimum

def versionText : String := "docpipe 0.1.0\n"

/-- How the program is called. -/
def usageText : String :=
  "Usage: docpipe [--verbose] translate --query <path> [--config <path>] [--bson <path>]\n" ++
  "       docpipe [--verbose] explain --query <path> [--config <path>]\n" ++
  "       docpipe [--verbose] decode --input <path> [--config <path>]\n"

/-- The end of the program when its arguments call for no command. -/
def UsageFault.exit (f : UsageFault) : Exit :=
  match f with
  | .versionWanted => ⟨f.exitCode, versionText, "", none⟩
  | .helpWanted => ⟨f.exitCode, usageText, "", none⟩
  | _ => ⟨f.exitCode, "", usageText, none⟩

/-- The end of the program after a command. A failure is reported on both outputs. -/
def Invocation.exit (i : Invocation) (o : Outcome) : Exit :=
  let logged := String.join ((Log.lines i.severity o.log).map (· ++ "\n"))
  match o.result with
  | .ok () => ⟨0, o.output, logged, o.written⟩
  | .error f =>
    ⟨1, o.output ++ jsonLine f.response, logged ++ f.code ++ ": " ++ f.message ++ "\n", o.written⟩

def run (files : FileAccess) (id : String) (args : List String) : Exit :=
  match read args with
  | .error f => f.exit
  | .ok i => i.exit (i.command.run files id)

end Aggregation.CommandLine
