/-! The arguments of the program: an optional flag, a command, and the options of the command. An option takes its
value from the next argument or after an equals sign. A fault is reported where the arguments are first seen to be
wrong, so an option that waits for its value fails only when the next flag, option or the end comes. -/

namespace Aggregation.CommandLine

/-- What the program is asked to do. -/
inductive Command where
  | compile (query : String) (config bson : Option String)
  | explain (query : String) (config : Option String)
  | decode (input : String) (config : Option String)
  deriving DecidableEq, Repr

/-- A command, and whether everything is logged. -/
structure Invocation where
  verbose : Bool
  command : Command
  deriving DecidableEq, Repr

inductive UsageFault where
  | helpWanted
  | versionWanted
  | nothingGiven
  | missingOption
  | missingCommand
  | unknownCommand
  | unknownArgument
  | needlessValue
  | missingValue
  | repeatedOption
  deriving DecidableEq, Repr

namespace UsageFault

def name : UsageFault → String
  | .helpWanted => "DisplayHelp"
  | .versionWanted => "DisplayVersion"
  | .nothingGiven => "DisplayHelpOnMissingArgumentOrSubcommand"
  | .missingOption => "MissingRequiredArgument"
  | .missingCommand => "MissingSubcommand"
  | .unknownCommand => "InvalidSubcommand"
  | .unknownArgument => "UnknownArgument"
  | .needlessValue => "TooManyValues"
  | .missingValue => "InvalidValue"
  | .repeatedOption => "ArgumentConflict"

/-- The exit code: asking for help or for the version is no failure. -/
def exitCode : UsageFault → Nat
  | .helpWanted | .versionWanted => 0
  | _ => 2

end UsageFault

/-- What one argument looks like. -/
inductive Shape where
  | separator
  /-- A word after two dashes, with what stands after an equals sign. -/
  | long (word : String) (value : Option String)
  /-- A letter after one dash; letters behind it are not looked at. -/
  | short (letter : Char)
  | plain
  deriving DecidableEq, Repr

/-- The text before the first equals sign, and the text after it if there is one. -/
def splitValue (text : List Char) : String × Option String :=
  (String.ofList (text.takeWhile (· != '=')),
    match text.dropWhile (· != '=') with
    | [] => none
    | _ :: value => some (String.ofList value))

/-- The shape of an argument. A dash alone is a plain one. -/
def shape (arg : String) : Shape :=
  match arg.toList with
  | ['-', '-'] => .separator
  | '-' :: '-' :: rest => let (word, value) := splitValue rest; .long word value
  | '-' :: letter :: _ => .short letter
  | _ => .plain

/-- What has been read behind a command. -/
structure Scan where
  verbose : Bool := false
  options : List (String × String) := []
  /-- An option that is not complete until something else comes, with its value if it has come. -/
  pending : Option (String × Option String) := none
  deriving DecidableEq, Repr, Inhabited

namespace Scan

def commit (s : Scan) (option value : String) : Except UsageFault Scan :=
  if (s.options.lookup option).isSome then .error .repeatedOption
  else if value.isEmpty then .error .missingValue
  else .ok { s with options := (option, value) :: s.options, pending := none }

/-- Completes the option that waits. -/
def settle (s : Scan) : Except UsageFault Scan :=
  match s.pending with
  | none => .ok s
  | some (_, none) => .error .missingValue
  | some (option, some value) => s.commit option value

/-- Reads an argument after two dashes. -/
def long (s : Scan) (options : List String) (word : String) (value : Option String) :
    Except UsageFault Scan := do
  if options.contains word then
    let s ← s.settle
    match value with
    | some value => s.commit word value
    | none => return { s with pending := some (word, none) }
  else if word = "verbose" ∨ word = "help" then
    if value.isSome then throw .needlessValue
    let s ← s.settle
    if word = "help" then throw .helpWanted
    if s.verbose then throw .repeatedOption
    return { s with verbose := true }
  else throw .unknownArgument

def run (options : List String) (s : Scan) : List String → Except UsageFault Scan
  | [] => s.settle
  | arg :: rest =>
    match shape arg with
    | .separator => if rest.isEmpty then s.settle else .error .unknownArgument
    | .long word value => do run options (← s.long options word value) rest
    | .short letter => do
      if letter ≠ 'h' then throw .unknownArgument
      discard s.settle
      throw .helpWanted
    | .plain =>
      match s.pending with
      | some (option, none) => run options { s with pending := some (option, some arg) } rest
      | _ => .error .unknownArgument

/-- The value of an option without which the command makes no sense. -/
def require (s : Scan) (option : String) : Except UsageFault String :=
  match s.options.lookup option with
  | some value => .ok value
  | none => .error .missingOption

end Scan

def commandWords : List String := ["translate", "explain", "decode"]

def readCommand (verbose : Bool) (word : String) (args : List String) : Except UsageFault Invocation := do
  if word = "translate" then
    let s ← Scan.run ["query", "config", "bson"] {} args
    return ⟨verbose || s.verbose,
      .compile (← s.require "query") (s.options.lookup "config") (s.options.lookup "bson")⟩
  else if word = "explain" then
    let s ← Scan.run ["query", "config"] {} args
    return ⟨verbose || s.verbose, .explain (← s.require "query") (s.options.lookup "config")⟩
  else
    let s ← Scan.run ["input", "config"] {} args
    return ⟨verbose || s.verbose, .decode (← s.require "input") (s.options.lookup "config")⟩

def helpFault : List String → UsageFault
  | [] => .helpWanted
  | [word] => if (commandWords ++ ["help"]).contains word then .helpWanted else .unknownCommand
  | _ => .unknownCommand

/-- What the end of the arguments means if no command has come. -/
def noCommand (verbose : Bool) : UsageFault := if verbose then .missingCommand else .nothingGiven

/-- Reads the arguments of the program, of which the flag may have come already. -/
def readFrom (verbose : Bool) : List String → Except UsageFault Invocation
  | [] => .error (noCommand verbose)
  | arg :: rest =>
    if arg = "help" then .error (helpFault rest)
    else if commandWords.contains arg then readCommand verbose arg rest
    else
      match shape arg with
      | .separator =>
        match rest with
        | [] => .error (noCommand verbose)
        | next :: _ =>
          .error (if (commandWords ++ ["help"]).contains next then .unknownArgument else .unknownCommand)
      | .long word value =>
        if word = "verbose" ∨ word = "help" ∨ word = "version" then
          if value.isSome then .error .needlessValue
          else if word = "help" then .error .helpWanted
          else if word = "version" then .error .versionWanted
          else if verbose then .error .repeatedOption
          else readFrom true rest
        else .error .unknownArgument
      | .short letter =>
        .error (if letter = 'h' then .helpWanted
          else if letter = 'V' then .versionWanted
          else .unknownArgument)
      | .plain => .error .unknownCommand

def read (args : List String) : Except UsageFault Invocation := readFrom false args

end Aggregation.CommandLine
