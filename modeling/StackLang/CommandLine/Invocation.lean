import StackLang.Session.Program
import StackLang.CommandLine.Options
import StackLang.CommandLine.Log
import StackLang.CommandLine.Statistics

/-!
# One call of the program

What the command line, the environment, the files and the standard input come to: the output,
the lines beside it, and the exit code. Nothing here touches the outside world; it is given as
a `World`.
-/

set_option autoImplicit false

namespace StackLang.CommandLine

/-- What the program finds outside. -/
structure World where
  /-- The variables of the environment. -/
  environment : String → Option String
  /-- The contents of files. -/
  file : String → Option (List UInt8)
  /-- The standard input. -/
  input : List UInt8
  /-- What arguments that ask for help are answered with. -/
  help : String
  /-- How long a program takes, in nanoseconds. -/
  elapsed : Nat

/-- What the program leaves. -/
structure Outcome where
  exitCode : Nat
  output : String := ""
  /-- The lines beside the output, in order. -/
  notes : List String := []
deriving DecidableEq

/-- The limits that are in force. An option wins over a setting. -/
def limits (options : Options) (settings : Settings) : Limits :=
  { stack := options.maxStack.getD unbounded
    operations := options.maxOperations.getD unbounded
    depth := (options.maxDepth <|> settings.maxDepth).getD unbounded }

/-- The last words on an error. What the outside world said is repeated as its cause. -/
def errorLines : SessionError → List String
  | .io cause =>
    ["Error: " ++ (SessionError.io cause).message, "", "Caused by:", "    " ++ cause.message]
  | e => ["Error: " ++ e.message]

/-- Runs a program with the given options, in a time that is measured outside. -/
def execute (options : Options) (settings : Settings) (elapsed : Nat) (program : List UInt8) :
    Outcome :=
  let host : Host (Stats × List String) :=
    { limits := limits options settings
      observe := Observer.both Stats.observe (logger settings options.listing) }
  let (session, result) := (Session.start .empty {} ({}, [])).runProgram host program
  let (stats, log) := session.machine.seen
  let said := log.reverse ++ if options.stats then statsLines elapsed stats else []
  let output := session.machine.sink.text
  match result with
  | .ok () => { exitCode := 0, output, notes := said }
  | .error e => { exitCode := 1, output, notes := said ++ errorLines e }

/-- The program that the options name, if there is one. -/
def World.program? (world : World) (options : Options) : Option (List UInt8) :=
  match options.file with
  | some name => world.file name
  | none => some world.input

/-- Calls the program with options. A missing file is found before the settings are read. -/
def respond (world : World) (options : Options) : Outcome :=
  match world.program? options with
  | none => { exitCode := 1, notes := ["Error: " ++ IoFault.missingFile.message] }
  | some program =>
    let (settings, warnings) := Settings.ofEnvironment world.environment
    let outcome := execute options settings world.elapsed program
    { outcome with notes := warnings ++ outcome.notes }

/-- Calls the program with arguments. Those that give no options are answered by their reader. -/
def invoke (world : World) (arguments : List String) : Outcome :=
  match Options.parse arguments with
  | .error .help => { exitCode := 0, output := world.help }
  | .error .usage => { exitCode := 2 }
  | .ok options => respond world options

end StackLang.CommandLine
