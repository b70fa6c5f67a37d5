import StackLang.CommandLine.Invocation

/-!
# The program

Reads what the command line needs from the outside world, calls it, and writes what it leaves.
-/

set_option autoImplicit false

namespace StackLang.CommandLine

/-- The contents of a file, if it can be read. -/
def readFile? (name : String) : IO (Option (List UInt8)) := do
  try
    return some (← IO.FS.readBinFile name).toList
  catch _ =>
    return none

/-- All bytes of a stream after those read before. -/
partial def readToEnd (stream : IO.FS.Stream) (before : ByteArray) : IO ByteArray := do
  let chunk ← stream.read 65536
  if chunk.isEmpty then return before
  readToEnd stream (before ++ chunk)

/-- What `--help` prints. -/
def helpText : String :=
  "\n".intercalate
    ["Run an obsolete program: a line count, followed by that many lines of code",
     "",
     "Usage: obsolete-cli [OPTIONS] [FILE]",
     "",
     "Arguments:",
     "  [FILE]  File containing the program. Reads standard input if missing",
     "",
     "Options:",
     "  -m, --max-stack-size <MAX_STACK_SIZE>  Maximum stack size",
     "  -l, --op-limit <OP_LIMIT>              A limit for the number of executed instructions",
     "  -d, --max-depth <MAX_DEPTH>            A limit for nested function calls",
     "  -s, --stats                            Print statistics after running the program",
     "      --ir                               Print the parsed instructions of every line",
     "  -h, --help                             Print help",
     ""]

end StackLang.CommandLine

open StackLang.CommandLine in
/-- Runs a program from a file or from the standard input. -/
def main (arguments : List String) : IO UInt32 := do
  let options := (Options.parse arguments).toOption
  let contents ← match options.bind (·.file) with
    | some name => readFile? name
    | none => pure none
  let input ← match options with
    | some { file := none, .. } => readToEnd (← IO.getStdin) .empty
    | _ => pure .empty
  let verbosity ← IO.getEnv verbosityVariable
  let maxDepth ← IO.getEnv maxDepthVariable
  let call (elapsed : Nat) : Outcome := invoke
    { environment := fun key =>
        if key = verbosityVariable then verbosity
        else if key = maxDepthVariable then maxDepth
        else none
      file := fun _ => contents
      input := input.toList
      help := helpText
      elapsed }
    arguments
  let started ← IO.monoNanosNow
  let untimed ← IO.lazyPure fun _ => call 0
  let stopped ← IO.monoNanosNow
  -- only the statistics show the time, which is known when the call is over
  let outcome := if options.any (·.stats) then call (stopped - started) else untimed
  for note in outcome.notes do
    IO.eprintln note
  IO.print outcome.output
  return outcome.exitCode.toUInt32
