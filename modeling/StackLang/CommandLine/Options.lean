import StackLang.Text.Decimal

/-!
# Options of the command line

Three limits with a value, two flags, and at most one file, in any order. An option may be
given once. A limit's value is the rest of the argument, with or without an equals sign, or
the next argument, which must not start with a hyphen; a long option needs the equals sign.
Short flags can be written together. After `--` every argument is a file. Arguments are read
from left to right, up to the first that is wrong or asks for help.
-/

set_option autoImplicit false

namespace StackLang.CommandLine

open Text (readCounter)

/-- What the arguments ask for. -/
structure Options where
  file : Option String := none
  maxStack : Option UInt64 := none
  maxOperations : Option UInt64 := none
  maxDepth : Option UInt64 := none
  /-- Statistics are written after the run. -/
  stats : Bool := false
  /-- The code of every line is written before it runs. -/
  listing : Bool := false
deriving DecidableEq

/-- An option that takes a value. -/
inductive LimitOption where
  | maxStack
  | maxOperations
  | maxDepth
deriving DecidableEq

/-- An option that takes no value. -/
inductive Flag where
  | stats
  | listing
deriving DecidableEq

/-- An option of any kind. -/
inductive Switch where
  | limit (option : LimitOption)
  | flag (flag : Flag)
  | help
deriving DecidableEq

/-- Why arguments give no options. -/
inductive Refusal where
  /-- They ask for help. -/
  | help
  /-- Something is wrong with them. -/
  | usage
deriving DecidableEq

namespace Switch

/-- The option with a short name. -/
def ofShort? : Char → Option Switch
  | 'm' => some (.limit .maxStack)
  | 'l' => some (.limit .maxOperations)
  | 'd' => some (.limit .maxDepth)
  | 's' => some (.flag .stats)
  | 'h' => some .help
  | _ => none

/-- The option with a long name. -/
def ofLong? (name : String) : Option Switch :=
  [("max-stack-size", .limit .maxStack), ("op-limit", .limit .maxOperations),
   ("max-depth", .limit .maxDepth), ("stats", .flag .stats), ("ir", .flag .listing),
   ("help", .help)].lookup name

end Switch

namespace Options

/-- Sets something that has not been set. -/
def fresh? {α : Type} (old : Option α) (value : α) : Option (Option α) :=
  if old.isNone then some (some value) else none

/-- Names the file. -/
def setFile? (o : Options) (name : String) : Option Options := do
  return { o with file := ← fresh? o.file name }

/-- Sets a limit, if the value is a 64-bit word. -/
def setLimit? (o : Options) (option : LimitOption) (value : List Char) : Option Options := do
  let word := UInt64.ofNat (← (readCounter UInt64.size value).toOption)
  match option with
  | .maxStack => return { o with maxStack := ← fresh? o.maxStack word }
  | .maxOperations => return { o with maxOperations := ← fresh? o.maxOperations word }
  | .maxDepth => return { o with maxDepth := ← fresh? o.maxDepth word }

/-- Sets a flag. -/
def setFlag? (o : Options) : Flag → Option Options
  | .stats => if o.stats then none else some { o with stats := true }
  | .listing => if o.listing then none else some { o with listing := true }

end Options

/-- What has been read of the arguments. -/
structure ArgumentState where
  options : Options := {}
  /-- An option whose value is the next argument. -/
  awaiting : Option LimitOption := none
  /-- Whether `--` has been read. -/
  filesOnly : Bool := false
deriving DecidableEq

/-- What cannot be done with arguments is wrong with them. -/
def orUsage {α : Type} : Option α → Except Refusal α
  | some a => .ok a
  | none => .error .usage

namespace ArgumentState

/-- Reads options with short names, written together. -/
def readShort (s : ArgumentState) : List Char → Except Refusal ArgumentState
  | [] => .ok s
  | c :: rest =>
    match Switch.ofShort? c with
    | none => .error .usage
    | some .help => .error .help
    | some (.flag flag) =>
      match s.options.setFlag? flag with
      | none => .error .usage
      | some options => readShort { s with options } rest
    | some (.limit option) =>
      match rest with
      | [] => .ok { s with awaiting := some option }
      | '=' :: value => orUsage ((s.options.setLimit? option value).map ({ s with options := · }))
      | value => orUsage ((s.options.setLimit? option value).map ({ s with options := · }))

/-- Reads an option with a long name. -/
def readLong (s : ArgumentState) (text : List Char) : Except Refusal ArgumentState :=
  let name := text.takeWhile (· ≠ '=')
  match Switch.ofLong? (String.ofList name), text.drop name.length with
  | some .help, [] => .error .help
  | some (.flag flag), [] => orUsage ((s.options.setFlag? flag).map ({ s with options := · }))
  | some (.limit option), [] => .ok { s with awaiting := some option }
  | some (.limit option), _ :: value =>
    orUsage ((s.options.setLimit? option value).map ({ s with options := · }))
  | _, _ => .error .usage

/-- Reads the next argument. -/
def step (s : ArgumentState) (argument : String) : Except Refusal ArgumentState :=
  match s.awaiting, argument.toList with
  | some _, '-' :: _ => .error .usage
  | some option, value =>
    orUsage ((s.options.setLimit? option value).map ({ s with options := ·, awaiting := none }))
  | none, text =>
    if s.filesOnly then orUsage ((s.options.setFile? argument).map ({ s with options := · }))
    else match text with
      | ['-', '-'] => .ok { s with filesOnly := true }
      | '-' :: '-' :: long => s.readLong long
      | '-' :: c :: short => s.readShort (c :: short)
      | _ => orUsage ((s.options.setFile? argument).map ({ s with options := · }))

end ArgumentState

/-- The options that the arguments give. -/
def Options.parse (arguments : List String) : Except Refusal Options := do
  let s ← arguments.foldlM ArgumentState.step {}
  if s.awaiting.isSome then .error .usage else .ok s.options

/-- The first argument that is wrong or asks for help decides. -/
example : Options.parse ["-sh", "--none"] = .error .help ∧
    Options.parse ["--none", "-sh"] = .error .usage := ⟨by cbv, by cbv⟩

end StackLang.CommandLine
