import StackLang.Instruction.Render
import StackLang.IoFault

/-!
# Faults of a run

Why a single instruction fails, and why a run ends early, with the wording of each.
-/

set_option autoImplicit false

namespace StackLang

open Text (natText)

/-- Why an instruction fails. -/
inductive Fault where
  /-- A value is taken off the empty stack. -/
  | emptyStack
  /-- A value is put on a stack that is at its limit. -/
  | fullStack
  /-- The stack is lower than the instruction requires. -/
  | tooFewValues (height required : Nat)
  | divisionByZero
  | unknownFunction (name : String)
  /-- A call is made while the limit of open calls is reached. -/
  | tooDeep (limit : Nat)
deriving DecidableEq

namespace Fault

/-- The wording of a fault. -/
def message : Fault → String
  | .emptyStack => "Removing from an empty stack"
  | .fullStack => "Adding to a full stack"
  | .tooFewValues height required =>
    "Not enough elements on the stack: " ++ natText height ++ " elements, " ++ natText required ++
      " required"
  | .divisionByZero => "Division by zero"
  | .unknownFunction name => "Call to undefined function `" ++ name ++ "`"
  | .tooDeep limit => "Call depth limit exceeded (" ++ natText limit ++ " nested calls)"

/-- Whether the stack held fewer values than the instruction needs. -/
def isUnderflow : Fault → Bool
  | .emptyStack => true
  | .tooFewValues _ _ => true
  | _ => false

end Fault

/-- Why a run ends early. -/
inductive RunError where
  /-- An instruction failed, at a call depth, after a number of executed instructions. -/
  | instructionFailed (instruction : Instruction) (depth executed : Nat) (fault : Fault)
  /-- The limit of instructions was reached. -/
  | tooLong (executed : Nat)
  /-- A value could not be written. -/
  | output (cause : IoFault)
deriving DecidableEq

namespace RunError

/-- The wording of an error. -/
def message : RunError → String
  | .instructionFailed i depth executed fault =>
    "Instruction " ++ i.mnemonic ++ " failed (call depth " ++ natText depth ++
      ", instruction counter " ++ natText executed ++ "): " ++ fault.message
  | .tooLong executed =>
    "The program ran for too long (" ++ natText executed ++ " instructions had been run)."
  | .output cause => "Failed to write output: " ++ cause.message

/-- The fault of the instruction that failed, if one did. -/
def fault? : RunError → Option Fault
  | .instructionFailed _ _ _ fault => some fault
  | _ => none

end RunError

end StackLang
