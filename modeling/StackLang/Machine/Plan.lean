import StackLang.Machine.Limits
import StackLang.Machine.Fault
import StackLang.Stack
import StackLang.Arithmetic
import StackLang.Dictionary

/-!
# What an instruction does

An instruction is first planned and then carried out. The plan looks at the stack and the
dictionary without changing anything; it names the values to take off and to put on, in
order, and what has to happen afterwards. Everything that can be wrong with an instruction
shows in its plan, except that a value may find no room on the stack.
-/

set_option autoImplicit false

namespace StackLang

/-- A change of the stack by one value. -/
inductive Move where
  | pop
  | push (value : Int32)
deriving DecidableEq

/-- What follows once an instruction has changed the stack. -/
inductive Effect where
  | nothing
  /-- A value is written to the sink. -/
  | print (value : Int32)
  /-- A function is called. -/
  | enter (name : String) (body : Code)
  /-- A branch is run. -/
  | follow (code : Code)
deriving DecidableEq

/-- The moves of an instruction and its effect. -/
structure Plan where
  moves : List Move
  effect : Effect := .nothing
deriving DecidableEq

namespace Instruction

/-- The plan of an instruction that runs on `stack` with `depth` calls open. -/
def plan (limits : Limits) (functions : Dictionary) (depth : Nat) (stack : Stack) :
    Instruction → Except Fault Plan
  | .number v => .ok { moves := [.push v] }
  | .binary op =>
    match stack.cells with
    | b :: a :: _ =>
      match op.eval? a b with
      | some v => .ok { moves := [.pop, .pop, .push v] }
      | none => .error .divisionByZero
    | _ => .error (.tooFewValues stack.height 2)
  | .unary op =>
    match stack.cells with
    | v :: _ => .ok { moves := [.pop, .push (op.eval v)] }
    | [] => .error .emptyStack
  | .out =>
    match stack.cells with
    | v :: _ => .ok { moves := [.pop], effect := .print v }
    | [] => .error .emptyStack
  | .pop =>
    match stack.cells with
    | _ :: _ => .ok { moves := [.pop] }
    | [] => .error .emptyStack
  | .dup =>
    match stack.cells with
    | v :: _ => .ok { moves := [.push v] }
    | [] => .error (.tooFewValues stack.height 1)
  | .swap =>
    match stack.cells with
    | a :: b :: _ => .ok { moves := [.pop, .pop, .push a, .push b] }
    | _ => .error (.tooFewValues stack.height 2)
  | .rot =>
    match stack.cells with
    | a :: b :: c :: _ => .ok { moves := [.pop, .pop, .pop, .push b, .push a, .push c] }
    | _ => .error (.tooFewValues stack.height 3)
  | .over =>
    match stack.cells with
    | _ :: b :: _ => .ok { moves := [.push b] }
    | _ => .error (.tooFewValues stack.height 2)
  | .define _ _ => .ok { moves := [] }
  | .call name =>
    match functions.find? name with
    | none => .error (.unknownFunction name)
    | some body =>
      if limits.depth.toNat ≤ depth then .error (.tooDeep limits.depth.toNat)
      else .ok { moves := [], effect := .enter name body }
  | .branch nonzero zero =>
    match stack.cells with
    | v :: _ => .ok { moves := [.pop], effect := .follow (if v ≠ 0 then nonzero else zero) }
    | [] => .error .emptyStack

end Instruction

end StackLang
