import StackLang.Machine.Fault
import StackLang.Stack

/-!
# Events and observers

A run shows what it does as a sequence of events. An observer folds them into a state of its
own and cannot act on the run. Statistics, traces and logs are observers.
-/

set_option autoImplicit false

namespace StackLang

/-- Something that happens while a program runs. -/
inductive Event where
  /-- The code of a line is about to run, on a stack of the given height. -/
  | line (number : Nat) (code : Code) (height : Nat)
  /-- An instruction is about to run. -/
  | start (instruction : Instruction) (depth : Nat) (stack : Stack)
  | push (value : Int32)
  | pop
  /-- An instruction is over, and what it leads to has not begun. -/
  | finish (instruction : Instruction) (height : Nat) (fault : Option Fault)
  /-- A function is entered; `depth` counts the open calls with this one. -/
  | call (name : String) (depth height : Nat)
deriving DecidableEq

/-- How an observer's state changes at an event. -/
abbrev Observer (σ : Type) := σ → Event → σ

namespace Observer

/-- Sees nothing. -/
def blind : Observer Unit := fun _ _ => ()

/-- Keeps all events, newest first. -/
def recorder : Observer (List Event) := fun events event => event :: events

/-- Two observers side by side. -/
def both {σ τ : Type} (first : Observer σ) (second : Observer τ) : Observer (σ × τ) :=
  fun seen event => (first seen.1 event, second seen.2 event)

end Observer

end StackLang
