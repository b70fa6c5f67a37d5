import StackLang.Machine.Event
import StackLang.Machine.Plan
import StackLang.Sink

/-!
# The machine

The state of a running program, and what one instruction does to it. An instruction changes
the stack first; what it prints, calls or branches to is its effect, which comes after.
-/

set_option autoImplicit false

namespace StackLang

open Text (intText)

/-- What stays the same while code runs: the limits, and how events are observed. -/
structure Host (σ : Type) where
  limits : Limits
  observe : Observer σ

/-- The state of a running program. -/
@[ext]
structure Machine (σ : Type) where
  stack : Stack
  sink : Sink
  /-- The number of instructions executed so far. -/
  executed : Nat := 0
  /-- The number of open calls. -/
  depth : Nat := 0
  /-- What the observer makes of the events so far. -/
  seen : σ

namespace Machine

variable {σ : Type}

/-- Shows an event to the observer. -/
def note (host : Host σ) (event : Event) (m : Machine σ) : Machine σ :=
  { m with seen := host.observe m.seen event }

/-- Carries out moves up to the first that is impossible. -/
def play (host : Host σ) (m : Machine σ) : List Move → Machine σ × Except Fault Unit
  | [] => (m, .ok ())
  | .pop :: moves =>
    match m.stack.pop? with
    | some (_, stack) => (note host .pop { m with stack }).play host moves
    | none => (m, .error .emptyStack)
  | .push v :: moves =>
    if m.stack.height < host.limits.stack.toNat then
      (note host (.push v) { m with stack := m.stack.push v }).play host moves
    else (m, .error .fullStack)

/-- Plans an instruction and carries out its moves. -/
def apply (host : Host σ) (functions : Dictionary) (m : Machine σ) (i : Instruction) :
    Machine σ × Except Fault Effect :=
  match i.plan host.limits functions m.depth m.stack with
  | .error fault => (m, .error fault)
  | .ok plan =>
    let (m, played) := m.play host plan.moves
    (m, played.map fun _ => plan.effect)

/-- Runs one instruction up to its effect. It counts whether or not it fails, and nothing of
it runs once the limit of operations is reached. -/
def execute (host : Host σ) (functions : Dictionary) (m : Machine σ) (i : Instruction) :
    Machine σ × Except RunError Effect :=
  if host.limits.operations.toNat ≤ m.executed then (m, .error (.tooLong m.executed))
  else
    let (after, result) := (note host (.start i m.depth m.stack) m).apply host functions i
    let fault := match result with
      | .ok _ => none
      | .error fault => some fault
    (note host (.finish i after.stack.height fault) { after with executed := m.executed + 1 },
      result.mapError (.instructionFailed i m.depth m.executed))

/-- Writes a value on a line of its own. -/
def print (m : Machine σ) (v : Int32) : Machine σ × Except RunError Unit :=
  let (sink, written) := m.sink.write (intText v.toInt ++ "\n")
  ({ m with sink }, written.mapError .output)

/-- Opens a call. -/
def enter (host : Host σ) (name : String) (m : Machine σ) : Machine σ :=
  note host (.call name (m.depth + 1) m.stack.height) { m with depth := m.depth + 1 }

/-- Closes the innermost call. -/
def leave (m : Machine σ) : Machine σ := { m with depth := m.depth - 1 }

end Machine

end StackLang
