import StackLang.Machine.Run

/-!
# Runs on a machine of their own

Code can be run on a machine that is made for it and given up afterwards. The sink is not the
machine's, so what was written stays written, whatever becomes of the run. The stack, the count and
what the observer made of the run are handed out after a run that succeeds.
-/

set_option autoImplicit false

namespace StackLang

/-- The values and the limits that a new machine gets. -/
structure Setup where
  stack : Stack := .empty
  limits : Limits := {}

/-- What a run leaves that succeeds, apart from its output. -/
structure RunResult (σ : Type) where
  stack : Stack
  executed : Nat
  seen : σ

namespace Setup

variable {σ : Type}

/-- A machine that has run nothing. -/
def machine (setup : Setup) (sink : Sink) (seen : σ) : Machine σ :=
  { stack := setup.stack, sink, seen }

/-- Runs code on a new machine that is observed. -/
def runObserved (setup : Setup) (observe : Observer σ) (seen : σ) (functions : Dictionary)
    (code : Code) (sink : Sink) : Sink × Except RunError (RunResult σ) :=
  let (m, result) :=
    (setup.machine sink seen).run { limits := setup.limits, observe } functions code
  (m.sink, result.map fun _ => { stack := m.stack, executed := m.executed, seen := m.seen })

/-- Runs code on a new machine. -/
def run (setup : Setup) (functions : Dictionary) (code : Code) (sink : Sink) :
    Sink × Except RunError (RunResult Unit) :=
  setup.runObserved .blind () functions code sink

end Setup

end StackLang
