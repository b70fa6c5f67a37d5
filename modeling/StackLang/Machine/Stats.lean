import StackLang.Machine.Event

/-!
# Statistics

Counters over the events of a run. The greatest height is sampled after whole instructions,
and an `OUT` counts once its value has been taken, whether or not it can then be written.
-/

set_option autoImplicit false

namespace StackLang

/-- Counters over a run. -/
structure Stats where
  instructions : Nat := 0
  pushes : Nat := 0
  pops : Nat := 0
  calls : Nat := 0
  outputs : Nat := 0
  maxHeight : Nat := 0
  maxDepth : Nat := 0
deriving DecidableEq

namespace Stats

/-- Counts an event. -/
def observe : Observer Stats := fun s event =>
  match event with
  | .line _ _ _ | .start _ _ _ => s
  | .push _ => { s with pushes := s.pushes + 1 }
  | .pop => { s with pops := s.pops + 1 }
  | .call _ depth _ => { s with calls := s.calls + 1, maxDepth := max s.maxDepth depth }
  | .finish i height fault =>
    { s with
      instructions := s.instructions + 1
      maxHeight := max s.maxHeight height
      outputs := if i = .out ∧ fault = none then s.outputs + 1 else s.outputs }

end Stats

end StackLang
