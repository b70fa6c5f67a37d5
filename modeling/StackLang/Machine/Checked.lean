import StackLang.Machine.Run

/-!
# The machine with its checks

The machine once more, operation by operation: an instruction requires values, looks at them, takes
them off and puts others on, and the counters are 64-bit words. What the machine takes for granted
is a check here. A value that is looked at is on the stack, and so is one that is taken off after it
has been required; a division has a result; no counter leaves its word. A check that fails ends
everything at once, unlike a fault, which is part of what programs do.
-/

set_option autoImplicit false

namespace StackLang

/-- A check that fails. -/
inductive Check where
  /-- A value is looked at that is not on the stack. -/
  | notOnStack (index height : Nat)
  /-- A value is taken off the empty stack, after it has been required. -/
  | notRequired
  /-- A division is carried out by zero, or of the least value by -1. -/
  | noQuotient (a b : Int32)
  /-- The number of instructions leaves its word. -/
  | countOverflow
  /-- The number of open calls leaves its word. -/
  | depthOverflow
  /-- A call is left while none is open. -/
  | depthUnderflow
deriving DecidableEq

namespace Checked

variable {σ : Type}

/-- A part of an instruction. It changes the machine, also if it comes to a fault. -/
abbrev Operation (σ α : Type) := ExceptT Fault (StateT (Machine σ) (Except Check)) α

/-- Fails a check. -/
def fail {α : Type} (check : Check) : Operation σ α := throwThe Check check

/-- Requires a number of values. -/
def require (count : Nat) : Operation σ Unit := do
  let height := (← get).stack.height
  if height < count then throwThe Fault (.tooFewValues height count)

/-- Looks at the value with `index` values above it. -/
def look (index : Nat) : Operation σ Int32 := do
  let stack := (← get).stack
  match stack.cells[index]? with
  | some v => return v
  | none => fail (.notOnStack index stack.height)

/-- Takes the top value off, if there is one. -/
def takeOff? (host : Host σ) : Operation σ (Option Int32) := do
  match (← get).stack.pop? with
  | some (v, stack) =>
    modify fun m => .note host .pop { m with stack }
    return some v
  | none => return none

/-- Takes the top value off. -/
def takeOff (host : Host σ) : Operation σ Int32 := do
  match ← takeOff? host with
  | some v => return v
  | none => throwThe Fault .emptyStack

/-- Takes a value off that has been required. -/
def takeRequired (host : Host σ) : Operation σ Int32 := do
  match ← takeOff? host with
  | some v => return v
  | none => fail .notRequired

/-- Puts a value on top. -/
def putOn (host : Host σ) (v : Int32) : Operation σ Unit := do
  if (← get).stack.height < host.limits.stack.toNat then
    modify fun m => .note host (.push v) { m with stack := m.stack.push v }
  else throwThe Fault .fullStack

/-- A quotient or a remainder. Not all values have one. -/
def divide (result : Int32 → Int32 → Int32) (a b : Int32) : Operation σ Int32 :=
  if b = 0 ∨ (a = Int32.minValue ∧ b = -1) then fail (.noQuotient a b) else return result a b

/-- A result of two operands. -/
def compute (op : BinaryOp) (a b : Int32) : Operation σ Int32 :=
  match op with
  | .add => return a + b
  | .sub => return a - b
  | .mul => return a * b
  | .div =>
    if b = 0 then throwThe Fault .divisionByZero
    else if a = Int32.minValue ∧ b = -1 then return Int32.minValue
    else divide (· / ·) a b
  | .mod =>
    if b = 0 then throwThe Fault .divisionByZero
    else if b = -1 then return 0
    else divide (· % ·) a b

/-- Checks that fail: a value below the only one is looked at, the least value is divided by -1, and
a value is taken off that is not there. -/
example (m : Machine Unit) (h : m.stack = .ofList [7]) :
    (look 1).run.run m = .error (.notOnStack 1 1) ∧
    (divide (· / ·) (-2147483648) (-1)).run.run m = .error (.noQuotient (-2147483648) (-1)) ∧
    (do let _ ← takeRequired ⟨{}, .blind⟩; takeRequired ⟨{}, .blind⟩).run.run m =
      .error .notRequired := by
  obtain ⟨stack, sink, executed, depth, seen⟩ := m
  obtain rfl : stack = _ := h
  exact ⟨rfl, rfl, rfl⟩

/-- What an instruction does, up to its effect. -/
def operate (host : Host σ) (functions : Dictionary) : Instruction → Operation σ Effect
  | .number v => do
    putOn host v
    return .nothing
  | .binary op => do
    require 2
    let result ← compute op (← look 1) (← look 0)
    let _ ← takeRequired host
    let _ ← takeRequired host
    putOn host result
    return .nothing
  | .unary op => do
    let v ← takeOff host
    putOn host (op.eval v)
    return .nothing
  | .out => return .print (← takeOff host)
  | .pop => do
    let _ ← takeOff host
    return .nothing
  | .dup => do
    require 1
    putOn host (← look 0)
    return .nothing
  | .swap => do
    require 2
    let first ← takeRequired host
    let second ← takeRequired host
    putOn host first
    putOn host second
    return .nothing
  | .rot => do
    require 3
    let first ← takeRequired host
    let second ← takeRequired host
    let third ← takeRequired host
    putOn host second
    putOn host first
    putOn host third
    return .nothing
  | .over => do
    require 2
    putOn host (← look 1)
    return .nothing
  | .define _ _ => return .nothing
  | .call name => do
    match functions.find? name with
    | none => throwThe Fault (.unknownFunction name)
    | some body =>
      if host.limits.depth.toNat ≤ (← get).depth then
        throwThe Fault (.tooDeep host.limits.depth.toNat)
      else return .enter name body
  | .branch nonzero zero => do
    let v ← takeOff host
    return .follow (if v ≠ 0 then nonzero else zero)

/-- Runs one instruction up to its effect. -/
def execute (host : Host σ) (functions : Dictionary) (m : Machine σ) (i : Instruction) :
    Except Check (Machine σ × Except RunError Effect) :=
  if host.limits.operations.toNat ≤ m.executed then .ok (m, .error (.tooLong m.executed))
  else do
    let (result, after) ←
      (operate host functions i).run.run (m.note host (.start i m.depth m.stack))
    let fault := match result with
      | .ok _ => none
      | .error fault => some fault
    if m.executed + 1 < UInt64.size then
      return (.note host (.finish i after.stack.height fault)
          { after with executed := m.executed + 1 },
        result.mapError (.instructionFailed i after.depth m.executed))
    else throw .countOverflow

/-- Starts an effect, and says what is left to do for it. -/
def realize (host : Host σ) (m : Machine σ) (effect : Effect) :
    Except Check (Machine σ × Except RunError (List Task)) :=
  match effect with
  | .enter _ _ =>
    if m.depth + 1 < UInt64.size then .ok (m.realize host effect) else .error .depthOverflow
  | _ => .ok (m.realize host effect)

/-- An effect that passes its check is started as it is without. -/
theorem realize_ok {host : Host σ} {m : Machine σ} {effect : Effect}
    {started : Machine σ × Except RunError (List Task)} (h : realize host m effect = .ok started) :
    started = m.realize host effect := by
  unfold realize at h
  split at h
  · split at h
    · exact (Except.ok.inj h).symm
    · simp at h
  · exact (Except.ok.inj h).symm

/-- Runs one instruction and starts its effect. -/
def perform (host : Host σ) (functions : Dictionary) (m : Machine σ) (i : Instruction) :
    Except Check (Machine σ × Except RunError (List Task)) := do
  match ← execute host functions m i with
  | (after, .ok effect) => realize host after effect
  | (after, .error e) => return (after, .error e)

/-- Closes the innermost call. -/
def leave (m : Machine σ) : Except Check (Machine σ) :=
  if 0 < m.depth then .ok m.leave else .error .depthUnderflow

/-- A call that is left under the check is left as it is without it. -/
theorem leave_ok {m left : Machine σ} (h : leave m = .ok left) : left = m.leave := by
  unfold leave at h
  split at h
  · exact (Except.ok.inj h).symm
  · simp at h

/-- Closes the calls that the tasks leave, innermost first. -/
def leaveAll (m : Machine σ) : List Task → Except Check (Machine σ)
  | [] => .ok m
  | .perform _ :: rest => leaveAll m rest
  | .leave :: rest => do leaveAll (← leave m) rest

/-- An instruction that has an effect is counted, and the limit had room for it. -/
theorem executed_execute {host : Host σ} {functions : Dictionary} {m after : Machine σ}
    {i : Instruction} {effect : Effect}
    (h : execute host functions m i = .ok (after, .ok effect)) :
    after.executed = m.executed + 1 ∧ m.executed < host.limits.operations.toNat := by
  unfold execute at h
  split at h
  · simp at h
  · rename_i hroom
    refine ⟨?_, Nat.lt_of_not_le hroom⟩
    simp only [bind, Except.bind] at h
    split at h
    · simp at h
    · rename_i outcome hoperate
      obtain ⟨result, changed⟩ := outcome
      simp only at h
      split at h
      · have hafter : _ = after := congrArg Prod.fst (Except.ok.inj h)
        rw [← hafter]
        rfl
      · simp [throw, throwThe, MonadExceptOf.throw] at h

/-- An instruction that leaves tasks is counted, and the limit had room for it. -/
theorem executed_perform {host : Host σ} {functions : Dictionary} {m next : Machine σ}
    {i : Instruction} {tasks : List Task}
    (h : perform host functions m i = .ok (next, .ok tasks)) :
    next.executed = m.executed + 1 ∧ m.executed < host.limits.operations.toNat := by
  unfold perform at h
  cases hexec : execute host functions m i with
  | error check => simp [hexec, bind, Except.bind] at h
  | ok outcome =>
    obtain ⟨after, e | effect⟩ := outcome
    · simp [hexec, bind, Except.bind, pure, Except.pure] at h
    · have hcount := executed_execute hexec
      simp only [hexec, bind, Except.bind] at h
      have hnext := congrArg Prod.fst (realize_ok h)
      rw [show next = _ from hnext, Machine.executed_realize]
      exact hcount

/-- Works through tasks until none is left, an error occurs, or a check fails. -/
def runTasks (host : Host σ) (functions : Dictionary) (m : Machine σ) (tasks : List Task) :
    Except Check (Machine σ × Except RunError Unit) :=
  match tasks with
  | [] => .ok (m, .ok ())
  | .leave :: rest =>
    match _ : leave m with
    | .error check => .error check
    | .ok left => runTasks host functions left rest
  | .perform i :: rest =>
    match _ : perform host functions m i with
    | .error check => .error check
    | .ok (next, .ok tasks) => runTasks host functions next (tasks ++ rest)
    | .ok (next, .error e) => (leaveAll next rest).map fun left => (left, .error e)
termination_by (host.limits.operations.toNat - m.executed, tasks.length)
decreasing_by
  · rename_i hleave
    rw [leave_ok hleave]
    exact Prod.Lex.right _ (by simp)
  · obtain ⟨hcount, hroom⟩ := executed_perform ‹_›
    exact Prod.Lex.left _ _ (by omega)

section Equations

variable {host : Host σ} {functions : Dictionary} {m next left : Machine σ} {i : Instruction}

/-- A check that passes at the end of a call lets the other tasks go on. -/
theorem runTasks_leave_ok (h : leave m = .ok left) (rest : List Task) :
    runTasks host functions m (.leave :: rest) = runTasks host functions left rest := by
  rw [runTasks]
  split
  · rename_i h'
    simp [h] at h'
  · rename_i h'
    rw [Except.ok.inj (h.symm.trans h')]

/-- What an instruction leads to is done before the rest. -/
theorem runTasks_perform_ok {tasks : List Task}
    (h : perform host functions m i = .ok (next, .ok tasks)) (rest : List Task) :
    runTasks host functions m (.perform i :: rest) =
      runTasks host functions next (tasks ++ rest) := by
  rw [runTasks]
  split
  · rename_i h'
    simp [h] at h'
  · rename_i h'
    obtain ⟨rfl, e⟩ := Prod.mk.inj (Except.ok.inj (h.symm.trans h'))
    rw [Except.ok.inj e]
  · rename_i h'
    simp [h] at h'

/-- An error ends the run once all open calls have been left. -/
theorem runTasks_perform_error {e : RunError}
    (h : perform host functions m i = .ok (next, .error e)) (rest : List Task) :
    runTasks host functions m (.perform i :: rest) =
      (leaveAll next rest).map fun left => (left, .error e) := by
  rw [runTasks]
  split
  · rename_i h'
    simp [h] at h'
  · rename_i h'
    simp [h] at h'
  · rename_i h'
    obtain ⟨rfl, e'⟩ := Prod.mk.inj (Except.ok.inj (h.symm.trans h'))
    rw [Except.error.inj e']

end Equations

/-- Runs code, with functions looked up in a dictionary. -/
def run (host : Host σ) (functions : Dictionary) (m : Machine σ) (code : Code) :
    Except Check (Machine σ × Except RunError Unit) :=
  runTasks host functions m (code.map .perform)

end Checked

end StackLang
