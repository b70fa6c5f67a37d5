import StackLang.Machine.Basic

/-!
# Running code

A run works through a list of tasks: it takes the first one, and what that one leads to comes
before the others. Recursion of the program is therefore no recursion of the run. Every
instruction counts toward the limit of operations, which makes the run end.
-/

set_option autoImplicit false

namespace StackLang

/-- Something left to do: an instruction to run, or an open call to leave. -/
inductive Task where
  | perform (instruction : Instruction)
  | leave
deriving DecidableEq

namespace Machine

variable {σ : Type}

@[simp]
theorem executed_note (host : Host σ) (event : Event) (m : Machine σ) :
    (note host event m).executed = m.executed := rfl

@[simp]
theorem executed_print (m : Machine σ) (v : Int32) : (m.print v).1.executed = m.executed := rfl

@[simp]
theorem executed_enter (host : Host σ) (name : String) (m : Machine σ) :
    (enter host name m).executed = m.executed := rfl

@[simp]
theorem executed_leave (m : Machine σ) : m.leave.executed = m.executed := rfl

/-- An instruction that has an effect is counted, and the limit had room for it. -/
theorem executed_execute {host : Host σ} {functions : Dictionary} {m after : Machine σ}
    {i : Instruction} {effect : Effect}
    (h : m.execute host functions i = (after, .ok effect)) :
    after.executed = m.executed + 1 ∧ m.executed < host.limits.operations.toNat := by
  unfold execute at h
  split at h
  · simp at h
  · rename_i hroom
    have hafter : _ = after := congrArg Prod.fst h
    refine ⟨?_, Nat.lt_of_not_le hroom⟩
    rw [← hafter]
    rfl

/-- Starts an effect, and says what is left to do for it. -/
def realize (host : Host σ) (m : Machine σ) : Effect → Machine σ × Except RunError (List Task)
  | .nothing => (m, .ok [])
  | .print v =>
    let (m, written) := m.print v
    (m, written.map fun _ => [])
  | .enter name body => (enter host name m, .ok (body.map .perform ++ [.leave]))
  | .follow code => (m, .ok (code.map .perform))

/-- Runs one instruction and starts its effect. -/
def perform (host : Host σ) (functions : Dictionary) (m : Machine σ) (i : Instruction) :
    Machine σ × Except RunError (List Task) :=
  match m.execute host functions i with
  | (after, .ok effect) => after.realize host effect
  | (after, .error e) => (after, .error e)

/-- Starting an effect counts no instruction. -/
@[simp]
theorem executed_realize (host : Host σ) (m : Machine σ) (effect : Effect) :
    (m.realize host effect).1.executed = m.executed := by
  cases effect <;> rfl

/-- An instruction that leaves tasks is counted, and the limit had room for it. -/
theorem executed_perform {host : Host σ} {functions : Dictionary} {m next : Machine σ}
    {i : Instruction} {tasks : List Task} (h : m.perform host functions i = (next, .ok tasks)) :
    next.executed = m.executed + 1 ∧ m.executed < host.limits.operations.toNat := by
  unfold perform at h
  split at h
  · rename_i after effect hexec
    have hnext : _ = next := congrArg Prod.fst h
    rw [← hnext, executed_realize]
    exact executed_execute hexec
  · simp at h

/-- The number of calls that the tasks leave. -/
def openCalls (tasks : List Task) : Nat := tasks.countP (· matches .leave)

/-- Works through tasks until none is left or an error occurs. Calls that are open at an error
are left. -/
def runTasks (host : Host σ) (functions : Dictionary) (m : Machine σ) (tasks : List Task) :
    Machine σ × Except RunError Unit :=
  match tasks with
  | [] => (m, .ok ())
  | .leave :: rest => runTasks host functions m.leave rest
  | .perform i :: rest =>
    match _ : m.perform host functions i with
    | (next, .ok tasks) => runTasks host functions next (tasks ++ rest)
    | (next, .error e) => ({ next with depth := next.depth - openCalls rest }, .error e)
termination_by (host.limits.operations.toNat - m.executed, tasks.length)
decreasing_by
  · exact Prod.Lex.right _ (by simp)
  · obtain ⟨hcount, hroom⟩ := executed_perform ‹_›
    exact Prod.Lex.left _ _ (by omega)

@[simp]
theorem runTasks_nil (host : Host σ) (functions : Dictionary) (m : Machine σ) :
    m.runTasks host functions [] = (m, .ok ()) := by
  rw [runTasks]

@[simp]
theorem runTasks_leave (host : Host σ) (functions : Dictionary) (m : Machine σ)
    (rest : List Task) :
    m.runTasks host functions (.leave :: rest) =
      m.leave.runTasks host functions rest := by
  rw [runTasks]

/-- What an instruction leads to is done before the rest. -/
theorem runTasks_perform_ok {host : Host σ} {functions : Dictionary} {m next : Machine σ}
    {i : Instruction} {tasks : List Task} (h : m.perform host functions i = (next, .ok tasks))
    (rest : List Task) :
    m.runTasks host functions (.perform i :: rest) =
      next.runTasks host functions (tasks ++ rest) := by
  rw [runTasks]
  split
  · rename_i h'
    obtain ⟨rfl, e⟩ := Prod.mk.inj (h.symm.trans h')
    rw [Except.ok.inj e]
  · rename_i h'
    exact absurd (Prod.mk.inj (h.symm.trans h')).2 (by simp)

/-- An error ends the run, and with it all open calls. -/
theorem runTasks_perform_error {host : Host σ} {functions : Dictionary} {m next : Machine σ}
    {i : Instruction} {e : RunError} (h : m.perform host functions i = (next, .error e))
    (rest : List Task) :
    m.runTasks host functions (.perform i :: rest) =
      ({ next with depth := next.depth - openCalls rest }, .error e) := by
  rw [runTasks]
  split
  · rename_i h'
    exact absurd (Prod.mk.inj (h.symm.trans h')).2 (by simp)
  · rename_i h'
    obtain ⟨rfl, e'⟩ := Prod.mk.inj (h.symm.trans h')
    rw [Except.error.inj e']

/-- Runs code, with functions looked up in a dictionary. -/
def run (host : Host σ) (functions : Dictionary) (m : Machine σ) (code : Code) :
    Machine σ × Except RunError Unit :=
  m.runTasks host functions (code.map .perform)

end Machine

end StackLang
