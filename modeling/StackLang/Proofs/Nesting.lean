import StackLang.Machine.Recursive

/-!
# Flat runs and nested runs

A run that works through a list of tasks and a run that follows the nesting of its code are
the same: `run_eq_eval`. The step to it is `runTasks_append`, which runs code in front of
other tasks: if the code succeeds, the other tasks go on from where it ended, and if it
fails, the calls that the other tasks would have left are left at once.
-/

set_option autoImplicit false

namespace StackLang.Machine

variable {σ : Type}

/-- A nested run does not take counts back. -/
theorem executed_le_eval (host : Host σ) (functions : Dictionary) (m : Machine σ) (code : Code) :
    m.executed ≤ (m.eval host functions code).1.executed :=
  (m.evalBounded host functions code).property

/-- Instructions in front of other tasks leave no calls. -/
@[simp]
theorem openCalls_map_perform_append (code : Code) (rest : List Task) :
    openCalls (code.map .perform ++ rest) = openCalls rest := by
  simp [openCalls, List.countP_eq_zero]

@[simp]
theorem openCalls_leave_cons (rest : List Task) :
    openCalls (.leave :: rest) = openCalls rest + 1 := by
  simp [openCalls]

/-- What becomes of a run whose first part has ended, with other tasks after it. -/
def continueTasks (host : Host σ) (functions : Dictionary) (rest : List Task)
    (first : Machine σ × Except RunError Unit) : Machine σ × Except RunError Unit :=
  match first with
  | (after, .ok ()) => after.runTasks host functions rest
  | (after, .error e) => ({ after with depth := after.depth - openCalls rest }, .error e)

/-- A first instruction that fails ends a flat run as it ends a nested one. -/
theorem runTasks_of_execute_error {host : Host σ} {functions : Dictionary} {m after : Machine σ}
    {i : Instruction} {e : RunError} (h : m.execute host functions i = (after, .error e))
    (code : Code) (rest : List Task) :
    m.runTasks host functions (.perform i :: (code.map .perform ++ rest)) =
      continueTasks host functions rest (after, .error e) := by
  have hperform : m.perform host functions i = (after, .error e) := by simp [perform, h]
  rw [runTasks_perform_error hperform, openCalls_map_perform_append]
  rfl

/-- Running code in front of other tasks is a nested run of the code, and then the tasks. -/
theorem runTasks_append (host : Host σ) (functions : Dictionary) (m : Machine σ) (code : Code)
    (rest : List Task) :
    m.runTasks host functions (code.map .perform ++ rest) =
      continueTasks host functions rest (m.eval host functions code) := by
  -- by induction on the operations that the limit leaves
  generalize hn : host.limits.operations.toNat - m.executed = n
  induction n using Nat.strongRecOn generalizing m code rest with
  | _ n ih =>
    have step (next : Machine σ) (hcount : m.executed < next.executed)
        (hroom : m.executed < host.limits.operations.toNat) (code : Code) (rest : List Task) :
        next.runTasks host functions (code.map .perform ++ rest) =
          continueTasks host functions rest (next.eval host functions code) :=
      ih _ (by omega) next code rest rfl
    cases code with
    | nil => simp [continueTasks]
    | cons i code =>
      rw [eval_cons, List.map_cons, List.cons_append]
      rcases hexec : m.execute host functions i with ⟨after, _ | effect⟩
      · exact runTasks_of_execute_error hexec code rest
      obtain ⟨hcount, hroom⟩ := executed_execute hexec
      cases effect with
      | nothing =>
        have hperform : m.perform host functions i = (after, .ok []) := by
          simp [perform, hexec, realize]
        rw [runTasks_perform_ok hperform]
        exact step after (by omega) hroom code rest
      | print v =>
        rcases hprint : after.print v with ⟨printed, e | ⟨⟩⟩
        · have hperform : m.perform host functions i = (printed, .error e) := by
            simp [perform, hexec, realize, hprint, Except.map]
          simp [runTasks_perform_error hperform, hprint, continueTasks]
        · have hperform : m.perform host functions i = (printed, .ok []) := by
            simp [perform, hexec, realize, hprint, Except.map]
          have hprinted : printed.executed = after.executed := by
            simpa [hprint] using executed_print after v
          rw [runTasks_perform_ok hperform]
          simpa [hprint] using step printed (by omega) hroom code rest
      | follow branch =>
        have hperform : m.perform host functions i = (after, .ok (branch.map .perform)) := by
          simp [perform, hexec, realize]
        have hinner := executed_le_eval host functions after branch
        -- the branch is run first, and what it ends in decides
        rw [runTasks_perform_ok hperform, step after (by omega) hroom branch]
        rcases heval : after.eval host functions branch with ⟨inner, e | ⟨⟩⟩
        · simp [heval, continueTasks]
        · simp only [heval] at hinner
          simpa [heval, continueTasks] using step inner (by omega) hroom code rest
      | enter name body =>
        have hperform : m.perform host functions i =
            (enter host name after, .ok (body.map .perform ++ [.leave])) := by
          simp [perform, hexec, realize]
        have hinner := executed_le_eval host functions (enter host name after) body
        rw [executed_enter] at hinner
        -- the body is run first, and its call is left on either exit
        rw [runTasks_perform_ok hperform, List.append_assoc,
          step (enter host name after) (by rw [executed_enter]; omega) hroom body]
        rcases heval : (enter host name after).eval host functions body with ⟨inner, e | ⟨⟩⟩
        · simp [heval, continueTasks, leave, Nat.sub_sub, Nat.add_comm]
        · simp only [heval] at hinner
          simpa [heval, continueTasks] using
            step inner.leave (by rw [executed_leave]; omega) hroom code rest

/-- A flat run of code is a nested run of it: the same state, events, output and result. -/
theorem run_eq_eval (host : Host σ) (functions : Dictionary) (m : Machine σ) (code : Code) :
    m.run host functions code = m.eval host functions code := by
  have h := runTasks_append host functions m code []
  rw [List.append_nil] at h
  rw [run, h]
  rcases m.eval host functions code with ⟨after, e | ⟨⟩⟩ <;> simp [continueTasks, openCalls]

/-- Code after code that succeeds goes on from where that ended. -/
theorem eval_append_of_ok {host : Host σ} {functions : Dictionary} {m after : Machine σ}
    {first : Code} (h : m.eval host functions first = (after, .ok ())) (rest : Code) :
    m.eval host functions (first ++ rest) = after.eval host functions rest := by
  rw [← run_eq_eval, ← run_eq_eval, run, List.map_append, runTasks_append, h]
  rfl

/-- Code after code that fails is not run. -/
theorem eval_append_of_error {host : Host σ} {functions : Dictionary} {m after : Machine σ}
    {first : Code} {e : RunError} (h : m.eval host functions first = (after, .error e))
    (rest : Code) : m.eval host functions (first ++ rest) = (after, .error e) := by
  have hnone : openCalls (rest.map .perform) = 0 := by simp [openCalls, List.countP_eq_zero]
  rw [← run_eq_eval, run, List.map_append, runTasks_append, h, continueTasks, hnone]
  rfl

end StackLang.Machine
