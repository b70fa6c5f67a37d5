import StackLang.Proofs.Runs
import Mathlib.Logic.Relation
import Mathlib.Order.WellFounded

/-!
# Runs as steps

A run told moment by moment: a moment is a state with the tasks that are left, a step does the
first task, and a run stops when no task is left or an instruction fails. Nothing here bounds the
number of steps. That there are finitely many, from any moment on, is `wellFounded_step`: an
instruction uses up a part of the limit of operations, and leaving a call uses up a task.
So every run comes to a stop, and what it comes to is the outcome of `runTasks`,
`exists_reaches_stops`.
-/

set_option autoImplicit false

namespace StackLang.Machine

variable {σ : Type}

/-- A moment of a run: the state, and what is left to do. -/
abbrev Moment (σ : Type) := Machine σ × List Task

/-- From one moment to the next. -/
inductive Step (host : Host σ) (functions : Dictionary) : Moment σ → Moment σ → Prop
  | leave (m : Machine σ) (rest : List Task) :
      Step host functions (m, .leave :: rest) (m.leave, rest)
  | perform {m next : Machine σ} {i : Instruction} {tasks : List Task}
      (h : m.perform host functions i = (next, .ok tasks)) (rest : List Task) :
      Step host functions (m, .perform i :: rest) (next, tasks ++ rest)

/-- The last moment of a run, and the outcome of the run. -/
inductive Stops (host : Host σ) (functions : Dictionary) :
    Moment σ → Machine σ × Except RunError Unit → Prop
  | done (m : Machine σ) : Stops host functions (m, []) (m, .ok ())
  | error {m next : Machine σ} {i : Instruction} {e : RunError}
      (h : m.perform host functions i = (next, .error e)) (rest : List Task) :
      Stops host functions (m, .perform i :: rest)
        ({ next with depth := next.depth - openCalls rest }, .error e)

/-- The moments of a run that starts at a given moment. -/
def Reaches (host : Host σ) (functions : Dictionary) : Moment σ → Moment σ → Prop :=
  Relation.ReflTransGen (Step host functions)

variable {host : Host σ} {functions : Dictionary} {moment after : Moment σ}

/-- A step counts one instruction, for which the limit has room, or it shortens the tasks. -/
theorem Step.counts_or_shortens (h : Step host functions moment after) :
    after.1.executed = moment.1.executed + 1 ∧
        moment.1.executed < host.limits.operations.toNat ∨
      after.1.executed = moment.1.executed ∧ after.2.length < moment.2.length := by
  cases h with
  | leave m rest => exact .inr ⟨rfl, Nat.lt_succ_self _⟩
  | perform h rest => exact .inl (executed_perform h)

/-- **Runs are finite.** There is no endless sequence of steps. -/
theorem wellFounded_step (host : Host σ) (functions : Dictionary) :
    WellFounded fun after moment => Step host functions moment after := by
  have hwf : WellFounded fun after moment : Moment σ =>
      Prod.Lex (· < ·) (· < ·)
        (host.limits.operations.toNat - after.1.executed, after.2.length)
        (host.limits.operations.toNat - moment.1.executed, moment.2.length) :=
    InvImage.wf _ (Prod.lex ⟨_, Nat.lt_wfRel.wf⟩ ⟨_, Nat.lt_wfRel.wf⟩).wf
  refine hwf.mono fun after moment h => ?_
  rcases h.counts_or_shortens with ⟨hcount, hroom⟩ | ⟨hcount, hlength⟩
  · exact Prod.Lex.left _ _ (by omega)
  · rw [hcount]
    exact Prod.Lex.right _ hlength

/-- A step leads to the same outcome. -/
theorem Step.runTasks_eq (h : Step host functions moment after) :
    after.1.runTasks host functions after.2 = moment.1.runTasks host functions moment.2 := by
  cases h with
  | leave m rest => rw [runTasks_leave]
  | perform h rest => rw [runTasks_perform_ok h]

/-- Going some steps leaves what the run comes to. -/
theorem Reaches.runTasks_eq (h : Reaches host functions moment after) :
    after.1.runTasks host functions after.2 = moment.1.runTasks host functions moment.2 := by
  induction h with
  | refl => rfl
  | tail _ hstep ih => rw [hstep.runTasks_eq, ih]

/-- **Runs stop.** The steps from any moment lead to a last one, and the outcome there is the
outcome of the run. -/
theorem exists_reaches_stops (host : Host σ) (functions : Dictionary) (m : Machine σ)
    (tasks : List Task) :
    ∃ last, Reaches host functions (m, tasks) last ∧
      Stops host functions last (m.runTasks host functions tasks) := by
  induction m, tasks using runTasks.induct host functions with
  | case1 m =>
    rw [runTasks_nil]
    exact ⟨_, .refl, .done m⟩
  | case2 m rest ih =>
    obtain ⟨last, hreaches, hstops⟩ := ih
    rw [runTasks_leave]
    exact ⟨last, .head (.leave m rest) hreaches, hstops⟩
  | case3 m i rest next tasks hperform ih =>
    obtain ⟨last, hreaches, hstops⟩ := ih
    rw [runTasks_perform_ok hperform]
    exact ⟨last, .head (.perform hperform rest) hreaches, hstops⟩
  | case4 m i rest next e hperform =>
    rw [runTasks_perform_error hperform]
    exact ⟨_, .refl, .error hperform rest⟩

end StackLang.Machine
