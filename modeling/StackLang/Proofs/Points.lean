import StackLang.Proofs.Atomicity
import StackLang.Proofs.OpenCalls
import StackLang.Proofs.Programs
import Mathlib.Data.Set.Insert

/-!
# The points of a session

A run has more states than its moments, which stand between instructions: an instruction takes
values off one by one before it puts others on. The points of a run are its moments and all
that an instruction passes on its way, `points`, each with its stack and the number of calls
that are open. The points of a session are those of the lines that its steps run and those between
lines, where no call is open.

An instruction is never higher on its way than before or after it, since it takes values off first:
`height_play_prefix_le`.
-/

set_option autoImplicit false

namespace StackLang

/-- A point of a run. -/
structure Point where
  stack : Stack
  openCalls : Nat

/-- Plans take values off before they put any on. -/
theorem Instruction.Plans.exists_moves_eq {limits : Limits} {functions : Dictionary} {depth : Nat}
    {stack : Stack} {i : Instruction} {p : Plan} (h : Plans limits functions depth stack i p) :
    ∃ (n : Nat) (values : List Int32),
      p.moves = List.replicate n Move.pop ++ values.map Move.push := by
  cases h with
  | number v => exact ⟨0, [v], rfl⟩
  | @binary _ _ _ v => exact ⟨2, [v], rfl⟩
  | @unary op v => exact ⟨1, [op.eval v], rfl⟩
  | out | pop | branch => exact ⟨1, [], rfl⟩
  | @dup v => exact ⟨0, [v], rfl⟩
  | @swap a b => exact ⟨2, [a, b], rfl⟩
  | @rot a b c => exact ⟨3, [b, a, c], rfl⟩
  | @«over» a b => exact ⟨0, [b], rfl⟩
  | define | call => exact ⟨0, [], rfl⟩

namespace Machine

variable {σ : Type} {host : Host σ} {functions : Dictionary} {m next : Machine σ}
  {i : Instruction} {moves : List Move} {rest tasks : List Task}

section Moves

/-- Moves go on where the moves before them have not failed. -/
theorem play_append (m : Machine σ) (moves more : List Move) :
    m.play host (moves ++ more) =
      match m.play host moves with
      | (after, .ok ()) => after.play host more
      | (after, .error fault) => (after, .error fault) := by
  induction moves generalizing m with
  | nil => rfl
  | cons move moves ih =>
    cases move with
    | pop =>
      rw [List.cons_append, play, play]
      cases m.stack.pop? with
      | none => rfl
      | some popped => exact ih _
    | push v =>
      rw [List.cons_append, play, play]
      by_cases hroom : m.stack.height < host.limits.stack.toNat
      · rw [if_pos hroom, if_pos hroom]
        exact ih _
      · rw [if_neg hroom, if_neg hroom]

/-- Taking values off does not make the stack higher, however far it gets. -/
theorem height_play_pops_le (n : Nat) (m : Machine σ) :
    (m.play host (List.replicate n Move.pop)).1.stack.height ≤ m.stack.height := by
  induction n generalizing m with
  | zero => exact Nat.le_refl _
  | succ n ih =>
    rw [List.replicate_succ]
    unfold play
    cases hpop : m.stack.pop? with
    | none => exact Nat.le_refl _
    | some popped =>
      have hheight := Stack.height_of_pop? hpop
      have hrest := ih (note host .pop { m with stack := popped.2 })
      exact Nat.le_trans hrest (by rw [hheight]; exact Nat.le_succ _)

/-- Putting values on does not make it lower. -/
theorem le_height_play_pushes (values : List Int32) (m : Machine σ) :
    m.stack.height ≤ (m.play host (values.map Move.push)).1.stack.height := by
  induction values generalizing m with
  | nil => exact Nat.le_refl _
  | cons v values ih =>
    rw [List.map_cons]
    unfold play
    split
    · have hrest := ih (note host (.push v) { m with stack := m.stack.push v })
      exact Nat.le_trans (Nat.le_succ _) hrest
    · exact Nat.le_refl _

/-- On its way an instruction is no higher than before or after it. -/
theorem height_play_prefix_le {n : Nat} {values : List Int32}
    (h : moves <+: List.replicate n Move.pop ++ values.map Move.push) (m : Machine σ) :
    (m.play host moves).1.stack.height ≤
      max m.stack.height
        (m.play host (List.replicate n Move.pop ++ values.map Move.push)).1.stack.height := by
  obtain ⟨later, hlater⟩ := h
  rcases List.append_eq_append_iff.1 hlater with ⟨pops, hpops, -⟩ | ⟨pushes, -, hpushes⟩
  · -- no value has been put on yet
    obtain ⟨hlength, hmoves, -⟩ := List.append_eq_replicate_iff.1 hpops.symm
    rw [hmoves]
    exact Nat.le_trans (height_play_pops_le _ m) (Nat.le_max_left _ _)
  · -- only values to put on are left
    obtain ⟨before, after, -, -, rfl⟩ := List.map_eq_append_iff.1 hpushes
    refine Nat.le_trans ?_ (Nat.le_max_right _ _)
    rw [← hlater, play_append]
    rcases m.play host moves with ⟨after', fault | ⟨⟩⟩
    · exact Nat.le_refl _
    · exact le_height_play_pushes after after'

end Moves

/-- The points of a run at one of its moments. -/
inductive PointAt (host : Host σ) (functions : Dictionary) : Moment σ → Point → Prop
  /-- The moment itself. Among the tasks there is a marker for each open call. -/
  | moment (m : Machine σ) (tasks : List Task) :
      PointAt host functions (m, tasks) ⟨m.stack, openCalls tasks⟩
  /-- The next instruction has been started, and it has carried out a first part of its plan. -/
  | within {m : Machine σ} {i : Instruction} {rest : List Task} {p : Plan} {moves : List Move}
      (hroom : m.executed < host.limits.operations.toNat)
      (hplan : Instruction.Plans host.limits functions m.depth m.stack i p)
      (hmoves : moves <+: p.moves) :
      PointAt host functions (m, .perform i :: rest)
        ⟨((note host (.start i m.depth m.stack) m).play host moves).1.stack, openCalls rest⟩

/-- The points of a run through tasks. -/
def points (host : Host σ) (functions : Dictionary) (m : Machine σ) (tasks : List Task) :
    Set Point :=
  { point | ∃ moment,
      Reaches host functions (m, tasks) moment ∧ PointAt host functions moment point }

/-- A run without tasks has one point, where it starts. -/
theorem points_nil : m.points host functions [] = {⟨m.stack, 0⟩} := by
  ext point
  constructor
  · rintro ⟨moment, hreaches, hpoint⟩
    rcases Relation.ReflTransGen.cases_head hreaches with rfl | ⟨next, hstep, -⟩
    · cases hpoint
      rfl
    · cases hstep
  · rintro rfl
    exact ⟨_, .refl, .moment m []⟩

/-- Leaving a call adds the point before it. -/
theorem points_leave :
    m.points host functions (.leave :: rest) =
      insert ⟨m.stack, openCalls rest + 1⟩ (m.leave.points host functions rest) := by
  ext point
  constructor
  · rintro ⟨moment, hreaches, hpoint⟩
    rcases Relation.ReflTransGen.cases_head hreaches with rfl | ⟨next, hstep, hrest⟩
    · cases hpoint
      exact .inl (by rw [openCalls_leave_cons])
    · cases hstep
      exact .inr ⟨moment, hrest, hpoint⟩
  · rintro (rfl | ⟨moment, hrest, hpoint⟩)
    · exact ⟨_, .refl, by rw [← openCalls_leave_cons]; exact .moment m _⟩
    · exact ⟨moment, .head (.leave m rest) hrest, hpoint⟩

/-- A step adds its own points to those of what comes after it. -/
theorem points_perform_ok (h : m.perform host functions i = (next, .ok tasks)) :
    m.points host functions (.perform i :: rest) =
      { point | PointAt host functions (m, .perform i :: rest) point } ∪
        next.points host functions (tasks ++ rest) := by
  ext point
  constructor
  · rintro ⟨moment, hreaches, hpoint⟩
    rcases Relation.ReflTransGen.cases_head hreaches with rfl | ⟨middle, hstep, hrest⟩
    · exact .inl hpoint
    · cases hstep with
      | perform hperform =>
        obtain ⟨rfl, htasks⟩ := Prod.mk.inj (h.symm.trans hperform)
        obtain rfl := Except.ok.inj htasks
        exact .inr ⟨moment, hrest, hpoint⟩
  · rintro (hpoint | ⟨moment, hrest, hpoint⟩)
    · exact ⟨_, .refl, hpoint⟩
    · exact ⟨moment, .head (.perform h rest) hrest, hpoint⟩

/-- A step that fails has its own points, and no other come after it. -/
theorem points_perform_error {e : RunError} (h : m.perform host functions i = (next, .error e)) :
    m.points host functions (.perform i :: rest) =
      { point | PointAt host functions (m, .perform i :: rest) point } := by
  ext point
  constructor
  · rintro ⟨moment, hreaches, hpoint⟩
    rcases Relation.ReflTransGen.cases_head hreaches with rfl | ⟨middle, hstep, -⟩
    · exact hpoint
    · cases hstep with
      | perform hperform => simp [h] at hperform
  · exact fun hpoint => ⟨_, .refl, hpoint⟩

/-- With room for it, a step leaves the stack that its instruction has made. -/
theorem stack_perform (hroom : m.executed < host.limits.operations.toNat) :
    (m.perform host functions i).1.stack =
      ((note host (.start i m.depth m.stack) m).apply host functions i).1.stack := by
  rw [← stack_execute hroom]
  refine perform_keeps (I := fun after => after.stack = (m.execute host functions i).1.stack) rfl ?_
  intro after effect h
  cases effect <;> exact h

/-- What the plan of an instruction has made of the stack is left by the step. -/
theorem stack_perform_of_plans (hroom : m.executed < host.limits.operations.toNat) {p : Plan}
    (hplan : Instruction.Plans host.limits functions m.depth m.stack i p) :
    (m.perform host functions i).1.stack =
      ((note host (.start i m.depth m.stack) m).play host p.moves).1.stack := by
  have hnoted : i.plan host.limits functions (note host (.start i m.depth m.stack) m).depth
      (note host (.start i m.depth m.stack) m).stack = .ok p := hplan.plan_eq
  rw [stack_perform hroom, apply, hnoted]

/-- The stack that a step leaves is that of a point before the step is over. -/
theorem pointAt_perform (host : Host σ) (functions : Dictionary) (m : Machine σ)
    (i : Instruction) (rest : List Task) :
    PointAt host functions (m, .perform i :: rest)
      ⟨(m.perform host functions i).1.stack, openCalls rest⟩ := by
  by_cases hroom : m.executed < host.limits.operations.toNat
  · cases hplan : i.plan host.limits functions m.depth m.stack with
    | ok p =>
      have hplans := Instruction.plans_of_plan hplan
      rw [stack_perform_of_plans hroom hplans]
      exact .within hroom hplans List.prefix_rfl
    | error fault =>
      have hnoted : i.plan host.limits functions (note host (.start i m.depth m.stack) m).depth
          (note host (.start i m.depth m.stack) m).stack = .error fault := hplan
      rw [stack_perform hroom, apply, hnoted]
      exact .moment m (.perform i :: rest)
  · rw [perform_of_limit_le (Nat.le_of_not_lt hroom)]
    exact .moment m (.perform i :: rest)

/-- No point at a moment is higher than the moment and the one after it. -/
theorem PointAt.height_le {point : Point}
    (h : PointAt host functions (m, .perform i :: rest) point) :
    point.stack.height ≤ max m.stack.height (m.perform host functions i).1.stack.height := by
  cases h with
  | moment => exact Nat.le_max_left _ _
  | within hroom hplan hmoves =>
    rw [stack_perform_of_plans hroom hplan]
    obtain ⟨n, values, heq⟩ := hplan.exists_moves_eq
    rw [heq] at hmoves ⊢
    exact height_play_prefix_le hmoves _

/-- Inside of an instruction the open calls are those of the tasks after it. -/
theorem PointAt.openCalls_eq {point : Point}
    (h : PointAt host functions (m, .perform i :: rest) point) :
    point.openCalls = openCalls rest := by
  cases h <;> rfl

end Machine

namespace Session

variable {σ : Type}

/-- The lines that a step runs, up to the first that fails. -/
def Step.texts : Step → List String
  | .line text => [text]
  | .program input => countedTexts (readCount (Text.lines input))

/-- The points of the run of a line, if it can be read. -/
def linePoints (host : Host σ) (s : Session σ) (text : String) : Set Point :=
  match s.reader.readLine text with
  | (_, .error _) => ∅
  | (reader, .ok code) =>
    (s.machine.note host (.line (s.linesRun + 1) code s.machine.stack.height)).points host
      reader.functions (code.map .perform)

/-- The points of lines that are run up to the first that fails, and between them. -/
def textPoints (host : Host σ) (s : Session σ) : List String → Set Point
  | [] => {⟨s.machine.stack, 0⟩}
  | text :: texts =>
    s.linePoints host text ∪
      match s.runLine host text with
      | (next, .ok ()) => next.textPoints host texts
      | (next, .error _) => {⟨next.machine.stack, 0⟩}

/-- The points of all steps, whatever these end in, from the first state on. -/
def points (host : Host σ) (s : Session σ) : List Step → Set Point
  | [] => {⟨s.machine.stack, 0⟩}
  | step :: steps =>
    insert ⟨s.machine.stack, 0⟩
      (s.textPoints host step.texts ∪ (s.perform host step).1.points host steps)

/-- Runs all steps, whatever these end in. -/
def performAll (host : Host σ) (s : Session σ) (steps : List Step) : Session σ :=
  steps.foldl (fun s step => (s.perform host step).1) s

/-- A step runs its lines, and flushes at most. -/
theorem perform_eq_runTexts (host : Host σ) (s : Session σ) (step : Step) :
    (s.perform host step).1 = (s.runTexts host step.texts).1 ∨
      (s.perform host step).1 = (s.runTexts host step.texts).1.flushed := by
  cases step with
  | line text =>
    left
    exact congrArg Prod.fst (runTexts_singleton host s text).symm
  | program input =>
    right
    exact congrArg Prod.fst (runProgram_eq rfl)

end Session

end StackLang
