import StackLang.Machine.Run
import StackLang.Proofs.Plans
import Mathlib.Tactic.SplitIfs

/-!
# What one instruction does, and what a run keeps

An instruction changes the stack move by move and leaves the sink, the depth and the count to
its frame: `execute` counts it if the limit has room, and only a printed value reaches the sink.
The tasks that it leads to come from its own branches or from a body in the dictionary, and
the errors that it can end in are told by its plan, its moves, and the sink.

A run is a sequence of such steps. What every step keeps holds at the end of the run,
`runTasks_keeps`. Of the sink a step and a run keep what a line with a value keeps,
`sink_perform_keeps` and `sink_run_keeps`.
-/

set_option autoImplicit false

namespace StackLang.Machine

variable {σ : Type} {host : Host σ} {functions : Dictionary} {m next after : Machine σ}
  {i : Instruction}

@[simp]
theorem sink_note (host : Host σ) (event : Event) (m : Machine σ) :
    (note host event m).sink = m.sink := rfl

@[simp]
theorem depth_note (host : Host σ) (event : Event) (m : Machine σ) :
    (note host event m).depth = m.depth := rfl

/-- **The rule for moves.** What a value taken off and a value put on keep, moves keep, whether or
not they succeed. -/
theorem play_keeps {I : Machine σ → Prop}
    (hpop : ∀ m v stack, m.stack.pop? = some (v, stack) → I m →
      I (note host .pop { m with stack }))
    (hpush : ∀ m v, m.stack.height < host.limits.stack.toNat → I m →
      I (note host (.push v) { m with stack := m.stack.push v }))
    (moves : List Move) (m : Machine σ) (h : I m) : I (m.play host moves).1 := by
  induction moves generalizing m with
  | nil => exact h
  | cons move moves ih =>
    cases move with
    | pop =>
      unfold play
      cases hstack : m.stack.pop? with
      | none => exact h
      | some popped => exact ih _ (hpop m popped.1 popped.2 hstack h)
    | push v =>
      unfold play
      by_cases hroom : m.stack.height < host.limits.stack.toNat
      · rw [if_pos hroom]
        exact ih _ (hpush m v hroom h)
      · rw [if_neg hroom]
        exact h

/-- Moves are about the stack: they leave the sink, the count and the depth alone. -/
theorem frame_play (host : Host σ) (moves : List Move) (m : Machine σ) :
    (m.play host moves).1.sink = m.sink ∧ (m.play host moves).1.executed = m.executed ∧
      (m.play host moves).1.depth = m.depth := by
  refine play_keeps (I := fun after => after.sink = m.sink ∧ after.executed = m.executed ∧
    after.depth = m.depth) ?_ ?_ moves m ⟨rfl, rfl, rfl⟩
  · intro after v stack _ h
    exact h
  · intro after v _ h
    exact h

/-- Moves fail for want of a value or for want of room. -/
theorem play_error {moves : List Move} {fault : Fault}
    (h : (m.play host moves).2 = .error fault) : fault = .emptyStack ∨ fault = .fullStack := by
  induction moves generalizing m with
  | nil => simp [play] at h
  | cons move moves ih =>
    cases move with
    | pop =>
      unfold play at h
      split at h
      · exact ih h
      · exact .inl (Except.error.inj h).symm
    | push v =>
      unfold play at h
      split at h
      · exact ih h
      · exact .inr (Except.error.inj h).symm

/-- An instruction that is applied leaves all but the stack, and fails by its plan or its moves. -/
theorem frame_apply (host : Host σ) (functions : Dictionary) (m : Machine σ) (i : Instruction) :
    (m.apply host functions i).1.sink = m.sink ∧ (m.apply host functions i).1.depth = m.depth := by
  unfold apply
  split
  · exact ⟨rfl, rfl⟩
  · rename_i plan hplan
    obtain ⟨hsink, -, hdepth⟩ := frame_play host plan.moves m
    exact ⟨hsink, hdepth⟩

/-- An instruction that is applied has had a plan, and goes on as planned. -/
theorem apply_ok {effect : Effect} (h : m.apply host functions i = (after, .ok effect)) :
    ∃ plan, i.plan host.limits functions m.depth m.stack = .ok plan ∧ plan.effect = effect := by
  unfold apply at h
  split at h
  · simp at h
  · rename_i plan hplan
    refine ⟨plan, hplan, ?_⟩
    have hresult := congrArg Prod.snd h
    cases hplay : (m.play host plan.moves).2 with
    | error fault => simp [hplay, Except.map] at hresult
    | ok => simpa [hplay, Except.map] using hresult

/-- One that fails has failed by its plan, on an empty stack or on a full one. -/
theorem apply_error {fault : Fault} (h : (m.apply host functions i).2 = .error fault) :
    i.plan host.limits functions m.depth m.stack = .error fault ∨
      fault = .emptyStack ∨ fault = .fullStack := by
  unfold apply at h
  split at h
  · rename_i fault' hplan
    obtain rfl := Except.error.inj h
    exact .inl hplan
  · rename_i plan hplan
    cases hplay : (m.play host plan.moves).2 with
    | error fault' =>
      obtain rfl : fault' = fault := by simpa [hplay, Except.map] using h
      exact .inr (play_error hplay)
    | ok => simp [hplay, Except.map] at h

/-- An instruction counts if the limit has room for it, and is not even started otherwise. -/
theorem executed_execute_eq (host : Host σ) (functions : Dictionary) (m : Machine σ)
    (i : Instruction) :
    (m.execute host functions i).1.executed =
      if host.limits.operations.toNat ≤ m.executed then m.executed else m.executed + 1 := by
  unfold execute
  split_ifs <;> rfl

/-- Before its effect an instruction has changed the stack at most. -/
theorem frame_execute (host : Host σ) (functions : Dictionary) (m : Machine σ) (i : Instruction) :
    (m.execute host functions i).1.sink = m.sink ∧
      (m.execute host functions i).1.depth = m.depth := by
  unfold execute
  split_ifs
  · exact ⟨rfl, rfl⟩
  · exact frame_apply host functions _ i

/-- With room for it, an instruction comes to what applying it comes to. -/
theorem result_execute (h : m.executed < host.limits.operations.toNat) :
    (m.execute host functions i).2 =
      ((note host (.start i m.depth m.stack) m).apply host functions i).2.mapError
        (.instructionFailed i m.depth m.executed) := by
  unfold execute
  rw [if_neg (Nat.not_le_of_lt h)]

/-- Within the limit of instructions the stack is that of the applied instruction. -/
theorem stack_execute (h : m.executed < host.limits.operations.toNat) :
    (m.execute host functions i).1.stack =
      ((note host (.start i m.depth m.stack) m).apply host functions i).1.stack := by
  unfold execute
  rw [if_neg (Nat.not_le_of_lt h)]
  rfl

/-- An instruction that is executed has had a plan, and goes on as planned. -/
theorem execute_ok {effect : Effect} (h : m.execute host functions i = (after, .ok effect)) :
    ∃ plan, i.plan host.limits functions m.depth m.stack = .ok plan ∧ plan.effect = effect := by
  unfold execute at h
  split at h
  · simp at h
  · have hresult := congrArg Prod.snd h
    rcases happly : (note host (.start i m.depth m.stack) m).apply host functions i with
      ⟨inner, fault | applied⟩
    · simp [happly, Except.mapError] at hresult
    · obtain rfl : applied = effect := by simpa [happly, Except.mapError] using hresult
      have hplan := apply_ok happly
      exact hplan

/-- How an instruction fails: it does not fit the limit of operations, or it has a fault. -/
theorem execute_error {e : RunError} (h : (m.execute host functions i).2 = .error e) :
    (host.limits.operations.toNat ≤ m.executed ∧ e = .tooLong m.executed) ∨
      ∃ fault, e = .instructionFailed i m.depth m.executed fault ∧
        (i.plan host.limits functions m.depth m.stack = .error fault ∨
          fault = .emptyStack ∨ fault = .fullStack) := by
  unfold execute at h
  split at h
  · rename_i hlimit
    exact .inl ⟨hlimit, (Except.error.inj h).symm⟩
  · rcases happly : (note host (.start i m.depth m.stack) m).apply host functions i with
      ⟨inner, fault | applied⟩
    · obtain rfl : RunError.instructionFailed i m.depth m.executed fault = e := by
        simpa [happly, Except.mapError] using h
      have hfault := apply_error (congrArg Prod.snd happly)
      exact .inr ⟨fault, rfl, hfault⟩
    · simp [happly, Except.mapError] at h

/-- What an instruction and its effect keep, a step keeps. -/
theorem perform_keeps {I : Machine σ → Prop} (hexec : I (m.execute host functions i).1)
    (hrealize : ∀ after effect, I after → I (after.realize host effect).1) :
    I (m.perform host functions i).1 := by
  unfold perform
  generalize m.execute host functions i = r at hexec ⊢
  obtain ⟨after, e | effect⟩ := r
  · exact hexec
  · exact hrealize after effect hexec

/-- What an instruction leads to is started without counting. -/
theorem executed_perform_eq (host : Host σ) (functions : Dictionary) (m : Machine σ)
    (i : Instruction) :
    (m.perform host functions i).1.executed = (m.execute host functions i).1.executed := by
  unfold perform
  split
  · rename_i after effect hexec
    rw [executed_realize, hexec]
  · rename_i after e hexec
    rw [hexec]

/-- What a step that goes on comes to, by the effect of its instruction. -/
inductive Performs (host : Host σ) (functions : Dictionary) (m : Machine σ) (i : Instruction) :
    Machine σ → List Task → Prop
  | nothing {after : Machine σ} (hexec : m.execute host functions i = (after, .ok .nothing)) :
      Performs host functions m i after []
  | print {after printed : Machine σ} {v : Int32}
      (hexec : m.execute host functions i = (after, .ok (.print v)))
      (hprint : after.print v = (printed, .ok ())) : Performs host functions m i printed []
  | follow {after : Machine σ} {code : Code}
      (hexec : m.execute host functions i = (after, .ok (.follow code))) :
      Performs host functions m i after (code.map .perform)
  | enter {after : Machine σ} {name : String} {body : Code}
      (hexec : m.execute host functions i = (after, .ok (.enter name body))) :
      Performs host functions m i (enter host name after) (body.map .perform ++ [.leave])

/-- A step that succeeds is one of the four kinds of steps. -/
theorem performs_of_perform {tasks : List Task}
    (h : m.perform host functions i = (next, .ok tasks)) :
    Performs host functions m i next tasks := by
  unfold perform at h
  split at h
  · rename_i after effect hexec
    cases effect with
    | nothing =>
      obtain ⟨rfl, htasks⟩ := Prod.mk.inj h
      obtain rfl := Except.ok.inj htasks
      exact .nothing hexec
    | print v =>
      rcases hprint : after.print v with ⟨printed, e | ⟨⟩⟩
      · simp [realize, hprint, Except.map] at h
      · obtain ⟨rfl, rfl⟩ : printed = next ∧ [] = tasks := by
          simpa [realize, hprint, Except.map] using h
        exact .print hexec hprint
    | enter name body =>
      obtain ⟨rfl, htasks⟩ := Prod.mk.inj h
      obtain rfl := Except.ok.inj htasks
      exact .enter hexec
    | follow code =>
      obtain ⟨rfl, htasks⟩ := Prod.mk.inj h
      obtain rfl := Except.ok.inj htasks
      exact .follow hexec
  · simp at h

/-- The tasks that an instruction leads to come from a body that it calls, or from a branch. -/
theorem perform_tasks {tasks : List Task} (h : m.perform host functions i = (next, .ok tasks)) :
    ∀ j, .perform j ∈ tasks →
      (∃ name body, i = .call name ∧ functions.find? name = some body ∧ j ∈ body) ∨
        ∃ nonzero zero, i = .branch nonzero zero ∧ (j ∈ nonzero ∨ j ∈ zero) := by
  intro j hj
  cases performs_of_perform h with
  | nothing | print => simp at hj
  | @follow _ code hexec =>
    obtain ⟨plan, hplan, heffect⟩ := execute_ok hexec
    obtain ⟨nonzero, zero, hbranch, hcode⟩ := (Instruction.plans_of_plan hplan).of_follow heffect
    have hmem : j ∈ code := by simpa using hj
    refine .inr ⟨nonzero, zero, hbranch, ?_⟩
    rcases hcode with rfl | rfl
    · exact .inl hmem
    · exact .inr hmem
  | @enter _ name body hexec =>
    obtain ⟨plan, hplan, heffect⟩ := execute_ok hexec
    obtain ⟨hcall, hfind⟩ := (Instruction.plans_of_plan hplan).of_enter heffect
    exact .inl ⟨name, body, hcall, hfind, by simpa using hj⟩

/-- Printing fails for what the sink says, and for nothing else. -/
theorem print_error {v : Int32} {e : RunError} (h : (m.print v).2 = .error e) :
    ∃ cause, e = .output cause := by
  unfold print at h
  cases hwrite : (m.sink.write (Text.intText v.toInt ++ "\n")).2 with
  | error cause => exact ⟨cause, by simpa [hwrite, Except.mapError] using h.symm⟩
  | ok => simp [hwrite, Except.mapError] at h

/-- A step that fails does so before its effect, or the sink refuses a value. -/
theorem perform_error {e : RunError} (h : m.perform host functions i = (next, .error e)) :
    m.execute host functions i = (next, .error e) ∨ ∃ cause, e = .output cause := by
  unfold perform at h
  split at h
  · rename_i inner effect hexec
    have hresult := congrArg Prod.snd h
    cases effect with
    | print v =>
      cases hprint : (inner.print v).2 with
      | error e' =>
        obtain rfl : e' = e := by simpa [realize, hprint, Except.map] using hresult
        exact .inr (print_error hprint)
      | ok => simp [realize, hprint, Except.map] at hresult
    | _ => simp [realize] at hresult
  · rename_i inner e' hexec
    obtain ⟨rfl, herror⟩ := Prod.mk.inj h
    obtain rfl := Except.error.inj herror
    exact .inl hexec

/-- A step that misses a function is a call of this function. -/
theorem perform_unknownFunction {j : Instruction} {depth executed : Nat} {name : String}
    (h : m.perform host functions i =
      (next, .error (.instructionFailed j depth executed (.unknownFunction name)))) :
    i = .call name ∧ functions.find? name = none := by
  rcases perform_error h with hexec | ⟨cause, hcause⟩
  · rcases execute_error (congrArg Prod.snd hexec) with ⟨-, hlong⟩ | ⟨fault, hfailed, hfault⟩
    · simp at hlong
    · obtain ⟨-, -, -, rfl⟩ := RunError.instructionFailed.inj hfailed
      rcases hfault with hplan | hmove | hmove
      · exact Instruction.of_plan_unknownFunction hplan
      · simp at hmove
      · simp at hmove
  · simp at hcause

/-- At the limit of operations a step does nothing. -/
theorem perform_of_limit_le (h : host.limits.operations.toNat ≤ m.executed) :
    m.perform host functions i = (m, .error (.tooLong m.executed)) := by
  unfold perform execute
  rw [if_pos h]

/-- **The rule for runs.** A relation between the state and the tasks that every step keeps, and
that gives the result at the end or at an error, gives it for the whole run. -/
theorem runTasks_keeps {I : Machine σ → List Task → Prop}
    {Q : Machine σ × Except RunError Unit → Prop}
    (hnil : ∀ m, I m [] → Q (m, .ok ()))
    (hleave : ∀ m rest, I m (.leave :: rest) → I m.leave rest)
    (hok : ∀ m i rest next tasks, I m (.perform i :: rest) →
      m.perform host functions i = (next, .ok tasks) → I next (tasks ++ rest))
    (herror : ∀ m i rest next e, I m (.perform i :: rest) →
      m.perform host functions i = (next, .error e) →
      Q ({ next with depth := next.depth - openCalls rest }, .error e))
    (m : Machine σ) (tasks : List Task) (h : I m tasks) :
    Q (m.runTasks host functions tasks) := by
  induction m, tasks using runTasks.induct host functions with
  | case1 m =>
    rw [runTasks_nil]
    exact hnil m h
  | case2 m rest ih =>
    rw [runTasks_leave]
    exact ih (hleave m rest h)
  | case3 m i rest next tasks hperform ih =>
    rw [runTasks_perform_ok hperform]
    exact ih (hok m i rest next tasks h hperform)
  | case4 m i rest next e hperform =>
    rw [runTasks_perform_error hperform]
    exact herror m i rest next e h hperform

/-- What every step keeps, and does not depend on the open calls, a run keeps. -/
theorem runTasks_keeps_state {I : Machine σ → Prop}
    (hdepth : ∀ m depth, I m → I { m with depth })
    (hstep : ∀ m i, I m → I (m.perform host functions i).1) (m : Machine σ) (tasks : List Task)
    (h : I m) : I (m.runTasks host functions tasks).1 := by
  refine runTasks_keeps (I := fun after _ => I after) (Q := fun r => I r.1) ?_ ?_ ?_ ?_ m tasks h
  · intro after hafter
    exact hafter
  · intro after rest hafter
    exact hdepth after _ hafter
  · intro after i rest next tasks hafter hperform
    have hnext := hstep after i hafter
    rwa [hperform] at hnext
  · intro after i rest next e hafter hperform
    have hnext := hstep after i hafter
    rw [hperform] at hnext
    exact hdepth next _ hnext

/-- **The rule for output.** What a line with a value keeps of the sink, a step keeps. -/
theorem sink_perform_keeps {P : Sink → Prop}
    (hwrite : ∀ sink (v : Int32), P sink → P (sink.write (Text.intText v.toInt ++ "\n")).1)
    (host : Host σ) (functions : Dictionary) (m : Machine σ) (i : Instruction) (h : P m.sink) :
    P (m.perform host functions i).1.sink := by
  refine perform_keeps (I := fun after => P after.sink) ?_ ?_
  · rw [(frame_execute host functions m i).1]
    exact h
  · intro after effect hafter
    cases effect with
    | print v => exact hwrite after.sink v hafter
    | nothing | enter | follow => exact hafter

/-- And a run keeps it. -/
theorem sink_run_keeps {P : Sink → Prop}
    (hwrite : ∀ sink (v : Int32), P sink → P (sink.write (Text.intText v.toInt ++ "\n")).1)
    (host : Host σ) (functions : Dictionary) (m : Machine σ) (code : Code) (h : P m.sink) :
    P (m.run host functions code).1.sink := by
  refine runTasks_keeps_state (I := fun after => P after.sink) ?_ ?_ m _ h
  · intro after depth hafter
    exact hafter
  · intro after i hafter
    exact sink_perform_keeps hwrite host functions after i hafter

end StackLang.Machine
