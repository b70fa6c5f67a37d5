import StackLang.Machine.Checked
import StackLang.Proofs.OpenCalls

/-!
# No check fails

The machine with its checks does what the machine does. What an instruction requires and what it
then looks at and takes off are the values that its plan has found (`operate_of_plans`,
`operate_of_misses`), so the operations of an instruction come to what its moves come to,
`comes_operate`. Limits are 64-bit words, and an instruction or a call is only begun below its
limit, so the counters stay in their words: `perform_eq`. A call that is left is open, because each
task to leave one comes from a call that has been made; so runs of code pass all checks on every
machine, `run_eq`, and `no_check_fails` says it of any runs one after the other.
-/

set_option autoImplicit false

namespace StackLang.Checked

variable {σ α β : Type} {host : Host σ} {functions : Dictionary} {m next last : Machine σ}
  {i : Instruction} {fault : Fault} {v : Int32}

/-- What an operation comes to that passes its checks. -/
def Comes (x : Operation σ α) (m : Machine σ) (result : Except Fault α) (next : Machine σ) : Prop :=
  x.run.run m = .ok (result, next)

namespace Comes

variable {x : Operation σ α} {f : α → Operation σ β}

/-- A value is there at once. -/
theorem pure (a : α) (m : Machine σ) : Comes (Pure.pure a : Operation σ α) m (.ok a) m := rfl

/-- A fault that is raised is what an operation comes to, and it leaves the machine as it is. -/
theorem throw (fault : Fault) (m : Machine σ) :
    Comes (throwThe Fault fault : Operation σ α) m (.error fault) m := rfl

/-- An operation goes on after the one before it. -/
theorem bind {a : α} {result : Except Fault β} (hx : Comes x m (.ok a) next)
    (hf : Comes (f a) next result last) : Comes (x >>= f) m result last := by
  unfold Comes at hx hf ⊢
  rw [ExceptT.run_bind, StateT.run_bind, hx]
  exact hf

/-- A fault ends the instruction. -/
theorem bind_fault (hx : Comes x m (.error fault) next) (f : α → Operation σ β) :
    Comes (x >>= f) m (.error fault) next := by
  unfold Comes at hx ⊢
  rw [ExceptT.run_bind, StateT.run_bind, hx]
  rfl

end Comes

section Operations

/-- The machine can be looked at. -/
theorem comes_get (m : Machine σ) : Comes (get : Operation σ (Machine σ)) m (.ok m) m := rfl

/-- And it can be changed. -/
theorem comes_modify (f : Machine σ → Machine σ) (m : Machine σ) :
    Comes (modify f : Operation σ Unit) m (.ok ()) (f m) := rfl

/-- A requirement that is met changes nothing. -/
theorem comes_require {count : Nat} (h : count ≤ m.stack.height) :
    Comes (require count) m (.ok ()) m := by
  refine (comes_get m).bind ?_
  rw [if_neg (Nat.not_lt_of_le h)]
  exact .pure () m

/-- One that is not met is a fault that says how many values there are. -/
theorem comes_require_of_lt {count : Nat} (h : m.stack.height < count) :
    Comes (require count) m (.error (.tooFewValues m.stack.height count)) m := by
  refine (comes_get m).bind ?_
  rw [if_pos h]
  exact .throw _ m

/-- A value that is there can be looked at. -/
theorem comes_look {index : Nat} (h : m.stack.cells[index]? = some v) :
    Comes (look index) m (.ok v) m := by
  refine (comes_get m).bind ?_
  simp only [h]
  exact .pure v m

/-- Taking off the top value gives it, and the observer is told. -/
theorem comes_takeOff? {stack : Stack} (h : m.stack.pop? = some (v, stack)) :
    Comes (takeOff? host) m (.ok (some v)) (.note host .pop { m with stack }) := by
  refine (comes_get m).bind ?_
  simp only [h]
  exact (comes_modify _ m).bind (.pure _ _)

/-- On an empty stack no value is taken off, which is no fault in itself. -/
theorem comes_takeOff?_of_none (h : m.stack.pop? = none) :
    Comes (takeOff? host) m (.ok none) m := by
  refine (comes_get m).bind ?_
  simp only [h]
  exact .pure _ m

/-- Where a value has to be there, it is taken off. -/
theorem comes_takeOff {stack : Stack} (h : m.stack.pop? = some (v, stack)) :
    Comes (takeOff host) m (.ok v) (.note host .pop { m with stack }) :=
  (comes_takeOff? h).bind (.pure v _)

/-- And if it is not there, the stack is at fault. -/
theorem comes_takeOff_of_none (h : m.stack.pop? = none) :
    Comes (takeOff host) m (.error .emptyStack) m :=
  (comes_takeOff?_of_none h).bind (.throw _ m)

/-- A value that a requirement has promised is there, so its check passes. -/
theorem comes_takeRequired {stack : Stack} (h : m.stack.pop? = some (v, stack)) :
    Comes (takeRequired host) m (.ok v) (.note host .pop { m with stack }) :=
  (comes_takeOff? h).bind (.pure v _)

/-- A value is put on a stack that has room for it. -/
theorem comes_putOn (h : m.stack.height < host.limits.stack.toNat) :
    Comes (putOn host v) m (.ok ()) (.note host (.push v) { m with stack := m.stack.push v }) := by
  refine (comes_get m).bind ?_
  rw [if_pos h]
  exact comes_modify _ m

/-- And a stack that is full is at fault. -/
theorem comes_putOn_of_full (h : ¬ m.stack.height < host.limits.stack.toNat) :
    Comes (putOn host v) m (.error .fullStack) m := by
  refine (comes_get m).bind ?_
  rw [if_neg h]
  exact .throw _ m

end Operations

section Arithmetic

/-- The quotient of the least value by -1 wraps, and nothing is left of a division by -1. -/
theorem minValue_div : Int32.minValue / -1 = Int32.minValue := by decide

/-- The remainder of a division by -1 is zero, also for the least value, whose quotient is none. -/
theorem mod_neg_one (a : Int32) : a % -1 = 0 := by
  rw [← Int32.toInt_inj, Int32.toInt_mod]
  exact Int.tmod_eq_zero_of_dvd ⟨-a.toInt, by simp⟩

/-- A division that is carried out has a result. -/
theorem comes_divide {a b : Int32} (hzero : b ≠ 0) (hleast : ¬ (a = Int32.minValue ∧ b = -1))
    (result : Int32 → Int32 → Int32) (m : Machine σ) :
    Comes (divide result a b) m (.ok (result a b)) m := by
  unfold divide
  rw [if_neg (not_or.2 ⟨hzero, hleast⟩)]
  exact .pure _ m

/-- An operation that has a result computes it, and the checks on its division pass. -/
theorem comes_compute {op : BinaryOp} {a b : Int32} (hv : op.eval? a b = some v)
    (m : Machine σ) : Comes (compute op a b) m (.ok v) m := by
  cases op with
  | add | sub | mul =>
    obtain rfl := Option.some.inj hv
    exact .pure _ m
  | div =>
    rw [BinaryOp.eval?] at hv
    by_cases hzero : b = 0
    · simp [hzero] at hv
    · rw [if_neg hzero] at hv
      obtain rfl := Option.some.inj hv
      rw [compute, if_neg hzero]
      by_cases hleast : a = Int32.minValue ∧ b = -1
      · rw [if_pos hleast, hleast.1, hleast.2, minValue_div]
        exact .pure _ m
      · rw [if_neg hleast]
        exact comes_divide hzero hleast _ m
  | mod =>
    rw [BinaryOp.eval?] at hv
    by_cases hzero : b = 0
    · simp [hzero] at hv
    · rw [if_neg hzero] at hv
      obtain rfl := Option.some.inj hv
      rw [compute, if_neg hzero]
      by_cases hminus : b = -1
      · rw [if_pos hminus, hminus, mod_neg_one]
        exact .pure _ m
      · rw [if_neg hminus]
        exact comes_divide hzero (fun hleast => hminus hleast.2) _ m

/-- One without a result divides by zero. -/
theorem comes_compute_of_none {op : BinaryOp} {a b : Int32} (hv : op.eval? a b = none)
    (m : Machine σ) : Comes (compute op a b) m (.error .divisionByZero) m := by
  have hzero : b = 0 := by
    by_contra hzero
    cases op <;> simp [BinaryOp.eval?, hzero] at hv
  cases op with
  | add | sub | mul => simp [BinaryOp.eval?] at hv
  | div | mod =>
    rw [compute, if_pos hzero]
    exact .throw _ m

end Arithmetic

section Plans

variable {moves : List Move} {effect : Effect}

/-- An operation that does what moves do, and comes to an effect after all of them. -/
def Plays (host : Host σ) (x : Operation σ Effect) (m : Machine σ) (moves : List Move)
    (effect : Effect) : Prop :=
  Comes x m ((m.play host moves).2.map fun _ => effect) (m.play host moves).1

/-- An operation with nothing to move plays no move. -/
theorem plays_pure (host : Host σ) (effect : Effect) (m : Machine σ) :
    Plays host (pure effect) m [] effect :=
  .pure effect m

/-- What leaves the machine alone makes no moves. -/
theorem plays_bind {x : Operation σ α} {a : α} {rest : α → Operation σ Effect}
    (hx : Comes x m (.ok a) m) (h : Plays host (rest a) m moves effect) :
    Plays host (x >>= rest) m moves effect :=
  hx.bind h

/-- Taking a value off is a move, and what comes after plays the rest. -/
theorem plays_pop {x : Operation σ Int32} {stack : Stack} {rest : Int32 → Operation σ Effect}
    (hpop : m.stack.pop? = some (v, stack))
    (hx : Comes x m (.ok v) (.note host .pop { m with stack }))
    (h : Plays host (rest v) (.note host .pop { m with stack }) moves effect) :
    Plays host (x >>= rest) m (.pop :: moves) effect := by
  unfold Plays
  rw [Machine.play, hpop]
  exact hx.bind h

/-- Putting a value on is a move, and what comes after plays the rest. -/
theorem plays_putOn {rest : Unit → Operation σ Effect}
    (h : Plays host (rest ()) (.note host (.push v) { m with stack := m.stack.push v }) moves
      effect) :
    Plays host (putOn host v >>= rest) m (.push v :: moves) effect := by
  unfold Plays
  rw [Machine.play]
  by_cases hroom : m.stack.height < host.limits.stack.toNat
  · rw [if_pos hroom]
    exact (comes_putOn hroom).bind h
  · rw [if_neg hroom]
    exact (comes_putOn_of_full hroom).bind_fault rest

/-- An instruction that can be planned looks at values that are there, takes off what it has
required, and divides what can be divided. -/
theorem operate_of_plans {p : Plan}
    (h : Instruction.Plans host.limits functions m.depth m.stack i p) :
    Plays host (operate host functions i) m p.moves p.effect := by
  have hheight := m.stack.height_eq
  have hpop {s : Stack} {v : Int32} {rest : List Int32} (hcells : s.cells = v :: rest) :
      s.pop? = some (v, { cells := rest }) :=
    (Stack.pop?_eq_some_iff s { cells := rest } v).2 hcells
  cases h with
  | number v => exact plays_putOn (plays_pure host _ _)
  | @binary op a b v rest hcells hv =>
    have htwo : 2 ≤ m.stack.height := by simp [hheight, hcells]
    have hfirst := hpop hcells
    refine plays_bind (comes_require htwo) ?_
    refine plays_bind (comes_look (v := a) (by simp [hcells])) ?_
    refine plays_bind (comes_look (v := b) (by simp [hcells])) ?_
    refine plays_bind (comes_compute hv m) ?_
    refine plays_pop hfirst (comes_takeRequired hfirst) ?_
    refine plays_pop (hpop rfl) (comes_takeRequired (hpop rfl)) ?_
    exact plays_putOn (plays_pure host _ _)
  | @unary op v rest hcells =>
    refine plays_pop (hpop hcells) (comes_takeOff (hpop hcells)) ?_
    exact plays_putOn (plays_pure host _ _)
  | out hcells => exact plays_pop (hpop hcells) (comes_takeOff (hpop hcells)) (plays_pure host _ _)
  | pop hcells => exact plays_pop (hpop hcells) (comes_takeOff (hpop hcells)) (plays_pure host _ _)
  | @dup v rest hcells =>
    have hone : 1 ≤ m.stack.height := by simp [hheight, hcells]
    refine plays_bind (comes_require hone) ?_
    refine plays_bind (comes_look (v := v) (by simp [hcells])) ?_
    exact plays_putOn (plays_pure host _ _)
  | @swap a b rest hcells =>
    have htwo : 2 ≤ m.stack.height := by simp [hheight, hcells]
    refine plays_bind (comes_require htwo) ?_
    refine plays_pop (hpop hcells) (comes_takeRequired (hpop hcells)) ?_
    refine plays_pop (hpop rfl) (comes_takeRequired (hpop rfl)) ?_
    exact plays_putOn (plays_putOn (plays_pure host _ _))
  | @rot a b c rest hcells =>
    have hthree : 3 ≤ m.stack.height := by simp [hheight, hcells]
    refine plays_bind (comes_require hthree) ?_
    refine plays_pop (hpop hcells) (comes_takeRequired (hpop hcells)) ?_
    refine plays_pop (hpop rfl) (comes_takeRequired (hpop rfl)) ?_
    refine plays_pop (hpop rfl) (comes_takeRequired (hpop rfl)) ?_
    exact plays_putOn (plays_putOn (plays_putOn (plays_pure host _ _)))
  | @«over» a b rest hcells =>
    have htwo : 2 ≤ m.stack.height := by simp [hheight, hcells]
    refine plays_bind (comes_require htwo) ?_
    refine plays_bind (comes_look (v := b) (by simp [hcells])) ?_
    exact plays_putOn (plays_pure host _ _)
  | define => exact plays_pure host _ m
  | @call name body hfind hdepth =>
    show Comes (operate host functions (.call name)) m (.ok (.enter name body)) m
    unfold operate
    simp only [hfind]
    refine (comes_get m).bind ?_
    rw [if_neg (Nat.not_le_of_lt hdepth)]
    exact .pure _ m
  | branch hcells =>
    exact plays_pop (hpop hcells) (comes_takeOff (hpop hcells)) (plays_pure host _ _)

/-- An instruction that misses something ends in a fault before it changes anything. -/
theorem operate_of_misses
    (h : Instruction.Misses host.limits functions m.depth m.stack i fault) :
    Comes (operate host functions i) m (.error fault) m := by
  have hheight := m.stack.height_eq
  cases h with
  | underflow hlow =>
    have hempty (hone : m.stack.height < 1) : m.stack.pop? = none := by
      rw [Stack.pop?_eq_none_iff, ← List.length_eq_zero_iff]
      omega
    cases i with
    | number | define | call => exact absurd hlow (Nat.not_lt_zero _)
    | unary | out | pop | branch =>
      exact (comes_takeOff_of_none (hempty hlow)).bind_fault _
    | binary | dup | swap | rot | «over» => exact (comes_require_of_lt hlow).bind_fault _
  | @divisor op a b rest hcells hv =>
    have htwo : 2 ≤ m.stack.height := by simp [hheight, hcells]
    refine (comes_require htwo).bind ?_
    refine (comes_look (v := a) (by simp [hcells])).bind ?_
    refine (comes_look (v := b) (by simp [hcells])).bind ?_
    exact (comes_compute_of_none hv m).bind_fault _
  | unknown hfind =>
    unfold operate
    simp only [hfind]
    exact .throw _ m
  | tooDeep hfind hdepth =>
    unfold operate
    simp only [hfind]
    refine (comes_get m).bind ?_
    rw [if_pos hdepth]
    exact .throw _ m

/-- **The operations of an instruction** pass their checks, and come to what the instruction comes
to. -/
theorem comes_operate (host : Host σ) (functions : Dictionary) (m : Machine σ) (i : Instruction) :
    Comes (operate host functions i) m (m.apply host functions i).2
      (m.apply host functions i).1 := by
  unfold Machine.apply
  cases hplan : i.plan host.limits functions m.depth m.stack with
  | error fault => exact operate_of_misses (Instruction.misses_of_plan hplan)
  | ok p => exact operate_of_plans (Instruction.plans_of_plan hplan)

end Plans

section Runs

/-- Limits have words, so that a count below its limit can go up by one. -/
theorem execute_eq (host : Host σ) (functions : Dictionary) (m : Machine σ) (i : Instruction) :
    execute host functions m i = .ok (m.execute host functions i) := by
  unfold execute Machine.execute
  by_cases hlimit : host.limits.operations.toNat ≤ m.executed
  · rw [if_pos hlimit, if_pos hlimit]
  · have hword : m.executed + 1 < UInt64.size := by
      have hsize := host.limits.operations.toNat_lt
      have hsame : UInt64.size = 2 ^ 64 := rfl
      omega
    have hoperate := comes_operate host functions (m.note host (.start i m.depth m.stack)) i
    have hdepth := (Machine.frame_apply host functions (m.note host (.start i m.depth m.stack)) i).2
    unfold Comes at hoperate
    rw [if_neg hlimit, if_neg hlimit, hoperate]
    generalize (m.note host (.start i m.depth m.stack)).apply host functions i = r at hdepth ⊢
    obtain ⟨after, result⟩ := r
    change after.depth = m.depth at hdepth
    simp only [bind, Except.bind]
    rw [if_pos hword, hdepth]
    rfl

/-- A call that is made is made below its limit, so that the number of open calls has a word. -/
theorem realize_eq {effect : Effect} (hexec : m.execute host functions i = (next, .ok effect)) :
    realize host next effect = .ok (next.realize host effect) := by
  cases effect with
  | enter name body =>
    obtain ⟨p, hplan, heffect⟩ := Machine.execute_ok hexec
    have hroom := (Instruction.plans_of_plan hplan).depth_lt_of_enter heffect
    have hdepth := Machine.depth_execute hexec
    have hword : next.depth + 1 < UInt64.size := by
      have hsize := host.limits.depth.toNat_lt
      have hsame : UInt64.size = 2 ^ 64 := rfl
      omega
    exact if_pos hword
  | nothing | print | follow => rfl

/-- **A step passes its checks**, on every machine. -/
theorem perform_eq (host : Host σ) (functions : Dictionary) (m : Machine σ) (i : Instruction) :
    perform host functions m i = .ok (m.perform host functions i) := by
  unfold perform Machine.perform
  rw [execute_eq]
  rcases hexec : m.execute host functions i with ⟨after, e | effect⟩
  · rfl
  · exact realize_eq hexec

/-- A call that is open can be left. -/
theorem leave_eq (h : 0 < m.depth) : leave m = .ok m.leave := if_pos h

/-- An error leaves calls that are open. -/
theorem leaveAll_eq {tasks : List Task} (h : Machine.openCalls tasks ≤ m.depth) :
    leaveAll m tasks = .ok { m with depth := m.depth - Machine.openCalls tasks } := by
  induction tasks generalizing m with
  | nil => rfl
  | cons task rest ih =>
    cases task with
    | perform j => exact ih h
    | leave =>
      rw [Machine.openCalls_leave_cons] at h ⊢
      have hrest : Machine.openCalls rest ≤ m.leave.depth := Nat.le_sub_one_of_lt h
      have hopen : 0 < m.depth := by omega
      have hdepth : m.depth - 1 - Machine.openCalls rest =
          m.depth - (Machine.openCalls rest + 1) := by omega
      rw [leaveAll, leave_eq hopen]
      show leaveAll m.leave rest = _
      rw [ih hrest, ← hdepth]
      rfl

/-- A run passes its checks if the calls that it leaves are open. -/
theorem runTasks_eq {tasks : List Task} (h : Machine.openCalls tasks ≤ m.depth) :
    runTasks host functions m tasks = .ok (m.runTasks host functions tasks) := by
  induction m, tasks using Machine.runTasks.induct host functions with
  | case1 m =>
    rw [runTasks, Machine.runTasks_nil]
  | case2 m rest ih =>
    rw [Machine.openCalls_leave_cons] at h
    have hopen : 0 < m.depth := by omega
    have hrest : Machine.openCalls rest ≤ m.leave.depth := Nat.le_sub_one_of_lt h
    rw [runTasks_leave_ok (leave_eq hopen), Machine.runTasks_leave, ih hrest]
  | case3 m i rest next tasks hperform ih =>
    have hstep := perform_eq host functions m i
    rw [hperform] at hstep
    have hnext := Machine.depth_perform hperform
    have hrest : Machine.openCalls (.perform i :: rest) = Machine.openCalls rest := rfl
    rw [runTasks_perform_ok hstep, Machine.runTasks_perform_ok hperform]
    refine ih ?_
    rw [Machine.openCalls_append]
    omega
  | case4 m i rest next e hperform =>
    have hstep := perform_eq host functions m i
    rw [hperform] at hstep
    have hnext := Machine.depth_perform_error hperform
    have hrest : Machine.openCalls (.perform i :: rest) = Machine.openCalls rest := rfl
    have hopen : Machine.openCalls rest ≤ next.depth := by omega
    rw [runTasks_perform_error hstep, Machine.runTasks_perform_error hperform, leaveAll_eq hopen]
    rfl

/-- Code leaves only the calls that it has made. -/
theorem run_eq (host : Host σ) (functions : Dictionary) (m : Machine σ) (code : Code) :
    run host functions m code = .ok (m.run host functions code) := by
  refine runTasks_eq ?_
  rw [Machine.openCalls_map_perform]
  exact Nat.zero_le _

/-- Runs one job after the other on the same machine, as long as no check fails. -/
def runJobs (host : Host σ) (m : Machine σ) (jobs : List Machine.Job) : Except Check (Machine σ) :=
  jobs.foldlM (fun m job =>
    (run host job.functions { m with sink := job.sink } job.code).map Prod.fst) m

/-- Jobs never fail a check, and do what they do without checks. -/
theorem runJobs_eq (host : Host σ) (m : Machine σ) (jobs : List Machine.Job) :
    runJobs host m jobs = .ok (m.runJobs host jobs) := by
  induction jobs generalizing m with
  | nil => rfl
  | cons job jobs ih =>
    rw [runJobs, List.foldlM_cons, run_eq]
    exact ih _

/-- **No check fails.** On every machine, whatever its stack, its limits and its counters are, and
so on a new one with any values: any runs of any code, one after the other and whatever each of
them ends in, pass all checks and leave the machine that they leave without checks. So does the run
after them, and it comes to the same result. -/
theorem no_check_fails (host : Host σ) (m : Machine σ) (jobs : List Machine.Job)
    (job : Machine.Job) :
    runJobs host m jobs = .ok (m.runJobs host jobs) ∧
      let after : Machine σ := { m.runJobs host jobs with sink := job.sink }
      run host job.functions after job.code = .ok (after.run host job.functions job.code) :=
  ⟨runJobs_eq host m jobs, run_eq host job.functions _ job.code⟩

end Runs

end StackLang.Checked
