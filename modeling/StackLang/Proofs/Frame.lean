import StackLang.Proofs.Runs
import Mathlib.Data.List.Permutation

/-!
# What lies underneath the stack

An instruction looks at the stack from its top. As long as it finds enough values there, other
values underneath change neither what it does nor what it finds wrong (`plan_onTopOf`), and a
limit that is higher by their number leaves the same room for it (`play_onTopOf`). So two runs of
the same code, one of them on top of other values, go on step by step alike, with those values
untouched (`perform_onTopOf`). They part only where the first run finds too few values, which
is the one thing that the statement on runs excludes: `run_onTopOf`.
-/

set_option autoImplicit false

namespace StackLang

namespace Stack

/-- The values of one stack on top of those of another one. -/
def onTopOf (s base : Stack) : Stack :=
  { cells := s.cells ++ base.cells, height := s.height + base.height
    height_eq := by rw [s.height_eq, base.height_eq, List.length_append] }

@[simp]
theorem cells_onTopOf (s base : Stack) : (s.onTopOf base).cells = s.cells ++ base.cells := rfl

@[simp]
theorem height_onTopOf (s base : Stack) : (s.onTopOf base).height = s.height + base.height := rfl

/-- Counted from the bottom, the values below come first. -/
theorem toList_onTopOf (s base : Stack) : (s.onTopOf base).toList = base.toList ++ s.toList := by
  rw [toList, cells_onTopOf, List.reverse_append]
  rfl

/-- A value that is put on a stack is put on what the stack stands on. -/
theorem push_onTopOf (s base : Stack) (v : Int32) :
    (s.onTopOf base).push v = (s.push v).onTopOf base := ext rfl

/-- A value that is taken off a stack is taken off what the stack stands on. -/
theorem pop?_onTopOf {s t : Stack} {v : Int32} (h : s.pop? = some (v, t)) (base : Stack) :
    (s.onTopOf base).pop? = some (v, t.onTopOf base) := by
  rw [pop?_eq_some_iff] at h ⊢
  rw [cells_onTopOf, h]
  rfl

end Stack

/-- The same limits, with room for `n` values more. -/
def Limits.raise (limits : Limits) (n : Nat) : Limits :=
  { limits with stack := limits.stack + .ofNat n }

/-- Limits that leave room for `n` values more and are the same otherwise. -/
structure Limits.Raised (limits higher : Limits) (n : Nat) : Prop where
  stack : higher.stack.toNat = limits.stack.toNat + n
  depth : higher.depth = limits.depth
  operations : higher.operations = limits.operations

/-- A raised limit is higher by what it is raised by, if it stays a word. -/
theorem Limits.raised_raise {limits : Limits} {n : Nat}
    (h : limits.stack.toNat + n < UInt64.size) : limits.Raised (limits.raise n) n := by
  have hn : (UInt64.ofNat n).toNat = n := UInt64.toNat_ofNat_of_lt' (by omega)
  refine ⟨?_, rfl, rfl⟩
  show (limits.stack + .ofNat n).toNat = _
  rw [UInt64.toNat_add, hn, Nat.mod_eq_of_lt h]

/-- Whether a run ended because an instruction found too few values. -/
def RunError.IsUnderflow : RunError → Prop
  | .instructionFailed _ _ _ fault => fault.isUnderflow
  | _ => False

namespace Instruction

variable {limits higher : Limits} {functions : Dictionary} {depth : Nat} {stack : Stack}
  {i : Instruction} {p : Plan} {fault : Fault}

/-- What an instruction has planned on a stack it plans on a higher one. -/
theorem Plans.onTopOf (h : Plans limits functions depth stack i p)
    (hdepth : higher.depth = limits.depth) (base : Stack) :
    Plans higher functions depth (stack.onTopOf base) i p := by
  have hcells {top : List Int32} (htop : stack.cells = top) :
      (stack.onTopOf base).cells = top ++ base.cells := by
    rw [Stack.cells_onTopOf, htop]
  cases h with
  | number v => exact .number v
  | binary htop hv => exact .binary (hcells htop) hv
  | unary htop => exact .unary (hcells htop)
  | out htop => exact .out (hcells htop)
  | pop htop => exact .pop (hcells htop)
  | dup htop => exact .dup (hcells htop)
  | swap htop => exact .swap (hcells htop)
  | rot htop => exact .rot (hcells htop)
  | «over» htop => exact .over (hcells htop)
  | define name body => exact .define name body
  | call hfind hroom => exact .call hfind (by rwa [hdepth])
  | branch htop => exact .branch (hcells htop)

/-- Faults other than a lack of values do not depend on what lies underneath. -/
theorem Misses.onTopOf (h : Misses limits functions depth stack i fault)
    (hfault : fault.isUnderflow = false) (hdepth : higher.depth = limits.depth) (base : Stack) :
    Misses higher functions depth (stack.onTopOf base) i fault := by
  cases h with
  | underflow =>
    unfold Instruction.underflow at hfault
    split at hfault <;> simp [Fault.isUnderflow] at hfault
  | @divisor op a b rest htop hv =>
    have hframed : (stack.onTopOf base).cells = b :: a :: (rest ++ base.cells) := by
      rw [Stack.cells_onTopOf, htop]
      rfl
    exact .divisor hframed hv
  | unknown hfind => exact .unknown hfind
  | tooDeep hfind hroom =>
    rw [← hdepth] at hroom ⊢
    exact .tooDeep hfind hroom

/-- Without an underflow a plan, or the fault it ends with, stays the same on a higher stack. -/
theorem plan_onTopOf (hdepth : higher.depth = limits.depth) (base : Stack)
    (h : ∀ fault, i.plan limits functions depth stack = .error fault → fault.isUnderflow = false) :
    i.plan higher functions depth (stack.onTopOf base) =
      i.plan limits functions depth stack := by
  cases hplan : i.plan limits functions depth stack with
  | ok p => exact ((plans_of_plan hplan).onTopOf hdepth base).plan_eq
  | error fault => exact ((misses_of_plan hplan).onTopOf (h fault hplan) hdepth base).plan_eq

end Instruction

namespace Machine

variable {σ : Type}

/-- The same state on top of other values. What the observer makes of the events may differ,
since events show the height of the stack. -/
structure Framed (base : Stack) (m framed : Machine σ) : Prop where
  stack : framed.stack = m.stack.onTopOf base
  sink : framed.sink = m.sink
  executed : framed.executed = m.executed
  depth : framed.depth = m.depth

/-- Two outcomes with the same result, the second one on top of other values. -/
def FramedOutcome {ε α : Type} (base : Stack) (r framed : Machine σ × Except ε α) : Prop :=
  framed.2 = r.2 ∧ Framed base r.1 framed.1

section Lockstep

variable {host higher : Host σ} {base : Stack} {functions : Dictionary} {m framed : Machine σ}
  {i : Instruction}

/-- Telling the observers of events, of whatever kind, leaves a machine framed. -/
theorem Framed.note (h : Framed base m framed) (event event' : Event) :
    Framed base (note host event m) (note higher event' framed) :=
  ⟨h.stack, h.sink, h.executed, h.depth⟩

/-- Moves play the same on a higher stack, unless they find theirs empty. -/
theorem play_onTopOf (hlimits : host.limits.Raised higher.limits base.height)
    {moves : List Move} (h : Framed base m framed)
    (hplay : (m.play host moves).2 ≠ .error .emptyStack) :
    FramedOutcome base (m.play host moves) (framed.play higher moves) := by
  have hlimit := hlimits.stack
  induction moves generalizing m framed with
  | nil => exact ⟨rfl, h⟩
  | cons move moves ih =>
    have hstack := h.stack
    cases move with
    | pop =>
      unfold play at hplay ⊢
      cases hpop : m.stack.pop? with
      | none => simp [hpop] at hplay
      | some popped =>
        have hframed := Stack.pop?_onTopOf hpop base
        rw [← hstack] at hframed
        simp only [hpop] at hplay
        simp only [hframed]
        exact ih ⟨rfl, h.sink, h.executed, h.depth⟩ hplay
    | push v =>
      unfold play at hplay ⊢
      have hheight : framed.stack.height = m.stack.height + base.height := by
        rw [hstack, Stack.height_onTopOf]
      by_cases hroom : m.stack.height < host.limits.stack.toNat
      · have hroom' : framed.stack.height < higher.limits.stack.toNat := by omega
        rw [if_pos hroom] at hplay ⊢
        rw [if_pos hroom']
        refine ih ⟨?_, h.sink, h.executed, h.depth⟩ hplay
        show framed.stack.push v = _
        rw [hstack, Stack.push_onTopOf]
        rfl
      · have hroom' : ¬ framed.stack.height < higher.limits.stack.toNat := by omega
        rw [if_neg hroom, if_neg hroom']
        exact ⟨rfl, h⟩

/-- Applying an instruction comes to the same on a higher stack, unless it underflows. -/
theorem apply_onTopOf (hlimits : host.limits.Raised higher.limits base.height)
    (h : Framed base m framed)
    (hfault : ∀ fault, (m.apply host functions i).2 = .error fault → fault.isUnderflow = false) :
    FramedOutcome base (m.apply host functions i) (framed.apply higher functions i) := by
  have hplan : i.plan higher.limits functions framed.depth framed.stack =
      i.plan host.limits functions m.depth m.stack := by
    rw [h.stack, h.depth]
    refine Instruction.plan_onTopOf hlimits.depth base fun fault hplan => hfault fault ?_
    simp only [apply, hplan]
  unfold apply at hfault ⊢
  rw [hplan]
  generalize i.plan host.limits functions m.depth m.stack = planned at hfault ⊢
  cases planned with
  | error fault => exact ⟨rfl, h⟩
  | ok plan =>
    simp only at hfault ⊢
    have hplay : (m.play host plan.moves).2 ≠ .error .emptyStack := by
      intro hempty
      have hno := hfault .emptyStack (by rw [hempty]; rfl)
      simp [Fault.isUnderflow] at hno
    obtain ⟨hresult, hstate⟩ := play_onTopOf hlimits h hplay
    exact ⟨by rw [hresult], hstate⟩

/-- And so does executing it, with its count and its report. -/
theorem execute_onTopOf (hlimits : host.limits.Raised higher.limits base.height)
    (h : Framed base m framed)
    (hno : ∀ e, (m.execute host functions i).2 = .error e → ¬ e.IsUnderflow) :
    FramedOutcome base (m.execute host functions i) (framed.execute higher functions i) := by
  have hoperations := hlimits.operations
  by_cases hroom : m.executed < host.limits.operations.toNat
  · have hroom' : framed.executed < higher.limits.operations.toNat := by
      rwa [hoperations, h.executed]
    have hfault : ∀ fault,
        ((note host (.start i m.depth m.stack) m).apply host functions i).2 = .error fault →
          fault.isUnderflow = false := by
      intro fault happly
      have hsafe := hno (.instructionFailed i m.depth m.executed fault) (by
        rw [result_execute hroom, happly]
        rfl)
      exact Bool.eq_false_iff.2 hsafe
    have hstart : Framed base (note host (.start i m.depth m.stack) m)
        (note higher (.start i framed.depth framed.stack) framed) := h.note _ _
    obtain ⟨hresult, hstate⟩ := apply_onTopOf hlimits hstart hfault
    obtain ⟨hsink, hdepth⟩ := frame_execute host functions m i
    obtain ⟨hsink', hdepth'⟩ := frame_execute higher functions framed i
    refine ⟨?_, ?_, ?_, ?_, ?_⟩
    · rw [result_execute hroom, result_execute hroom', hresult, h.depth, h.executed]
    · rw [stack_execute hroom, stack_execute hroom', hstate.stack]
    · rw [hsink, hsink', h.sink]
    · rw [executed_execute_eq, executed_execute_eq, hoperations, h.executed]
    · rw [hdepth, hdepth', h.depth]
  · have hlong := Nat.le_of_not_lt hroom
    have hlong' : higher.limits.operations.toNat ≤ framed.executed := by
      rwa [hoperations, h.executed]
    unfold execute
    rw [if_pos hlong, if_pos hlong', h.executed]
    exact ⟨rfl, h⟩

/-- Printing does not look at the stack. -/
theorem print_onTopOf (h : Framed base m framed) (v : Int32) :
    FramedOutcome base (m.print v) (framed.print v) := by
  unfold print
  rw [h.sink]
  exact ⟨rfl, h.stack, rfl, h.executed, h.depth⟩

/-- What an instruction goes on with is the same on a higher stack. -/
theorem realize_onTopOf (h : Framed base m framed) (effect : Effect) :
    FramedOutcome base (m.realize host effect) (framed.realize higher effect) := by
  cases effect with
  | nothing | follow code => exact ⟨rfl, h⟩
  | print v =>
    obtain ⟨hresult, hstate⟩ := print_onTopOf h v
    exact ⟨congrArg (Except.map fun _ => []) hresult, hstate⟩
  | enter name body =>
    exact ⟨rfl, h.stack, h.sink, h.executed, congrArg (· + 1) h.depth⟩

/-- **A step on top of other values.** Unless it finds too few values, a step does the same on top
of others: it leads to the same tasks or fails with the same error, and leaves them untouched. -/
theorem perform_onTopOf (hlimits : host.limits.Raised higher.limits base.height)
    (h : Framed base m framed)
    (hno : ∀ e, (m.perform host functions i).2 = .error e → ¬ e.IsUnderflow) :
    FramedOutcome base (m.perform host functions i) (framed.perform higher functions i) := by
  have hsafe : ∀ e, (m.execute host functions i).2 = .error e → ¬ e.IsUnderflow := by
    intro e hexec
    refine hno e ?_
    unfold perform
    split
    · rename_i after effect heq
      simp [heq] at hexec
    · rename_i after e' heq
      rw [heq] at hexec
      obtain rfl := Except.error.inj hexec
      rfl
  obtain ⟨hresult, hstate⟩ := execute_onTopOf hlimits h hsafe
  unfold perform
  generalize m.execute host functions i = r at hresult hstate ⊢
  generalize framed.execute higher functions i = r' at hresult hstate ⊢
  obtain ⟨after, result⟩ := r
  obtain ⟨after', result'⟩ := r'
  obtain rfl : result' = result := hresult
  cases result' with
  | error e => exact ⟨rfl, hstate⟩
  | ok effect => exact realize_onTopOf hstate effect

/-- Tasks on top of other values. -/
theorem runTasks_onTopOf (hlimits : host.limits.Raised higher.limits base.height)
    {tasks : List Task} (h : Framed base m framed)
    (hno : ∀ e, (m.runTasks host functions tasks).2 = .error e → ¬ e.IsUnderflow) :
    FramedOutcome base (m.runTasks host functions tasks)
      (framed.runTasks higher functions tasks) := by
  induction m, tasks using runTasks.induct host functions generalizing framed with
  | case1 m =>
    rw [runTasks_nil, runTasks_nil]
    exact ⟨rfl, h⟩
  | case2 m rest ih =>
    rw [runTasks_leave] at hno ⊢
    rw [runTasks_leave]
    exact ih ⟨h.stack, h.sink, h.executed, congrArg (· - 1) h.depth⟩ hno
  | case3 m i rest next tasks hperform ih =>
    have hsafe : ∀ e, (m.perform host functions i).2 = .error e → ¬ e.IsUnderflow := by
      simp [hperform]
    have hstep := perform_onTopOf hlimits h hsafe
    rcases hperform' : framed.perform higher functions i with ⟨next', result⟩
    rw [hperform, hperform'] at hstep
    obtain ⟨rfl, hstate⟩ := hstep
    rw [runTasks_perform_ok hperform] at hno ⊢
    rw [runTasks_perform_ok hperform']
    exact ih hstate hno
  | case4 m i rest next e hperform =>
    rw [runTasks_perform_error hperform] at hno ⊢
    have hsafe : ∀ e, (m.perform host functions i).2 = .error e → ¬ e.IsUnderflow := by
      intro e' he'
      rw [hperform] at he'
      obtain rfl := Except.error.inj he'
      exact hno e rfl
    have hstep := perform_onTopOf hlimits h hsafe
    rcases hperform' : framed.perform higher functions i with ⟨next', result⟩
    rw [hperform, hperform'] at hstep
    obtain ⟨rfl, hstate⟩ := hstep
    rw [runTasks_perform_error hperform']
    exact ⟨rfl, hstate.stack, hstate.sink, hstate.executed,
      congrArg (· - openCalls rest) hstate.depth⟩

end Lockstep

/-- **The stack frame rule.** If a run does not end because an instruction finds too few values, the
run of the same code on top of other values, with a limit that is higher by their number, has the
same result, output and count, and it ends on the same stack on top of the same values. -/
theorem run_onTopOf (host : Host σ) (functions : Dictionary) (m : Machine σ) (code : Code)
    (base : Stack) (hfits : host.limits.stack.toNat + base.height < UInt64.size)
    (hno : ∀ i depth executed fault, (m.run host functions code).2 =
      .error (.instructionFailed i depth executed fault) → fault.isUnderflow = false) :
    let r := m.run host functions code
    let framed := { m with stack := m.stack.onTopOf base }.run
      { host with limits := host.limits.raise base.height } functions code
    framed.2 = r.2 ∧ framed.1.sink = r.1.sink ∧ framed.1.executed = r.1.executed ∧
      framed.1.stack.toList = base.toList ++ r.1.stack.toList := by
  have hsafe : ∀ e, (m.run host functions code).2 = .error e → ¬ e.IsUnderflow := by
    intro e he
    cases e with
    | instructionFailed i depth executed fault =>
      have hfault := hno i depth executed fault he
      simp [RunError.IsUnderflow, hfault]
    | tooLong | output => exact id
  have hstart : Framed base m { m with stack := m.stack.onTopOf base } := ⟨rfl, rfl, rfl, rfl⟩
  have hframed : FramedOutcome base (m.run host functions code)
      ({ m with stack := m.stack.onTopOf base }.run
        { host with limits := host.limits.raise base.height } functions code) :=
    runTasks_onTopOf (Limits.raised_raise hfits) hstart hsafe
  obtain ⟨hresult, hstate⟩ := hframed
  refine ⟨hresult, hstate.sink, hstate.executed, ?_⟩
  rw [← Stack.toList_onTopOf]
  exact congrArg Stack.toList hstate.stack

/-- A function that calls itself counts down, a rotation reaches to the bottom of the stack, and a
copy finds no room, on an empty stack as on top of two values. -/
theorem run_onTopOf_countdown :
    let host : Host Unit := { limits := { stack := 4 }, observe := .blind }
    let functions := Dictionary.empty.insert "F"
      [.dup, .branch [.number (-1), .binary .add, .call "F"] []]
    let m : Machine Unit := { stack := .ofList [5, 6, 2], sink := {}, seen := () }
    let base := Stack.ofList [7, 8]
    let code : Code := [.call "F", .rot, .out, .dup, .dup, .dup]
    let r := m.run host functions code
    let framed := { m with stack := m.stack.onTopOf base }.run
      { host with limits := host.limits.raise base.height } functions code
    r.2 = .error (.instructionFailed .dup 0 17 .fullStack) ∧ r.1.sink.text = "5\n" ∧
      framed.2 = r.2 ∧ framed.1.sink = r.1.sink ∧ framed.1.executed = r.1.executed ∧
      framed.1.stack.toList = base.toList ++ r.1.stack.toList := by
  intro host functions m base code r framed
  have hresult : r.2 = .error (.instructionFailed .dup 0 17 .fullStack) := by
    simp only [r, host, functions, m, code]
    cbv
  refine ⟨hresult, ?_, run_onTopOf host functions m code base (by decide) ?_⟩
  · simp only [r, host, functions, m, code]
    cbv
  · intro i depth executed fault hfailed
    obtain ⟨-, -, -, rfl⟩ := RunError.instructionFailed.inj
      (Except.error.inj (hresult.symm.trans hfailed))
    rfl

end Machine

end StackLang
