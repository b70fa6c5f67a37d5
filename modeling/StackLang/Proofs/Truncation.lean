import StackLang.Machine.Stats
import StackLang.Proofs.Output
import Mathlib.Data.List.Permutation

/-!
# Lower limits only cut runs short

Two runs of the same code from the same state, one of them with lower limits, do the same
steps as long as the lower limits have room. The step at which one of these has none fails in
the first run and may do more in the second: `perform_eq_or_atLimit`. What the second run does
from there on only adds to its output and its count. So the first run is the second one, or it
is a part of it that ends in an error of its limits: `runTasks_eq_or_truncates`. Nothing is
assumed about the state, so the stack may be above its limit from the start, and an instruction
may fail after it has taken values off.
-/

set_option autoImplicit false

namespace StackLang

/-- Each limit is at most its counterpart. -/
structure Limits.Le (small large : Limits) : Prop where
  stack : small.stack ≤ large.stack
  operations : small.operations ≤ large.operations
  depth : small.depth ≤ large.depth

/-- A fault that other limits would not have made. -/
def Fault.AtLimit : Fault → Prop
  | .fullStack => True
  | .tooDeep _ => True
  | _ => False

/-- An error that other limits would not have made. -/
def RunError.AtLimit : RunError → Prop
  | .instructionFailed _ _ _ fault => fault.AtLimit
  | .tooLong _ => True
  | .output _ => False

namespace Machine

variable {σ : Type} {functions : Dictionary} {m next : Machine σ} {i : Instruction}

/-- One state comes after another: there is as much output or more, and as high a count. -/
def Grows (m after : Machine σ) : Prop :=
  m.sink.text.toList <+: after.sink.text.toList ∧ m.executed ≤ after.executed

section Growth

variable {host : Host σ}

/-- Every state comes after itself. -/
theorem Grows.refl (m : Machine σ) : m.Grows m :=
  ⟨List.prefix_rfl, Nat.le_refl _⟩

/-- What comes after a later state comes after the earlier one. -/
theorem Grows.trans {middle after : Machine σ} (h : m.Grows middle) (h' : middle.Grows after) :
    m.Grows after :=
  ⟨h.1.trans h'.1, Nat.le_trans h.2 h'.2⟩

/-- A step takes back neither output nor counted instructions. -/
theorem grows_perform (host : Host σ) (functions : Dictionary) (m : Machine σ) (i : Instruction) :
    m.Grows (m.perform host functions i).1 := by
  constructor
  · refine sink_perform_keeps (P := fun sink => m.sink.text.toList <+: sink.text.toList) ?_ host
      functions m i List.prefix_rfl
    intro sink v h
    obtain ⟨part, -, hwrite⟩ := sink.exists_write (Text.intText v.toInt ++ "\n")
    rw [hwrite]
    exact h.trans (List.prefix_append _ _)
  · rw [executed_perform_eq, executed_execute_eq]
    split_ifs <;> omega

/-- And no run does. -/
theorem grows_runTasks (host : Host σ) (functions : Dictionary) (m : Machine σ)
    (tasks : List Task) : m.Grows (m.runTasks host functions tasks).1 := by
  refine runTasks_keeps_state (I := fun after => m.Grows after) ?_ ?_ m tasks (.refl m)
  · intro after depth h
    exact h
  · intro after i h
    exact h.trans (grows_perform host functions after i)

/-- A run goes on from the state after its first step. -/
theorem perform_grows_runTasks (host : Host σ) (functions : Dictionary) (m : Machine σ)
    (i : Instruction) (rest : List Task) :
    (m.perform host functions i).1.Grows (m.runTasks host functions (.perform i :: rest)).1 := by
  rcases h : m.perform host functions i with ⟨next, e | tasks⟩
  · rw [runTasks_perform_error h]
    exact .refl next
  · rw [runTasks_perform_ok h]
    exact grows_runTasks host functions next _

end Growth

section Lockstep

variable (observe : Observer σ) {small large : Limits}

/-- Moves under the smaller limit are the same, or the stack is full. -/
theorem play_eq_or_fullStack (hstack : small.stack ≤ large.stack) (m : Machine σ)
    (moves : List Move) :
    m.play ⟨small, observe⟩ moves = m.play ⟨large, observe⟩ moves ∨
      (m.play ⟨small, observe⟩ moves).2 = .error .fullStack := by
  induction moves generalizing m with
  | nil => exact .inl rfl
  | cons move moves ih =>
    cases move with
    | pop =>
      unfold play
      cases m.stack.pop? with
      | none => exact .inl rfl
      | some popped => exact ih _
    | push v =>
      unfold play
      by_cases hroom : m.stack.height < small.stack.toNat
      · have hlarge : m.stack.height < large.stack.toNat :=
          Nat.lt_of_lt_of_le hroom (UInt64.le_iff_toNat_le.1 hstack)
        rw [if_pos hroom, if_pos hlarge]
        exact ih _
      · rw [if_neg hroom]
        exact .inr rfl

/-- Plans under the smaller limit are the same, or too many calls are open. -/
theorem plan_eq_or_tooDeep (hdepth : small.depth ≤ large.depth) (functions : Dictionary)
    (depth : Nat) (stack : Stack) (i : Instruction) :
    i.plan small functions depth stack = i.plan large functions depth stack ∨
      ∃ limit, i.plan small functions depth stack = .error (.tooDeep limit) := by
  cases i with
  | call name =>
    simp only [Instruction.plan]
    cases functions.find? name with
    | none => exact .inl rfl
    | some body =>
      by_cases hroom : small.depth.toNat ≤ depth
      · exact .inr ⟨small.depth.toNat, if_pos hroom⟩
      · have hle : small.depth.toNat ≤ large.depth.toNat := UInt64.le_iff_toNat_le.1 hdepth
        have hlarge : ¬ large.depth.toNat ≤ depth := by omega
        left
        simp only [if_neg hroom, if_neg hlarge]
  | _ => exact .inl rfl

/-- An instruction is applied in the same way, or a limit is at fault. -/
theorem apply_eq_or_atLimit (h : small.Le large) (functions : Dictionary) (m : Machine σ)
    (i : Instruction) :
    m.apply ⟨small, observe⟩ functions i = m.apply ⟨large, observe⟩ functions i ∨
      ∃ fault, (m.apply ⟨small, observe⟩ functions i).2 = .error fault ∧ fault.AtLimit := by
  unfold apply
  rcases plan_eq_or_tooDeep h.depth functions m.depth m.stack i with hplan | ⟨limit, hplan⟩
  · simp only [hplan]
    cases i.plan large functions m.depth m.stack with
    | error fault => exact .inl rfl
    | ok plan =>
      rcases play_eq_or_fullStack observe h.stack m plan.moves with hplay | hplay
      · left
        simp only [hplay]
      · refine .inr ⟨.fullStack, ?_, trivial⟩
        simp [hplay, Except.map]
  · refine .inr ⟨.tooDeep limit, ?_, trivial⟩
    simp [hplan]

/-- It is executed in the same way, or a limit is at fault. -/
theorem execute_eq_or_atLimit (h : small.Le large) (functions : Dictionary) (m : Machine σ)
    (i : Instruction) :
    m.execute ⟨small, observe⟩ functions i = m.execute ⟨large, observe⟩ functions i ∨
      ∃ e, (m.execute ⟨small, observe⟩ functions i).2 = .error e ∧ e.AtLimit := by
  unfold execute
  by_cases hlimit : small.operations.toNat ≤ m.executed
  · refine .inr ⟨.tooLong m.executed, ?_, trivial⟩
    simp only [if_pos hlimit]
  · have hle : small.operations.toNat ≤ large.operations.toNat :=
      UInt64.le_iff_toNat_le.1 h.operations
    have hlarge : ¬ large.operations.toNat ≤ m.executed := by omega
    simp only [if_neg hlimit, if_neg hlarge]
    rcases apply_eq_or_atLimit observe h functions
        (note ⟨small, observe⟩ (.start i m.depth m.stack) m) i with happly | ⟨fault, happly, hfault⟩
    · left
      rw [happly]
      rfl
    · refine .inr ⟨.instructionFailed i m.depth m.executed fault, ?_, hfault⟩
      simp [happly, Except.mapError]

/-- **A step under two limits.** It is the same step, or the lower limits make it fail before it
has written anything. -/
theorem perform_eq_or_atLimit (h : small.Le large) (functions : Dictionary) (m : Machine σ)
    (i : Instruction) :
    m.perform ⟨small, observe⟩ functions i = m.perform ⟨large, observe⟩ functions i ∨
      ∃ next e, m.perform ⟨small, observe⟩ functions i = (next, .error e) ∧ e.AtLimit ∧
        next.sink = m.sink := by
  rcases execute_eq_or_atLimit observe h functions m i with hexec | ⟨e, hexec, he⟩
  · left
    unfold perform
    rw [hexec]
    split
    · rename_i effect _
      cases effect <;> rfl
    · rfl
  · have hframe := (frame_execute ⟨small, observe⟩ functions m i).1
    rcases hsmall : m.execute ⟨small, observe⟩ functions i with ⟨next, result⟩
    rw [hsmall] at hexec hframe
    refine .inr ⟨next, e, ?_, he, hframe⟩
    unfold perform
    rw [hsmall]
    simp only at hexec
    rw [hexec]

/-- Under lower limits a step counts no more. -/
theorem executed_perform_le (h : small.Le large) (functions : Dictionary) (m : Machine σ)
    (i : Instruction) :
    (m.perform ⟨small, observe⟩ functions i).1.executed ≤
      (m.perform ⟨large, observe⟩ functions i).1.executed := by
  have hle : small.operations.toNat ≤ large.operations.toNat :=
    UInt64.le_iff_toNat_le.1 h.operations
  rw [executed_perform_eq, executed_perform_eq, executed_execute_eq, executed_execute_eq]
  simp only
  split_ifs <;> omega

/-- A run ends in an error of its limits, and what it did is a part of what another one did. -/
def Truncates (short long : Machine σ × Except RunError Unit) : Prop :=
  ∃ e, short.2 = .error e ∧ e.AtLimit ∧
    short.1.sink.text.toList <+: long.1.sink.text.toList ∧ short.1.executed ≤ long.1.executed

/-- **The rule for runs.** Under smaller limits a run is the same, or it breaks off at a limit where
the other one goes on. -/
theorem runTasks_eq_or_truncates (h : small.Le large) (functions : Dictionary) (m : Machine σ)
    (tasks : List Task) :
    m.runTasks ⟨small, observe⟩ functions tasks = m.runTasks ⟨large, observe⟩ functions tasks ∨
      Truncates (m.runTasks ⟨small, observe⟩ functions tasks)
        (m.runTasks ⟨large, observe⟩ functions tasks) := by
  induction m, tasks using runTasks.induct ⟨small, observe⟩ functions with
  | case1 m => exact .inl (by simp)
  | case2 m rest ih =>
    rw [runTasks_leave, runTasks_leave]
    exact ih
  | case3 m i rest next tasks hsmall ih =>
    rcases perform_eq_or_atLimit observe h functions m i with hstep | ⟨_, _, herror, -⟩
    · rw [hsmall] at hstep
      rw [runTasks_perform_ok hsmall, runTasks_perform_ok hstep.symm]
      exact ih
    · -- a step that goes on has not failed
      rw [hsmall] at herror
      simp at herror
  | case4 m i rest next e hsmall =>
    rcases perform_eq_or_atLimit observe h functions m i with hstep | ⟨next', e', herror, he, hsink⟩
    · rw [hsmall] at hstep
      rw [runTasks_perform_error hsmall, runTasks_perform_error hstep.symm]
      exact .inl rfl
    · obtain ⟨rfl, he'⟩ := Prod.mk.inj (hsmall.symm.trans herror)
      obtain rfl := Except.error.inj he'
      have hlarge := grows_perform ⟨large, observe⟩ functions m i
      have hrest := perform_grows_runTasks ⟨large, observe⟩ functions m i rest
      have hcount := executed_perform_le observe h functions m i
      rw [hsmall] at hcount
      rw [runTasks_perform_error hsmall]
      refine .inr ⟨e, rfl, he, ?_, Nat.le_trans hcount hrest.2⟩
      show next.sink.text.toList <+: _
      rw [hsink]
      exact (hlarge.trans hrest).1

/-- **Limits only truncate.** Take two runs of the same code with the same functions, seen by the
same observer, from the same state, where each limit of the first is at most that of the
second. They end in the same state and the same result, or the first one ends in an error of
its limits, with a part of the output of the second and a count that is no higher. -/
theorem run_eq_or_truncates (h : small.Le large) (functions : Dictionary) (m : Machine σ)
    (code : Code) :
    m.run ⟨small, observe⟩ functions code = m.run ⟨large, observe⟩ functions code ∨
      Truncates (m.run ⟨small, observe⟩ functions code)
        (m.run ⟨large, observe⟩ functions code) :=
  runTasks_eq_or_truncates observe h functions m _

end Lockstep

/-- A stack above both limits: with the lower one, an exchange fails after it has taken its values
off. -/
theorem run_eq_or_truncates_swap :
    let small : Limits := { stack := 1 }
    let large : Limits := { stack := 3 }
    let m : Machine Stats := { stack := .ofList [1, 2, 3, 4], sink := {}, seen := {} }
    let code : Code := [.out, .swap, .out]
    let short := m.run ⟨small, Stats.observe⟩ .empty code
    let long := m.run ⟨large, Stats.observe⟩ .empty code
    small.Le large ∧ short.2 = .error (.instructionFailed .swap 0 1 .fullStack) ∧
      short.1.stack.cells = [1] ∧ long.2 = .ok () ∧ long.1.sink.text = "4\n2\n" ∧
      (short = long ∨ Truncates short long) :=
  ⟨⟨by decide, by decide, by decide⟩, by cbv, by cbv, by cbv, by cbv,
    run_eq_or_truncates Stats.observe ⟨by decide, by decide, by decide⟩ _ _ _⟩

end Machine

end StackLang
