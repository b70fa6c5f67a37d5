import StackLang.Proofs.Views
import Mathlib.Data.List.Permutation

/-!
# A failing instruction leaves the stack alone

An instruction takes values off before it puts others on, so it could fail halfway. It does not
while the stack is within its limit. All plans but those that only put one value on take off at
least as many values as they put on, so these never miss room (`Plans.fits_or_push`); and a plan
of one move fails before it has moved anything. A stack within its limit stays within it
(`height_play_le`), so this holds at every instruction of a run, at any nesting.

The run that stops right before the failing instruction is the same run with a limit of that many
operations. Up to there the two runs do the same steps, `perform_withOperations`, and so they end
with the same stack and the same output: `runTasks_of_failed`.
-/

set_option autoImplicit false

namespace StackLang

/-- Moves that find a value whenever they take one off and room whenever they put one on, on a
stack of the given height. -/
def Fits (limit : Nat) : Nat → List Move → Prop
  | _, [] => True
  | height, .pop :: moves => 0 < height ∧ Fits limit (height - 1) moves
  | height, .push _ :: moves => height < limit ∧ Fits limit (height + 1) moves

/-- The same host with another limit of operations. -/
def Host.withOperations {σ : Type} (host : Host σ) (operations : UInt64) : Host σ :=
  { host with limits := { host.limits with operations } }

namespace Instruction

variable {limits : Limits} {functions : Dictionary} {depth : Nat} {stack : Stack}
  {i : Instruction} {p : Plan}

/-- Instructions that only put a value on the stack. -/
def Pushes (i : Instruction) : Prop := (∃ v, i = .number v) ∨ i = .dup ∨ i = .over

/-- On a stack within its limit a plan fits, or it puts a value on and does nothing else. -/
theorem Plans.fits_or_push (h : Plans limits functions depth stack i p)
    (hroom : stack.height ≤ limits.stack.toNat) :
    Fits limits.stack.toNat stack.height p.moves ∨ i.Pushes ∧ ∃ v, p.moves = [.push v] := by
  have hheight := stack.height_eq
  cases h with
  | number v => exact .inr ⟨.inl ⟨v, rfl⟩, v, rfl⟩
  | dup hcells => exact .inr ⟨.inr (.inl rfl), _, rfl⟩
  | «over» hcells => exact .inr ⟨.inr (.inr rfl), _, rfl⟩
  | define | call => exact .inl trivial
  | binary hcells | unary hcells | out hcells | pop hcells | swap hcells | rot hcells
  | branch hcells =>
    rw [hcells] at hheight
    simp only [List.length_cons] at hheight
    left
    simp only [Fits, and_true]
    omega

end Instruction

namespace Machine

variable {σ : Type} {host : Host σ} {functions : Dictionary} {m next after : Machine σ}
  {i : Instruction}

/-- Moves that fit succeed. -/
theorem play_of_fits {moves : List Move}
    (h : Fits host.limits.stack.toNat m.stack.height moves) :
    (m.play host moves).2 = .ok () := by
  induction moves generalizing m with
  | nil => rfl
  | cons move moves ih =>
    cases move with
    | pop =>
      obtain ⟨hpos, hrest⟩ := h
      unfold play
      cases hpop : m.stack.pop? with
      | none =>
        have hempty := (Stack.pop?_eq_none_iff _).1 hpop
        have hheight := m.stack.height_eq
        rw [hempty] at hheight
        simp only [List.length_nil] at hheight
        omega
      | some popped =>
        have hheight := Stack.height_of_pop? hpop
        apply ih
        show Fits _ popped.2.height moves
        rwa [hheight, Nat.add_sub_cancel] at hrest
    | push v =>
      obtain ⟨hroom, hrest⟩ := h
      unfold play
      rw [if_pos hroom]
      exact ih hrest

section Height

variable {bound : Nat}

/-- Moves keep a stack within a bound that is no lower than the limit, whether or not they
succeed. -/
theorem height_play_le (hlimit : host.limits.stack.toNat ≤ bound) (moves : List Move)
    (h : m.stack.height ≤ bound) : (m.play host moves).1.stack.height ≤ bound := by
  refine play_keeps (I := fun after => after.stack.height ≤ bound) ?_ ?_ moves m h
  · intro after v stack hpop hafter
    have hheight := Stack.height_of_pop? hpop
    show stack.height ≤ _
    omega
  · intro after v hroom _
    show after.stack.height + 1 ≤ _
    omega

/-- An instruction keeps the stack within any bound that the limit is within. -/
theorem height_execute_le (hlimit : host.limits.stack.toNat ≤ bound) (functions : Dictionary)
    (i : Instruction) (h : m.stack.height ≤ bound) :
    (m.execute host functions i).1.stack.height ≤ bound := by
  unfold execute
  split
  · exact h
  · show ((note host (.start i m.depth m.stack) m).apply host functions i).1.stack.height ≤ _
    unfold apply
    split
    · exact h
    · rename_i plan hplan
      exact height_play_le hlimit plan.moves h

/-- And so does a step. -/
theorem height_perform_le (hlimit : host.limits.stack.toNat ≤ bound) (functions : Dictionary)
    (i : Instruction) (h : m.stack.height ≤ bound) :
    (m.perform host functions i).1.stack.height ≤ bound := by
  refine perform_keeps (I := fun after => after.stack.height ≤ bound)
    (height_execute_le hlimit functions i h) ?_
  intro after effect hafter
  cases effect <;> exact hafter

end Height

/-- **A step that fails changes nothing.** On a stack within its limit an instruction that cannot
be carried out leaves the machine as it was, and only one that puts a value on misses room. -/
theorem apply_error_unchanged {fault : Fault} (hroom : m.stack.height ≤ host.limits.stack.toNat)
    (h : m.apply host functions i = (after, .error fault)) :
    after = m ∧ (fault = .fullStack → i.Pushes) := by
  unfold apply at h
  split at h
  · rename_i fault' hplan
    obtain ⟨rfl, hfault⟩ := Prod.mk.inj h
    obtain rfl := Except.error.inj hfault
    refine ⟨rfl, fun hfull => ?_⟩
    subst hfull
    exact absurd hplan Instruction.plan_ne_fullStack
  · rename_i plan hplan
    rcases (Instruction.plans_of_plan hplan).fits_or_push hroom with hfits | ⟨hpushes, v, hmoves⟩
    · -- nothing is in the way of a plan that fits
      have hresult := congrArg Prod.snd h
      simp [play_of_fits hfits, Except.map] at hresult
    · rw [hmoves] at h
      simp only [play] at h
      split at h
      · simp [Except.map] at h
      · exact ⟨(Prod.mk.inj h).1.symm, fun _ => hpushes⟩

/-- An instruction that is at fault on a stack within the limit had room to be counted, and leaves
the stack as it was. Only instructions that push find it full. -/
theorem execute_failed {j : Instruction} {depth k : Nat} {fault : Fault}
    (hroom : m.stack.height ≤ host.limits.stack.toNat)
    (h : m.execute host functions i = (after, .error (.instructionFailed j depth k fault))) :
    k = m.executed ∧ k < host.limits.operations.toNat ∧ after.stack = m.stack ∧
      (fault = .fullStack → j.Pushes) := by
  unfold execute at h
  split at h
  · simp at h
  · rename_i hlimit
    rcases happly : (note host (.start i m.depth m.stack) m).apply host functions i with
      ⟨inner, fault' | effect⟩
    · obtain ⟨hinner, hfull⟩ :=
        apply_error_unchanged (m := note host (.start i m.depth m.stack) m) hroom happly
      simp only [happly, Except.mapError, Prod.mk.injEq, Except.error.injEq,
        RunError.instructionFailed.injEq] at h
      obtain ⟨rfl, rfl, rfl, rfl, rfl⟩ := h
      refine ⟨rfl, Nat.lt_of_not_le hlimit, ?_, hfull⟩
      show inner.stack = m.stack
      rw [hinner]
      rfl
    · simp [happly, Except.mapError] at h

section Operations

variable {operations : UInt64}

/-- Moves and plans do not look at the limit of operations. -/
theorem view_withOperations (host : Host σ) (operations : UInt64) :
    View host (host.withOperations operations) id where
  stackLimit := rfl
  depthLimit := rfl
  stack _ := rfl
  executed _ := rfl
  depth _ := rfl
  note _ _ := rfl
  withStack _ _ := rfl
  withExecuted _ _ := rfl

/-- A step that another limit of operations leaves room for is the same step. -/
theorem perform_withOperations
    (h : m.executed < host.limits.operations.toNat) (h' : m.executed < operations.toNat) :
    m.perform (host.withOperations operations) functions i = m.perform host functions i := by
  have hexec : m.execute (host.withOperations operations) functions i =
      m.execute host functions i := by
    have hroom : (host.withOperations operations).limits.operations.toNat ≤ m.executed ↔
        host.limits.operations.toNat ≤ m.executed :=
      iff_of_false (Nat.not_le_of_lt h') (Nat.not_le_of_lt h)
    exact (view_withOperations host operations).execute functions m i hroom
  unfold perform
  rw [hexec]
  rfl

end Operations

/-- A run that an instruction ends, and the run that stops before this instruction. -/
theorem runTasks_of_failed {tasks : List Task} {j : Instruction} {depth k : Nat} {fault : Fault}
    (hroom : m.stack.height ≤ host.limits.stack.toNat)
    (h : (m.runTasks host functions tasks).2 = .error (.instructionFailed j depth k fault)) :
    m.executed ≤ k ∧ k < host.limits.operations.toNat ∧ (fault = .fullStack → j.Pushes) ∧
      (m.runTasks (host.withOperations (.ofNat k)) functions tasks).2 = .error (.tooLong k) ∧
      (m.runTasks host functions tasks).1.stack =
        (m.runTasks (host.withOperations (.ofNat k)) functions tasks).1.stack ∧
      (m.runTasks host functions tasks).1.sink =
        (m.runTasks (host.withOperations (.ofNat k)) functions tasks).1.sink := by
  have hword : ∀ {n : Nat}, n < host.limits.operations.toNat → (UInt64.ofNat n).toNat = n :=
    fun hn => UInt64.toNat_ofNat_of_lt' (Nat.lt_trans hn host.limits.operations.toNat_lt)
  induction m, tasks using runTasks.induct host functions with
  | case1 m => simp at h
  | case2 m rest ih =>
    rw [runTasks_leave] at h ⊢
    rw [runTasks_leave]
    exact ih hroom h
  | case3 m i rest next tasks hperform ih =>
    rw [runTasks_perform_ok hperform] at h ⊢
    obtain ⟨hcount, hlimit⟩ := executed_perform hperform
    have hnext := height_perform_le (Nat.le_refl _) functions i hroom
    rw [hperform] at hnext
    obtain ⟨hk, hfailed, hrest⟩ := ih hnext h
    -- the failing instruction comes later, so the lower limit has room for this one
    have hlower : m.executed < (UInt64.ofNat k).toNat := by
      rw [hword hfailed]
      omega
    have hsame : m.perform (host.withOperations (.ofNat k)) functions i = (next, .ok tasks) := by
      rw [← hperform]
      exact perform_withOperations hlimit hlower
    rw [runTasks_perform_ok hsame]
    exact ⟨by omega, hfailed, hrest⟩
  | case4 m i rest next e hperform =>
    rw [runTasks_perform_error hperform] at h ⊢
    obtain rfl := Except.error.inj h
    rcases perform_error hperform with hexec | ⟨cause, hcause⟩
    · obtain ⟨rfl, hlimit, hstack, hfull⟩ := execute_failed hroom hexec
      have hsink := (frame_execute host functions m i).1
      rw [hexec] at hsink
      have hstop : m.perform (host.withOperations (.ofNat m.executed)) functions i =
          (m, .error (.tooLong m.executed)) := perform_of_limit_le (Nat.le_of_eq (hword hlimit))
      rw [runTasks_perform_error hstop]
      exact ⟨Nat.le_refl _, hlimit, hfull, rfl, hstack, hsink⟩
    · simp at hcause

/-- **A failing instruction leaves the stack untouched.** Take any code, functions and state whose
stack is within its limit, and a run that ends because an instruction fails after `k` others, in
whatever calls and branches. The same run with a limit of `k` operations ends right before this
instruction, and it ends with the same stack and the same output. Only the instructions that put
a value on and take none off can fail for want of room. -/
theorem run_failed_eq_run_before (host : Host σ) (functions : Dictionary) (m : Machine σ)
    (code : Code) (hroom : m.stack.height ≤ host.limits.stack.toNat) {j : Instruction}
    {depth k : Nat} {fault : Fault}
    (h : (m.run host functions code).2 = .error (.instructionFailed j depth k fault)) :
    let before := m.run (host.withOperations (.ofNat k)) functions code
    before.2 = .error (.tooLong k) ∧ (m.run host functions code).1.stack = before.1.stack ∧
      (m.run host functions code).1.sink = before.1.sink ∧
      (fault = .fullStack → (∃ v, j = .number v) ∨ j = .dup ∨ j = .over) := by
  obtain ⟨-, -, hfull, hbefore, hstack, hsink⟩ := runTasks_of_failed hroom h
  exact ⟨hbefore, hstack, hsink, hfull⟩

/-- A division by zero inside a branch inside a call, after some output, on a full stack. -/
theorem run_failed_eq_run_before_division :
    let host : Host Unit := { limits := { stack := 4 }, observe := .blind }
    let functions := Dictionary.empty.insert "F" [.branch [.number 0, .binary .div] []]
    let m : Machine Unit := { stack := .ofList [4, 8, 9], sink := {}, seen := () }
    let code : Code := [.dup, .out, .call "F", .pop]
    let failed := m.run host functions code
    let before := m.run (host.withOperations (.ofNat 5)) functions code
    m.stack.height ≤ host.limits.stack.toNat ∧
      failed.2 = .error (.instructionFailed (.binary .div) 1 5 .divisionByZero) ∧
      failed.1.stack.toList = [4, 8, 0] ∧ failed.1.sink.text = "9\n" ∧
      before.2 = .error (.tooLong 5) ∧ failed.1.stack = before.1.stack ∧
      failed.1.sink = before.1.sink := by
  intro host functions m code failed before
  have hfailed : failed.2 = .error (.instructionFailed (.binary .div) 1 5 .divisionByZero) := by
    simp only [failed, host, functions, m, code]
    cbv
  obtain ⟨hbefore, hstack, hsink, -⟩ :=
    run_failed_eq_run_before host functions m code (by decide) hfailed
  refine ⟨by decide, hfailed, ?_, ?_, hbefore, hstack, hsink⟩
  · simp only [failed, host, functions, m, code]
    cbv
  · simp only [failed, host, functions, m, code]
    cbv

end Machine

end StackLang
