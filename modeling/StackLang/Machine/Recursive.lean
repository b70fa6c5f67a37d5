import StackLang.Machine.Run

/-!
# Running code by recursion

The same runs, told along the nesting of the code: a branch is run to its end before the code
after it, and so is the body of a function, after which the call is left on either exit.
Each instruction counts, and no run takes counts back, which is the measure of the recursion.
-/

set_option autoImplicit false

namespace StackLang.Machine

variable {σ : Type}

/-- No instruction takes counts back. -/
theorem executed_le_execute (host : Host σ) (functions : Dictionary) (m : Machine σ)
    (i : Instruction) : m.executed ≤ (m.execute host functions i).1.executed := by
  unfold execute
  split
  · exact Nat.le_refl _
  · exact Nat.le_succ _

/-- Runs code, and shows that counts have not gone back. -/
def evalBounded (host : Host σ) (functions : Dictionary) (m : Machine σ) (code : Code) :
    { r : Machine σ × Except RunError Unit // m.executed ≤ r.1.executed } :=
  match code with
  | [] => ⟨(m, .ok ()), Nat.le_refl _⟩
  | i :: rest =>
    match h : m.execute host functions i with
    | (after, .error e) =>
      ⟨(after, .error e), by simpa [h] using executed_le_execute host functions m i⟩
    | (after, .ok effect) =>
      have hcount : after.executed = m.executed + 1 := (executed_execute h).1
      have hroom : m.executed < host.limits.operations.toNat := (executed_execute h).2
      match effect with
      | .nothing =>
        let ⟨r, hr⟩ := evalBounded host functions after rest
        ⟨r, by omega⟩
      | .print v =>
        match hp : after.print v with
        | (printed, .ok ()) =>
          have hprinted : printed.executed = after.executed := by
            simpa [hp] using executed_print after v
          let ⟨r, hr⟩ := evalBounded host functions printed rest
          ⟨r, by omega⟩
        | (printed, .error e) =>
          ⟨(printed, .error e), by
            have hprinted := executed_print after v
            rw [hp] at hprinted
            simp only at hprinted ⊢
            omega⟩
      | .follow branch =>
        match evalBounded host functions after branch with
        | ⟨(inner, .ok ()), hinner⟩ =>
          let ⟨r, hr⟩ := evalBounded host functions inner rest
          ⟨r, by simp only at hinner; omega⟩
        | ⟨(inner, .error e), hinner⟩ => ⟨(inner, .error e), by simp only at hinner ⊢; omega⟩
      | .enter name body =>
        match evalBounded host functions (enter host name after) body with
        | ⟨(inner, .ok ()), hinner⟩ =>
          let ⟨r, hr⟩ := evalBounded host functions inner.leave rest
          ⟨r, by simp only [executed_enter, executed_leave] at hinner hr; omega⟩
        | ⟨(inner, .error e), hinner⟩ =>
          ⟨(inner.leave, .error e), by
            simp only [executed_enter, executed_leave] at hinner ⊢
            omega⟩
termination_by host.limits.operations.toNat - m.executed
decreasing_by all_goals simp_all; omega

/-- Runs code by recursion along its nesting. -/
def eval (host : Host σ) (functions : Dictionary) (m : Machine σ) (code : Code) :
    Machine σ × Except RunError Unit :=
  (m.evalBounded host functions code).val

@[simp]
theorem eval_nil (host : Host σ) (functions : Dictionary) (m : Machine σ) :
    m.eval host functions [] = (m, .ok ()) := by
  rw [eval, evalBounded]

/-- How a run goes on after its first instruction. -/
theorem eval_cons (host : Host σ) (functions : Dictionary) (m : Machine σ) (i : Instruction)
    (rest : Code) :
    m.eval host functions (i :: rest) =
      match m.execute host functions i with
      | (after, .error e) => (after, .error e)
      | (after, .ok .nothing) => after.eval host functions rest
      | (after, .ok (.print v)) =>
        match after.print v with
        | (printed, .ok ()) => printed.eval host functions rest
        | (printed, .error e) => (printed, .error e)
      | (after, .ok (.follow branch)) =>
        match after.eval host functions branch with
        | (inner, .ok ()) => inner.eval host functions rest
        | (inner, .error e) => (inner, .error e)
      | (after, .ok (.enter name body)) =>
        match (enter host name after).eval host functions body with
        | (inner, .ok ()) => inner.leave.eval host functions rest
        | (inner, .error e) => (inner.leave, .error e) := by
  rw [eval, evalBounded]
  split
  · rename_i after e h
    simp only [h]
  · rename_i after effect h
    cases effect with
    | nothing =>
      simp only [h]
      rfl
    | print v =>
      simp only [h]
      split
      · rename_i hp
        simp only [hp]
        rfl
      · rename_i hp
        simp only [hp]
    | follow branch =>
      simp only [h, eval]
      split <;> (rename_i heq; simp only [heq])
    | enter name body =>
      simp only [h, eval]
      split <;> (rename_i heq; simp only [heq])

end StackLang.Machine
