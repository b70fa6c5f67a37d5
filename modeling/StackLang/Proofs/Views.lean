import StackLang.Proofs.Runs

/-!
# Machines on which instructions do the same

An instruction looks at the stack, the count and the depth of its machine, and at two of the limits.
A map that changes nothing of these, such as one that takes the observer away or the room of the
sink, commutes with what an instruction does before its effect: `View.play`, `View.apply`, and where
the limits of operations agree on the instruction, `View.execute`. What becomes of the effect
depends on the map.
-/

set_option autoImplicit false

namespace StackLang

/-- Of the limits a plan sees that of open calls only. -/
theorem Instruction.plan_congr_limits {limits limits' : Limits} (h : limits'.depth = limits.depth)
    (functions : Dictionary) (depth : Nat) (stack : Stack) (i : Instruction) :
    i.plan limits' functions depth stack = i.plan limits functions depth stack := by
  cases i with
  | call name => simp only [plan, h]
  | _ => rfl

namespace Machine

variable {σ τ : Type} {host : Host σ} {host' : Host τ} {view : Machine σ → Machine τ}

/-- Moves see the stack, its limit and the observer, and a map that leaves these commutes with
them. -/
theorem play_map (hlimit : host'.limits.stack = host.limits.stack)
    (hstack : ∀ m, (view m).stack = m.stack)
    (hnote : ∀ event m, note host' event (view m) = view (note host event m))
    (hwithStack : ∀ m stack, { view m with stack } = view { m with stack }) (m : Machine σ)
    (moves : List Move) : (view m).play host' moves = (m.play host moves).map view id := by
  induction moves generalizing m with
  | nil => rfl
  | cons move moves ih =>
    cases move with
    | pop =>
      rw [Machine.play, Machine.play, hstack]
      cases m.stack.pop? with
      | none => rfl
      | some popped =>
        simp only [hwithStack, hnote]
        exact ih _
    | push v =>
      rw [Machine.play, Machine.play, hstack, hlimit]
      by_cases hroom : m.stack.height < host.limits.stack.toNat
      · rw [if_pos hroom, if_pos hroom, hwithStack, hnote]
        exact ih _
      · rw [if_neg hroom, if_neg hroom]
        rfl

/-- A map of machines that instructions do not notice. -/
structure View (host : Host σ) (host' : Host τ) (view : Machine σ → Machine τ) : Prop where
  stackLimit : host'.limits.stack = host.limits.stack
  depthLimit : host'.limits.depth = host.limits.depth
  stack (m : Machine σ) : (view m).stack = m.stack
  executed (m : Machine σ) : (view m).executed = m.executed
  depth (m : Machine σ) : (view m).depth = m.depth
  note (event : Event) (m : Machine σ) : note host' event (view m) = view (note host event m)
  withStack (m : Machine σ) (stack : Stack) : { view m with stack } = view { m with stack }
  withExecuted (m : Machine σ) (executed : Nat) :
    { view m with executed } = view { m with executed }

namespace View

/-- Moves play the same under a view. -/
theorem play (h : View host host' view) (m : Machine σ) (moves : List Move) :
    (view m).play host' moves = (m.play host moves).map view id :=
  play_map h.stackLimit h.stack h.note h.withStack m moves

/-- And instructions are applied in the same way. -/
theorem apply (h : View host host' view) (functions : Dictionary) (m : Machine σ)
    (i : Instruction) :
    (view m).apply host' functions i = (m.apply host functions i).map view id := by
  rw [Machine.apply, Machine.apply, h.depth, h.stack, Instruction.plan_congr_limits h.depthLimit]
  cases i.plan host.limits functions m.depth m.stack with
  | error fault => rfl
  | ok plan =>
    simp only [h.play]
    rfl

/-- An instruction for which both limits of operations have room, or neither has, comes to the
same. -/
theorem execute (h : View host host' view) (functions : Dictionary) (m : Machine σ)
    (i : Instruction)
    (hroom : host'.limits.operations.toNat ≤ m.executed ↔
      host.limits.operations.toNat ≤ m.executed) :
    (view m).execute host' functions i = (m.execute host functions i).map view id := by
  rw [Machine.execute, Machine.execute, h.executed, h.depth, h.stack]
  by_cases hlimit : host.limits.operations.toNat ≤ m.executed
  · rw [if_pos hlimit, if_pos (hroom.2 hlimit)]
    rfl
  · rw [if_neg hlimit, if_neg (fun hlimit' => hlimit (hroom.1 hlimit'))]
    rw [h.note, h.apply]
    rcases (Machine.note host (.start i m.depth m.stack) m).apply host functions i with
      ⟨after, result⟩
    have hfinish (fault : Option Fault) :
        Machine.note host' (.finish i (view after).stack.height fault)
            { view after with executed := m.executed + 1 } =
          view (Machine.note host (.finish i after.stack.height fault)
            { after with executed := m.executed + 1 }) := by
      rw [h.stack, ← h.note, ← h.withExecuted after (m.executed + 1)]
    exact Prod.ext (hfinish _) rfl

end View

end Machine

end StackLang
