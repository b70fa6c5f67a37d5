import StackLang.Machine.Plan

/-!
# What an instruction plans

The plans of an instruction as rules, one for each instruction and what it finds on the stack.
A plan that succeeds is covered by a rule, `plans_of_plan`; so code is entered only by a call,
and is then the body of the called function, and code is followed only by a conditional. The
limits matter to one rule only, the one for calls. What an instruction can find wrong is told by
rules too, `misses_of_plan`: too few values, a divisor of zero, or a function that is not there
or nested too deep. Nothing else keeps it from being planned.
-/

set_option autoImplicit false

namespace StackLang.Instruction

/-- The plans that succeed on a stack, with calls open to some depth. -/
inductive Plans (limits : Limits) (functions : Dictionary) (depth : Nat) (stack : Stack) :
    Instruction → Plan → Prop
  | number (v : Int32) : Plans limits functions depth stack (.number v) { moves := [.push v] }
  | binary {op : BinaryOp} {a b v : Int32} {rest : List Int32}
      (hcells : stack.cells = b :: a :: rest) (hv : op.eval? a b = some v) :
      Plans limits functions depth stack (.binary op) { moves := [.pop, .pop, .push v] }
  | unary {op : UnaryOp} {v : Int32} {rest : List Int32} (hcells : stack.cells = v :: rest) :
      Plans limits functions depth stack (.unary op) { moves := [.pop, .push (op.eval v)] }
  | out {v : Int32} {rest : List Int32} (hcells : stack.cells = v :: rest) :
      Plans limits functions depth stack .out { moves := [.pop], effect := .print v }
  | pop {v : Int32} {rest : List Int32} (hcells : stack.cells = v :: rest) :
      Plans limits functions depth stack .pop { moves := [.pop] }
  | dup {v : Int32} {rest : List Int32} (hcells : stack.cells = v :: rest) :
      Plans limits functions depth stack .dup { moves := [.push v] }
  | swap {a b : Int32} {rest : List Int32} (hcells : stack.cells = a :: b :: rest) :
      Plans limits functions depth stack .swap { moves := [.pop, .pop, .push a, .push b] }
  | rot {a b c : Int32} {rest : List Int32} (hcells : stack.cells = a :: b :: c :: rest) :
      Plans limits functions depth stack .rot
        { moves := [.pop, .pop, .pop, .push b, .push a, .push c] }
  | over {a b : Int32} {rest : List Int32} (hcells : stack.cells = a :: b :: rest) :
      Plans limits functions depth stack .over { moves := [.push b] }
  | define (name : String) (body : Code) :
      Plans limits functions depth stack (.define name body) { moves := [] }
  | call {name : String} {body : Code} (hfind : functions.find? name = some body)
      (hdepth : depth < limits.depth.toNat) :
      Plans limits functions depth stack (.call name) { moves := [], effect := .enter name body }
  | branch {nonzero zero : Code} {v : Int32} {rest : List Int32}
      (hcells : stack.cells = v :: rest) :
      Plans limits functions depth stack (.branch nonzero zero)
        { moves := [.pop], effect := .follow (if v ≠ 0 then nonzero else zero) }

variable {limits : Limits} {functions : Dictionary} {depth : Nat} {stack : Stack}
  {i : Instruction} {p : Plan}

/-- **Plans are by the rules.** What an instruction plans is what the rule of its kind says. -/
theorem plans_of_plan (h : i.plan limits functions depth stack = .ok p) :
    Plans limits functions depth stack i p := by
  unfold plan at h
  cases i with
  | number v =>
    obtain rfl := Except.ok.inj h
    exact .number v
  | binary op =>
    simp only at h
    split at h
    · rename_i b a rest hcells
      split at h
      · rename_i v hv
        obtain rfl := Except.ok.inj h
        exact .binary hcells hv
      · simp at h
    · simp at h
  | unary op =>
    simp only at h
    split at h
    · rename_i hcells
      obtain rfl := Except.ok.inj h
      exact .unary hcells
    · simp at h
  | out =>
    simp only at h
    split at h
    · rename_i hcells
      obtain rfl := Except.ok.inj h
      exact .out hcells
    · simp at h
  | pop =>
    simp only at h
    split at h
    · rename_i hcells
      obtain rfl := Except.ok.inj h
      exact .pop hcells
    · simp at h
  | dup =>
    simp only at h
    split at h
    · rename_i hcells
      obtain rfl := Except.ok.inj h
      exact .dup hcells
    · simp at h
  | swap =>
    simp only at h
    split at h
    · rename_i hcells
      obtain rfl := Except.ok.inj h
      exact .swap hcells
    · simp at h
  | rot =>
    simp only at h
    split at h
    · rename_i hcells
      obtain rfl := Except.ok.inj h
      exact .rot hcells
    · simp at h
  | define name body =>
    obtain rfl := Except.ok.inj h
    exact .define name body
  | call name =>
    simp only at h
    split at h
    · simp at h
    · rename_i body hfind
      split at h
      · simp at h
      · rename_i hdepth
        obtain rfl := Except.ok.inj h
        exact .call hfind (Nat.lt_of_not_le hdepth)
  | branch nonzero zero =>
    simp only at h
    split at h
    · rename_i hcells
      obtain rfl := Except.ok.inj h
      exact .branch hcells
    · simp at h
  | _ =>
    -- copying the second value is left
    simp only at h
    split at h
    · rename_i hcells
      obtain rfl := Except.ok.inj h
      exact .over hcells
    · simp at h

/-- An instruction that goes on with entering a function calls it, and the function has this body.
-/
theorem Plans.of_enter {name : String} {body : Code}
    (h : Plans limits functions depth stack i p) (heffect : p.effect = .enter name body) :
    i = .call name ∧ functions.find? name = some body := by
  cases h with
  | call hfind _ =>
    obtain ⟨rfl, rfl⟩ := Effect.enter.inj heffect
    exact ⟨rfl, hfind⟩
  | _ => simp at heffect

/-- One that goes on with other code is a conditional, and the code is one of its branches. -/
theorem Plans.of_follow {code : Code} (h : Plans limits functions depth stack i p)
    (heffect : p.effect = .follow code) :
    ∃ nonzero zero, i = .branch nonzero zero ∧ (code = nonzero ∨ code = zero) := by
  cases h with
  | @branch nonzero zero v rest hcells =>
    obtain rfl := Effect.follow.inj heffect
    refine ⟨nonzero, zero, rfl, ?_⟩
    split
    · exact .inl rfl
    · exact .inr rfl
  | _ => simp at heffect

/-- **The rules make plans.** What a rule says is planned. -/
theorem Plans.plan_eq (h : Plans limits functions depth stack i p) :
    i.plan limits functions depth stack = .ok p := by
  cases h with
  | number | define => rfl
  | binary hcells hv => simp only [plan, hcells, hv]
  | call hfind hdepth => simp only [plan, hfind, if_neg (Nat.not_le_of_lt hdepth)]
  | unary hcells | out hcells | pop hcells | dup hcells | swap hcells | rot hcells | «over» hcells
  | branch hcells => simp only [plan, hcells]

/-- The number of values that an instruction looks at. -/
def required : Instruction → Nat
  | .number _ | .define _ _ | .call _ => 0
  | .unary _ | .out | .pop | .dup | .branch _ _ => 1
  | .binary _ | .swap | .over => 2
  | .rot => 3

/-- The fault of an instruction that finds too few values. -/
def underflow (i : Instruction) (height : Nat) : Fault :=
  match i with
  | .unary _ | .out | .pop | .branch _ _ => .emptyStack
  | i => .tooFewValues height i.required

/-- What an instruction can find wrong before it changes anything. -/
inductive Misses (limits : Limits) (functions : Dictionary) (depth : Nat) (stack : Stack) :
    Instruction → Fault → Prop
  | underflow {i : Instruction} (h : stack.height < i.required) :
      Misses limits functions depth stack i (i.underflow stack.height)
  | divisor {op : BinaryOp} {a b : Int32} {rest : List Int32}
      (hcells : stack.cells = b :: a :: rest) (hv : op.eval? a b = none) :
      Misses limits functions depth stack (.binary op) .divisionByZero
  | unknown {name : String} (hfind : functions.find? name = none) :
      Misses limits functions depth stack (.call name) (.unknownFunction name)
  | tooDeep {name : String} {body : Code} (hfind : functions.find? name = some body)
      (hdepth : limits.depth.toNat ≤ depth) :
      Misses limits functions depth stack (.call name) (.tooDeep limits.depth.toNat)

variable {fault : Fault}

/-- **Faults are by the rules.** An instruction without a plan misses what the rule of its fault
says. -/
theorem misses_of_plan (h : i.plan limits functions depth stack = .error fault) :
    Misses limits functions depth stack i fault := by
  have hunder {j : Instruction} (hlow : stack.height < j.required)
      (heq : j.underflow stack.height = fault) : Misses limits functions depth stack j fault :=
    heq ▸ .underflow hlow
  unfold plan at h
  cases i with
  | number | define => simp at h
  | unary | out | pop | dup | branch =>
    simp only at h
    split at h
    · simp at h
    · rename_i hcells
      have hlow : stack.height < 1 := by simp [stack.height_eq, hcells]
      exact hunder hlow (Except.error.inj h)
  | swap | «over» =>
    simp only at h
    split at h
    · simp at h
    · rename_i hcells
      exact hunder (Stack.height_lt_two hcells) (Except.error.inj h)
  | rot =>
    simp only at h
    split at h
    · simp at h
    · rename_i hcells
      exact hunder (Stack.height_lt_three hcells) (Except.error.inj h)
  | binary op =>
    simp only at h
    split at h
    · rename_i b a rest hcells
      split at h
      · simp at h
      · rename_i hv
        obtain rfl := Except.error.inj h
        exact .divisor hcells hv
    · rename_i hcells
      exact hunder (Stack.height_lt_two hcells) (Except.error.inj h)
  | call name =>
    simp only at h
    split at h
    · rename_i hfind
      obtain rfl := Except.error.inj h
      exact .unknown hfind
    · rename_i body hfind
      split at h
      · rename_i hdepth
        obtain rfl := Except.error.inj h
        exact .tooDeep hfind hdepth
      · simp at h

/-- An instruction that requires more values than there are is not planned. -/
theorem plan_of_height_lt (h : stack.height < i.required) :
    i.plan limits functions depth stack = .error (i.underflow stack.height) := by
  cases hplan : i.plan limits functions depth stack with
  | ok p =>
    -- a plan that succeeds has found all values
    have hheight := stack.height_eq
    have hplans := plans_of_plan hplan
    cases hplans with
    | number | define | call => exact absurd h (Nat.not_lt_zero _)
    | binary hcells | unary hcells | out hcells | pop hcells | dup hcells | swap hcells
    | rot hcells | «over» hcells | branch hcells =>
      rw [hcells] at hheight
      simp only [required, List.length_cons] at h hheight
      omega
  | error fault =>
    have hmisses := misses_of_plan hplan
    cases hmisses with
    | underflow => rfl
    | divisor hcells =>
      have hheight := stack.height_eq
      rw [hcells] at hheight
      simp only [required, List.length_cons] at h hheight
      omega
    | unknown | tooDeep => exact absurd h (Nat.not_lt_zero _)

/-- **The rules make faults.** What is missed by a rule is the fault. -/
theorem Misses.plan_eq (h : Misses limits functions depth stack i fault) :
    i.plan limits functions depth stack = .error fault := by
  cases h with
  | underflow h => exact plan_of_height_lt h
  | divisor hcells hv => simp only [plan, hcells, hv]
  | unknown hfind => simp only [plan, hfind]
  | tooDeep hfind hdepth => simp only [plan, hfind, if_pos hdepth]

/-- Only a call can miss a function. -/
theorem of_plan_unknownFunction {name : String}
    (h : i.plan limits functions depth stack = .error (.unknownFunction name)) :
    i = .call name ∧ functions.find? name = none := by
  generalize hfault : Fault.unknownFunction name = fault at h
  cases misses_of_plan h with
  | underflow =>
    unfold underflow at hfault
    split at hfault <;> simp at hfault
  | divisor | tooDeep => simp at hfault
  | unknown hfind =>
    obtain rfl := Fault.unknownFunction.inj hfault
    exact ⟨rfl, hfind⟩

/-- What a plan finds wrong is never the room, which only moves look for. -/
theorem plan_ne_fullStack : i.plan limits functions depth stack ≠ .error .fullStack := by
  intro h
  generalize hfault : Fault.fullStack = fault at h
  cases misses_of_plan h with
  | underflow =>
    unfold underflow at hfault
    split at hfault <;> simp at hfault
  | divisor | unknown | tooDeep => simp at hfault

end StackLang.Instruction
