import StackLang.Proofs.Atomicity
import StackLang.Proofs.Events

/-!
# When an instruction fails

What can be wrong with an instruction is checked in a fixed order: whether there are enough values,
whether a divisor is zero, whether there is room for a value that is only put on, and of a call
whether there is such a function and whether another call may be opened. `fault?` is the first check
that finds something. On a stack within its limit nothing else can go wrong (`Misses.fault?_eq`,
`Plans.fault?_eq`): the values that are taken off make room for those that are put on after them.

What an instruction does if nothing is wrong is told by `Meaning`, on bare values and integers and
without plans and moves; `Plans.meaning` says that plans carry it out. `execute_exact` puts both
halves together.
-/

set_option autoImplicit false

namespace StackLang

namespace BinaryOp

/-- The result of an operation on unbounded integers; quotients are truncated toward zero, and
remainders have the sign of the dividend. -/
def exact (op : BinaryOp) (a b : Int) : Int :=
  match op with
  | .add => a + b
  | .sub => a - b
  | .mul => a * b
  | .div => a.tdiv b
  | .mod => a.tmod b

/-- Whether an operation divides by its second operand. -/
def divides : BinaryOp → Bool
  | .div | .mod => true
  | .add | .sub | .mul => false

/-- Quotients are truncated before they wrap. -/
theorem div_eq_ofInt (a b : Int32) : a / b = .ofInt (a.toInt.tdiv b.toInt) := by
  rw [← Int32.toInt_inj, Int32.toInt_div, Int32.toInt_ofInt]

/-- Remainders are those of the integers. -/
theorem mod_eq_ofInt (a b : Int32) : a % b = .ofInt (a.toInt.tmod b.toInt) := by
  rw [← Int32.toInt_mod, Int32.ofInt_toInt]

/-- An operation has the exact result, wrapped to 32 bits, unless it divides by zero. -/
theorem eval?_eq (op : BinaryOp) (a b : Int32) :
    op.eval? a b =
      if op.divides ∧ b = 0 then none else some (.ofInt (op.exact a.toInt b.toInt)) := by
  cases op with
  | add => simp [eval?, divides, exact, Int32.ofInt_add]
  | sub => simp [eval?, divides, exact, Int32.ofInt_sub]
  | mul => simp [eval?, divides, exact, Int32.ofInt_mul]
  | div => simp [eval?, divides, exact, div_eq_ofInt]
  | mod => simp [eval?, divides, exact, mod_eq_ofInt]

end BinaryOp

namespace Instruction

/-- Whether an instruction divides by the value on top. -/
def divides : Instruction → Bool
  | .binary op => op.divides
  | _ => false

instance : DecidablePred Pushes
  | .number v => .isTrue (.inl ⟨v, rfl⟩)
  | .dup => .isTrue (.inr (.inl rfl))
  | .over => .isTrue (.inr (.inr rfl))
  | .binary _ | .unary _ | .out | .pop | .swap | .rot | .define _ _ | .call _ | .branch _ _ =>
    .isFalse (by simp [Pushes])

/-- What is wrong with an instruction that runs on `stack` with `depth` calls open: the first that
holds of the things that can be. -/
def fault? (limits : Limits) (functions : Dictionary) (depth : Nat) (stack : Stack)
    (i : Instruction) : Option Fault :=
  if stack.height < i.required then some (i.underflow stack.height)
  else if i.divides ∧ stack.cells.head? = some 0 then some .divisionByZero
  else if i.Pushes ∧ limits.stack.toNat ≤ stack.height then some .fullStack
  else
    match i with
    | .call name =>
      if functions.contains name = false then some (.unknownFunction name)
      else if limits.depth.toNat ≤ depth then some (.tooDeep limits.depth.toNat)
      else none
    | _ => none

/-- What an instruction makes of the values on the stack, top first, and what has to follow. -/
inductive Meaning (functions : Dictionary) :
    Instruction → List Int32 → List Int32 → Effect → Prop
  | number (v : Int32) (rest : List Int32) :
      Meaning functions (.number v) rest (v :: rest) .nothing
  /-- The second operand is on top. Results wrap. -/
  | binary (op : BinaryOp) (a b : Int32) (rest : List Int32) :
      Meaning functions (.binary op) (b :: a :: rest)
        (.ofInt (op.exact a.toInt b.toInt) :: rest) .nothing
  | pos (v : Int32) (rest : List Int32) :
      Meaning functions (.unary .pos) (v :: rest) ((if 0 ≤ v.toInt then 1 else 0) :: rest) .nothing
  | not (v : Int32) (rest : List Int32) :
      Meaning functions (.unary .not) (v :: rest) ((if v.toInt = 0 then 1 else 0) :: rest) .nothing
  | out (v : Int32) (rest : List Int32) : Meaning functions .out (v :: rest) rest (.print v)
  | pop (v : Int32) (rest : List Int32) : Meaning functions .pop (v :: rest) rest .nothing
  | dup (v : Int32) (rest : List Int32) :
      Meaning functions .dup (v :: rest) (v :: v :: rest) .nothing
  | swap (a b : Int32) (rest : List Int32) :
      Meaning functions .swap (a :: b :: rest) (b :: a :: rest) .nothing
  | rot (a b c : Int32) (rest : List Int32) :
      Meaning functions .rot (a :: b :: c :: rest) (c :: a :: b :: rest) .nothing
  | over (a b : Int32) (rest : List Int32) :
      Meaning functions .over (a :: b :: rest) (b :: a :: b :: rest) .nothing
  | define (name : String) (body : Code) (rest : List Int32) :
      Meaning functions (.define name body) rest rest .nothing
  | call {name : String} {body : Code} (hfind : functions.find? name = some body)
      (rest : List Int32) : Meaning functions (.call name) rest rest (.enter name body)
  | nonzero {v : Int32} (hv : v ≠ 0) (nonzero zero : Code) (rest : List Int32) :
      Meaning functions (.branch nonzero zero) (v :: rest) rest (.follow nonzero)
  | zero (nonzero zero : Code) (rest : List Int32) :
      Meaning functions (.branch nonzero zero) (0 :: rest) rest (.follow zero)

variable {limits : Limits} {functions : Dictionary} {depth : Nat} {stack : Stack}
  {i : Instruction} {p : Plan} {fault : Fault}

/-- What a plan finds wrong is what is wrong. -/
theorem Misses.fault?_eq (h : Misses limits functions depth stack i fault) :
    i.fault? limits functions depth stack = some fault := by
  have hheight := stack.height_eq
  unfold fault?
  cases h with
  | underflow hlow => rw [if_pos hlow]
  | divisor hcells hv =>
    rw [hcells] at hheight ⊢
    rw [BinaryOp.eval?_eq] at hv
    split at hv
    · rename_i hzero
      simp [required, divides, hheight, hzero]
    · simp at hv
  | unknown hfind => simp [required, divides, Pushes, Dictionary.contains, hfind]
  | tooDeep hfind hdepth => simp [required, divides, Pushes, Dictionary.contains, hfind, hdepth]

/-- Of an instruction that is planned nothing is wrong but a lack of room. -/
theorem Plans.fault?_eq (h : Plans limits functions depth stack i p) :
    i.fault? limits functions depth stack =
      if i.Pushes ∧ limits.stack.toNat ≤ stack.height then some .fullStack else none := by
  have hheight := stack.height_eq
  unfold fault?
  cases h with
  | number v => simp [required, divides]
  | binary hcells hv =>
    rw [hcells] at hheight ⊢
    rw [BinaryOp.eval?_eq] at hv
    split at hv
    · simp at hv
    · rename_i hzero
      simp [required, divides, hheight, hzero, Pushes]
  | define name body => simp [required, divides, Pushes]
  | call hfind hdepth =>
    simp [required, divides, Pushes, Dictionary.contains, hfind, Nat.not_le_of_lt hdepth]
  | unary hcells | out hcells | pop hcells | dup hcells | swap hcells | rot hcells | «over» hcells
  | branch hcells =>
    rw [hcells] at hheight ⊢
    simp [required, divides, hheight, Pushes]

/-- A plan that is carried out does what the instruction means. -/
theorem Plans.meaning {values : List Int32} (h : Plans limits functions depth stack i p)
    (hreplay : replay stack.cells p.moves = some values) :
    Meaning functions i stack.cells values p.effect := by
  cases h with
  | number v =>
    obtain rfl : v :: stack.cells = values := by simpa using hreplay
    exact .number v _
  | @binary op a b v rest hcells hv =>
    rw [hcells] at hreplay ⊢
    obtain rfl : v :: rest = values := by simpa using hreplay
    rw [BinaryOp.eval?_eq] at hv
    split at hv
    · simp at hv
    · obtain rfl := Option.some.inj hv
      exact .binary op a b rest
  | @unary op v rest hcells =>
    rw [hcells] at hreplay ⊢
    obtain rfl : op.eval v :: rest = values := by simpa using hreplay
    cases op with
    | pos => simpa [UnaryOp.eval, UnaryOp.holds, Int32.le_iff_toInt_le] using .pos v rest
    | not => simpa [UnaryOp.eval, UnaryOp.holds, ← Int32.toInt_inj] using .not v rest
  | @out v rest hcells =>
    rw [hcells] at hreplay ⊢
    obtain rfl : rest = values := by simpa using hreplay
    exact .out v rest
  | @pop v rest hcells =>
    rw [hcells] at hreplay ⊢
    obtain rfl : rest = values := by simpa using hreplay
    exact .pop v rest
  | @dup v rest hcells =>
    rw [hcells] at hreplay ⊢
    obtain rfl : v :: v :: rest = values := by simpa using hreplay
    exact .dup v rest
  | @swap a b rest hcells =>
    rw [hcells] at hreplay ⊢
    obtain rfl : b :: a :: rest = values := by simpa using hreplay
    exact .swap a b rest
  | @rot a b c rest hcells =>
    rw [hcells] at hreplay ⊢
    obtain rfl : c :: a :: b :: rest = values := by simpa using hreplay
    exact .rot a b c rest
  | @«over» a b rest hcells =>
    rw [hcells] at hreplay ⊢
    obtain rfl : b :: a :: b :: rest = values := by simpa using hreplay
    exact .over a b rest
  | define name body =>
    obtain rfl : stack.cells = values := by simpa using hreplay
    exact .define name body _
  | call hfind hdepth =>
    obtain rfl : stack.cells = values := by simpa using hreplay
    exact .call hfind _
  | @branch nonzero zero v rest hcells =>
    rw [hcells] at hreplay ⊢
    obtain rfl : rest = values := by simpa using hreplay
    by_cases hv : v = 0
    · subst hv
      exact .zero nonzero zero rest
    · simpa [hv] using .nonzero hv nonzero zero rest

/-- An underflow is a lack of values, and nothing else is. -/
theorem isUnderflow_of_fault? (h : i.fault? limits functions depth stack = some fault) :
    fault.isUnderflow ↔ stack.height < i.required := by
  unfold fault? at h
  split at h
  · rename_i hlow
    obtain rfl := Option.some.inj h
    refine iff_of_true ?_ hlow
    unfold underflow
    split <;> rfl
  · rename_i henough
    refine iff_of_false ?_ henough
    split at h
    · obtain rfl := Option.some.inj h
      simp [Fault.isUnderflow]
    · split at h
      · obtain rfl := Option.some.inj h
        simp [Fault.isUnderflow]
      · split at h
        · split at h
          · obtain rfl := Option.some.inj h
            simp [Fault.isUnderflow]
          · split at h
            · obtain rfl := Option.some.inj h
              simp [Fault.isUnderflow]
            · simp at h
        · simp at h

/-- On a stack within its limit, moves that are planned are possible if nothing is wrong. -/
theorem Plans.fits_or_full (h : Plans limits functions depth stack i p)
    (hroom : stack.height ≤ limits.stack.toNat) :
    i.fault? limits functions depth stack = none ∧ Fits limits.stack.toNat stack.height p.moves ∨
      i.fault? limits functions depth stack = some .fullStack ∧ limits.stack.toNat ≤ stack.height ∧
        ∃ v, p.moves = [.push v] := by
  rw [h.fault?_eq]
  rcases h.fits_or_push hroom with hfits | ⟨hpushes, v, hmoves⟩
  · left
    refine ⟨if_neg ?_, hfits⟩
    rintro ⟨hpushes, hfull⟩
    -- a plan that only puts a value on fits if there is room for it
    obtain ⟨v, hmoves⟩ : ∃ v, p.moves = [.push v] := by
      rcases hpushes with ⟨v, rfl⟩ | rfl | rfl <;> cases h <;> exact ⟨_, rfl⟩
    rw [hmoves] at hfits
    exact absurd hfits.1 (Nat.not_lt_of_le hfull)
  · by_cases hfull : limits.stack.toNat ≤ stack.height
    · exact .inr ⟨if_pos ⟨hpushes, hfull⟩, hfull, v, hmoves⟩
    · left
      rw [hmoves]
      exact ⟨if_neg fun hboth => hfull hboth.2, Nat.lt_of_not_le hfull, trivial⟩

end Instruction

namespace Machine

variable {σ : Type} {host : Host σ} {functions : Dictionary} {m : Machine σ} {i : Instruction}

/-- An instruction that is applied fails with what is wrong with it, and goes on if nothing is. -/
theorem result_apply (functions : Dictionary) (i : Instruction)
    (hstack : m.stack.height ≤ host.limits.stack.toNat) :
    (∀ fault, i.fault? host.limits functions m.depth m.stack = some fault →
        (m.apply host functions i).2 = .error fault) ∧
      (i.fault? host.limits functions m.depth m.stack = none →
        ∃ effect, (m.apply host functions i).2 = .ok effect) := by
  unfold apply
  cases hplan : i.plan host.limits functions m.depth m.stack with
  | error found =>
    rw [(Instruction.misses_of_plan hplan).fault?_eq]
    exact ⟨fun fault hfault => congrArg Except.error (Option.some.inj hfault), by simp⟩
  | ok p =>
    rcases (Instruction.plans_of_plan hplan).fits_or_full hstack with ⟨hnone, hfits⟩ |
      ⟨hfull, hlimit, v, hmoves⟩
    · rw [hnone]
      refine ⟨by simp, fun _ => ⟨p.effect, ?_⟩⟩
      simp [play_of_fits hfits, Except.map]
    · rw [hfull]
      refine ⟨fun fault hfault => ?_, by simp⟩
      obtain rfl := Option.some.inj hfault
      simp [hmoves, play, Nat.not_lt_of_le hlimit, Except.map]

/-- **When an instruction fails, and what it does otherwise.** Take any instruction, functions and
state with the stack within its limit and room for another operation. The instruction fails exactly
if something is wrong with it, with the first thing that is, and then the stack is as before. The
fault is an underflow exactly if there are fewer values than the instruction requires. If nothing is
wrong, the instruction does what it means, and leaves the values below its operands as they are. -/
theorem execute_exact (host : Host σ) (functions : Dictionary) (m : Machine σ) (i : Instruction)
    (hstack : m.stack.height ≤ host.limits.stack.toNat)
    (hroom : m.executed < host.limits.operations.toNat) :
    let r := m.execute host functions i
    (∀ e, r.2 = .error e ↔ ∃ fault,
      i.fault? host.limits functions m.depth m.stack = some fault ∧
        e = .instructionFailed i m.depth m.executed fault) ∧
    (∀ fault, i.fault? host.limits functions m.depth m.stack = some fault →
      r.1.stack = m.stack ∧ (fault.isUnderflow ↔ m.stack.height < i.required)) ∧
    (i.fault? host.limits functions m.depth m.stack = none →
      ∃ effect, r.2 = .ok effect ∧
        i.Meaning functions m.stack.cells r.1.stack.cells effect) := by
  intro r
  obtain ⟨hfails, hgoes⟩ :=
    @result_apply σ host (note host (.start i m.depth m.stack) m) functions i hstack
  have hresult : r.2 = _ := result_execute hroom
  have hfailed (fault : Fault)
      (hfault : i.fault? host.limits functions m.depth m.stack = some fault) :
      r.2 = .error (.instructionFailed i m.depth m.executed fault) := by
    rw [hresult, hfails fault hfault]
    rfl
  have hgone (hnone : i.fault? host.limits functions m.depth m.stack = none) :
      ∃ effect, r.2 = .ok effect := by
    obtain ⟨effect, heffect⟩ := hgoes hnone
    rw [hresult, heffect]
    exact ⟨effect, rfl⟩
  refine ⟨fun e => ?_, fun fault hfault => ⟨?_, ?_⟩, fun hnone => ?_⟩
  · constructor
    · intro he
      cases hfault : i.fault? host.limits functions m.depth m.stack with
      | none =>
        obtain ⟨effect, heffect⟩ := hgone hfault
        rw [heffect] at he
        simp at he
      | some fault =>
        rw [hfailed fault hfault] at he
        exact ⟨fault, rfl, (Except.error.inj he).symm⟩
    · rintro ⟨fault, hfault, rfl⟩
      exact hfailed fault hfault
  · exact (execute_failed hstack (Prod.ext rfl (hfailed fault hfault))).2.2.1
  · exact Instruction.isUnderflow_of_fault? hfault
  · obtain ⟨effect, heffect⟩ := hgone hnone
    obtain ⟨moves, fault, hreplay, -, -, hplanned⟩ :=
      @exists_replay_execute σ host m functions i hroom
    obtain ⟨-, p, hplans, hp, rfl⟩ := hplanned effect heffect
    have hmeaning := hplans.meaning hreplay
    rw [hp] at hmeaning
    exact ⟨effect, heffect, hmeaning⟩

/-- On a full stack with a zero on top: a zero divisor, a copy without room, and a rotation. -/
theorem execute_exact_full :
    let host : Host Unit := { limits := { stack := 3 }, observe := .blind }
    let m : Machine Unit := { stack := .ofList [7, 2, 0], sink := {}, seen := () }
    m.stack.height ≤ host.limits.stack.toNat ∧ m.executed < host.limits.operations.toNat ∧
      (m.execute host .empty (.binary .mod)).2 =
        .error (.instructionFailed (.binary .mod) 0 0 .divisionByZero) ∧
      (m.execute host .empty .over).2 = .error (.instructionFailed .over 0 0 .fullStack) ∧
      ∃ effect, (m.execute host .empty .rot).2 = .ok effect ∧
        Instruction.Meaning .empty .rot [0, 2, 7] (m.execute host .empty .rot).1.stack.cells
          effect := by
  intro host m
  have hstack : m.stack.height ≤ host.limits.stack.toNat := by decide
  have hroom : m.executed < host.limits.operations.toNat := by decide
  have hexact := execute_exact host .empty m
  refine ⟨hstack, hroom, ?_, ?_, (hexact .rot hstack hroom).2.2 (by decide)⟩
  · exact ((hexact (.binary .mod) hstack hroom).1 _).2 ⟨.divisionByZero, by decide, rfl⟩
  · exact ((hexact .over hstack hroom).1 _).2 ⟨.fullStack, by decide, rfl⟩

end Machine

end StackLang
