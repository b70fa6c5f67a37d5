import StackLang.Proofs.Failures
import StackLang.Proofs.OpenCalls
import Mathlib.Data.Int.ModEq

/-!
# Formulas and their values

A formula is arithmetic on values, and its code is what a program writes for it: operands first, then
the operation. Code leaves the value of its formula on the stack, above what was there before, if the
limits have room for it: `eval_code`, by induction on the formula, with what a planned instruction
comes to (`execute_of_plan`) for its last step. So laws of arithmetic are laws of programs:
`arithmetic_exact` says which integers the operations compute, and how quotients and remainders fit
together.
-/

set_option autoImplicit false

namespace StackLang

/-- Arithmetic on values. -/
inductive Formula where
  | value (v : Int32)
  | apply (op : BinaryOp) (first second : Formula)

namespace Formula

/-- The value of a formula. It has none if it divides by zero. -/
def eval? : Formula → Option Int32
  | .value v => some v
  | .apply op first second => do op.eval? (← first.eval?) (← second.eval?)

/-- The instructions that compute a formula. -/
def code : Formula → Code
  | .value v => [.number v]
  | .apply op first second => first.code ++ (second.code ++ [.binary op])

/-- The number of values that the code of a formula needs room for. -/
def height : Formula → Nat
  | .value _ => 1
  | .apply _ first second => max first.height (1 + second.height)

/-- Every formula needs room for one value at least. -/
theorem height_pos (f : Formula) : 0 < f.height := by
  cases f with
  | value v => exact Nat.one_pos
  | apply op first second => exact Nat.lt_of_lt_of_le (by omega) (Nat.le_max_right _ _)

end Formula

namespace Machine

variable {σ : Type} {host : Host σ} {functions : Dictionary} {m : Machine σ} {i : Instruction}
  {p : Plan}

/-- With room for it and for its moves, an instruction does what is planned. -/
theorem execute_of_plan (hplan : Instruction.Plans host.limits functions m.depth m.stack i p)
    (hfits : Fits host.limits.stack.toNat m.stack.height p.moves)
    (hroom : m.executed < host.limits.operations.toNat) :
    ∃ after, m.execute host functions i = (after, .ok p.effect) ∧
      replay m.stack.cells p.moves = some after.stack.cells ∧ after.executed = m.executed + 1 := by
  let started := note host (.start i m.depth m.stack) m
  have hplayed : (started.play host p.moves).2 = .ok () := play_of_fits hfits
  obtain ⟨done, -, hreplay, -, hall⟩ := exists_replay_play host started p.moves
  have happly : started.apply host functions i = ((started.play host p.moves).1, .ok p.effect) := by
    unfold apply
    rw [show i.plan host.limits functions started.depth started.stack = _ from hplan.plan_eq]
    simp only [hplayed]
    rfl
  rw [hall hplayed] at hreplay
  unfold execute
  rw [if_neg (Nat.not_le_of_lt hroom), show apply host functions started i = _ from happly]
  exact ⟨_, rfl, hreplay, rfl⟩

/-- A literal puts its value on the stack, if there is room for it. -/
theorem execute_number (functions : Dictionary) (v : Int32)
    (hheight : m.stack.height < host.limits.stack.toNat)
    (hroom : m.executed < host.limits.operations.toNat) :
    ∃ after, m.execute host functions (.number v) = (after, .ok .nothing) ∧
      after.stack = m.stack.push v ∧ after.executed = m.executed + 1 := by
  have hplans : Instruction.Plans host.limits functions m.depth m.stack (.number v) _ := .number v
  have hfits : Fits host.limits.stack.toNat m.stack.height [.push v] := ⟨hheight, trivial⟩
  obtain ⟨after, hexec, hcells, hcount⟩ := execute_of_plan hplans hfits hroom
  exact ⟨after, hexec, Stack.ext (Option.some.inj hcells).symm, hcount⟩

/-- An operation takes its operands off and leaves its result, for which they make room. -/
theorem execute_binary (functions : Dictionary) {op : BinaryOp} {a b v : Int32} {s : Stack}
    (hstack : m.stack = (s.push a).push b) (hv : op.eval? a b = some v)
    (hheight : s.height < host.limits.stack.toNat)
    (hroom : m.executed < host.limits.operations.toNat) :
    ∃ after, m.execute host functions (.binary op) = (after, .ok .nothing) ∧
      after.stack = s.push v ∧ after.executed = m.executed + 1 := by
  have hcells : m.stack.cells = b :: a :: s.cells := by
    rw [hstack]
    rfl
  have hplans : Instruction.Plans host.limits functions m.depth m.stack (.binary op) _ :=
    .binary hcells hv
  have hfits : Fits host.limits.stack.toNat m.stack.height [.pop, .pop, .push v] := by
    rw [hstack, Stack.height_push, Stack.height_push]
    exact ⟨by omega, by omega, by simpa using hheight, trivial⟩
  obtain ⟨after, hexec, hafter, hcount⟩ := execute_of_plan hplans hfits hroom
  rw [hcells] at hafter
  exact ⟨after, hexec, Stack.ext (Option.some.inj hafter).symm, hcount⟩

/-- The code of a formula leaves its value. -/
theorem eval_code (host : Host σ) (functions : Dictionary) {f : Formula} {v : Int32}
    (hv : f.eval? = some v) (hheight : m.stack.height + f.height ≤ host.limits.stack.toNat)
    (hroom : m.executed + f.code.length ≤ host.limits.operations.toNat) :
    ∃ after, m.eval host functions f.code = (after, .ok ()) ∧ after.stack = m.stack.push v ∧
      after.executed = m.executed + f.code.length := by
  induction f generalizing m v with
  | value w =>
    obtain rfl : w = v := Option.some.inj hv
    obtain ⟨after, hexec, hstack, hcount⟩ := execute_number functions w hheight hroom
    exact ⟨after, eval_of_nothing hexec, hstack, hcount⟩
  | apply op first second ihfirst ihsecond =>
    simp only [Formula.eval?, Option.bind_eq_bind, Option.bind_eq_some_iff] at hv
    obtain ⟨a, ha, b, hb, hop⟩ := hv
    simp only [Formula.height, Formula.code, List.length_append, List.length_singleton]
      at hheight hroom ⊢
    have hpos := first.height_pos
    obtain ⟨inner, hfirst, hinner, hcount⟩ := @ihfirst m a ha (by omega) (by omega)
    have hhigher : inner.stack.height = m.stack.height + 1 := by rw [hinner, Stack.height_push]
    obtain ⟨ready, hsecond, hready, hcount'⟩ := @ihsecond inner b hb (by omega) (by omega)
    rw [hinner] at hready
    obtain ⟨after, hexec, hstack, hcount''⟩ :=
      @execute_binary _ host ready functions op a b v m.stack hready hop (by omega) (by omega)
    refine ⟨after, ?_, hstack, by omega⟩
    rw [eval_append_of_ok hfirst, eval_append_of_ok hsecond]
    exact eval_of_nothing hexec

/-- A run of the code of a formula leaves a value, and nothing else on the stack. -/
def Computes (host : Host σ) (functions : Dictionary) (m : Machine σ) (f : Formula) (v : Int32) :
    Prop :=
  ∃ after, m.run host functions f.code = (after, .ok ()) ∧ after.stack = m.stack.push v

end Machine

section Arithmetic

/-- A formula computes the one value that is congruent to an integer. -/
def Wraps (computes : Formula → Int32 → Prop) (f : Formula) (z : Int) : Prop :=
  ∃ v, computes f v ∧ ∀ w : Int32, w.toInt ≡ z [ZMOD 2 ^ 32] ↔ w = v

/-- What the operations compute of two values. -/
structure ExactArithmetic (computes : Formula → Int32 → Prop) (a b : Int32) : Prop where
  add : Wraps computes (.apply .add (.value a) (.value b)) (a.toInt + b.toInt)
  sub : Wraps computes (.apply .sub (.value a) (.value b)) (a.toInt - b.toInt)
  mul : Wraps computes (.apply .mul (.value a) (.value b)) (a.toInt * b.toInt)
  /-- Quotients are truncated toward zero; the one that is no value wraps to the least one. -/
  div (hb : b ≠ 0) : ∃ q, computes (.apply .div (.value a) (.value b)) q ∧
    q.toInt = if a = Int32.minValue ∧ b = -1 then Int32.minValue.toInt else a.toInt.tdiv b.toInt
  /-- Remainders are smaller than the divisor, and zero or of the sign of the dividend. -/
  mod (hb : b ≠ 0) : ∃ r, computes (.apply .mod (.value a) (.value b)) r ∧
    r.toInt.natAbs < b.toInt.natAbs ∧ (r = 0 ∨ r.toInt.sign = a.toInt.sign)
  /-- The quotient times the divisor, and the remainder added, is the dividend. -/
  fit (hb : b ≠ 0) : computes
    (.apply .add (.apply .mul (.apply .div (.value a) (.value b)) (.value b))
      (.apply .mod (.value a) (.value b))) a

/-- The one value congruent to an integer is what the integer wraps to. -/
theorem modEq_iff_eq_ofInt {w : Int32} {z : Int} :
    w.toInt ≡ z [ZMOD 2 ^ 32] ↔ w = .ofInt z := by
  have hsize : (Int32.size : Int) = 2 ^ 32 := rfl
  constructor
  · intro h
    rw [← Int32.ofInt_toInt w, ← Int32.toInt_inj, Int32.toInt_ofInt, Int32.toInt_ofInt,
      Int.bmod_def, Int.bmod_def, hsize, h.eq]
  · rintro rfl
    rw [Int32.toInt_ofInt]
    exact Int.bmod_emod

/-- Wrapping loses nothing: the law holds where the quotient wraps, too. -/
theorem div_mul_add_mod (a b : Int32) : a / b * b + a % b = a := by
  calc a / b * b + a % b
      = .ofInt (a.toInt.tdiv b.toInt) * .ofInt b.toInt + .ofInt (a.toInt.tmod b.toInt) := by
        rw [BinaryOp.div_eq_ofInt, BinaryOp.mod_eq_ofInt, Int32.ofInt_toInt]
    _ = .ofInt (a.toInt.tdiv b.toInt * b.toInt + a.toInt.tmod b.toInt) := by
        rw [Int32.ofInt_add, Int32.ofInt_mul]
    _ = a := by rw [Int.tdiv_mul_add_tmod, Int32.ofInt_toInt]

/-- The quotient is truncated toward zero, if there is such a value. There is none for the least
value by -1, and it wraps. -/
theorem toInt_div_eq (a b : Int32) :
    (a / b).toInt =
      if a = Int32.minValue ∧ b = -1 then Int32.minValue.toInt else a.toInt.tdiv b.toInt := by
  by_cases hwraps : a = Int32.minValue ∧ b = -1
  · rw [if_pos hwraps, hwraps.1, hwraps.2]
    decide
  · rw [if_neg hwraps]
    rcases not_and_or.1 hwraps with ha | hb
    · exact Int32.toInt_div_of_ne_left a b ha
    · exact Int32.toInt_div_of_ne_right a b hb

/-- A remainder is smaller than the divisor. -/
theorem natAbs_toInt_mod_lt (a : Int32) {b : Int32} (hb : b ≠ 0) :
    (a % b).toInt.natAbs < b.toInt.natAbs := by
  have hpos : 0 < b.toInt.natAbs := Int.natAbs_pos.2 fun h => hb (Int32.toInt_inj.1 h)
  rw [Int32.toInt_mod, Int.natAbs_tmod]
  exact Nat.mod_lt _ hpos

/-- A remainder that is not zero has the sign of the dividend. -/
theorem mod_eq_zero_or_sign_eq (a b : Int32) :
    a % b = 0 ∨ (a % b).toInt.sign = a.toInt.sign := by
  rw [← Int32.toInt_inj, Int32.toInt_mod, Int.sign_tmod]
  by_cases hdvd : b.toInt ∣ a.toInt
  · exact .inl (Int.tmod_eq_zero_of_dvd hdvd)
  · exact .inr (if_neg hdvd)

/-- The values of formulas obey the laws of arithmetic. -/
theorem exactArithmetic_eval? (a b : Int32) :
    ExactArithmetic (fun f v => f.eval? = some v) a b where
  add := ⟨_, rfl, fun w => by rw [modEq_iff_eq_ofInt, Int32.ofInt_add]; simp⟩
  sub := ⟨_, rfl, fun w => by rw [modEq_iff_eq_ofInt, Int32.ofInt_sub]; simp⟩
  mul := ⟨_, rfl, fun w => by rw [modEq_iff_eq_ofInt, Int32.ofInt_mul]; simp⟩
  div hb := ⟨a / b, if_neg hb, toInt_div_eq a b⟩
  mod hb := ⟨a % b, if_neg hb, natAbs_toInt_mod_lt a hb, mod_eq_zero_or_sign_eq a b⟩
  fit hb := by simp [Formula.eval?, BinaryOp.eval?, hb, div_mul_add_mod]

/-- What holds of small formulas is carried over. The largest is that of the law. -/
theorem ExactArithmetic.imp {P Q : Formula → Int32 → Prop} {a b : Int32}
    (h : ExactArithmetic P a b)
    (himp : ∀ f v, f.height ≤ 3 → f.code.length ≤ 9 → P f v → Q f v) :
    ExactArithmetic Q a b := by
  have hone (op : BinaryOp) {v : Int32} (hv : P (.apply op (.value a) (.value b)) v) :
      Q (.apply op (.value a) (.value b)) v :=
    himp _ v (by simp [Formula.height]) (by simp [Formula.code]) hv
  exact
    { add := h.add.imp fun v hv => ⟨hone .add hv.1, hv.2⟩
      sub := h.sub.imp fun v hv => ⟨hone .sub hv.1, hv.2⟩
      mul := h.mul.imp fun v hv => ⟨hone .mul hv.1, hv.2⟩
      div := fun hb => (h.div hb).imp fun q hq => ⟨hone .div hq.1, hq.2⟩
      mod := fun hb => (h.mod hb).imp fun r hr => ⟨hone .mod hr.1, hr.2⟩
      fit := fun hb => himp _ a (by simp [Formula.height]) (by simp [Formula.code]) (h.fit hb) }

end Arithmetic

namespace Machine

variable {σ : Type}

/-- **Arithmetic is exact.** Whatever is on the machine, as long as its limits have room for three
more values and nine more instructions: what programs compute of two values are the sum, difference
and product modulo `2 ^ 32`, the quotient truncated toward zero, unless it is that of the least value
by -1, and a remainder that fits it, so that the quotient times the divisor, and the remainder added,
is always the dividend. -/
theorem arithmetic_exact (host : Host σ) (functions : Dictionary) (m : Machine σ)
    (hheight : m.stack.height + 3 ≤ host.limits.stack.toNat)
    (hroom : m.executed + 9 ≤ host.limits.operations.toNat) (a b : Int32) :
    ExactArithmetic (m.Computes host functions) a b := by
  refine (exactArithmetic_eval? a b).imp fun f v hf hlength hv => ?_
  obtain ⟨after, heval, hstack, -⟩ := @eval_code σ m host functions f v hv (by omega) (by omega)
  exact ⟨after, by rw [run_eq_eval, heval], hstack⟩

/-- Limits with no more room than that: the least value by -1, and a negative one by a positive. -/
theorem arithmetic_exact_least :
    let host : Host Unit := { limits := { stack := 4, operations := 10 }, observe := .blind }
    let m : Machine Unit := { stack := .ofList [7], sink := {}, executed := 1, seen := () }
    (m.stack.height + 3 ≤ host.limits.stack.toNat ∧ m.executed + 9 ≤ host.limits.operations.toNat) ∧
      ExactArithmetic (m.Computes host .empty) Int32.minValue (-1) ∧
      ExactArithmetic (m.Computes host .empty) (-7) 2 := by
  intro host m
  have hlimits : m.stack.height + 3 ≤ host.limits.stack.toNat ∧
      m.executed + 9 ≤ host.limits.operations.toNat := by decide
  exact ⟨hlimits, arithmetic_exact host .empty m hlimits.1 hlimits.2 _ _,
    arithmetic_exact host .empty m hlimits.1 hlimits.2 _ _⟩

end Machine

end StackLang
