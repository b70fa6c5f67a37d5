/-!
# Instructions

The instructions of the language. Definitions and conditionals hold instructions
themselves, so code is a tree, and its equality is decided branch by branch.
-/

set_option autoImplicit false

namespace StackLang

/-- Arithmetic on two operands. -/
inductive BinaryOp where
  | add
  | sub
  | mul
  | div
  | mod
deriving DecidableEq

/-- Tests of one operand, answered by 1 or 0. -/
inductive UnaryOp where
  /-- The value is not negative. -/
  | pos
  /-- The value is zero. -/
  | not
deriving DecidableEq

/-- One step of a program. -/
inductive Instruction where
  /-- Puts a value on the stack. -/
  | number (value : Int32)
  | binary (op : BinaryOp)
  | unary (op : UnaryOp)
  /-- Takes the top value and prints it. -/
  | out
  | pop
  | dup
  /-- Exchanges the two top values. -/
  | swap
  /-- Moves the third value from the top to the top. -/
  | rot
  /-- Copies the second value from the top. -/
  | over
  /-- Gives a function its body when it is read, and does nothing when it runs. -/
  | define (name : String) (body : List Instruction)
  /-- Runs a function, looked up by name at that moment. -/
  | call (name : String)
  /-- Takes the top value and goes on with one of two branches. -/
  | branch (nonzero zero : List Instruction)

/-- A sequence of instructions. -/
abbrev Code := List Instruction

namespace BinaryOp

/-- The word that stands for the operation. -/
def keyword : BinaryOp → String
  | .add => "ADD"
  | .sub => "SUB"
  | .mul => "MUL"
  | .div => "DIV"
  | .mod => "MOD"

end BinaryOp

namespace UnaryOp

/-- The word that stands for the test. -/
def keyword : UnaryOp → String
  | .pos => "POS"
  | .not => "NOT"

end UnaryOp

namespace Instruction

/-- The instructions that are written as one fixed word. -/
def keywordTable : List (String × Instruction) :=
  [("ADD", .binary .add), ("SUB", .binary .sub), ("MUL", .binary .mul), ("DIV", .binary .div),
   ("MOD", .binary .mod), ("POS", .unary .pos), ("NOT", .unary .not), ("OUT", .out),
   ("POP", .pop), ("DUP", .dup), ("SWP", .swap), ("ROT", .rot), ("OVR", .over)]

/-- The instruction that a fixed word stands for. -/
def ofKeyword? (word : String) : Option Instruction := keywordTable.lookup word

mutual
/-- Whether two instructions are the same tree. -/
def same : Instruction → Instruction → Bool
  | .number a, .number b => a == b
  | .binary a, .binary b => a == b
  | .unary a, .unary b => a == b
  | .out, .out | .pop, .pop | .dup, .dup | .swap, .swap | .rot, .rot | .over, .over => true
  | .define f a, .define g b => f == g && sameCode a b
  | .call f, .call g => f == g
  | .branch a b, .branch c d => sameCode a c && sameCode b d
  | _, _ => false
/-- Whether two sequences are the same, instruction by instruction. -/
def sameCode : Code → Code → Bool
  | [], [] => true
  | i :: is, j :: js => same i j && sameCode is js
  | _, _ => false
end

mutual
/-- Instructions that are compared as the same are equal. -/
theorem eq_of_same {i j : Instruction} (h : same i j) : i = j := by
  cases i <;> cases j <;> simp_all [same]
  case define.define => exact eq_of_sameCode h.2
  case branch.branch => exact ⟨eq_of_sameCode h.1, eq_of_sameCode h.2⟩
/-- So are lists of instructions. -/
theorem eq_of_sameCode {c d : Code} (h : sameCode c d) : c = d := by
  match c, d with
  | [], [] => rfl
  | i :: is, j :: js =>
    simp only [sameCode, Bool.and_eq_true] at h
    rw [eq_of_same h.1, eq_of_sameCode h.2]
  | [], j :: js => simp [sameCode] at h
  | i :: is, [] => simp [sameCode] at h
end

mutual
/-- And equal instructions are compared as the same. -/
theorem same_self (i : Instruction) : same i i := by
  cases i <;> simp [same]
  case define => exact sameCode_self _
  case branch => exact ⟨sameCode_self _, sameCode_self _⟩
/-- So are equal lists of instructions. -/
theorem sameCode_self (c : Code) : sameCode c c := by
  match c with
  | [] => simp [sameCode]
  | i :: is => simp [sameCode, same_self i, sameCode_self is]
end

instance : DecidableEq Instruction := fun i j =>
  if h : same i j then .isTrue (eq_of_same h)
  else .isFalse fun e => h (e ▸ same_self i)

end Instruction

end StackLang
