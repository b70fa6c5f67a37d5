import StackLang.Instruction.Basic
import StackLang.Text.Decimal

/-!
# Source text of instructions

Code is written as its words with one space between them. Numbers are canonical, and an
empty `zero` branch is written without its `ELS`. The mnemonic of an instruction is its
short name, without the instructions inside it.
-/

set_option autoImplicit false

namespace StackLang.Instruction

open Text (intText)

/-- The short name of an instruction. -/
def mnemonic : Instruction → String
  | .number value => intText value.toInt
  | .binary op => op.keyword
  | .unary op => op.keyword
  | .out => "OUT"
  | .pop => "POP"
  | .dup => "DUP"
  | .swap => "SWP"
  | .rot => "ROT"
  | .over => "OVR"
  | .define name _ => "DEF " ++ name
  | .call name => name
  | .branch _ _ => "IF"

/-- The words of a branch that is taken on zero, with the word before it. -/
def elseWords : List String → List String
  | [] => []
  | words => "ELS" :: words

mutual
/-- The words of one instruction. -/
def words : Instruction → List String
  | .define name body => "DEF" :: name :: (wordsOfCode body ++ ["END"])
  | .branch nonzero zero => "IF" :: (wordsOfCode nonzero ++ (elseWords (wordsOfCode zero) ++ ["FI"]))
  | i => [i.mnemonic]
/-- The words of a sequence. -/
def wordsOfCode : Code → List String
  | [] => []
  | i :: is => words i ++ wordsOfCode is
end

/-- The source text of one instruction. -/
def render (i : Instruction) : String := " ".intercalate i.words

/-- The source text of a line. -/
def renderLine (code : Code) : String := " ".intercalate (wordsOfCode code)

/-- No instruction is written without a word. -/
theorem words_ne_nil (i : Instruction) : i.words ≠ [] := by
  cases i <;> simp [words]

end StackLang.Instruction
