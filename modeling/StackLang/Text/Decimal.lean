/-!
# Decimal numerals

Whole numbers as text. Writing is canonical: no leading zeros, and a minus sign for
negative values only. Reading comes in two forms:

* a *literal* has an optional minus sign and at least one digit, of any length, and its
  value is exact;
* a *counter* has an optional plus sign and at least one digit, its value is bounded, and
  the first character that ends the reading decides the fault.

Digits are the ten ASCII ones in both. Reading an integer's text as a literal gives the
integer back: `readLiteral?_intDigits`.
-/

set_option autoImplicit false

namespace StackLang.Text

/-- The decimal digits of a natural number, without leading zeros. -/
def natDigits (n : Nat) : List Char := Nat.toDigits 10 n

/-- The decimal text of an integer. -/
def intDigits : Int → List Char
  | .ofNat n => natDigits n
  | .negSucc n => '-' :: natDigits (n + 1)

/-- `natDigits` as a string. -/
def natText (n : Nat) : String := String.ofList (natDigits n)

/-- `intDigits` as a string. -/
def intText (z : Int) : String := String.ofList (intDigits z)

/-- The value of a list of digits, most significant first. -/
def digitsValue (ds : List Char) : Nat := Nat.ofDigitChars 10 ds 0

/-- The value of a non-empty list of digits; any other list has none. -/
def readDigits? (ds : List Char) : Option Nat :=
  if ds ≠ [] ∧ ds.all Char.isDigit then some (digitsValue ds) else none

/-- The value of a literal, if the characters form one. -/
def readLiteral? : List Char → Option Int
  | '-' :: ds => (readDigits? ds).map fun n => -(n : Int)
  | ds => (readDigits? ds).map fun n => (n : Int)

/-- Why a text is no counter of its size. -/
inductive CounterFault where
  | empty
  | invalidDigit
  | tooLarge
deriving DecidableEq

namespace CounterFault

/-- The wording of a fault. -/
def message : CounterFault → String
  | .empty => "cannot parse integer from empty string"
  | .invalidDigit => "invalid digit found in string"
  | .tooLarge => "number too large to fit in target type"

end CounterFault

/-- Reads digits after a part with value `n`, as long as the value is below `size`. The first
character that is no digit, or whose digit takes the value out of bounds, ends the reading. -/
def readCounterFrom (size : Nat) : Nat → List Char → Except CounterFault Nat
  | n, [] => .ok n
  | n, c :: cs =>
    if c.isDigit then
      let next := Nat.ofDigitChars 10 [c] n
      if next < size then readCounterFrom size next cs else .error .tooLarge
    else .error .invalidDigit

/-- Reads a counter below `size`. A sign alone is an invalid digit. -/
def readCounter (size : Nat) : List Char → Except CounterFault Nat
  | [] => .error .empty
  | ['+'] => .error .invalidDigit
  | '+' :: ds => readCounterFrom size 0 ds
  | ds => readCounterFrom size 0 ds

/-- A natural number is written in digits. -/
theorem isDigit_of_mem_natDigits {n : Nat} {c : Char} (h : c ∈ natDigits n) : c.isDigit :=
  Nat.isDigit_of_mem_toDigits (by decide) (by decide) h

/-- An integer is written in digits, maybe with a minus sign. -/
theorem isDigit_or_eq_of_mem_intDigits {z : Int} {c : Char} (h : c ∈ intDigits z) :
    c.isDigit ∨ c = '-' := by
  cases z with
  | ofNat n => exact .inl (isDigit_of_mem_natDigits h)
  | negSucc n =>
    rcases List.mem_cons.1 h with rfl | hmem
    · exact .inr rfl
    · exact .inl (isDigit_of_mem_natDigits hmem)

/-- Every number has a digit. -/
theorem natDigits_ne_nil (n : Nat) : natDigits n ≠ [] := Nat.toDigits_ne_nil

/-- Reading the digits of a number gives the number back. -/
@[simp]
theorem readDigits?_natDigits (n : Nat) : readDigits? (natDigits n) = some n := by
  have hall : (natDigits n).all Char.isDigit := List.all_eq_true.2 fun _ => isDigit_of_mem_natDigits
  simp only [readDigits?, natDigits_ne_nil, ne_eq, not_false_eq_true, hall, and_self, if_true]
  exact congrArg some Nat.ofDigitChars_ten_toDigits

/-- No natural number is written with a sign. -/
theorem natDigits_ne_minus_cons (n : Nat) (ds : List Char) : natDigits n ≠ '-' :: ds := by
  intro h
  have hdigit : '-'.isDigit := isDigit_of_mem_natDigits (h ▸ List.mem_cons_self)
  exact absurd hdigit (by decide)

/-- Reading the text of an integer gives the integer back. -/
@[simp]
theorem readLiteral?_intDigits (z : Int) : readLiteral? (intDigits z) = some z := by
  cases z with
  | ofNat n =>
    rw [intDigits, readLiteral?.eq_2 _ (natDigits_ne_minus_cons n)]
    simp
  | negSucc n =>
    rw [intDigits, readLiteral?]
    simp [Int.negSucc_eq]

end StackLang.Text
