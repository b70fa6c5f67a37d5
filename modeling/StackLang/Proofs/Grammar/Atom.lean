import StackLang.Reader.Line
import StackLang.Instruction.Render
import Mathlib.Data.List.Induction

/-!
# Words with one meaning

The words of the language that mean the same wherever they are read as an item: literals that
fit a stack value, and opcodes. Both are given as rules here, the value of a literal by the
place value of its digits. The reader's classification of a word agrees with the rules:
`plain?_eq_ok_iff` and `plain?_eq_none_iff`. A word that has the shape of a literal or is an
opcode can never be read as a name.
-/

set_option autoImplicit false

namespace StackLang.Grammar

open Text (digitsValue intDigits readDigits? readLiteral?)

/-- A number in decimal digits, and its value. -/
inductive Digits : List Char → Nat → Prop
  | one {c : Char} (hc : c.isDigit) : Digits [c] (c.toNat - '0'.toNat)
  | more {ds : List Char} {n : Nat} {c : Char} (hds : Digits ds n) (hc : c.isDigit) :
      Digits (ds ++ [c]) (10 * n + (c.toNat - '0'.toNat))

/-- A literal and its exact value: digits, with or without a minus sign. -/
inductive Literal : List Char → Int → Prop
  | unsigned {ds : List Char} {n : Nat} (h : Digits ds n) : Literal ds n
  | signed {ds : List Char} {n : Nat} (h : Digits ds n) : Literal ('-' :: ds) (-n)

/-- The word of an opcode. -/
inductive Opcode : String → Instruction → Prop
  | binary (op : BinaryOp) : Opcode op.keyword (.binary op)
  | unary (op : UnaryOp) : Opcode op.keyword (.unary op)
  | out : Opcode "OUT" .out
  | pop : Opcode "POP" .pop
  | dup : Opcode "DUP" .dup
  | swap : Opcode "SWP" .swap
  | rot : Opcode "ROT" .rot
  | over : Opcode "OVR" .over

/-- A word and the instruction it stands for, without regard to its place. -/
inductive Atom (word : String) : Instruction → Prop
  | number {v : Int32} (h : Literal word.toList v.toInt) : Atom word (.number v)
  | opcode {i : Instruction} (h : Opcode word i) : Atom word i

/-- A word that is no name, because it is a literal of any size or an opcode. -/
def Taken (word : String) : Prop := (∃ z, Literal word.toList z) ∨ ∃ i, Opcode word i

/-- The reader of digits meets their rule. -/
theorem digits_iff {ds : List Char} {n : Nat} : Digits ds n ↔ readDigits? ds = some n := by
  unfold readDigits?
  constructor
  · intro h
    induction h with
    | one hc => simp [hc, digitsValue, Nat.ofDigitChars_cons]
    | @more ds n c hds hc ih =>
      split at ih
      · rename_i hall
        have hvalue : digitsValue ds = n := Option.some.inj ih
        have hlast : digitsValue (ds ++ [c]) = 10 * n + (c.toNat - '0'.toNat) := by
          rw [← hvalue]
          simp [digitsValue, Nat.ofDigitChars_append, Nat.ofDigitChars_cons]
        simp [hall.2, hc, hlast]
      · simp at ih
  · intro h
    split at h
    · rename_i hall
      obtain ⟨hne, hall⟩ := hall
      obtain rfl : digitsValue ds = n := Option.some.inj h
      clear h
      -- the last digit counts for itself, and all before it ten times
      induction ds using List.reverseRecOn with
      | nil => exact absurd rfl hne
      | append_singleton ds c ih =>
        simp only [List.all_append, List.all_cons, List.all_nil, Bool.and_true,
          Bool.and_eq_true] at hall
        by_cases hds : ds = []
        · subst hds
          have hone := Digits.one hall.2
          simpa [digitsValue, Nat.ofDigitChars_cons] using hone
        · have hmore := Digits.more (ih hds hall.1) hall.2
          simpa [digitsValue, Nat.ofDigitChars_append, Nat.ofDigitChars_cons] using hmore
    · simp at h

/-- The reader of literals meets theirs. -/
theorem literal_iff {cs : List Char} {z : Int} : Literal cs z ↔ readLiteral? cs = some z := by
  constructor
  · intro h
    cases h with
    | @unsigned _ n h =>
      have hread := digits_iff.1 h
      unfold readLiteral?
      split
      · -- digits do not start with a minus sign
        simp [readDigits?] at hread
      · rw [hread]
        rfl
    | signed h =>
      rw [readLiteral?, digits_iff.1 h]
      rfl
  · intro h
    unfold readLiteral? at h
    split at h
    · rename_i ds
      cases hn : readDigits? ds with
      | none => simp [hn] at h
      | some n =>
        obtain rfl : -(n : Int) = z := by simpa [hn] using h
        exact .signed (digits_iff.2 hn)
    · cases hn : readDigits? cs with
      | none => simp [hn] at h
      | some n =>
        obtain rfl : (n : Int) = z := by simpa [hn] using h
        exact .unsigned (digits_iff.2 hn)

/-- The table of keywords holds the opcodes of the grammar. -/
theorem opcode_iff {word : String} {i : Instruction} :
    Opcode word i ↔ Instruction.ofKeyword? word = some i := by
  constructor
  · intro h
    cases h with
    | binary op => cases op <;> rfl
    | unary op => cases op <;> rfl
    | _ => rfl
  · intro h
    obtain ⟨front, back, htable, -⟩ := List.lookup_eq_some_iff.1 h
    have hmem : (word, i) ∈ Instruction.keywordTable := by simp [htable]
    simp only [Instruction.keywordTable, List.mem_cons, Prod.mk.injEq, List.not_mem_nil,
      or_false] at hmem
    rcases hmem with ⟨rfl, rfl⟩ | ⟨rfl, rfl⟩ | ⟨rfl, rfl⟩ | ⟨rfl, rfl⟩ | ⟨rfl, rfl⟩ | ⟨rfl, rfl⟩ |
      ⟨rfl, rfl⟩ | ⟨rfl, rfl⟩ | ⟨rfl, rfl⟩ | ⟨rfl, rfl⟩ | ⟨rfl, rfl⟩ | ⟨rfl, rfl⟩ | ⟨rfl, rfl⟩
    · exact .binary .add
    · exact .binary .sub
    · exact .binary .mul
    · exact .binary .div
    · exact .binary .mod
    · exact .unary .pos
    · exact .unary .not
    · exact .out
    · exact .pop
    · exact .dup
    · exact .swap
    · exact .rot
    · exact .over

/-- A literal and an opcode never share a word. -/
theorem not_literal_of_opcode {word : String} {i : Instruction} (h : Opcode word i) (z : Int) :
    ¬ Literal word.toList z := by
  rw [literal_iff]
  cases h with
  | binary op => cases op <;> (intro hz; contradiction)
  | unary op => cases op <;> (intro hz; contradiction)
  | _ => intro hz; contradiction

/-- A word that is an instruction by itself is taken. -/
theorem Atom.taken {word : String} {i : Instruction} (h : Atom word i) : Taken word := by
  cases h with
  | number h => exact .inl ⟨_, h⟩
  | opcode h => exact .inr ⟨_, h⟩

/-- The reader takes a word for an instruction of its own exactly if it is an atom. -/
theorem plain?_eq_ok_iff {t : Token} {i : Instruction} :
    t.plain? = some (.ok i) ↔ Atom t.text i := by
  unfold Token.plain?
  constructor
  · intro h
    split at h
    · rename_i value hvalue
      split at h
      · rename_i hrange
        obtain rfl : Instruction.number (Int32.ofInt value) = i := by simpa using h
        have hexact : (Int32.ofInt value).toInt = value := by
          apply Int32.toInt_ofInt_of_le
          · exact hrange.1
          · exact Int.lt_add_one_of_le hrange.2
        exact .number (by rwa [literal_iff, hexact])
      · simp at h
    · exact .opcode (opcode_iff.2 (by simpa using h))
  · intro h
    cases h with
    | @number v h =>
      have hrange : Int32.minValue.toInt ≤ v.toInt ∧ v.toInt ≤ Int32.maxValue.toInt :=
        ⟨Int32.minValue_le_toInt v, Int32.toInt_le v⟩
      simp only [literal_iff.1 h, if_pos hrange, Int32.ofInt_toInt]
    | opcode h =>
      have hnone : readLiteral? t.text.toList = none := by
        rw [Option.eq_none_iff_forall_ne_some]
        intro z hz
        exact not_literal_of_opcode h z (literal_iff.2 hz)
      simp [hnone, opcode_iff.1 h]

/-- The reader looks for a name exactly if the word is not taken. -/
theorem plain?_eq_none_iff {t : Token} : t.plain? = none ↔ ¬ Taken t.text := by
  unfold Token.plain? Taken
  simp only [literal_iff, opcode_iff]
  split
  · rename_i value hvalue
    simp only [hvalue, Option.some.injEq, exists_eq', true_or, not_true_eq_false, iff_false]
    split <;> simp
  · rename_i hvalue
    simp [hvalue, Option.eq_none_iff_forall_ne_some]

/-- The words of definitions and conditionals are free. -/
theorem not_taken_of_mem {word : String} (h : word ∈ ["DEF", "END", "IF", "ELS", "FI"]) :
    ¬ Taken word := by
  have hplain : (⟨word, 1⟩ : Token).plain? = none := by
    simp only [List.mem_cons, List.not_mem_nil, or_false] at h
    rcases h with rfl | rfl | rfl | rfl | rfl <;> rfl
  exact plain?_eq_none_iff.1 hplain

end StackLang.Grammar
