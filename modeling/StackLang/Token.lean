import StackLang.Text.Blank

/-!
# Tokens

A line is read as its words: the maximal runs of characters that are not blank. Each
word carries the column at which it starts, counted in characters from 1.
-/

set_option autoImplicit false

namespace StackLang

open Text (isBlank)

/-- A word of a line, and the column of its first character. -/
structure Token where
  text : String
  column : Nat
deriving DecidableEq

namespace Token

/-- The tokens of `cs`, whose first character stands in the given column. -/
def scanFrom (column : Nat) (cs : List Char) : List Token :=
  match cs with
  | [] => []
  | c :: rest =>
    if isBlank c then
      scanFrom (column + 1) rest
    else
      let tail := rest.takeWhile (!isBlank ·)
      ⟨String.ofList (c :: tail), column⟩ ::
        scanFrom (column + 1 + tail.length) (rest.dropWhile (!isBlank ·))
termination_by cs.length
decreasing_by
  · simp
  · exact Nat.lt_succ_of_le (List.dropWhile_sublist _).length_le

@[simp]
theorem scanFrom_nil (column : Nat) : scanFrom column [] = [] := by
  rw [scanFrom]

/-- A blank is skipped and takes one column. -/
theorem scanFrom_blank (column : Nat) {c : Char} (h : isBlank c) (rest : List Char) :
    scanFrom column (c :: rest) = scanFrom (column + 1) rest := by
  rw [scanFrom, if_pos h]

/-- A word goes on up to the next blank. -/
theorem scanFrom_word (column : Nat) {c : Char} (h : ¬ isBlank c) (rest : List Char) :
    scanFrom column (c :: rest) =
      ⟨String.ofList (c :: rest.takeWhile (!isBlank ·)), column⟩ ::
        scanFrom (column + 1 + (rest.takeWhile (!isBlank ·)).length)
          (rest.dropWhile (!isBlank ·)) := by
  rw [scanFrom, if_neg h]

/-- The tokens of a line. -/
def scan (line : String) : List Token := scanFrom 1 line.toList

/-- The words of a line, without their columns. -/
def words (line : String) : List String := (scan line).map text

end Token

end StackLang
