import StackLang.Proofs.Words
import Mathlib.Data.List.Basic

/-!
# Where the words of a line stand

The column of a token says where its word starts, `runAt_of_mem_scan`, so a line can be cut there:
what is in front of a token is scanned as the tokens before it, `scan_before`. What comes after a
line, behind a blank, leaves the tokens of the line where they are, `scan_append_blank`.
-/

set_option autoImplicit false

namespace StackLang.Token

open Text (isBlank)

/-- The part of a line in front of a column. -/
def before (line : String) (column : Nat) : String := String.ofList (line.toList.take (column - 1))

/-- What follows a word starts with a blank, however much of it is taken. -/
theorem head?_take_dropWhile {cs : List Char} (n : Nat) :
    ∀ c ∈ ((cs.dropWhile (!isBlank ·)).take n).head?, isBlank c := by
  intro c hc
  refine @isBlank_of_head?_dropWhile cs c ?_
  cases hdrop : cs.dropWhile (!isBlank ·) with
  | nil => simp [hdrop] at hc
  | cons d ds =>
    cases n with
    | zero => simp at hc
    | succ n => simpa [hdrop] using hc

/-- The tokens in front of a token are those of the characters in front of it. -/
theorem scanFrom_take {column : Nat} {cs : List Char} {front rest : List Token} {t : Token}
    (h : scanFrom column cs = front ++ t :: rest) :
    column ≤ t.column ∧ scanFrom column (cs.take (t.column - column)) = front := by
  fun_induction scanFrom column cs generalizing front with
  | case1 => simp at h
  | case2 column c cs hc ih =>
    obtain ⟨hle, hfront⟩ := ih h
    have hcut : t.column - column = t.column - (column + 1) + 1 := by omega
    refine ⟨by omega, ?_⟩
    rw [hcut, List.take_succ_cons, scanFrom_blank column hc, hfront]
  | case3 column c cs hc tail =>
    rename_i ih
    cases front with
    | nil =>
      obtain ⟨rfl, -⟩ := List.cons.inj h
      exact ⟨Nat.le_refl _, by simp⟩
    | cons first front =>
      obtain ⟨rfl, hrest⟩ := List.cons.inj h
      obtain ⟨hle, hfront⟩ := ih hrest
      refine ⟨by omega, ?_⟩
      generalize hn : t.column - (column + 1 + tail.length) = n at hfront
      -- the first word lies in front of the cut, and a blank or the cut ends it
      have hword : IsWord (String.ofList (c :: tail)) := by
        apply @isWord_of_mem_scanFrom column (c :: cs) ⟨_, column⟩
        rw [scanFrom_word column hc]
        exact List.mem_cons_self
      have hcut : (c :: cs).take (t.column - column) =
          (String.ofList (c :: tail)).toList ++ (cs.dropWhile (!isBlank ·)).take n := by
        have hsplit : t.column - column = tail.length + n + 1 := by omega
        rw [hsplit, List.take_succ_cons, String.toList_ofList, List.cons_append,
          ← List.take_length_add_append, List.takeWhile_append_dropWhile]
      have hcolumn : column + (String.ofList (c :: tail)).toList.length =
          column + 1 + tail.length := by
        rw [String.toList_ofList, List.length_cons]
        omega
      rw [hcut, scanFrom_word_append hword column (head?_take_dropWhile n), hcolumn, hfront]

/-- The tokens in front of a token are those of the text in front of its column. -/
theorem scan_before {line : String} {front rest : List Token} {t : Token}
    (h : scan line = front ++ t :: rest) : scan (before line t.column) = front := by
  rw [scan, before, String.toList_ofList]
  exact (scanFrom_take h).2

/-- What comes after a line and a blank is scanned in its own place. -/
theorem scan_append_blank {b : Char} (hb : isBlank b) (line more : String) :
    scan (line ++ String.singleton b ++ more) =
      scan line ++ scanFrom (1 + line.toList.length + 1) more.toList := by
  rw [scan, String.toList_append, String.toList_append, String.toList_singleton, List.append_assoc,
    List.singleton_append, scanFrom_append_blank hb]
  rfl

/-- The longest run of characters that are not blank from a column of a line on, which starts there,
is a word. Columns count characters, from 1. -/
def RunAt (line : String) (column : Nat) (word : String) : Prop :=
  ∃ front back, line.toList = front ++ (word.toList ++ back) ∧ front.length + 1 = column ∧
    IsWord word ∧ (∀ c ∈ front.getLast?, isBlank c) ∧ ∀ c ∈ back.head?, isBlank c

/-- A token stands in its column, between blanks or the ends of the text. -/
theorem exists_split_of_mem_scanFrom {column : Nat} {cs : List Char} {t : Token}
    (h : t ∈ scanFrom column cs) :
    ∃ front back, cs = front ++ (t.text.toList ++ back) ∧ column + front.length = t.column ∧
      (∀ c ∈ front.getLast?, isBlank c) ∧ ∀ c ∈ back.head?, isBlank c := by
  fun_induction scanFrom column cs with
  | case1 => simp at h
  | case2 column c cs hc ih =>
    obtain ⟨front, back, rfl, hcolumn, hfront, hback⟩ := ih h
    refine ⟨c :: front, back, rfl, by rw [List.length_cons]; omega, ?_, hback⟩
    cases front with
    | nil => simpa using hc
    | cons a front => simpa [List.getLast?_cons_cons] using hfront
  | case3 column c cs hc tail =>
    rename_i ih
    rcases List.mem_cons.1 h with rfl | h
    · refine ⟨[], cs.dropWhile (!isBlank ·), ?_, rfl, by simp, isBlank_of_head?_dropWhile⟩
      rw [String.toList_ofList, List.nil_append, List.cons_append]
      exact congrArg (c :: ·) List.takeWhile_append_dropWhile.symm
    · obtain ⟨front, back, hrest, hcolumn, hfront, hback⟩ := ih h
      have hcs : tail ++ (front ++ (t.text.toList ++ back)) = cs := by
        rw [← hrest]
        exact List.takeWhile_append_dropWhile
      refine ⟨c :: (tail ++ front), back, by simp [← hcs], ?_, ?_, hback⟩
      · rw [List.length_cons, List.length_append]
        omega
      · cases front with
        | nil =>
          -- the rest would start with the token, but it starts with a blank
          obtain ⟨hne, hword⟩ := isWord_of_mem_scanFrom h
          obtain ⟨a, as, has⟩ : ∃ a as, t.text.toList = a :: as := by
            apply List.exists_cons_of_ne_nil
            simpa using hne
          have hblank : isBlank a := by
            apply @isBlank_of_head?_dropWhile cs
            simp [hrest, has]
          simp [hword a (by simp [has])] at hblank
        | cons a front =>
          rw [← List.cons_append, List.getLast?_append_cons]
          exact hfront

/-- **Tokens are runs.** Each token stands in its column, between blanks or the ends of the line. -/
theorem runAt_of_mem_scan {line : String} {t : Token} (h : t ∈ scan line) :
    RunAt line t.column t.text := by
  obtain ⟨front, back, hline, hcolumn, hfront, hback⟩ := exists_split_of_mem_scanFrom h
  exact ⟨front, back, hline, by omega, isWord_of_mem_scanFrom h, hfront, hback⟩

end StackLang.Token
