import StackLang.Proofs.Columns
import Mathlib

/-!
# Tokens are the maximal runs of a line

What the scanner finds is told without it. `Tokenizes` asks of a list of tokens that each is a
maximal run of the line in its column, that each ends before the next one starts, and that what is
in none of them is blank. The scanner's tokens are such a list, `tokenizes_scan`, and there is no
other one: two runs that share a column are the same run (`RunAt.eq_of_covers`), so that the
tokens of such a list are all the runs of the line (`Tokenizes.mem_iff`), and their order is that
of the columns.

Which characters are blank is told by their kinds here, `isBlank_iff_mem`: some controls, and all
separators.
-/

set_option autoImplicit false

namespace StackLang

namespace Text

/-- The controls that are blank: the tab, the ends of lines and pages, and the next-line control. -/
def blankControls : List Char := ['\t', '\n', '\x0b', '\x0c', '\r', '\u0085']

/-- The separators: of words, in all widths, of lines, and of paragraphs. -/
def separators : List Char :=
  [' ', '\u00a0', '\u1680', '\u2000', '\u2001', '\u2002', '\u2003', '\u2004', '\u2005', '\u2006',
   '\u2007', '\u2008', '\u2009', '\u200a', '\u202f', '\u205f', '\u3000', '\u2028', '\u2029']

/-- The table holds the scalar values of the blank controls and the separators, and no others. -/
theorem isBlank_iff_mem {c : Char} : isBlank c ↔ c ∈ blankControls ++ separators := by
  have hvalues : ((blankControls ++ separators).map Char.toNat).Perm
      (blankRanges.flatMap fun r => List.range' r.1 (r.2 + 1 - r.1)) := by decide
  have hinjective : Function.Injective Char.toNat := fun _ _ => Char.toNat_inj.1
  rw [← List.mem_map_of_injective hinjective, hvalues.mem_iff, isBlank, List.any_eq_true,
    List.mem_flatMap]
  refine exists_congr fun r => and_congr_right fun _ => ?_
  rw [List.mem_range'_1, Bool.and_eq_true, decide_eq_true_eq, decide_eq_true_eq]
  omega

end Text

namespace Token

open Text (isBlank isBlank_iff_mem blankControls separators)

/-- A column lies in a token. -/
def Covers (t : Token) (column : Nat) : Prop :=
  t.column ≤ column ∧ column < t.column + t.text.toList.length

/-- A token ends before another one starts, with a character between them. -/
def EndsBefore (t u : Token) : Prop := t.column + t.text.toList.length < u.column

instance : Std.Irrefl EndsBefore where
  irrefl t h := by
    unfold EndsBefore at h
    omega

instance : Std.Antisymm EndsBefore where
  antisymm t u h h' := by
    unfold EndsBefore at h h'
    omega

/-- Tokens that are the maximal runs of a line. -/
structure Tokenizes (line : String) (tokens : List Token) : Prop where
  /-- Each token is a word that stands in its column, between blanks or the ends of the line. -/
  run : ∀ t ∈ tokens, RunAt line t.column t.text
  /-- Each token ends before those behind it start. -/
  ordered : tokens.Pairwise EndsBefore
  /-- A character that is in no token is blank. -/
  blank : ∀ i c, line.toList[i]? = some c → (∀ t ∈ tokens, ¬ t.Covers (i + 1)) → isBlank c

section Scan

variable {column : Nat} {cs : List Char} {t : Token}

/-- No token starts before the scanner does. -/
theorem le_column_of_mem_scanFrom (h : t ∈ scanFrom column cs) : column ≤ t.column := by
  obtain ⟨front, -, -, hcolumn, -, -⟩ := exists_split_of_mem_scanFrom h
  omega

/-- Behind the end of a word the next one does not start at once. -/
theorem lt_column_of_mem_scanFrom (hhead : ∀ c ∈ cs.head?, isBlank c)
    (h : t ∈ scanFrom column cs) : column < t.column := by
  cases cs with
  | nil => simp at h
  | cons c cs =>
    rw [scanFrom_blank column (hhead c rfl)] at h
    exact le_column_of_mem_scanFrom h

/-- Tokens come in the order of their columns, with a blank between them. -/
theorem pairwise_scanFrom (column : Nat) (cs : List Char) :
    (scanFrom column cs).Pairwise EndsBefore := by
  fun_induction scanFrom column cs with
  | case1 => exact .nil
  | case2 column c rest hc ih => exact ih
  | case3 column c rest hc tail ih =>
    refine List.pairwise_cons.2 ⟨fun u hu => ?_, ih⟩
    have hlt := lt_column_of_mem_scanFrom isBlank_of_head?_dropWhile hu
    simp only [EndsBefore, String.toList_ofList, List.length_cons]
    omega

/-- A character is blank or part of a token. -/
theorem isBlank_or_covers (column : Nat) {cs : List Char} {i : Nat} {c : Char}
    (h : cs[i]? = some c) : isBlank c ∨ ∃ t ∈ scanFrom column cs, t.Covers (column + i) := by
  fun_induction scanFrom column cs generalizing i with
  | case1 => simp at h
  | case2 column first rest hfirst ih =>
    cases i with
    | zero =>
      obtain rfl : first = c := by simpa using h
      exact .inl hfirst
    | succ i =>
      rw [Nat.add_comm i, ← Nat.add_assoc]
      exact ih (by simpa using h)
  | case3 column first rest hfirst tail =>
    rename_i ih
    by_cases hi : i < 1 + tail.length
    · refine .inr ⟨_, List.mem_cons_self, Nat.le_add_right _ _, ?_⟩
      simp only [String.toList_ofList, List.length_cons]
      omega
    · -- the character stands behind the first word
      have hsplit : first :: rest = (first :: tail) ++ rest.dropWhile (!isBlank ·) :=
        congrArg (first :: ·) List.takeWhile_append_dropWhile.symm
      have hbehind : (first :: tail).length ≤ i := by
        rw [List.length_cons]
        omega
      rw [hsplit, List.getElem?_append_right hbehind] at h
      have hcolumn : column + 1 + tail.length + (i - (first :: tail).length) = column + i := by
        rw [List.length_cons] at hbehind ⊢
        omega
      rcases ih h with hblank | ⟨t, ht, hcovers⟩
      · exact .inl hblank
      · exact .inr ⟨t, List.mem_cons_of_mem _ ht, hcolumn ▸ hcovers⟩

/-- The scanner's tokens are the maximal runs of the line. -/
theorem tokenizes_scan (line : String) : Tokenizes line (scan line) where
  run _ := runAt_of_mem_scan
  ordered := pairwise_scanFrom 1 line.toList
  blank i c hc hnone := by
    rcases isBlank_or_covers 1 hc with hblank | ⟨t, ht, hcovers⟩
    · exact hblank
    · exact absurd (Nat.add_comm 1 i ▸ hcovers) (hnone t ht)

end Scan

section Runs

variable {line : String} {t u : Token} {i k : Nat} {c : Char}

/-- No character of a run is blank. -/
theorem RunAt.not_isBlank (h : RunAt line t.column t.text) (hc : line.toList[i]? = some c)
    (hcovers : t.Covers (i + 1)) : isBlank c = false := by
  obtain ⟨front, back, hline, hcolumn, ⟨-, hword⟩, -, -⟩ := h
  obtain ⟨hstart, hstop⟩ := hcovers
  rw [hline, List.getElem?_append_right (by omega), List.getElem?_append_left (by omega)] at hc
  exact hword c (List.mem_of_getElem? hc)

/-- Where a token covers a column, the line has a character. -/
theorem RunAt.exists_getElem? (h : RunAt line t.column t.text) (hcovers : t.Covers (i + 1)) :
    ∃ c, line.toList[i]? = some c := by
  obtain ⟨front, back, hline, hcolumn, -, -, -⟩ := h
  obtain ⟨-, hstop⟩ := hcovers
  refine ⟨_, List.getElem?_eq_getElem ?_⟩
  rw [hline, List.length_append, List.length_append]
  omega

/-- The character in front of a run is blank. -/
theorem RunAt.isBlank_before (h : RunAt line t.column t.text) (hi : i + 2 = t.column)
    (hc : line.toList[i]? = some c) : isBlank c := by
  obtain ⟨front, back, hline, hcolumn, -, hfront, -⟩ := h
  have hlast : front.length - 1 = i := by omega
  rw [hline, List.getElem?_append_left (by omega), ← hlast, ← List.getLast?_eq_getElem?] at hc
  exact hfront c hc

/-- So is the character behind it. -/
theorem RunAt.isBlank_behind (h : RunAt line t.column t.text)
    (hi : i + 1 = t.column + t.text.toList.length) (hc : line.toList[i]? = some c) :
    isBlank c := by
  obtain ⟨front, back, hline, hcolumn, -, -, hback⟩ := h
  have hfirst : i - front.length - t.text.toList.length = 0 := by omega
  rw [hline, List.getElem?_append_right (by omega), List.getElem?_append_right (by omega), hfirst,
    ← List.head?_eq_getElem?] at hc
  exact hback c hc

/-- Of two runs that share a column neither starts before the other: there would be a blank in front
of the later one, inside of the earlier one. -/
theorem RunAt.start_le (ht : RunAt line t.column t.text) (hu : RunAt line u.column u.text)
    (htk : t.Covers k) (huk : u.Covers k) : u.column ≤ t.column := by
  by_contra hlt
  have hpos : 1 ≤ t.column := by
    obtain ⟨front, -, -, hcolumn, -⟩ := ht
    omega
  have hinside : t.Covers (u.column - 2 + 1) := by
    simp only [Covers] at htk huk ⊢
    omega
  obtain ⟨c, hc⟩ := ht.exists_getElem? hinside
  have hblank := hu.isBlank_before (by omega) hc
  simp [ht.not_isBlank hc hinside] at hblank

/-- And neither ends behind the other. -/
theorem RunAt.stop_le (ht : RunAt line t.column t.text) (hu : RunAt line u.column u.text)
    (htk : t.Covers k) (huk : u.Covers k) :
    t.column + t.text.toList.length ≤ u.column + u.text.toList.length := by
  by_contra hlt
  have hinside : t.Covers (u.column + u.text.toList.length - 1 + 1) := by
    simp only [Covers] at htk huk ⊢
    omega
  obtain ⟨c, hc⟩ := ht.exists_getElem? hinside
  have hblank := hu.isBlank_behind (by simp only [Covers] at huk; omega) hc
  simp [ht.not_isBlank hc hinside] at hblank

/-- Two runs that share a column are the same run. -/
theorem RunAt.eq_of_covers (ht : RunAt line t.column t.text) (hu : RunAt line u.column u.text)
    (htk : t.Covers k) (huk : u.Covers k) : t = u := by
  have hstart : t.column = u.column :=
    Nat.le_antisymm (hu.start_le ht huk htk) (ht.start_le hu htk huk)
  have hstop := Nat.le_antisymm (ht.stop_le hu htk huk) (hu.stop_le ht huk htk)
  obtain ⟨front, back, hline, hcolumn, -⟩ := ht
  obtain ⟨front', back', hline', hcolumn', -⟩ := hu
  obtain ⟨-, hrest⟩ := List.append_inj (hline.symm.trans hline') (by omega)
  obtain ⟨hword, -⟩ := List.append_inj hrest (by omega)
  have htext := String.toList_inj.1 hword
  obtain ⟨text, column⟩ := t
  exact congr (congrArg Token.mk htext) hstart

/-- A run covers the column in which it starts. -/
theorem RunAt.covers (h : RunAt line t.column t.text) : t.Covers t.column := by
  obtain ⟨-, -, -, -, ⟨hne, -⟩, -⟩ := h
  have hlength : 0 < t.text.toList.length := List.length_pos_of_ne_nil (by simpa using hne)
  exact ⟨Nat.le_refl _, by omega⟩

end Runs

variable {line : String} {tokens other : List Token}

/-- No run is left out. -/
theorem Tokenizes.mem_iff (h : Tokenizes line tokens) {t : Token} :
    t ∈ tokens ↔ RunAt line t.column t.text := by
  refine ⟨h.run t, fun hrun => ?_⟩
  obtain ⟨i, hi⟩ : ∃ i, i + 1 = t.column := by
    obtain ⟨front, -, -, hcolumn, -⟩ := hrun
    exact ⟨_, hcolumn⟩
  have hcovers : t.Covers (i + 1) := hi ▸ hrun.covers
  obtain ⟨c, hc⟩ := hrun.exists_getElem? hcovers
  have hword := hrun.not_isBlank hc hcovers
  by_contra hmem
  -- the first character of a run that is left out would be blank
  have hblank : isBlank c := by
    refine h.blank i c hc fun u hu hucovers => hmem ?_
    rwa [hrun.eq_of_covers (h.run u hu) hcovers hucovers]
  simp [hword] at hblank

/-- A line has one list of tokens. -/
theorem Tokenizes.unique (h : Tokenizes line tokens) (h' : Tokenizes line other) :
    tokens = other :=
  h.ordered.eq_of_mem_iff h'.ordered fun _ => h.mem_iff.trans h'.mem_iff.symm

/-- **Tokens are the maximal runs of a line.** The scanner's tokens, and no other list, are words in
their columns, in order and between blanks or the ends of the line, with nothing but blanks outside
of them; and words with one space between them are found again, whatever they are. The blanks are
some controls and all separators. -/
theorem scan_eq_iff_tokenizes :
    (∀ line tokens, scan line = tokens ↔ Tokenizes line tokens) ∧
    (∀ ws : List String, words (" ".intercalate ws) = ws ↔ ∀ word ∈ ws, IsWord word) ∧
    ∀ c, isBlank c ↔ c ∈ blankControls ++ separators := by
  refine ⟨fun line tokens => ?_, fun ws => ?_, fun c => isBlank_iff_mem⟩
  · constructor
    · rintro rfl
      exact tokenizes_scan line
    · exact (tokenizes_scan line).unique
  · constructor
    · intro h word hword
      rw [← h] at hword
      exact isWord_of_mem_words hword
    · exact words_intercalate

/-- Wide blanks, some in a row and at both ends of the line, and a space of no width, which belongs to
a word. -/
theorem scan_eq_iff_tokenizes_wide :
    let line := "\u2003Ωä\u3000DEF  \u200b5\t\n"
    let tokens : List Token := [⟨"Ωä", 2⟩, ⟨"DEF", 5⟩, ⟨"\u200b5", 10⟩]
    let ws := ["\u200b5", "DEF", "Ωä"]
    scan line = tokens ∧ Tokenizes line tokens ∧ (∀ word ∈ ws, IsWord word) ∧
      words (" ".intercalate ws) = ws ∧ isBlank '\u2003' := by
  intro line tokens ws
  obtain ⟨hscan, hwords, hblank⟩ := scan_eq_iff_tokenizes
  have htokens : scan line = tokens := by
    simp only [line, tokens]
    cbv
  have hws : ∀ word ∈ ws, IsWord word := by decide
  exact ⟨htokens, (hscan line tokens).1 htokens, hws, (hwords ws).2 hws,
    (hblank _).2 (by decide)⟩

end Token

end StackLang
