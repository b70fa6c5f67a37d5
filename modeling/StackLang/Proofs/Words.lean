import StackLang.Token

/-!
# Lines made of words

A text is a word if it is not empty and holds no blank. The scanner finds words only, and a
line that is made of words with one space between them is scanned back into these words:
`words_intercalate`. Two lines with a space between them have the words of both,
`words_append_space`. A line has no word if it is blank, and a first word otherwise, which is where
the line is blank no more: `words_eq_nil_iff` and `head?_words_eq_some_iff`. Columns play no part
in these statements, but they do where a line is taken apart at a blank, `scanFrom_append_blank`.
-/

set_option autoImplicit false

namespace StackLang.Token

open Text (isBlank)

/-- A text that can stand as one word of a line. -/
def IsWord (word : String) : Prop :=
  word ≠ "" ∧ ∀ c ∈ word.toList, isBlank c = false

instance (word : String) : Decidable (IsWord word) :=
  decidable_of_iff (word ≠ "" ∧ word.toList.all (!isBlank ·)) (by simp [IsWord])

/-- The scanner finds words. -/
theorem isWord_of_mem_scanFrom {column : Nat} {cs : List Char} {t : Token}
    (ht : t ∈ scanFrom column cs) : IsWord t.text := by
  fun_induction scanFrom column cs with
  | case1 => simp at ht
  | case2 column c rest hc ih => exact ih ht
  | case3 column c rest hc tail ih =>
    rcases List.mem_cons.1 ht with rfl | ht
    · constructor
      · simp
      · intro a ha
        rw [String.toList_ofList] at ha
        rcases List.mem_cons.1 ha with rfl | ha
        · simpa using hc
        · have hall : tail.all (!isBlank ·) := List.all_takeWhile
          simpa using List.all_eq_true.1 hall a ha
    · exact ih ht

/-- The words of a line are words. -/
theorem isWord_of_mem_words {line word : String} (h : word ∈ words line) : IsWord word := by
  obtain ⟨t, ht, rfl⟩ := List.mem_map.1 h
  exact isWord_of_mem_scanFrom ht

/-- A word in front of the end of a line, or of a blank, is scanned as one token. -/
theorem scanFrom_word_append {word : String} (hw : IsWord word) (column : Nat)
    {rest : List Char} (hrest : ∀ c ∈ rest.head?, isBlank c) :
    scanFrom column (word.toList ++ rest) =
      ⟨word, column⟩ :: scanFrom (column + word.toList.length) rest := by
  obtain ⟨hne, hblank⟩ := hw
  obtain ⟨c, cs, hcs⟩ : ∃ c cs, word.toList = c :: cs := by
    apply List.exists_cons_of_ne_nil
    simpa using hne
  rw [hcs] at hblank ⊢
  have hc : ¬ isBlank c := by simp [hblank c List.mem_cons_self]
  have hall : ∀ a ∈ cs, (!isBlank a) = true := by
    intro a ha
    simp [hblank a (List.mem_cons_of_mem _ ha)]
  -- the word ends where the rest begins
  have hstop : rest.takeWhile (!isBlank ·) = [] ∧ rest.dropWhile (!isBlank ·) = rest := by
    cases rest with
    | nil => simp
    | cons b rest => simp [hrest b (by simp)]
  have htake : (cs ++ rest).takeWhile (!isBlank ·) = cs := by
    rw [List.takeWhile_append_of_pos hall, hstop.1, List.append_nil]
  have hdrop : (cs ++ rest).dropWhile (!isBlank ·) = rest := by
    rw [List.dropWhile_append_of_pos hall, hstop.2]
  rw [List.cons_append, scanFrom_word column hc, htake, hdrop, ← hcs, String.ofList_toList]
  have hcolumn : column + 1 + cs.length = column + word.toList.length := by
    rw [hcs, List.length_cons]
    omega
  rw [hcolumn]

/-- **Words are found again.** Words with a space between them are what the scanner finds. -/
theorem map_text_scanFrom_intercalate (column : Nat) {ws : List String}
    (h : ∀ word ∈ ws, IsWord word) :
    (scanFrom column (" ".intercalate ws).toList).map text = ws := by
  induction ws generalizing column with
  | nil => simp
  | cons word ws ih =>
    have hword := h word List.mem_cons_self
    have hws : ∀ w ∈ ws, IsWord w := fun w hw => h w (List.mem_cons_of_mem _ hw)
    cases ws with
    | nil =>
      have hone := @scanFrom_word_append word hword column [] (by simp)
      rw [List.append_nil] at hone
      simp [hone]
    | cons next ws =>
      have hspace : isBlank ' ' := by decide
      rw [String.intercalate_cons_cons, String.toList_append, String.toList_append,
        List.append_assoc, scanFrom_word_append hword column (by simpa using hspace)]
      have hskip := scanFrom_blank (column + word.toList.length) hspace
        (" ".intercalate (next :: ws)).toList
      have hsep : " ".toList = [' '] := by decide
      rw [hsep, List.singleton_append, hskip, List.map_cons, ih _ hws]

/-- Words with one space between them are the words of the line they make. -/
theorem words_intercalate {ws : List String} (h : ∀ word ∈ ws, IsWord word) :
    words (" ".intercalate ws) = ws :=
  map_text_scanFrom_intercalate 1 h

/-- The words do not depend on the column at which they start. -/
theorem map_text_scanFrom (column other : Nat) (cs : List Char) :
    (scanFrom column cs).map text = (scanFrom other cs).map text := by
  fun_induction scanFrom column cs generalizing other with
  | case1 => rw [scanFrom_nil]
  | case2 column c rest hc ih => rw [scanFrom_blank other hc, ih]
  | case3 column c rest hc tail ih =>
    rw [scanFrom_word other hc, List.map_cons, List.map_cons, ih]

/-- A blank ends the word in front of it, whatever comes after. -/
theorem takeWhile_dropWhile_append_blank {b : Char} (hb : isBlank b) (cs after : List Char) :
    (cs ++ b :: after).takeWhile (!isBlank ·) = cs.takeWhile (!isBlank ·) ∧
      (cs ++ b :: after).dropWhile (!isBlank ·) = cs.dropWhile (!isBlank ·) ++ b :: after := by
  induction cs with
  | nil => simp [hb]
  | cons c cs ih =>
    by_cases hc : isBlank c
    · simp [hc]
    · simpa [hc] using ih

/-- A line with a blank in it is scanned as what stands before the blank, and then as what stands
after it, in the columns there. -/
theorem scanFrom_append_blank {b : Char} (hb : isBlank b) (column : Nat) (cs after : List Char) :
    scanFrom column (cs ++ b :: after) =
      scanFrom column cs ++ scanFrom (column + cs.length + 1) after := by
  fun_induction scanFrom column cs with
  | case1 column => rw [List.nil_append, scanFrom_blank column hb, List.nil_append, List.length_nil,
      Nat.add_zero]
  | case2 column c rest hc ih =>
    have hlength : column + 1 + rest.length = column + (c :: rest).length := by
      rw [List.length_cons]
      omega
    rw [List.cons_append, scanFrom_blank column hc, ih, hlength]
  | case3 column c rest hc tail ih =>
    obtain ⟨htake, hdrop⟩ := takeWhile_dropWhile_append_blank hb rest after
    have hlength : column + 1 + tail.length + (rest.dropWhile (!isBlank ·)).length =
        column + (c :: rest).length := by
      have hparts : (tail ++ rest.dropWhile (!isBlank ·)).length = rest.length :=
        congrArg List.length List.takeWhile_append_dropWhile
      rw [List.length_append] at hparts
      rw [List.length_cons]
      omega
    rw [List.cons_append, scanFrom_word column hc, htake, hdrop, ih, hlength, List.cons_append]

/-- A blank splits a text: no word goes across it. -/
theorem map_text_scanFrom_append_blank {b : Char} (hb : isBlank b) (column : Nat)
    (cs after : List Char) :
    (scanFrom column (cs ++ b :: after)).map text =
      (scanFrom column cs).map text ++ (scanFrom column after).map text := by
  rw [scanFrom_append_blank hb, List.map_append, map_text_scanFrom _ column after]

/-- The words of two lines with a space between them are those of the first line and then those of
the second one. -/
theorem words_append_space (first second : String) :
    words (first ++ " " ++ second) = words first ++ words second := by
  have hspace : isBlank ' ' := by decide
  have hsep : " ".toList = [' '] := by decide
  rw [words, scan, String.toList_append, String.toList_append, hsep, List.append_assoc,
    List.singleton_append, map_text_scanFrom_append_blank hspace]
  rfl

/-- A line of blanks only. -/
def IsBlankLine (line : String) : Prop := ∀ c ∈ line.toList, isBlank c

/-- A line that starts with a word, blanks before it aside. -/
def StartsWith (line word : String) : Prop :=
  ∃ before after, line.toList = before ++ (word.toList ++ after) ∧
    (∀ c ∈ before, isBlank c) ∧ IsWord word ∧ ∀ c ∈ after.head?, isBlank c

/-- Nothing is found in blanks, and in nothing else. -/
theorem scanFrom_eq_nil_iff {column : Nat} {cs : List Char} :
    scanFrom column cs = [] ↔ ∀ c ∈ cs, isBlank c := by
  fun_induction scanFrom column cs with
  | case1 => simp
  | case2 column c rest hc ih => simp [ih, hc]
  | case3 column c rest hc tail ih => simp [hc]

/-- Blanks in front of a text move its columns. -/
theorem scanFrom_blanks_append {before : List Char} (h : ∀ c ∈ before, isBlank c) (column : Nat)
    (cs : List Char) : scanFrom column (before ++ cs) = scanFrom (column + before.length) cs := by
  induction before generalizing column with
  | nil => rfl
  | cons c before ih =>
    have hc := h c List.mem_cons_self
    have hbefore : ∀ a ∈ before, isBlank a := fun a ha => h a (List.mem_cons_of_mem _ ha)
    rw [List.cons_append, scanFrom_blank column hc, ih hbefore, List.length_cons,
      Nat.add_assoc, Nat.add_comm 1]

/-- Where a word ends, a blank stands or nothing. -/
theorem isBlank_of_head?_dropWhile {cs : List Char} :
    ∀ c ∈ (cs.dropWhile (!isBlank ·)).head?, isBlank c := by
  intro c hc
  have hstop := List.head?_dropWhile_not (!isBlank ·) cs
  rw [Option.mem_def.1 hc] at hstop
  simpa using hstop

/-- A token that is scanned first is a word with nothing but blanks before it. -/
theorem exists_append_of_scanFrom {column : Nat} {cs : List Char} {t : Token}
    {tokens : List Token} (h : scanFrom column cs = t :: tokens) :
    ∃ before after, cs = before ++ (t.text.toList ++ after) ∧ (∀ c ∈ before, isBlank c) ∧
      ∀ c ∈ after.head?, isBlank c := by
  fun_induction scanFrom column cs with
  | case1 => simp at h
  | case2 column c rest hc ih =>
    obtain ⟨before, after, rfl, hbefore, hafter⟩ := ih h
    refine ⟨c :: before, after, rfl, ?_, hafter⟩
    intro a ha
    rcases List.mem_cons.1 ha with rfl | ha
    · exact hc
    · exact hbefore a ha
  | case3 column c rest hc tail ih =>
    obtain ⟨rfl, -⟩ := List.cons.inj h
    refine ⟨[], rest.dropWhile (!isBlank ·), ?_, by simp, isBlank_of_head?_dropWhile⟩
    rw [String.toList_ofList, List.nil_append, List.cons_append]
    exact congrArg (c :: ·) List.takeWhile_append_dropWhile.symm

/-- A line without words is blank. -/
theorem words_eq_nil_iff {line : String} : words line = [] ↔ IsBlankLine line := by
  rw [words, List.map_eq_nil_iff, scan, scanFrom_eq_nil_iff, IsBlankLine]

/-- The first word of a line is the word that it starts with, blanks apart. -/
theorem head?_words_eq_some_iff {line word : String} :
    (words line).head? = some word ↔ StartsWith line word := by
  constructor
  · intro h
    have hmem : word ∈ words line := List.mem_of_mem_head? h
    cases hscan : scan line with
    | nil => simp [words, hscan] at h
    | cons t tokens =>
      obtain rfl : t.text = word := by simpa [words, hscan] using h
      obtain ⟨before, after, hline, hbefore, hafter⟩ := exists_append_of_scanFrom hscan
      exact ⟨before, after, hline, hbefore, isWord_of_mem_words hmem, hafter⟩
  · rintro ⟨before, after, hline, hbefore, hword, hafter⟩
    rw [words, scan, hline, scanFrom_blanks_append hbefore, scanFrom_word_append hword _ hafter]
    rfl

end StackLang.Token
