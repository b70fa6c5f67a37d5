import StackLang.Session.Program
import StackLang.Proofs.Grammar.Atom
import StackLang.Proofs.Words

/-!
# The text of a program

How the bytes of a program are cut into lines, which of its lines holds the count, and which words
are counts, each given by rules. The lines that the splitter finds are those of the rules,
`splitsInto_iff`, and so are the count and the faults of an opening, `opening_iff`. A line holds the
text of which it is the UTF-8 bytes, and no other (`decode?_eq_some_iff`). What is read from the
start of a stream does not change when more follows: `lines_append`.
-/

set_option autoImplicit false

namespace StackLang

namespace Text

open Grammar (Digits digits_iff)

section Lines

/-- A line before its line feed, less one carriage return at the end. -/
def chomp (line : List UInt8) : List UInt8 :=
  if line.getLast? = some carriageReturn then line.dropLast else line

/-- A stream and its lines. Only the last one may lack a line feed, and it is not empty then. -/
inductive SplitsInto : List UInt8 → List (List UInt8) → Prop
  | done : SplitsInto [] []
  | last {line : List UInt8} (hne : line ≠ []) (hline : lineFeed ∉ line) : SplitsInto line [line]
  | line {line stream : List UInt8} {ls : List (List UInt8)} (hline : lineFeed ∉ line)
      (h : SplitsInto stream ls) : SplitsInto (line ++ lineFeed :: stream) (chomp line :: ls)

/-- Dropping a carriage return from the front of a line in reverse is dropping it from its end. -/
theorem reverse_dropReturn_reverse (line : List UInt8) :
    (dropReturn line.reverse).reverse = chomp line := by
  rcases List.eq_nil_or_concat line with rfl | ⟨front, b, rfl⟩
  · rfl
  · unfold chomp
    rw [List.concat_eq_append, List.reverse_append, List.reverse_singleton, List.singleton_append,
      List.getLast?_concat, List.dropLast_concat]
    by_cases hb : b = carriageReturn
    · simp [dropReturn, hb]
    · simp [dropReturn, hb]

/-- Bytes of an unfinished line are kept until its end. -/
theorem linesAfter_append {line : List UInt8} (h : lineFeed ∉ line) (pending stream : List UInt8) :
    linesAfter pending (line ++ stream) = linesAfter (line.reverse ++ pending) stream := by
  induction line generalizing pending with
  | nil => rfl
  | cons b line ih =>
    have hb : b ≠ lineFeed := (List.ne_of_not_mem_cons h).symm
    have hline : lineFeed ∉ line := List.not_mem_of_not_mem_cons h
    rw [List.cons_append, linesAfter, if_neg hb, ih hline, List.reverse_cons, List.append_assoc,
      List.singleton_append]

/-- What no line feed ends is the last line, if it is not empty. -/
theorem lines_unended {line : List UInt8} (hne : line ≠ []) (h : lineFeed ∉ line) :
    lines line = [line] := by
  have hread := linesAfter_append h [] []
  rw [List.append_nil, List.append_nil] at hread
  obtain ⟨b, pending, hpending⟩ := List.exists_cons_of_ne_nil (List.reverse_ne_nil_iff.2 hne)
  rw [lines, hread, hpending, linesAfter, ← hpending, List.reverse_reverse]

/-- The first line feed ends the first line. -/
theorem lines_line {line : List UInt8} (h : lineFeed ∉ line) (stream : List UInt8) :
    lines (line ++ lineFeed :: stream) = chomp line :: lines stream := by
  rw [lines, linesAfter_append h, List.append_nil]
  have hend : linesAfter line.reverse (lineFeed :: stream) =
      (dropReturn line.reverse).reverse :: linesAfter [] stream := by
    rw [linesAfter, if_pos rfl]
  rw [hend, reverse_dropReturn_reverse, lines]

/-- Streams have a first line and others after it, or no line feed at all. -/
@[elab_as_elim]
theorem line_induction {P : List UInt8 → Prop} (unended : ∀ line, lineFeed ∉ line → P line)
    (line : ∀ line stream, lineFeed ∉ line → P stream → P (line ++ lineFeed :: stream))
    (stream : List UInt8) : P stream := by
  by_cases hfeed : lineFeed ∈ stream
  · obtain ⟨first, rest, hstream, hfirst⟩ := List.eq_append_cons_of_mem hfeed
    have hshorter : rest.length < stream.length := by
      rw [hstream, List.length_append, List.length_cons]
      omega
    rw [hstream]
    exact line first rest hfirst (line_induction unended line rest)
  · exact unended stream hfeed
termination_by stream.length

/-- The lines of a stream are a way to split it by the rules. -/
theorem splitsInto_lines (stream : List UInt8) : SplitsInto stream (lines stream) := by
  induction stream using line_induction with
  | unended line hline =>
    by_cases hne : line = []
    · subst hne
      exact .done
    · rw [lines_unended hne hline]
      exact .last hne hline
  | line line stream hline ih =>
    rw [lines_line hline]
    exact .line hline ih

/-- And there is no other way. -/
theorem splitsInto_iff {stream : List UInt8} {ls : List (List UInt8)} :
    SplitsInto stream ls ↔ lines stream = ls := by
  constructor
  · intro h
    induction h with
    | done => rfl
    | last hne hline => exact lines_unended hne hline
    | line hline _ ih => rw [lines_line hline, ih]
  · rintro rfl
    exact splitsInto_lines stream

/-- Lines that have been ended stay the same whatever follows. -/
theorem lines_append (stream more : List UInt8) :
    lines (stream ++ lineFeed :: more) = lines (stream ++ [lineFeed]) ++ lines more := by
  induction stream using line_induction with
  | unended line hline =>
    have hone := lines_line hline []
    rw [lines_line hline, hone]
    rfl
  | line line stream hline ih =>
    rw [List.append_assoc, List.append_assoc, List.cons_append, List.cons_append,
      lines_line hline, lines_line hline, ih, List.cons_append]

end Lines

/-- A line that holds a text is its bytes. -/
theorem decode?_eq_some_iff {line : List UInt8} {text : String} :
    decode? line = some text ↔ text.toByteArray.data.toList = line := by
  unfold decode? String.fromUTF8?
  constructor
  · intro h
    split at h
    · obtain rfl := Option.some.inj h
      rfl
    · simp at h
  · rintro rfl
    have hvalid : (ByteArray.mk text.toByteArray.data.toList.toArray).IsValidUTF8 := by
      simpa using text.isValidUTF8
    rw [dif_pos hvalid]
    rfl

section Counters

/-- A count and its value: digits, with or without a plus sign. -/
inductive Counter : List Char → Nat → Prop
  | unsigned {ds : List Char} {n : Nat} (h : Digits ds n) : Counter ds n
  | signed {ds : List Char} {n : Nat} (h : Digits ds n) : Counter ('+' :: ds) n

/-- More digits do not make a number smaller. -/
theorem le_ofDigitChars (ds : List Char) (n : Nat) : n ≤ Nat.ofDigitChars 10 ds n := by
  induction ds generalizing n with
  | nil => exact Nat.le_refl n
  | cons c ds ih =>
    rw [Nat.ofDigitChars_cons]
    have hnext := ih (10 * n + (c.toNat - '0'.toNat))
    omega

/-- Stopping at the first digit that leads out of bounds is right, because no later one leads
back. -/
theorem readCounterFrom_eq_ok_iff {size n value : Nat} (hn : n < size) (ds : List Char) :
    readCounterFrom size n ds = .ok value ↔
      ds.all Char.isDigit ∧ Nat.ofDigitChars 10 ds n = value ∧ value < size := by
  induction ds generalizing n with
  | nil =>
    rw [readCounterFrom, Except.ok.injEq]
    constructor
    · rintro rfl
      exact ⟨rfl, rfl, hn⟩
    · exact fun h => h.2.1
  | cons c ds ih =>
    have hcons : Nat.ofDigitChars 10 (c :: ds) n =
        Nat.ofDigitChars 10 ds (Nat.ofDigitChars 10 [c] n) := by
      rw [Nat.ofDigitChars_cons, Nat.ofDigitChars_cons, Nat.ofDigitChars_nil]
    rw [readCounterFrom, hcons, List.all_cons, Bool.and_eq_true, and_assoc]
    by_cases hc : c.isDigit
    · by_cases hnext : Nat.ofDigitChars 10 [c] n < size
      · rw [if_pos hc, if_pos hnext, ih hnext, and_iff_right hc]
      · rw [if_pos hc, if_neg hnext]
        have hle := le_ofDigitChars ds (Nat.ofDigitChars 10 [c] n)
        constructor
        · intro h
          simp at h
        · rintro ⟨-, -, hvalue, hsize⟩
          omega
    · rw [if_neg hc]
      simp [hc]

/-- Digits are read as a counter exactly if they write it and it is in the range. -/
theorem readCounterFrom_zero_eq_ok_iff {size value : Nat} (hsize : 0 < size) {ds : List Char}
    (hne : ds ≠ []) : readCounterFrom size 0 ds = .ok value ↔ Digits ds value ∧ value < size := by
  rw [readCounterFrom_eq_ok_iff hsize, digits_iff, readDigits?, digitsValue]
  by_cases hall : ds.all Char.isDigit
  · rw [if_pos ⟨hne, hall⟩, Option.some.injEq, and_iff_right hall]
  · rw [if_neg (fun h => hall h.2)]
    simp [hall]

/-- Without digits nothing is written. -/
theorem not_digits_nil (n : Nat) : ¬ Digits [] n := by
  intro h
  have hread := digits_iff.1 h
  simp [readDigits?] at hread

/-- And a plus is no digit. -/
theorem not_digits_plus (ds : List Char) (n : Nat) : ¬ Digits ('+' :: ds) n := by
  intro h
  have hread := digits_iff.1 h
  simp [readDigits?] at hread

/-- A counter is accepted exactly if its value is in bounds. -/
theorem readCounter_eq_ok_iff {size value : Nat} (hsize : 0 < size) (cs : List Char) :
    readCounter size cs = .ok value ↔ Counter cs value ∧ value < size := by
  by_cases hsign : ∃ ds, cs = '+' :: ds
  · obtain ⟨ds, rfl⟩ := hsign
    have hcounter : Counter ('+' :: ds) value ↔ Digits ds value := by
      constructor
      · intro h
        cases h with
        | unsigned h => exact absurd h (not_digits_plus ds value)
        | signed h => exact h
      · exact .signed
    rw [hcounter]
    cases ds with
    | nil => simp [readCounter, not_digits_nil]
    | cons c ds => exact readCounterFrom_zero_eq_ok_iff hsize (List.cons_ne_nil c ds)
  · have hcounter : Counter cs value ↔ Digits cs value := by
      constructor
      · intro h
        cases h with
        | unsigned h => exact h
        | signed h => exact absurd ⟨_, rfl⟩ hsign
      · exact .unsigned
    rw [hcounter]
    cases cs with
    | nil => simp [readCounter, not_digits_nil]
    | cons c ds =>
      have hread : readCounter size (c :: ds) = readCounterFrom size 0 (c :: ds) := by
        unfold readCounter
        split
        · rename_i h
          simp at h
        · exact absurd ⟨_, ‹_›⟩ hsign
        · exact absurd ⟨_, ‹_›⟩ hsign
        · rfl
      rw [hread]
      exact readCounterFrom_zero_eq_ok_iff hsize (List.cons_ne_nil c ds)

end Counters

end Text

namespace Session

open Text (Counter decode? lines readCounter readCounter_eq_ok_iff)
open Token (IsBlankLine StartsWith head?_words_eq_some_iff words words_eq_nil_iff)

/-- A line without words. -/
def IsBlank (line : List UInt8) : Prop := ∃ text, decode? line = some text ∧ IsBlankLine text

/-- The lines of a program, and how they open: with a count, which leaves the lines after it, or
with an error. Blank lines come before either. -/
inductive Opening : List (List UInt8) → Except SessionError (Nat × List (List UInt8)) → Prop
  | missing {blanks : List (List UInt8)} (hblanks : ∀ line ∈ blanks, IsBlank line) :
      Opening blanks (.error .missingCount)
  | unreadable {blanks rest : List (List UInt8)} {line : List UInt8}
      (hblanks : ∀ line ∈ blanks, IsBlank line) (hline : decode? line = none) :
      Opening (blanks ++ line :: rest) (.error (.io .invalidText))
  | count {blanks rest : List (List UInt8)} {line : List UInt8} {text word : String} {n : Nat}
      (hblanks : ∀ line ∈ blanks, IsBlank line) (hline : decode? line = some text)
      (hword : StartsWith text word) (hcount : Counter word.toList n) (hfits : n < UInt64.size) :
      Opening (blanks ++ line :: rest) (.ok (n, rest))
  | invalid {blanks rest : List (List UInt8)} {line : List UInt8} {text word : String}
      (hblanks : ∀ line ∈ blanks, IsBlank line) (hline : decode? line = some text)
      (hword : StartsWith text word) (hcount : ∀ n, Counter word.toList n → ¬ n < UInt64.size) :
      Opening (blanks ++ line :: rest) (.error (.invalidCount word))

/-- Blank lines are skipped. -/
theorem readCount_blanks_append {blanks : List (List UInt8)}
    (h : ∀ line ∈ blanks, IsBlank line) (ls : List (List UInt8)) :
    readCount (blanks ++ ls) = readCount ls := by
  induction blanks with
  | nil => rfl
  | cons line blanks ih =>
    obtain ⟨text, hline, hblank⟩ := h line List.mem_cons_self
    have hblanks : ∀ line ∈ blanks, IsBlank line := fun l hl => h l (List.mem_cons_of_mem _ hl)
    simp only [List.cons_append, readCount, hline, words_eq_nil_iff.2 hblank, ih hblanks]

/-- The first word of a line is read as the count. -/
theorem readCount_word {line : List UInt8} {text word : String} (hline : decode? line = some text)
    (hword : StartsWith text word) (rest : List (List UInt8)) :
    readCount (line :: rest) =
      ((readCounter UInt64.size word.toList).map (·, rest)).mapError
        fun _ => .invalidCount word := by
  obtain ⟨more, hwords⟩ := List.head?_eq_some_iff.1 (head?_words_eq_some_iff.2 hword)
  simp only [readCount, hline, hwords]
  cases readCounter UInt64.size word.toList <;> rfl

/-- The reader of openings meets their rules. -/
theorem readCount_eq_of_opening {ls : List (List UInt8)}
    {opening : Except SessionError (Nat × List (List UInt8))} (h : Opening ls opening) :
    readCount ls = opening := by
  have hpos : 0 < UInt64.size := by decide
  cases h with
  | missing hblanks =>
    have hskip := readCount_blanks_append hblanks []
    rwa [List.append_nil] at hskip
  | @unreadable _ rest line hblanks hline =>
    rw [readCount_blanks_append hblanks, readCount, hline]
  | count hblanks hline hword hcount hfits =>
    rw [readCount_blanks_append hblanks, readCount_word hline hword,
      (readCounter_eq_ok_iff hpos _).2 ⟨hcount, hfits⟩]
    rfl
  | @invalid _ rest line text word hblanks hline hword hcount =>
    rw [readCount_blanks_append hblanks, readCount_word hline hword]
    cases hread : readCounter UInt64.size word.toList with
    | error fault => rfl
    | ok n =>
      obtain ⟨hn, hfits⟩ := (readCounter_eq_ok_iff hpos _).1 hread
      exact absurd hfits (hcount n hn)

/-- One more blank line in front changes nothing. -/
theorem Opening.blank {line : List UInt8} {ls : List (List UInt8)}
    {opening : Except SessionError (Nat × List (List UInt8))} (hline : IsBlank line)
    (h : Opening ls opening) : Opening (line :: ls) opening := by
  have hcons {blanks : List (List UInt8)} (hblanks : ∀ l ∈ blanks, IsBlank l) :
      ∀ l ∈ line :: blanks, IsBlank l := by
    intro l hl
    rcases List.mem_cons.1 hl with rfl | hl
    · exact hline
    · exact hblanks l hl
  cases h with
  | missing hblanks => exact .missing (hcons hblanks)
  | unreadable hblanks hl => exact .unreadable (hcons hblanks) hl
  | count hblanks hl hword hcount hfits => exact .count (hcons hblanks) hl hword hcount hfits
  | invalid hblanks hl hword hcount => exact .invalid (hcons hblanks) hl hword hcount

/-- Every text has the opening that is read of it. -/
theorem opening_readCount (ls : List (List UInt8)) : Opening ls (readCount ls) := by
  have hpos : 0 < UInt64.size := by decide
  have hnone : ∀ line ∈ ([] : List (List UInt8)), IsBlank line := by simp
  induction ls with
  | nil => exact .missing hnone
  | cons line rest ih =>
    cases hline : decode? line with
    | none =>
      rw [readCount, hline]
      exact .unreadable hnone hline
    | some text =>
      cases hwords : words text with
      | nil =>
        have hskip : readCount (line :: rest) = readCount rest := by
          simp only [readCount, hline, hwords]
        rw [hskip]
        exact ih.blank ⟨text, hline, words_eq_nil_iff.1 hwords⟩
      | cons word more =>
        have hword : StartsWith text word := by
          rw [← head?_words_eq_some_iff, hwords]
          rfl
        rw [readCount_word hline hword]
        cases hread : readCounter UInt64.size word.toList with
        | ok n =>
          obtain ⟨hcount, hfits⟩ := (readCounter_eq_ok_iff hpos _).1 hread
          exact .count hnone hline hword hcount hfits
        | error fault =>
          refine .invalid hnone hline hword ?_
          intro n hcount hfits
          have hok := (readCounter_eq_ok_iff hpos _).2 ⟨hcount, hfits⟩
          rw [hread] at hok
          simp at hok

/-- The reader finds the opening that the rules give. -/
theorem opening_iff {ls : List (List UInt8)}
    {opening : Except SessionError (Nat × List (List UInt8))} :
    Opening ls opening ↔ readCount ls = opening := by
  constructor
  · exact readCount_eq_of_opening
  · rintro rfl
    exact opening_readCount ls

end Session

end StackLang
