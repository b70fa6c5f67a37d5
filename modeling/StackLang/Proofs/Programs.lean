import StackLang.Proofs.Histories
import StackLang.Proofs.ProgramText
import StackLang.Proofs.Runs
import Mathlib

/-!
# Programs as sequences of lines

A program runs the lines that it counts as if they were handed to the session one by one, up to
the first that fails (`runLines_eq_runTexts`). Lines are read as text one by one, too: a line that
holds no text stops the program when its turn comes, and no line after the counted ones
is looked at. Nothing but the program itself flushes the sink (`flushing_runTexts`).

`FoldsLines` says what a program comes to, given its lines and its opening by the rules of the
format, and `runProgram_folds_lines` that every program of every session comes to it.
-/

set_option autoImplicit false

namespace StackLang

/-- What is on record of the flushes of a sink, and whether it can be flushed. -/
def Sink.flushing (s : Sink) : List String × Bool := (s.flushes, s.flushFails)

/-- A write takes no part in flushing. -/
theorem Sink.flushing_write (s : Sink) (text : String) :
    (s.write text).1.flushing = s.flushing := by
  cases hroom : s.room with
  | none =>
    rw [write_of_room_none hroom]
    rfl
  | some room =>
    by_cases hfit : text.length ≤ room
    · rw [write_of_length_le hroom hfit]
      rfl
    · rw [write_of_lt_length hroom (Nat.lt_of_not_le hfit)]
      rfl

variable {σ : Type}

/-- A run writes at most. -/
theorem Machine.flushing_run (host : Host σ) (functions : Dictionary) (m : Machine σ)
    (code : Code) : (m.run host functions code).1.sink.flushing = m.sink.flushing := by
  refine sink_run_keeps (P := fun sink => sink.flushing = m.sink.flushing) ?_ host functions m code
    rfl
  intro sink v h
  rw [Sink.flushing_write, h]

namespace Session

open Text (SplitsInto decode? lineFeed lines lines_append splitsInto_iff)

/-- Runs lines in order, up to the first one that fails. -/
def runTexts (host : Host σ) (s : Session σ) :
    List String → Session σ × Except SessionError Unit
  | [] => (s, .ok ())
  | text :: texts =>
    match s.runLine host text with
    | (next, .ok ()) => next.runTexts host texts
    | (next, .error e) => (next, .error e)

/-- The texts of lines, up to the first line that holds none. -/
def readable : List (List UInt8) → List String
  | [] => []
  | line :: ls =>
    match decode? line with
    | some text => text :: readable ls
    | none => []

/-- The texts of the lines that an opening counts. -/
def countedTexts : Except SessionError (Nat × List (List UInt8)) → List String
  | .ok (count, rest) => readable (rest.take count)
  | .error _ => []

/-- What counted lines lack when all that hold a text have run. Of the `expected` lines `read`
stand before these. -/
def shortage (expected read : Nat) (wanted : List (List UInt8)) : Except SessionError Unit :=
  if (readable wanted).length < wanted.length then .error (.io .invalidText)
  else if read + wanted.length < expected then
    .error (.missingLines expected (read + wanted.length))
  else .ok ()

/-- The session once its sink has been flushed. -/
def flushed (s : Session σ) : Session σ :=
  { s with machine := { s.machine with sink := s.machine.sink.flush.1 } }

section Lines

variable {host : Host σ} {s next : Session σ} {text : String}

/-- Every line counts, whatever it ends in. -/
theorem linesRun_runLine (host : Host σ) (s : Session σ) (line : String) :
    (s.runLine host line).1.linesRun = s.linesRun + 1 := by
  unfold runLine
  rcases s.reader.readLine line with ⟨reader, e | code⟩ <;> rfl

/-- No line flushes the sink. -/
theorem flushing_runLine (host : Host σ) (s : Session σ) (line : String) :
    (s.runLine host line).1.machine.sink.flushing = s.machine.sink.flushing := by
  unfold runLine
  rcases s.reader.readLine line with ⟨reader, e | code⟩
  · rfl
  · exact Machine.flushing_run host _ _ code

/-- After a line that succeeds, the other ones run. -/
theorem runTexts_of_ok (h : s.runLine host text = (next, .ok ())) (texts : List String) :
    s.runTexts host (text :: texts) = next.runTexts host texts := by
  rw [runTexts, h]

/-- After a line that fails, none does. -/
theorem runTexts_of_error {e : SessionError} (h : s.runLine host text = (next, .error e))
    (texts : List String) : s.runTexts host (text :: texts) = (next, .error e) := by
  rw [runTexts, h]

/-- One line is run as lines are. -/
theorem runTexts_singleton (host : Host σ) (s : Session σ) (text : String) :
    s.runTexts host [text] = s.runLine host text := by
  rcases hrun : s.runLine host text with ⟨next, e | ⟨⟩⟩
  · rw [runTexts_of_error hrun]
  · rw [runTexts_of_ok hrun]
    rfl

/-- What every line keeps, lines keep. -/
theorem runTexts_keeps {P : Session σ → Prop}
    (hline : ∀ s text, P s → P (s.runLine host text).1) (texts : List String) (s : Session σ)
    (h : P s) : P (s.runTexts host texts).1 := by
  induction texts generalizing s with
  | nil => exact h
  | cons text texts ih =>
    have hnext := hline s text h
    rcases hrun : s.runLine host text with ⟨next, e | ⟨⟩⟩
    · rw [hrun] at hnext
      rw [runTexts_of_error hrun]
      exact hnext
    · rw [hrun] at hnext
      rw [runTexts_of_ok hrun]
      exact ih next hnext

/-- No lines flush the sink. -/
theorem flushing_runTexts (host : Host σ) (s : Session σ) (texts : List String) :
    (s.runTexts host texts).1.machine.sink.flushing = s.machine.sink.flushing := by
  refine runTexts_keeps (P := fun next => next.machine.sink.flushing = s.machine.sink.flushing) ?_
    texts s rfl
  intro next text hnext
  rw [flushing_runLine, hnext]

/-- Lines that do not fail have all been run. -/
theorem linesRun_runTexts {texts : List String} (h : (s.runTexts host texts).2 = .ok ()) :
    (s.runTexts host texts).1.linesRun = s.linesRun + texts.length := by
  induction texts generalizing s with
  | nil => rfl
  | cons text texts ih =>
    have hline := linesRun_runLine host s text
    rcases hrun : s.runLine host text with ⟨next, e | ⟨⟩⟩
    · rw [runTexts_of_error hrun] at h
      simp at h
    · rw [hrun] at hline
      rw [runTexts_of_ok hrun] at h ⊢
      rw [ih h, hline, List.length_cons]
      omega

end Lines

section Counted

/-- A line that holds a text is readable, and so may those after it be. -/
theorem readable_of_decode {line : List UInt8} {text : String} (h : decode? line = some text)
    (ls : List (List UInt8)) : readable (line :: ls) = text :: readable ls := by
  rw [readable, h]

/-- A line that holds none ends what is readable. -/
theorem readable_of_not_decode {line : List UInt8} (h : decode? line = none)
    (ls : List (List UInt8)) : readable (line :: ls) = [] := by
  rw [readable, h]

/-- No more lines are readable than there are. -/
theorem length_readable_le (ls : List (List UInt8)) : (readable ls).length ≤ ls.length := by
  induction ls with
  | nil => exact Nat.le_refl 0
  | cons line ls ih =>
    cases hdecode : decode? line with
    | none =>
      rw [readable_of_not_decode hdecode]
      exact Nat.zero_le _
    | some text =>
      rw [readable_of_decode hdecode, List.length_cons, List.length_cons]
      omega

/-- Without lines what is missing is the rest of those that are expected. -/
theorem shortage_nil (expected read : Nat) :
    shortage expected read [] =
      if read < expected then .error (.missingLines expected read) else .ok () := rfl

/-- A line that holds a text lacks nothing itself. -/
theorem shortage_cons {line : List UInt8} {text : String} (h : decode? line = some text)
    (expected read : Nat) (ls : List (List UInt8)) :
    shortage expected read (line :: ls) = shortage expected (read + 1) ls := by
  have hread : read + (ls.length + 1) = read + 1 + ls.length := by omega
  simp only [shortage, readable_of_decode h, List.length_cons, Nat.add_lt_add_iff_right, hread]

/-- A line that holds no text is what the program lacks. -/
theorem shortage_of_not_decode {line : List UInt8} (h : decode? line = none)
    (expected read : Nat) (ls : List (List UInt8)) :
    shortage expected read (line :: ls) = .error (.io .invalidText) := by
  have hlt : (readable (line :: ls)).length < (line :: ls).length := by
    rw [readable_of_not_decode h, List.length_cons]
    exact Nat.succ_pos _
  rw [shortage, if_pos hlt]

/-- Running counted lines is running their texts in order, and reporting what is missing if none
of these fails. -/
theorem runLines_eq_runTexts (host : Host σ) (expected read : Nat) (s : Session σ)
    (ls : List (List UInt8)) :
    s.runLines host expected read ls =
      ((s.runTexts host (readable (ls.take (expected - read)))).1,
        (s.runTexts host (readable (ls.take (expected - read)))).2.bind fun _ =>
          shortage expected read (ls.take (expected - read))) := by
  induction ls generalizing read s with
  | nil =>
    rw [List.take_nil]
    rfl
  | cons line rest ih =>
    rw [runLines]
    by_cases hread : read < expected
    · obtain ⟨left, hleft⟩ : ∃ left, expected - read = left + 1 :=
        ⟨expected - read - 1, by omega⟩
      have hnext : expected - (read + 1) = left := by omega
      rw [if_pos hread, hleft, List.take_succ_cons]
      cases hdecode : decode? line with
      | none =>
        rw [readable_of_not_decode hdecode, shortage_of_not_decode hdecode]
        rfl
      | some text =>
        rw [readable_of_decode hdecode, shortage_cons hdecode]
        rcases hrun : s.runLine host text with ⟨next, e | ⟨⟩⟩
        · simp only [hrun, runTexts_of_error hrun]
          rfl
        · have hrest := ih (read + 1) next
          rw [hnext] at hrest
          simp only [hrun, runTexts_of_ok hrun]
          exact hrest
    · have hleft : expected - read = 0 := by omega
      rw [if_neg hread, hleft, List.take_zero, shortage_nil, if_neg hread]
      rfl

/-- No line after the counted ones is looked at. -/
theorem runLines_congr {ls ls' : List (List UInt8)} {count : Nat}
    (h : ls'.take count = ls.take count) (host : Host σ) (s : Session σ) :
    s.runLines host count 0 ls' = s.runLines host count 0 ls := by
  have hrun := runLines_eq_runTexts host count 0 s ls
  have hrun' := runLines_eq_runTexts host count 0 s ls'
  rw [Nat.sub_zero] at hrun hrun'
  rw [h] at hrun'
  exact hrun'.trans hrun.symm

/-- An opening with a count stays one if the lines after it change. -/
theorem Opening.of_take_eq {ls ls' rest : List (List UInt8)} {count : Nat}
    (h : Opening ls (.ok (count, rest)))
    (hagree : ls'.take (ls.length - rest.length + count) =
      ls.take (ls.length - rest.length + count)) :
    ∃ rest', Opening ls' (.ok (count, rest')) ∧ rest'.take count = rest.take count := by
  cases h with
  | @count blanks _ line text word _ hblanks hline hword hcount hfits =>
    have hls : blanks ++ line :: rest = (blanks ++ [line]) ++ rest := by simp
    have hlength : (blanks ++ line :: rest).length - rest.length = (blanks ++ [line]).length := by
      rw [hls, List.length_append, Nat.add_sub_cancel]
    rw [hlength, hls, List.take_length_add_append] at hagree
    have hhead : ls'.take (blanks ++ [line]).length = blanks ++ [line] := by
      have hshort := congrArg (List.take (blanks ++ [line]).length) hagree
      rwa [List.take_take, Nat.min_eq_left (Nat.le_add_right _ _), List.take_left'] at hshort
      rfl
    obtain ⟨rest', rfl⟩ := List.prefix_iff_eq_take.2 hhead.symm
    rw [List.take_length_add_append] at hagree
    refine ⟨rest', ?_, List.append_cancel_left hagree⟩
    rw [List.append_assoc, List.singleton_append]
    exact .count hblanks hline hword hcount hfits

end Counted

/-- What a program comes to, given its lines and its opening. -/
structure FoldsLines (host : Host σ) (s : Session σ) (input : List UInt8)
    (ls : List (List UInt8)) (opening : Except SessionError (Nat × List (List UInt8))) :
    Prop where
  /-- The counted lines run one by one, up to the first that fails or holds no text. After them
  the sink is flushed. -/
  state : (s.runProgram host input).1 = (s.runTexts host (countedTexts opening)).1.flushed
  /-- This is the only flush, and all that the program has written is written before it. -/
  flushes : (s.runProgram host input).1.machine.sink.flushes =
    (s.runProgram host input).1.machine.sink.text :: s.machine.sink.flushes
  /-- Without a count no line runs. -/
  uncounted (e : SessionError) (h : opening = .error e) :
    (s.runProgram host input).1 = s.flushed ∧ (s.runProgram host input).2 = .error e
  /-- The error of a line is the error of the program. -/
  failed (e : SessionError) (h : (s.runTexts host (countedTexts opening)).2 = .error e) :
    (s.runProgram host input).2 = .error e
  /-- Lines that do not fail have all been run. -/
  linesRun (h : (s.runTexts host (countedTexts opening)).2 = .ok ()) :
    (s.runProgram host input).1.linesRun = s.linesRun + (countedTexts opening).length
  /-- The first counted line that holds no text is reported after the lines before it. -/
  unreadable (count : Nat) (rest : List (List UInt8)) (h : opening = .ok (count, rest))
    (hran : (s.runTexts host (countedTexts opening)).2 = .ok ())
    (hstop : (countedTexts opening).length < (rest.take count).length) :
    (s.runProgram host input).2 = .error (.io .invalidText)
  /-- Lines that are missing are reported after all that there are. -/
  missing (count : Nat) (rest : List (List UInt8)) (h : opening = .ok (count, rest))
    (hran : (s.runTexts host (countedTexts opening)).2 = .ok ())
    (hall : (countedTexts opening).length = rest.length) (hfew : rest.length < count) :
    (s.runProgram host input).2 = .error (.missingLines count rest.length)
  /-- A program of which all counted lines have run can only fail to be flushed. -/
  complete (count : Nat) (rest : List (List UInt8)) (h : opening = .ok (count, rest))
    (hran : (s.runTexts host (countedTexts opening)).2 = .ok ())
    (hall : (countedTexts opening).length = count) :
    (s.runProgram host input).2 =
      if s.machine.sink.flushFails then .error (.io .flushRefused) else .ok ()
  /-- What follows the counted lines has no effect. -/
  ahead (count : Nat) (rest : List (List UInt8)) (h : opening = .ok (count, rest))
    (input' : List UInt8) (ls' : List (List UInt8)) (hlines : SplitsInto input' ls')
    (hagree : ls'.take (ls.length - rest.length + count) =
      ls.take (ls.length - rest.length + count)) :
    s.runProgram host input' = s.runProgram host input
  /-- So bytes behind the line feed of the last counted line have none. -/
  behind (count : Nat) (rest : List (List UInt8)) (h : opening = .ok (count, rest))
    (hcount : count ≤ rest.length) (stream more : List UInt8)
    (hends : input = stream ++ [lineFeed]) :
    s.runProgram host (input ++ more) = s.runProgram host input

section Folds

variable {host : Host σ} {s : Session σ} {input : List UInt8}
  {opening : Except SessionError (Nat × List (List UInt8))}

/-- The result of a program, before the flush. -/
def unflushedResult (host : Host σ) (s : Session σ) :
    Except SessionError (Nat × List (List UInt8)) → Except SessionError Unit
  | .ok (count, rest) =>
    (s.runTexts host (countedTexts (.ok (count, rest)))).2.bind fun _ =>
      shortage count 0 (rest.take count)
  | .error e => .error e

/-- A program without its flush runs the texts of the counted lines. -/
theorem runCounted_eq (hopening : readCount (lines input) = opening) :
    s.runCounted host input =
      ((s.runTexts host (countedTexts opening)).1, s.unflushedResult host opening) := by
  rw [runCounted, hopening]
  cases opening with
  | error e => rfl
  | ok counted =>
    obtain ⟨count, rest⟩ := counted
    exact runLines_eq_runTexts host count 0 s rest

/-- A program runs the texts of the counted lines, and then flushes. The error of the flush comes
last. -/
theorem runProgram_eq (hopening : readCount (lines input) = opening) :
    s.runProgram host input =
      ((s.runTexts host (countedTexts opening)).1.flushed,
        (s.unflushedResult host opening).bind fun _ =>
          if s.machine.sink.flushFails then .error (.io .flushRefused) else .ok ()) := by
  have hkept := congrArg Prod.snd (flushing_runTexts host s (countedTexts opening))
  have hfails : (s.runTexts host (countedTexts opening)).1.machine.sink.flushFails =
      s.machine.sink.flushFails := hkept
  rw [runProgram, runCounted_eq hopening, ← hfails]
  refine Prod.ext rfl ?_
  cases s.unflushedResult host opening with
  | error e => rfl
  | ok =>
    cases hflush : (s.runTexts host (countedTexts opening)).1.machine.sink.flushFails
    · simp [Sink.flush, hflush, Except.mapError, Except.bind]
    · simp [Sink.flush, hflush, Except.mapError, Except.bind]

/-- A line that fails decides on the result. -/
theorem unflushedResult_of_failed {e : SessionError}
    (h : (s.runTexts host (countedTexts opening)).2 = .error e) :
    s.unflushedResult host opening = .error e := by
  cases opening with
  | error e' => simp [countedTexts, runTexts] at h
  | ok counted =>
    obtain ⟨count, rest⟩ := counted
    rw [unflushedResult, h]
    rfl

/-- If no line fails, what the counted lines lack decides on it. -/
theorem unflushedResult_of_ran {count : Nat} {rest : List (List UInt8)}
    (hran : (s.runTexts host (countedTexts (.ok (count, rest)))).2 = .ok ()) :
    s.unflushedResult host (.ok (count, rest)) = shortage count 0 (rest.take count) := by
  rw [unflushedResult, hran]
  rfl

/-- Programs with the same count and the same counted lines do the same. -/
theorem runProgram_of_take_eq {count : Nat} {rest : List (List UInt8)}
    (hopening : readCount (lines input) = .ok (count, rest)) {input' : List UInt8}
    (hagree : (lines input').take ((lines input).length - rest.length + count) =
      (lines input).take ((lines input).length - rest.length + count)) :
    s.runProgram host input' = s.runProgram host input := by
  obtain ⟨rest', hopens, htake⟩ := (opening_iff.2 hopening).of_take_eq hagree
  have hcounted : s.runCounted host input' = s.runCounted host input := by
    simp only [runCounted, hopening, opening_iff.1 hopens]
    exact runLines_congr htake host s
  rw [runProgram, runProgram, hcounted]

/-- Bytes behind the line feed of the last counted line have no effect. -/
theorem runProgram_append {stream : List UInt8} {count : Nat} {rest : List (List UInt8)}
    (hopening : readCount (lines (stream ++ [lineFeed])) = .ok (count, rest))
    (hcount : count ≤ rest.length) (more : List UInt8) :
    s.runProgram host (stream ++ [lineFeed] ++ more) =
      s.runProgram host (stream ++ [lineFeed]) := by
  have hrest : rest.length ≤ (lines (stream ++ [lineFeed])).length := by
    have hopens := opening_iff.2 hopening
    generalize lines (stream ++ [lineFeed]) = ls at hopens
    cases hopens with
    | count =>
      rw [List.length_append, List.length_cons]
      omega
  -- the counted lines are among those of the stream, which more bytes only add to
  refine runProgram_of_take_eq hopening ?_
  rw [List.append_assoc, List.singleton_append, lines_append stream more]
  exact List.take_append_of_le_length (by omega)

/-- Every program comes to what its lines and its opening say. -/
theorem foldsLines_of_readCount (hopening : readCount (lines input) = opening) :
    FoldsLines host s input (lines input) opening where
  state := by rw [runProgram_eq hopening]
  flushes := by
    have hkept := congrArg Prod.fst (flushing_runTexts host s (countedTexts opening))
    have hbefore : (s.runTexts host (countedTexts opening)).1.machine.sink.flushes =
        s.machine.sink.flushes := hkept
    rw [runProgram_eq hopening, ← hbefore]
    rfl
  uncounted := by
    rintro e rfl
    rw [runProgram_eq hopening]
    exact ⟨rfl, rfl⟩
  failed := by
    intro e hfailed
    rw [runProgram_eq hopening, unflushedResult_of_failed hfailed]
    rfl
  linesRun := by
    intro hran
    rw [runProgram_eq hopening, ← linesRun_runTexts hran]
    rfl
  unreadable := by
    rintro count rest rfl hran hstop
    have hresult : shortage count 0 (rest.take count) = .error (.io .invalidText) := if_pos hstop
    rw [runProgram_eq hopening, unflushedResult_of_ran hran, hresult]
    rfl
  missing := by
    rintro count rest rfl hran hall hfew
    have htake : rest.take count = rest := List.take_of_length_le (Nat.le_of_lt hfew)
    have hread : ¬ (readable rest).length < rest.length := by
      rw [countedTexts, htake] at hall
      omega
    have hresult : shortage count 0 (rest.take count) =
        .error (.missingLines count rest.length) := by
      rw [htake, shortage, Nat.zero_add, if_neg hread, if_pos hfew]
    rw [runProgram_eq hopening, unflushedResult_of_ran hran, hresult]
    rfl
  complete := by
    rintro count rest rfl hran hall
    have hread : (readable (rest.take count)).length = count := hall
    have hle := length_readable_le (rest.take count)
    have htake : (rest.take count).length ≤ count := List.length_take_le count rest
    have hresult : shortage count 0 (rest.take count) = .ok () := by
      rw [shortage, if_neg (by omega), if_neg (by omega)]
    rw [runProgram_eq hopening, unflushedResult_of_ran hran, hresult]
    rfl
  ahead := by
    rintro count rest rfl input' ls' hlines hagree
    rw [← splitsInto_iff.1 hlines] at hagree
    exact runProgram_of_take_eq hopening hagree
  behind := by
    rintro count rest rfl hcount stream more rfl
    exact runProgram_append hopening hcount more

end Folds

/-- **A program is its counted lines in order.** The bytes of every program have lines and an
opening, and the program comes to what these say: without a count to an error, and otherwise to
what the counted lines come to when they are run one by one, up to the first that fails, holds no
text or is missing. After that, and only then, the sink is flushed, with all the text of the
program in it. -/
theorem runProgram_folds_lines (host : Host σ) (s : Session σ) (input : List UInt8) :
    (∃ ls opening, SplitsInto input ls ∧ Opening ls opening) ∧
      ∀ ls opening, SplitsInto input ls → Opening ls opening →
        FoldsLines host s input ls opening := by
  constructor
  · exact ⟨lines input, readCount (lines input), splitsInto_iff.2 rfl, opening_iff.2 rfl⟩
  · intro ls opening hlines hopens
    obtain rfl := splitsInto_iff.1 hlines
    exact foldsLines_of_readCount (opening_iff.1 hopens)

/-- The count stands after two blank lines and before a word that is ignored, lines end with and
without a carriage return, and what follows the counted lines is no text. -/
theorem runProgram_folds_lines_mixed :
    let host : Host Unit := { limits := {}, observe := .blind }
    let s : Session Unit := .start .empty {} ()
    let counted : List (List UInt8) :=
      ["DEF F 2 MUL OUT END".toByteArray.data.toList, "4 F".toByteArray.data.toList]
    let rest := counted ++ [[0xFF]]
    let ls := [[], [0x20], "+2 x".toByteArray.data.toList] ++ rest
    let input := "\n \r\n+2 x\r\nDEF F 2 MUL OUT END\n4 F\r\n".toByteArray.data.toList ++ [0xFF]
    SplitsInto input ls ∧ Opening ls (.ok (2, rest)) ∧
      (s.runProgram host input).2 = .ok () ∧
      (s.runProgram host input).1.machine.sink = { text := "8\n", flushes := ["8\n"] } ∧
      FoldsLines host s input ls (.ok (2, rest)) := by
  intro host s counted rest ls input
  have hlines : SplitsInto input ls := by
    rw [splitsInto_iff]
    simp only [input, ls, rest, counted]
    cbv
  have hopening : Opening ls (.ok (2, rest)) := by
    rw [opening_iff]
    simp only [ls, rest, counted]
    cbv
  refine ⟨hlines, hopening, ?_, ?_,
    (runProgram_folds_lines host s input).2 ls (.ok (2, rest)) hlines hopening⟩
  · simp only [host, s, input]
    cbv
  · simp only [host, s, input]
    cbv

end Session

end StackLang
