import StackLang.Proofs.Points
import StackLang.Proofs.Prefixes

/-!
# The numbers of lines

The session and its reader both count lines, each on its own, and both numbers are in the message
of a line that cannot be read. The lines that they count are those that are handed to the session:
of a step these are its lines up to the first that fails, `handed`. Each of them moves both counters
by one, whatever becomes of it, so the counters agree at all times, `counters_runTexts`. A line that
fails is the last one of its step, `exists_last_of_error`, so the number in its error is that of the
lines handed so far. Of a program, what is handed are the texts of lines that come after the count:
neither the line of the count, nor what is before it, nor lines after a failure or beyond the count,
nor lines without text. `Numbers` collects this for one step, and `line_numbers_agree` says it of
every step of every session.
-/

set_option autoImplicit false

namespace StackLang

/-- An error of a line that has the number `n`, also in the error of the reader. -/
def SessionError.Numbered (n : Nat) : SessionError → Prop
  | .reading line error => line = n ∧ error.line = n
  | .running line _ => line = n
  | _ => False

namespace Session

open Text (SplitsInto decode? splitsInto_iff)

variable {σ : Type} {host : Host σ} {s : Session σ} {texts : List String} {e : SessionError}

/-- Of lines that are run in order, those that are handed to the session: all up to the first that
fails, with this one. -/
def handed (host : Host σ) (s : Session σ) : List String → List String
  | [] => []
  | text :: texts =>
    match s.runLine host text with
    | (next, .ok ()) => text :: next.handed host texts
    | (_, .error _) => [text]

/-- All lines that are handed to a session in steps. -/
def handedAll (host : Host σ) (s : Session σ) : List Step → List String
  | [] => []
  | step :: steps => s.handed host step.texts ++ (s.perform host step).1.handedAll host steps

section Texts

/-- After a line that succeeds, the other ones are handed over. -/
theorem handed_of_ok {next : Session σ} {text : String} (h : s.runLine host text = (next, .ok ()))
    (texts : List String) : s.handed host (text :: texts) = text :: next.handed host texts := by
  rw [handed, h]

/-- After a line that fails, none is. -/
theorem handed_of_error {next : Session σ} {text : String}
    (h : s.runLine host text = (next, .error e)) (texts : List String) :
    s.handed host (text :: texts) = [text] := by
  rw [handed, h]

/-- Lines are handed over in order, and none is left out. -/
theorem handed_isPrefix (host : Host σ) (s : Session σ) (texts : List String) :
    s.handed host texts <+: texts := by
  induction texts generalizing s with
  | nil => exact List.prefix_rfl
  | cons text texts ih =>
    rcases hrun : s.runLine host text with ⟨next, e | ⟨⟩⟩
    · rw [handed_of_error hrun]
      exact List.prefix_append [text] texts
    · rw [handed_of_ok hrun]
      exact List.cons_prefix_cons.2 ⟨rfl, ih next⟩

/-- Lines that do not fail are all handed over. -/
theorem handed_of_runTexts_ok (h : (s.runTexts host texts).2 = .ok ()) :
    s.handed host texts = texts := by
  induction texts generalizing s with
  | nil => rfl
  | cons text texts ih =>
    rcases hrun : s.runLine host text with ⟨next, e | ⟨⟩⟩
    · rw [runTexts_of_error hrun] at h
      simp at h
    · rw [runTexts_of_ok hrun] at h
      rw [handed_of_ok hrun, ih h]

/-- Running lines is running those that are handed over. -/
theorem runTexts_handed (host : Host σ) (s : Session σ) (texts : List String) :
    s.runTexts host (s.handed host texts) = s.runTexts host texts := by
  induction texts generalizing s with
  | nil => rfl
  | cons text texts ih =>
    rcases hrun : s.runLine host text with ⟨next, e | ⟨⟩⟩
    · rw [handed_of_error hrun, runTexts_of_error hrun, runTexts_of_error hrun]
    · rw [handed_of_ok hrun, runTexts_of_ok hrun, runTexts_of_ok hrun, ih]

/-- A line that fails is the last one that is handed over, and those before it have run. -/
theorem exists_last_of_error (h : (s.runTexts host texts).2 = .error e) :
    ∃ front text, s.handed host texts = front ++ [text] ∧
      (s.runTexts host front).2 = .ok () ∧
      ((s.runTexts host front).1.runLine host text).2 = .error e := by
  induction texts generalizing s with
  | nil => simp [runTexts] at h
  | cons text texts ih =>
    rcases hrun : s.runLine host text with ⟨next, e' | ⟨⟩⟩
    · rw [runTexts_of_error hrun] at h
      refine ⟨[], text, handed_of_error hrun texts, rfl, ?_⟩
      show (s.runLine host text).2 = _
      rw [hrun]
      exact h
    · rw [runTexts_of_ok hrun] at h
      obtain ⟨front, last, hhanded, hfront, hlast⟩ := ih h
      refine ⟨text :: front, last, ?_, ?_, ?_⟩
      · rw [handed_of_ok hrun, hhanded]
        rfl
      · rw [runTexts_of_ok hrun]
        exact hfront
      · rw [runTexts_of_ok hrun]
        exact hlast

end Texts

section Counters

/-- Both counters stand at `n`. -/
def CountersAt (n : Nat) (s : Session σ) : Prop := s.linesRun = n ∧ s.reader.linesRead = n

/-- A line moves both counters, whatever becomes of it. -/
theorem CountersAt.runLine {n : Nat} (h : s.CountersAt n) (host : Host σ) (line : String) :
    (s.runLine host line).1.CountersAt (n + 1) := by
  obtain ⟨hrun, hread⟩ := h
  refine ⟨?_, ?_⟩
  · rw [linesRun_runLine, hrun]
  · rw [reader_runLine, ← hread]
    rfl

/-- **The counters agree**, and count the lines that are handed over. -/
theorem CountersAt.runTexts {n : Nat} (h : s.CountersAt n) (host : Host σ) (texts : List String) :
    (s.runTexts host texts).1.CountersAt (n + (s.handed host texts).length) := by
  induction texts generalizing s n with
  | nil => exact h
  | cons text texts ih =>
    have hline := h.runLine host text
    rcases hrun : s.runLine host text with ⟨next, e | ⟨⟩⟩
    · rw [hrun] at hline
      rw [runTexts_of_error hrun, handed_of_error hrun]
      exact hline
    · rw [hrun] at hline
      have hrest := ih hline
      rw [runTexts_of_ok hrun, handed_of_ok hrun, List.length_cons]
      rwa [Nat.add_assoc, Nat.add_comm 1] at hrest

/-- A step raises both counters by the lines that it hands over. -/
theorem CountersAt.perform {n : Nat} (h : s.CountersAt n) (host : Host σ) (step : Step) :
    (s.perform host step).1.CountersAt (n + (s.handed host step.texts).length) := by
  have htexts := h.runTexts host step.texts
  rcases perform_eq_runTexts host s step with hstep | hstep
  · rw [hstep]
    exact htexts
  · rw [hstep]
    exact htexts

/-- And so do steps, whatever they end in. -/
theorem CountersAt.performAll {n : Nat} (h : s.CountersAt n) (host : Host σ) (steps : List Step) :
    (s.performAll host steps).CountersAt (n + (s.handedAll host steps).length) := by
  induction steps generalizing s n with
  | nil => exact h
  | cons step steps ih =>
    have hrest := ih (h.perform host step)
    rw [handedAll, List.length_append, ← Nat.add_assoc]
    exact hrest

/-- A line fails to be read or to be run, and its error has its number. -/
theorem runLine_error {line : String} (h : (s.runLine host line).2 = .error e) :
    (∃ error, (s.reader.readLine line).2 = .error error ∧ e = .reading (s.linesRun + 1) error) ∨
      ∃ error, e = .running (s.linesRun + 1) error := by
  rcases hline : s.reader.readLine line with ⟨reader, error | code⟩
  · rw [runLine_of_fault hline] at h
    exact .inl ⟨error, rfl, (Except.error.inj h).symm⟩
  · obtain ⟨announced, hrun⟩ := @runLine_of_read σ host s reader code line hline
    rw [hrun] at h
    rcases hresult : (announced.run host reader.functions code).2 with error | ⟨⟩
    · rw [hresult] at h
      exact .inr ⟨error, (Except.error.inj h).symm⟩
    · simp [hresult, Except.mapError] at h

/-- An error of the next line carries the next number. -/
theorem CountersAt.numbered {n : Nat} {line : String} (h : s.CountersAt n)
    (herror : (s.runLine host line).2 = .error e) : e.Numbered (n + 1) := by
  obtain ⟨hrun, hread⟩ := h
  rcases runLine_error herror with ⟨error, hline, rfl⟩ | ⟨error, rfl⟩
  · obtain ⟨-, hnumber⟩ := Reader.fault_of_readLine_error hline
    exact ⟨congrArg (· + 1) hrun, by rw [hnumber, hread]⟩
  · exact congrArg (· + 1) hrun

/-- The error of a line is one that carries a number. -/
theorem ofLine_of_runLine {line : String} (h : (s.runLine host line).2 = .error e) : e.OfLine := by
  rcases runLine_error h with ⟨error, -, rfl⟩ | ⟨error, rfl⟩
  · exact trivial
  · exact trivial

end Counters

section Steps

variable {step : Step}

/-- If a line fails, then this is the error of the step. -/
theorem perform_error_of_runTexts (h : (s.runTexts host step.texts).2 = .error e) :
    (s.perform host step).2 = .error e := by
  cases step with
  | line text =>
    change (s.runTexts host [text]).2 = _ at h
    rwa [runTexts_singleton] at h
  | program input => exact (foldsLines_of_readCount rfl).failed e h

/-- An error with a number that a program ends in is that of a line, for neither the opening nor a
shortage has one. -/
theorem unflushedResult_error {opening : Except SessionError (Nat × List (List UInt8))}
    {ls : List (List UInt8)} (hopening : readCount ls = opening)
    (h : s.unflushedResult host opening = .error e) (hof : e.OfLine) :
    (s.runTexts host (countedTexts opening)).2 = .error e := by
  cases opening with
  | error e' =>
    obtain rfl := Except.error.inj h
    exact absurd hof (not_ofLine_of_readCount hopening)
  | ok counted =>
    obtain ⟨count, rest⟩ := counted
    rcases hran : (s.runTexts host (countedTexts (.ok (count, rest)))).2 with e' | ⟨⟩
    · rw [unflushedResult_of_failed hran] at h
      exact h
    · -- what is missing is not a line that fails
      rw [unflushedResult_of_ran hran, shortage] at h
      split_ifs at h <;> (obtain rfl := Except.error.inj h; exact hof.elim)

/-- An error of a line in a step is the error of the lines that the step runs. -/
theorem runTexts_error_of_perform (h : (s.perform host step).2 = .error e) (hof : e.OfLine) :
    (s.runTexts host step.texts).2 = .error e := by
  cases step with
  | line text =>
    show (s.runTexts host [text]).2 = _
    rw [runTexts_singleton]
    exact h
  | program input =>
    change (s.runProgram host input).2 = .error e at h
    rw [runProgram_eq rfl] at h
    rcases hresult : s.unflushedResult host (readCount (Text.lines input)) with e' | ⟨⟩
    · rw [hresult] at h
      obtain rfl := Except.error.inj h
      exact unflushedResult_error rfl hresult hof
    · -- only the flush is left to fail
      rw [hresult] at h
      cases hfails : s.machine.sink.flushFails with
      | false => simp [hfails, Except.bind] at h
      | true =>
        obtain rfl : SessionError.io .flushRefused = e := by simpa [hfails, Except.bind] using h
        exact hof.elim

/-- A step in which no line fails hands over all its lines. -/
theorem handed_of_no_error (h : ∀ e, (s.perform host step).2 = .error e → ¬ e.OfLine) :
    s.handed host step.texts = step.texts := by
  rcases hran : (s.runTexts host step.texts).2 with e | ⟨⟩
  · obtain ⟨front, text, -, -, hlast⟩ := exists_last_of_error hran
    exact absurd (ofLine_of_runLine hlast) (h e (perform_error_of_runTexts hran))
  · exact handed_of_runTexts_ok hran

/-- Texts of lines that are read in order are those of the first lines. -/
theorem map_some_of_isPrefix_readable {ls : List (List UInt8)} {texts : List String}
    (h : texts <+: readable ls) : texts.map some = (ls.take texts.length).map decode? := by
  induction ls generalizing texts with
  | nil =>
    obtain rfl := List.prefix_nil.1 h
    rfl
  | cons line ls ih =>
    cases texts with
    | nil => rfl
    | cons text texts =>
      cases hdecode : decode? line with
      | none =>
        rw [readable_of_not_decode hdecode] at h
        simp at h
      | some read =>
        rw [readable_of_decode hdecode] at h
        obtain ⟨rfl, hrest⟩ := List.cons_prefix_cons.1 h
        rw [List.length_cons, List.take_succ_cons, List.map_cons, List.map_cons, hdecode, ih hrest]

end Steps

/-- The numbers of the lines that a step hands to a session, to which `n` lines have been handed
before. -/
structure Numbers (host : Host σ) (s : Session σ) (n : Nat) (step : Step)
    (handed : List String) : Prop where
  /-- What the step does is to run these lines, one by one, and at most to flush the sink. -/
  state : (s.perform host step).1 = (s.runTexts host handed).1 ∨
    (s.perform host step).1 = (s.runTexts host handed).1.flushed
  /-- Both counters count them. -/
  counters : (s.perform host step).1.linesRun = n + handed.length ∧
    (s.perform host step).1.reader.linesRead = n + handed.length
  /-- The error of a line is that of the last one, after all others have run, and has its number. -/
  failed (e : SessionError) (h : (s.perform host step).2 = .error e) (hof : e.OfLine) :
    ∃ front text, handed = front ++ [text] ∧ (s.runTexts host front).2 = .ok () ∧
      ((s.runTexts host front).1.runLine host text).2 = .error e ∧ e.Numbered (n + handed.length)
  /-- A line is handed over as it is. -/
  line (text : String) (h : step = .line text) : handed = [text]
  /-- Without a count, nothing of a program is handed over. -/
  uncounted (input : List UInt8) (h : step = .program input) (ls : List (List UInt8))
    (hlines : SplitsInto input ls) (e : SessionError) (hopening : Opening ls (.error e)) :
    handed = []
  /-- With a count, the texts of the first lines after the line of the count are handed over, no
  more than are counted. -/
  counted (input : List UInt8) (h : step = .program input) (ls : List (List UInt8))
    (hlines : SplitsInto input ls) (count : Nat) (rest : List (List UInt8))
    (hopening : Opening ls (.ok (count, rest))) :
    handed.length ≤ count ∧ handed.map some = (rest.take handed.length).map decode?
  /-- If no line fails, these are all up to the first that holds no text. -/
  all (input : List UInt8) (h : step = .program input) (ls : List (List UInt8))
    (hlines : SplitsInto input ls) (count : Nat) (rest : List (List UInt8))
    (hopening : Opening ls (.ok (count, rest)))
    (hran : ∀ e, (s.perform host step).2 = .error e → ¬ e.OfLine) :
    handed = readable (rest.take count)

/-- **The rule for one step.** From counters that agree, the lines that a step hands over are those
that the numbers tell. -/
theorem numbers_of_countersAt {n : Nat} (h : s.CountersAt n) (step : Step) :
    Numbers host s n step (s.handed host step.texts) where
  state := by
    rw [runTexts_handed]
    exact perform_eq_runTexts host s step
  counters := h.perform host step
  failed := by
    intro e herror hof
    obtain ⟨front, text, hhanded, hfront, hlast⟩ :=
      exists_last_of_error (runTexts_error_of_perform herror hof)
    refine ⟨front, text, hhanded, hfront, hlast, ?_⟩
    have hcounters := h.runTexts host front
    rw [handed_of_runTexts_ok hfront] at hcounters
    rw [hhanded, List.length_append, ← Nat.add_assoc]
    exact hcounters.numbered hlast
  line := by
    rintro text rfl
    rcases hrun : s.runLine host text with ⟨next, e | ⟨⟩⟩
    · exact handed_of_error hrun []
    · exact handed_of_ok hrun []
  uncounted := by
    rintro input rfl ls hlines e hopening
    have hnone : (Step.program input).texts = [] := by
      rw [Step.texts, splitsInto_iff.1 hlines, opening_iff.1 hopening]
      rfl
    rw [hnone]
    rfl
  counted := by
    rintro input rfl ls hlines count rest hopening
    have htexts : (Step.program input).texts = readable (rest.take count) := by
      rw [Step.texts, splitsInto_iff.1 hlines, opening_iff.1 hopening]
      rfl
    have hpart := handed_isPrefix host s (Step.program input).texts
    rw [htexts] at hpart ⊢
    have hle : (s.handed host (readable (rest.take count))).length ≤ count :=
      calc (s.handed host (readable (rest.take count))).length
        _ ≤ (readable (rest.take count)).length := hpart.length_le
        _ ≤ (rest.take count).length := length_readable_le _
        _ ≤ count := List.length_take_le count rest
    refine ⟨hle, ?_⟩
    rw [map_some_of_isPrefix_readable hpart, List.take_take, Nat.min_eq_left hle]
  all := by
    rintro input rfl ls hlines count rest hopening hran
    rw [handed_of_no_error hran, Step.texts, splitsInto_iff.1 hlines, opening_iff.1 hopening]
    rfl

/-- **Line numbers agree.** After any steps, both counters of a session stand at the number of lines
that have been handed to it, whatever has become of these, and so they do after the next step: the
error of a line has the number of this line among all lines that have been handed over. -/
theorem line_numbers_agree (host : Host σ) (stack : Stack) (sink : Sink) (seen : σ)
    (steps : List Step) (step : Step) :
    let start : Session σ := .start stack sink seen
    let s := start.performAll host steps
    let n := (start.handedAll host steps).length
    s.linesRun = n ∧ s.reader.linesRead = n ∧
      Numbers host s n step (s.handed host step.texts) := by
  intro start s n
  have hstart : start.CountersAt 0 := ⟨rfl, rfl⟩
  have hcounters := hstart.performAll host steps
  rw [Nat.zero_add] at hcounters
  exact ⟨hcounters.1, hcounters.2, numbers_of_countersAt hcounters step⟩

/-- A program of which a line cannot be read, a line, and a program of which a line fails: it is the
fifth line that has been handed over. -/
theorem line_numbers_agree_twoPrograms :
    let host : Host Unit := { limits := {}, observe := .blind }
    let start : Session Unit := .start .empty {} ()
    let steps : List Step := [.program "\n 3 x\n1 OUT\nBAD\n3 OUT\n".toUTF8.toList, .line "0 POP"]
    let step : Step := .program "3\n1\n0 DIV\n7\n".toUTF8.toList
    let s := start.performAll host steps
    start.handedAll host steps = ["1 OUT", "BAD", "0 POP"] ∧
      s.handed host step.texts = ["1", "0 DIV"] ∧
      (s.perform host step).2 =
        .error (.running 5 (.instructionFailed (.binary .div) 0 6 .divisionByZero)) ∧
      s.linesRun = 3 ∧ Numbers host s 3 step ["1", "0 DIV"] := by
  intro host start steps step s
  have hbefore : start.handedAll host steps = ["1 OUT", "BAD", "0 POP"] := by
    simp only [start, steps, host]
    cbv
  have hhanded : s.handed host step.texts = ["1", "0 DIV"] := by
    simp only [s, start, steps, step, host]
    cbv
  obtain ⟨hrun, -, hnumbers⟩ := line_numbers_agree host .empty {} () steps step
  rw [show (Session.start .empty {} ()).handedAll host steps = _ from hbefore] at hrun hnumbers
  rw [show ((Session.start .empty {} ()).performAll host steps).handed host step.texts = _ from
    hhanded] at hnumbers
  refine ⟨hbefore, hhanded, ?_, hrun, hnumbers⟩
  simp only [s, start, steps, step, host]
  cbv

end Session

end StackLang
