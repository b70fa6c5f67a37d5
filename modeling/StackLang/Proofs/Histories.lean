import StackLang.Session.Program
import Mathlib.Tactic.SplitIfs

/-!
# Histories of readers and sessions

The readers that lines lead to, and the sessions that steps lead to, where a step is one line
or a whole program. Lines that cannot be read and runs that fail are part of a history like
any other. What every line keeps, whatever becomes of the sink, every program keeps,
`runProgram_keeps`, and an error of a line in a program is the error of a line that was run in
such a state; so a statement about a session's history is one about single lines.
-/

set_option autoImplicit false

namespace StackLang

/-- The readers that lines lead to. -/
inductive Reader.Reachable : Reader → Prop
  | start : Reachable {}
  | read {r : Reader} (h : Reachable r) (line : String) : Reachable (r.readLine line).1

/-- Whether an error is about one line of source. -/
def SessionError.OfLine : SessionError → Prop
  | .reading _ _ => True
  | .running _ _ => True
  | _ => False

namespace Session

/-- What can be handed to a session. -/
inductive Step where
  | line (text : String)
  | program (input : List UInt8)
deriving DecidableEq

variable {σ : Type}

/-- Runs a line or a program. -/
def perform (host : Host σ) (s : Session σ) : Step → Session σ × Except SessionError Unit
  | .line text => s.runLine host text
  | .program input => s.runProgram host input

/-- The sessions that steps lead to. -/
inductive Reachable (host : Host σ) (stack : Stack) (sink : Sink) (seen : σ) : Session σ → Prop
  | start : Reachable host stack sink seen (.start stack sink seen)
  | step {s : Session σ} (h : Reachable host stack sink seen s) (step : Step) :
      Reachable host stack sink seen (s.perform host step).1

section Lines

variable {host : Host σ} {s : Session σ}

/-- A line that can be read is announced, and then its code runs. -/
theorem runLine_of_read {reader : Reader} {code : Code} {line : String}
    (hread : s.reader.readLine line = (reader, .ok code)) :
    ∃ announced : Machine σ, s.runLine host line =
      ({ reader, machine := (announced.run host reader.functions code).1,
         linesRun := s.linesRun + 1 },
        (announced.run host reader.functions code).2.mapError (.running (s.linesRun + 1))) := by
  unfold runLine
  rw [hread]
  exact ⟨_, rfl⟩

/-- A line with a fault is counted, and changes nothing but the reader. -/
theorem runLine_of_fault {reader : Reader} {e : SyntaxError} {line : String}
    (hread : s.reader.readLine line = (reader, .error e)) :
    s.runLine host line =
      ({ s with reader, linesRun := s.linesRun + 1 }, .error (.reading (s.linesRun + 1) e)) := by
  unfold runLine
  rw [hread]

/-- Running a line reads it, whatever comes of it. -/
theorem reader_runLine (host : Host σ) (s : Session σ) (line : String) :
    (s.runLine host line).1.reader = (s.reader.readLine line).1 := by
  rcases hread : s.reader.readLine line with ⟨reader, e | code⟩
  · rw [runLine_of_fault hread]
  · obtain ⟨announced, hrun⟩ := @runLine_of_read σ host s reader code line hread
    rw [hrun]

end Lines

section Programs

variable {host : Host σ} {P : Session σ → Prop}

/-- What holds after the first lines of a program, and where its errors come from. -/
def Kept (host : Host σ) (P : Session σ → Prop)
    (outcome : Session σ × Except SessionError Unit) : Prop :=
  P outcome.1 ∧ ∀ e, outcome.2 = .error e → e.OfLine →
    ∃ t text, P t ∧ (t.runLine host text).2 = .error e

/-- What every line keeps, the lines of a program keep, and their errors are those of lines from
there. -/
theorem runLines_keeps (hline : ∀ s text, P s → P (s.runLine host text).1) (expected : Nat)
    (inputs : List (List UInt8)) (read : Nat) (s : Session σ) (h : P s) :
    Kept host P (s.runLines host expected read inputs) := by
  induction inputs generalizing read s with
  | nil =>
    refine ⟨h, fun e he hof => ?_⟩
    simp only [runLines] at he
    split_ifs at he
    obtain rfl := Except.error.inj he
    exact hof.elim
  | cons input inputs ih =>
    rw [runLines]
    split_ifs
    · cases hdecode : Text.decode? input with
      | none =>
        refine ⟨h, fun e he hof => ?_⟩
        obtain rfl := Except.error.inj he
        exact hof.elim
      | some text =>
        have hnext := hline s text h
        rcases hrun : s.runLine host text with ⟨next, e | ⟨⟩⟩
        · simp only [hrun] at hnext ⊢
          refine ⟨hnext, fun e' he _ => ⟨s, text, h, ?_⟩⟩
          simpa [hrun] using he
        · simp only [hrun] at hnext ⊢
          exact ih (read + 1) next hnext
    · exact ⟨h, fun e he _ => by simp at he⟩

/-- Errors of the count are no errors of a line. -/
theorem not_ofLine_of_readCount {inputs : List (List UInt8)} {e : SessionError}
    (h : readCount inputs = .error e) : ¬ e.OfLine := by
  induction inputs with
  | nil =>
    obtain rfl := Except.error.inj h
    exact id
  | cons input inputs ih =>
    rw [readCount] at h
    split at h
    · obtain rfl := Except.error.inj h
      exact id
    · split at h
      · exact ih h
      · split at h
        · simp at h
        · obtain rfl := Except.error.inj h
          exact id

/-- A program does, too, before its flush. -/
theorem runCounted_keeps (hline : ∀ s text, P s → P (s.runLine host text).1) {s : Session σ}
    (h : P s) (input : List UInt8) : Kept host P (s.runCounted host input) := by
  unfold runCounted
  cases hcount : readCount (Text.lines input) with
  | error e =>
    refine ⟨h, fun e' he hof => ?_⟩
    obtain rfl := Except.error.inj he
    exact absurd hof (not_ofLine_of_readCount hcount)
  | ok counted =>
    obtain ⟨count, rest⟩ := counted
    exact runLines_keeps hline count rest 0 s h

/-- What every line and the state of the sink leave alone, a program leaves alone; and if a line
of it fails, this line fails by itself in a state of the same kind. -/
theorem runProgram_keeps (hline : ∀ s text, P s → P (s.runLine host text).1)
    (hsink : ∀ (s : Session σ) (sink : Sink), P s →
      P { s with machine := { s.machine with sink } })
    {s : Session σ} (h : P s) (input : List UInt8) : Kept host P (s.runProgram host input) := by
  obtain ⟨hkept, herror⟩ := runCounted_keeps hline h input
  unfold runProgram
  rcases hrun : s.runCounted host input with ⟨after, result⟩
  simp only [hrun] at hkept herror ⊢
  refine ⟨hsink after _ hkept, fun e he hof => ?_⟩
  cases result with
  | error e' => exact herror e he hof
  | ok =>
    -- only the flush is left to fail
    cases hflush : after.machine.sink.flush.2 with
    | ok => simp [hflush, Except.mapError] at he
    | error cause =>
      obtain rfl : SessionError.io cause = e := by simpa [hflush, Except.mapError] using he
      exact hof.elim

end Programs

end Session

end StackLang
