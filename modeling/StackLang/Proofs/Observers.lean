import StackLang.Machine.Fresh
import StackLang.Proofs.Budget
import StackLang.Proofs.Histories
import StackLang.Proofs.Views
import Mathlib.Tactic.SplitIfs

/-!
# Runs without their observers

An observer is shown a run and takes no part in it. If a machine forgets what its observer made of
the events, it is a machine that nobody watches, and its steps commute with forgetting:
`perform_unwatched` for one instruction, `runTasks_unwatched` for a run, and from lines to whole
programs for a session, `runProgram_unwatched`. Two runs that differ in their observers are
therefore the same once both are forgotten. What an observer makes of a program is up to the events
alone: what each of them keeps, all keep, `seen_runProgram_keeps`.
-/

set_option autoImplicit false

namespace StackLang

variable {σ : Type}

/-- The same limits, and nobody who watches. -/
def Host.unwatched (host : Host σ) : Host Unit := { limits := host.limits, observe := .blind }

namespace Machine

/-- A machine without what its observer made of the events. -/
def unwatched (m : Machine σ) : Machine Unit := { m with seen := () }

variable (host : Host σ) (functions : Dictionary) (m : Machine σ)

@[simp]
theorem note_unwatched (event : Event) : (note host event m).unwatched = m.unwatched := rfl

@[simp]
theorem leave_unwatched : m.leave.unwatched = m.unwatched.leave := rfl

/-- Instructions do not notice who watches them. -/
theorem view_unwatched : View host host.unwatched unwatched where
  stackLimit := rfl
  depthLimit := rfl
  stack _ := rfl
  executed _ := rfl
  depth _ := rfl
  note _ _ := rfl
  withStack _ _ := rfl
  withExecuted _ _ := rfl

/-- What an instruction goes on with is the same without an observer. -/
theorem realize_unwatched (effect : Effect) :
    m.unwatched.realize host.unwatched effect = (m.realize host effect).map unwatched id := by
  cases effect <;> rfl

/-- A step does not depend on who watches it. -/
theorem perform_unwatched (i : Instruction) :
    m.unwatched.perform host.unwatched functions i =
      (m.perform host functions i).map unwatched id := by
  rw [perform, perform, (view_unwatched host).execute functions m i Iff.rfl]
  rcases m.execute host functions i with ⟨after, e | effect⟩
  · rfl
  · exact realize_unwatched host after effect

/-- Nor does a run. -/
theorem runTasks_unwatched (tasks : List Task) :
    m.unwatched.runTasks host.unwatched functions tasks =
      (m.runTasks host functions tasks).map unwatched id := by
  induction m, tasks using runTasks.induct host functions with
  | case1 m => rw [runTasks_nil, runTasks_nil]; rfl
  | case2 m rest ih => rw [runTasks_leave, runTasks_leave, ← ih, leave_unwatched]
  | case3 m i rest next tasks hperform ih =>
    have hstep := perform_unwatched host functions m i
    rw [hperform] at hstep
    rw [runTasks_perform_ok hperform, ← ih]
    exact runTasks_perform_ok hstep rest
  | case4 m i rest next e hperform =>
    have hstep := perform_unwatched host functions m i
    rw [hperform] at hstep
    rw [runTasks_perform_error hperform]
    exact runTasks_perform_error hstep rest

/-- A run of code does not depend on who watches it, either. -/
theorem run_unwatched (code : Code) :
    m.unwatched.run host.unwatched functions code =
      (m.run host functions code).map unwatched id :=
  runTasks_unwatched host functions m (code.map .perform)

end Machine

/-- What a run leaves, without what the observer made of the events. -/
def RunResult.unwatched (r : RunResult σ) : RunResult Unit :=
  { stack := r.stack, executed := r.executed, seen := () }

namespace Setup

variable (setup : Setup) (observe : Observer σ) (seen : σ) (functions : Dictionary) (code : Code)
  (sink : Sink)

/-- A run that nobody watches, told by a machine of any observer. -/
theorem run_eq_machine_run :
    let after := (setup.machine sink seen).run ⟨setup.limits, observe⟩ functions code
    setup.run functions code sink = (after.1.sink, after.2.map fun _ =>
      { stack := after.1.stack, executed := after.1.executed, seen := () }) := by
  have hblind : (setup.machine sink ()).run ⟨setup.limits, .blind⟩ functions code = _ :=
    Machine.run_unwatched ⟨setup.limits, observe⟩ functions (setup.machine sink seen) code
  rw [run, runObserved, hblind]
  rfl

/-- A run is observed at no other cost than that of observing it. -/
theorem runObserved_unwatched :
    (setup.runObserved observe seen functions code sink).map id (Except.map RunResult.unwatched) =
      setup.run functions code sink := by
  rw [run_eq_machine_run setup observe seen, runObserved]
  rcases (setup.machine sink seen).run ⟨setup.limits, observe⟩ functions code with ⟨after, e | ⟨⟩⟩
  · rfl
  · rfl

end Setup

namespace Session

open Text (decode?)

/-- A session without what its observer made of the events. -/
def unwatched (s : Session σ) : Session Unit :=
  { reader := s.reader, machine := s.machine.unwatched, linesRun := s.linesRun }

variable (host : Host σ) (s : Session σ)

/-- What a line does is the same without an observer. -/
theorem runLine_unwatched (line : String) :
    s.unwatched.runLine host.unwatched line = (s.runLine host line).map unwatched id := by
  have hreader : s.unwatched.reader = s.reader := rfl
  rw [runLine, runLine, hreader]
  rcases s.reader.readLine line with ⟨reader, e | code⟩
  · rfl
  · have hrun := Machine.run_unwatched host reader.functions
      (s.machine.note host (.line (s.linesRun + 1) code s.machine.stack.height)) code
    rw [Machine.note_unwatched] at hrun
    have hnumber : s.unwatched.linesRun = s.linesRun := rfl
    have hannounced : Machine.note host.unwatched
        (.line (s.linesRun + 1) code s.unwatched.machine.stack.height) s.unwatched.machine =
          s.machine.unwatched := rfl
    simp only [hnumber, hannounced, hrun]
    rfl

/-- So is what the lines of a program do. -/
theorem runLines_unwatched (expected read : Nat) (inputs : List (List UInt8)) :
    s.unwatched.runLines host.unwatched expected read inputs =
      (s.runLines host expected read inputs).map unwatched id := by
  induction inputs generalizing read s with
  | nil => rfl
  | cons input inputs ih =>
    rw [runLines, runLines]
    split_ifs
    · cases decode? input with
      | none => rfl
      | some text =>
        simp only [runLine_unwatched]
        rcases s.runLine host text with ⟨next, e | ⟨⟩⟩
        · rfl
        · exact ih next (read + 1)
    · rfl

/-- So is what a program does before its flush. -/
theorem runCounted_unwatched (input : List UInt8) :
    s.unwatched.runCounted host.unwatched input = (s.runCounted host input).map unwatched id := by
  rw [runCounted, runCounted]
  rcases readCount (Text.lines input) with e | ⟨count, rest⟩
  · rfl
  · exact runLines_unwatched host s count 0 rest

/-- A program does not depend on who watches it. -/
theorem runProgram_unwatched (input : List UInt8) :
    s.unwatched.runProgram host.unwatched input = (s.runProgram host input).map unwatched id := by
  rw [runProgram, runProgram, runCounted_unwatched]
  rfl

variable {host}

/-- What every event keeps of an observer's state, lines keep. -/
theorem seen_runLine_keeps {P : σ → Prop}
    (hevent : ∀ seen event, P seen → P (host.observe seen event)) (s : Session σ) (line : String)
    (h : P s.machine.seen) :
    P (s.runLine host line).1.machine.seen := by
  unfold runLine
  rcases s.reader.readLine line with ⟨reader, e | code⟩
  · exact h
  · have hannounced := hevent _ (.line (s.linesRun + 1) code s.machine.stack.height) h
    obtain ⟨events, hseen, -⟩ := Machine.shows_runTasks host reader.functions
      (s.machine.note host (.line (s.linesRun + 1) code s.machine.stack.height))
      (code.map .perform)
    show P (Machine.runTasks host reader.functions _ _).1.seen
    rw [hseen]
    exact List.foldlRecOn events host.observe hannounced fun seen hkept event _ =>
      hevent seen event hkept

/-- What no event breaks of what the observer has seen, no program breaks. -/
theorem seen_runProgram_keeps {P : σ → Prop}
    (hevent : ∀ seen event, P seen → P (host.observe seen event)) {s : Session σ}
    (h : P s.machine.seen) (input : List UInt8) :
    P (s.runProgram host input).1.machine.seen :=
  (runProgram_keeps (P := fun s => P s.machine.seen) (seen_runLine_keeps hevent)
    (fun _ _ hkept => hkept) h input).1

end Session

end StackLang
