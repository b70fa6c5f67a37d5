import StackLang.Machine.Stats
import StackLang.Proofs.Definitions
import StackLang.Proofs.KnownCalls
import StackLang.Proofs.Nesting
import StackLang.Proofs.Words
import Mathlib

/-!
# Two lines as one

Two lines that are read one after the other can be written as one line, with a space between them.
The reader makes the same code of it and ends with the same functions, `Reader.readLine_join`. What
is not the same is the dictionary in which the code of the first line runs: it has the functions
of the second line already. They do not matter if they are new, for a run looks up nothing but
what its code calls and what bodies in turn call, and in a closed dictionary these are functions of
the dictionary: `run_of_extends`. So the one line and the two lines do the same, `runLine_join`.
-/

set_option autoImplicit false

namespace StackLang

/-- An observer that makes nothing of the announcement of a line, which is there for logs. -/
def Host.IgnoresLines {σ : Type} (host : Host σ) : Prop :=
  ∀ seen number code height, host.observe seen (.line number code height) = seen

/-- Statistics are about what runs, not about lines. -/
example (limits : Limits) : Host.IgnoresLines { limits, observe := Stats.observe } := by
  intro seen number code height
  rfl

section Lookups

variable {σ : Type} {host : Host σ} {small large : Dictionary} {i : Instruction}

/-- A plan depends on what the instruction itself looks up. -/
theorem Instruction.plan_congr (h : ∀ name ∈ i.calls, large.find? name = small.find? name)
    (limits : Limits) (depth : Nat) (stack : Stack) :
    i.plan limits large depth stack = i.plan limits small depth stack := by
  cases i with
  | call name =>
    have hname : large.find? name = small.find? name := h name (by simp [Instruction.calls])
    simp only [plan, hname]
  | _ => rfl

namespace Machine

/-- A step looks up what its instruction calls, and nothing else. -/
theorem perform_congr (h : ∀ name ∈ i.calls, large.find? name = small.find? name)
    (m : Machine σ) : m.perform host large i = m.perform host small i := by
  have happly (m : Machine σ) : m.apply host large i = m.apply host small i := by
    unfold apply
    rw [Instruction.plan_congr h]
  unfold perform execute
  rw [happly]

/-- What a larger dictionary has besides is not looked up. -/
theorem runTasks_of_extends (hclosed : small.Closed) (hextends : large.Extends small)
    (m : Machine σ) (tasks : List Task) (hknown : KnownTasks small tasks) :
    m.runTasks host large tasks = m.runTasks host small tasks := by
  have hperform (m : Machine σ) {i : Instruction} {rest : List Task}
      (hknown : KnownTasks small (.perform i :: rest)) :
      m.perform host large i = m.perform host small i := by
    refine perform_congr (fun name hname => ?_) m
    obtain ⟨body, hfind⟩ := Option.isSome_iff_exists.1 (hknown i List.mem_cons_self name hname)
    rw [hfind]
    exact hextends name body hfind
  induction m, tasks using runTasks.induct host small with
  | case1 m => rw [runTasks_nil, runTasks_nil]
  | case2 m rest ih =>
    rw [runTasks_leave, runTasks_leave]
    exact ih fun j hj => hknown j (List.mem_cons_of_mem _ hj)
  | case3 m i rest next tasks hsmall ih =>
    rw [runTasks_perform_ok hsmall, runTasks_perform_ok ((hperform m hknown).trans hsmall)]
    exact ih (knownTasks_perform hclosed hknown hsmall)
  | case4 m i rest next e hsmall =>
    rw [runTasks_perform_error hsmall, runTasks_perform_error ((hperform m hknown).trans hsmall)]

/-- **New functions do not matter to old code.** Code that calls functions of a closed dictionary
runs alike in every dictionary that extends it. -/
theorem run_of_extends (hclosed : small.Closed) (hextends : large.Extends small) {code : Code}
    (hknown : small.Knows code) (m : Machine σ) :
    m.run host large code = m.run host small code :=
  runTasks_of_extends hclosed hextends m _ (knownTasks_map_perform hknown)

end Machine

end Lookups

namespace Reader

open Grammar

/-- Two lines that are read one after the other are read as one. -/
theorem readLine_join {r middle final : Reader} {first second : String} {code tail : Code}
    (hfirst : r.readLine first = (middle, .ok code))
    (hsecond : middle.readLine second = (final, .ok tail)) :
    r.readLine (first ++ " " ++ second) =
      ({ functions := final.functions, linesRead := r.linesRead + 1 }, .ok (code ++ tail)) := by
  refine readLine_of_line ?_
  rw [Token.words_append_space]
  exact (line_of_readLine hfirst).append (line_of_readLine hsecond)

/-- A line that defines new names only extends the dictionary. -/
theorem extends_of_readLine {r after : Reader} {line : String} {code : Code}
    (h : r.readLine line = (after, .ok code))
    (hnew : ∀ name body, .define name body ∈ code → ¬ r.functions.contains name) :
    after.functions.Extends r.functions := by
  rw [(line_of_readLine h).eq_insertAll]
  refine Dictionary.extends_insertAll fun name hname => ?_
  obtain ⟨⟨defined, body⟩, hmem, rfl⟩ := List.mem_map.1 hname
  exact hnew defined body (mem_definitionsOf.1 hmem)

end Reader

namespace Session

variable {σ : Type} {host : Host σ} {s : Session σ}

/-- With an observer that ignores lines, a line that can be read is nothing but its run. -/
theorem runLine_of_ignoresLines (hhost : host.IgnoresLines) {line : String} {reader : Reader}
    {code : Code} (hread : s.reader.readLine line = (reader, .ok code)) :
    s.runLine host line =
      ({ reader, machine := (s.machine.run host reader.functions code).1,
         linesRun := s.linesRun + 1 },
        (s.machine.run host reader.functions code).2.mapError (.running (s.linesRun + 1))) := by
  have hnote : s.machine.note host (.line (s.linesRun + 1) code s.machine.stack.height) =
      s.machine := by
    unfold Machine.note
    rw [hhost]
  unfold runLine
  rw [hread]
  simp only [hnote]

/-- Runs a line, and after it, if it succeeds, a second one. -/
def runBoth (host : Host σ) (s : Session σ) (first second : String) :
    Session σ × Except SessionError Unit :=
  match s.runLine host first with
  | (after, .ok ()) => after.runLine host second
  | (after, .error e) => (after, .error e)

/-- After a line that succeeds, the second one runs. -/
theorem runBoth_of_ok {after : Session σ} {first : String}
    (h : s.runLine host first = (after, .ok ())) (second : String) :
    s.runBoth host first second = after.runLine host second := by
  simp only [runBoth, h]

/-- After a line that fails, nothing else does. -/
theorem runBoth_of_error {after : Session σ} {first : String} {e : SessionError}
    (h : s.runLine host first = (after, .error e)) (second : String) :
    s.runBoth host first second = (after, .error e) := by
  simp only [runBoth, h]

/-- **Joining lines.** Take two lines that a session can read one after the other, where the second
one defines no name that is there after the first one. Run as one line with a space between them,
they come to the same result as run one after the other, the number of the line apart, and leave the
same machine: the stack, the output, the counts and what the observer has seen. If the second
line is run at all, the functions are the same as well. -/
theorem runLine_join (hhost : host.IgnoresLines) {stack : Stack} {sink : Sink} {seen : σ}
    (hs : Reachable host stack sink seen s) {first second : String} {middle final : Reader}
    {code tail : Code} (hfirst : s.reader.readLine first = (middle, .ok code))
    (hsecond : middle.readLine second = (final, .ok tail))
    (hnew : ∀ name body, .define name body ∈ tail → ¬ middle.functions.contains name) :
    let joined := s.runLine host (first ++ " " ++ second)
    let both := s.runBoth host first second
    ∃ result : Except RunError Unit,
      joined.2 = result.mapError (.running (s.linesRun + 1)) ∧
      both.2 = result.mapError (.running both.1.linesRun) ∧
      joined.1.machine = both.1.machine ∧
      ((s.runLine host first).2 = .ok () →
        joined.1.reader.functions = both.1.reader.functions) := by
  have hclosed : middle.functions.Closed := by
    have hafter := Reader.closed_readLine hs.closed first
    rwa [hfirst] at hafter
  -- the functions of the second line make no difference to the code of the first one
  have heval : s.machine.eval host final.functions code =
      s.machine.run host middle.functions code := by
    rw [← Machine.run_eq_eval]
    exact Machine.run_of_extends hclosed (Reader.extends_of_readLine hsecond hnew)
      (Reader.knows_readLine hfirst) s.machine
  intro joined both
  have hjoined : joined = _ := runLine_of_ignoresLines hhost (Reader.readLine_join hfirst hsecond)
  have hone := runLine_of_ignoresLines hhost hfirst
  rcases hrun : s.machine.run host middle.functions code with ⟨after, e | ⟨⟩⟩
  · -- the first line fails, and the joined one at the same instruction
    rw [hrun] at heval hone
    rw [Machine.run_eq_eval, Machine.eval_append_of_error heval] at hjoined
    have hboth : both = _ := runBoth_of_error hone second
    refine ⟨.error e, ?_, ?_, ?_, ?_⟩
    · rw [hjoined]
    · rw [hboth]
      rfl
    · rw [hjoined, hboth]
    · simp [hone, Except.mapError]
  · -- the second line goes on from where the first one ended
    rw [hrun] at heval hone
    rw [Machine.run_eq_eval, Machine.eval_append_of_ok heval, ← Machine.run_eq_eval] at hjoined
    have htwo := @runLine_of_ignoresLines σ host ⟨middle, after, s.linesRun + 1⟩ hhost second final
      tail hsecond
    have hboth : both = _ := (runBoth_of_ok hone second).trans htwo
    refine ⟨(after.run host final.functions tail).2, ?_, ?_, ?_, fun _ => ?_⟩
    · rw [hjoined]
    · rw [hboth]
    · rw [hjoined, hboth]
    · rw [hjoined, hboth]

/-- The first line calls a function of the session, and the second one defines a new function twice
and calls it. -/
theorem runLine_join_halves :
    let host : Host Unit := { limits := {}, observe := .blind }
    let s : Session Unit := ((start .empty {} ()).perform host (.line "DEF HALF 2 DIV END 9")).1
    let second := "DEF G 5 END DEF G OUT END G 1"
    let joined := s.runLine host ("HALF" ++ " " ++ second)
    let both := s.runBoth host "HALF" second
    joined.2 = .ok () ∧ joined.1.machine.sink.text = "4\n" ∧ both.2 = .ok () ∧
      joined.1.machine = both.1.machine ∧ joined.1.reader.functions = both.1.reader.functions := by
  intro host s second joined both
  have hs : Reachable host .empty {} () s := .step .start (.line "DEF HALF 2 DIV END 9")
  have hfirst : (s.reader.readLine "HALF").2 = .ok [.call "HALF"] := by
    simp only [s, host]
    cbv
  have hsecond : ((s.reader.readLine "HALF").1.readLine second).2 =
      .ok [.define "G" [.number 5], .define "G" [.out], .call "G", .number 1] := by
    simp only [s, host, second]
    cbv
  have hnew : (s.reader.readLine "HALF").1.functions.contains "G" = false := by
    simp only [s, host]
    cbv
  have hran : (s.runLine host "HALF").2 = .ok () ∧ joined.2 = .ok () ∧
      joined.1.machine.sink.text = "4\n" ∧ both.2 = .ok () := by
    simp only [joined, both, s, host, second]
    cbv
  obtain ⟨result, -, -, hmachine, hfunctions⟩ := runLine_join (fun _ _ _ _ => rfl) hs
    (Prod.ext rfl hfirst) (Prod.ext rfl hsecond) (by
      intro name body hmem
      have hname : name = "G" := by simp at hmem; tauto
      simp [hname, hnew])
  exact ⟨hran.2.1, hran.2.2.1, hran.2.2.2, hmachine, hfunctions hran.1⟩

end Session

end StackLang
