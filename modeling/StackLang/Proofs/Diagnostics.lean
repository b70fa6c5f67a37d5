import StackLang.CommandLine.Invocation
import StackLang.Proofs.Budget
import StackLang.Proofs.Histories
import StackLang.Proofs.Observers
import StackLang.Proofs.ProgramText
import Mathlib

/-!
# Diagnostics take no part in a run

What a call of the program says beside its output, the listing, the log and the statistics, is up
to observers and comes before the error that ends the call. So the output, the exit code and the
final error lines depend on the program and the limits in force alone: they are those of a session
that nobody watches, `reports_respond`. The limits in force are given by rules, `enforces_iff`, and
the lines of an error are found as those from the last line on that names one, since nothing else
that is said does, `silent_watchedEnd`.
-/

set_option autoImplicit false

namespace StackLang.CommandLine

open Text (Counter readCounter_eq_ok_iff)

section Limits

variable {options : Options} {environment : String → Option String}

/-- The limit of open calls that a call of the program sets: that of its option, else that of the
variable if it holds a number of the range, and else none. -/
inductive SetsDepth (options : Options) (environment : String → Option String) : UInt64 → Prop
  | option {depth : UInt64} (h : options.maxDepth = some depth) :
      SetsDepth options environment depth
  | setting {text : String} {n : Nat} (h : options.maxDepth = none)
      (hset : environment maxDepthVariable = some text) (hcounter : Counter text.toList n)
      (hfits : n < UInt64.size) : SetsDepth options environment (.ofNat n)
  | unlimited (h : options.maxDepth = none)
      (hunset : ∀ text n, environment maxDepthVariable = some text → Counter text.toList n →
        ¬ n < UInt64.size) : SetsDepth options environment unbounded

/-- The limits that options and environment put in force. -/
structure Enforces (options : Options) (environment : String → Option String) (l : Limits) :
    Prop where
  stack : options.maxStack.getD unbounded = l.stack
  operations : options.maxOperations.getD unbounded = l.operations
  depth : SetsDepth options environment l.depth

/-- A variable has the value of the number that it holds, if this is in the range. -/
theorem readVariable_eq_some_iff {size n : Nat} (hsize : 0 < size) {key : String}
    {value : Option String} :
    (Settings.readVariable size key value).1 = some n ↔
      ∃ text, value = some text ∧ Counter text.toList n ∧ n < size := by
  cases value with
  | none => simp [Settings.readVariable]
  | some text =>
    have hread := @readCounter_eq_ok_iff size n hsize text.toList
    rw [Settings.readVariable]
    cases hcounter : Text.readCounter size text.toList with
    | ok m => simp [hcounter, ← hread]
    | error fault => cases fault <;> simp [hcounter, ← hread]

/-- The rules for the limit of open calls give the one that a call of the program uses. -/
theorem setsDepth_iff {depth : UInt64} :
    SetsDepth options environment depth ↔
      (options.maxDepth <|> (Settings.ofEnvironment environment).1.maxDepth).getD unbounded =
        depth := by
  have hpos : 0 < UInt64.size := by decide
  have hsetting : (Settings.ofEnvironment environment).1.maxDepth =
      (Settings.readVariable UInt64.size maxDepthVariable (environment maxDepthVariable)).1.map
        .ofNat := rfl
  have hvalue (n : Nat) := @readVariable_eq_some_iff _ n hpos maxDepthVariable
    (environment maxDepthVariable)
  rw [hsetting]
  generalize (Settings.readVariable UInt64.size maxDepthVariable
    (environment maxDepthVariable)).1 = value at hvalue ⊢
  constructor
  · intro h
    cases h with
    | option h => simp [h]
    | @setting text n h hset hcounter hfits =>
      rw [(hvalue n).2 ⟨text, hset, hcounter, hfits⟩]
      simp [h]
    | unlimited h hunset =>
      cases value with
      | none => simp [h]
      | some n =>
        obtain ⟨text, hset, hcounter, hfits⟩ := (hvalue n).1 rfl
        exact absurd hfits (hunset text n hset hcounter)
  · rintro rfl
    cases h : options.maxDepth with
    | some depth => exact .option (by simp [h])
    | none =>
      cases value with
      | none =>
        refine .unlimited h fun text n hset hcounter hfits => ?_
        have hsome := (hvalue n).2 ⟨text, hset, hcounter, hfits⟩
        simp at hsome
      | some n =>
        obtain ⟨text, hset, hcounter, hfits⟩ := (hvalue n).1 rfl
        exact .setting h hset hcounter hfits

/-- The limits of a call are those that the rules give. -/
theorem enforces_iff {l : Limits} :
    Enforces options environment l ↔
      limits options (Settings.ofEnvironment environment).1 = l := by
  constructor
  · rintro ⟨hstack, hoperations, hdepth⟩
    rw [limits, hstack, hoperations, setsDepth_iff.1 hdepth]
  · rintro rfl
    exact ⟨rfl, rfl, setsDepth_iff.2 rfl⟩

end Limits

section Notes

/-- A line that names an error. -/
def NamesError (note : String) : Prop := "Error: ".toList <+: note.toList

instance : DecidablePred NamesError := fun note =>
  inferInstanceAs (Decidable ("Error: ".toList <+: note.toList))

/-- The lines from the last one on that names an error; none if no line does. -/
def finalLines : List String → List String
  | [] => []
  | note :: notes =>
    if finalLines notes = [] then
      if NamesError note then note :: notes else []
    else finalLines notes

/-- Lines that name no error. -/
def Silent (notes : List String) : Prop := ∀ note ∈ notes, ¬ NamesError note

/-- A text that starts with at least seven characters of its own, and not with those of an error,
names none. -/
theorem not_namesError_append {front : String} (h : ¬ NamesError front)
    (hlength : 7 ≤ front.toList.length) (rest : String) : ¬ NamesError (front ++ rest) := by
  intro herror
  refine h (List.prefix_of_prefix_length_le herror ?_ hlength)
  rw [String.toList_append]
  exact List.prefix_append _ _

/-- A text that starts with another letter names no error. -/
theorem not_namesError_of_head? {note : String} (h : note.toList.head? ≠ some 'E') :
    ¬ NamesError note := by
  rintro ⟨rest, hnote⟩
  refine h ?_
  rw [← hnote]
  rfl

/-- Notes after notes name no error if neither do. -/
theorem Silent.append {notes more : List String} (h : Silent notes) (h' : Silent more) :
    Silent (notes ++ more) := by
  intro note hnote
  rcases List.mem_append.1 hnote with hnote | hnote
  · exact h note hnote
  · exact h' note hnote

/-- Nor do they in the opposite order. -/
theorem Silent.reverse {notes : List String} (h : Silent notes) : Silent notes.reverse :=
  fun note hnote => h note (List.mem_reverse.1 hnote)

/-- What is said before makes no difference to the final lines, as long as it names no error. -/
theorem Silent.finalLines_append {said : List String} (h : Silent said) (last : List String) :
    finalLines (said ++ last) = finalLines last := by
  induction said with
  | nil => rfl
  | cons note said ih =>
    obtain ⟨hnote, hsaid⟩ := List.forall_mem_cons.1 h
    rw [List.cons_append, finalLines, ih hsaid, if_neg hnote]
    split_ifs with hlast
    · exact hlast.symm
    · rfl

/-- If no line names an error, there are no final lines. -/
theorem Silent.finalLines_eq {notes : List String} (h : Silent notes) : finalLines notes = [] := by
  rw [← List.append_nil notes, h.finalLines_append]
  rfl

/-- The last words on an error are found again. -/
theorem finalLines_errorLines (e : SessionError) : finalLines (errorLines e) = errorLines e := by
  have herror (text : String) {rest : List String} (h : Silent rest) :
      finalLines (("Error: " ++ text) :: rest) = ("Error: " ++ text) :: rest := by
    have hnames : NamesError ("Error: " ++ text) := by
      rw [NamesError, String.toList_append]
      exact List.prefix_append _ _
    rw [finalLines, if_pos h.finalLines_eq, if_pos hnames]
  have hnone : Silent [] := List.forall_mem_nil _
  cases e with
  | io cause =>
    refine herror _ (List.forall_mem_cons.2 ⟨by decide, List.forall_mem_cons.2 ⟨by decide,
      List.forall_mem_singleton.2 (not_namesError_of_head? ?_)⟩⟩)
    rw [String.toList_append]
    have hindent : "    ".toList = [' ', ' ', ' ', ' '] := by decide
    simp [hindent]
  | _ => exact herror _ hnone

/-- Lines that may be left out name no error if they name none when they are said. -/
theorem Silent.optional {notes : List String} (h : Silent notes) (c : Prop) [Decidable c] :
    Silent (if c then notes else []) := by
  split_ifs
  · exact h
  · exact List.forall_mem_nil _

/-- No log line names an error. -/
theorem silent_logLines (settings : Settings) (listing : Bool) (event : Event) :
    Silent (logLines settings listing event) := by
  have hnote {front : String} (h : ¬ NamesError front ∧ 7 ≤ front.toList.length) (rest : String) :
      Silent [front ++ rest] := List.forall_mem_singleton.2 (not_namesError_append h.1 h.2 rest)
  cases event with
  | line number code height =>
    have hlisted : Silent [Text.natText number ++ ": " ++ Instruction.renderLine code] := by
      obtain ⟨c, cs, hdigits⟩ := List.exists_cons_of_ne_nil (Text.natDigits_ne_nil number)
      have hdigit : c.isDigit := @Text.isDigit_of_mem_natDigits number c (by simp [hdigits])
      refine List.forall_mem_singleton.2 (not_namesError_of_head? ?_)
      rw [String.toList_append, String.toList_append, Text.natText, String.toList_ofList, hdigits]
      intro h
      obtain rfl : c = 'E' := by simpa using h
      exact absurd hdigit (by decide)
    simp only [logLines, String.append_assoc] at hlisted ⊢
    exact (hlisted.optional _).append ((hnote (by decide) _).optional _)
  | start i depth stack =>
    simp only [logLines, String.append_assoc]
    exact (hnote (by decide) _).optional _
  | call name depth height =>
    simp only [logLines, String.append_assoc]
    exact (hnote (by decide) _).optional _
  | push | pop | finish => exact List.forall_mem_nil _

/-- The log stays silent when lines are added to it. -/
theorem silent_logger {settings : Settings} {listing : Bool} {log : List String} (h : Silent log)
    (event : Event) : Silent (logger settings listing log event) :=
  (silent_logLines settings listing event).reverse.append h

/-- No line of the statistics names an error. -/
theorem silent_statsLines (elapsed : Nat) (s : Stats) : Silent (statsLines elapsed s) := by
  intro note hnote
  simp only [statsLines, List.mem_cons, List.not_mem_nil, or_false, String.append_assoc] at hnote
  rcases hnote with rfl | rfl | rfl | rfl | rfl <;>
    exact not_namesError_append (by decide) (by decide) _

/-- No warning about a variable names an error. -/
theorem silent_readVariable (size : Nat) (key : String) (value : Option String) :
    Silent (Settings.readVariable size key value).2 := by
  have hnone : Silent [] := List.forall_mem_nil _
  have hwarning (rest : String) : Silent ["Ignoring env var " ++ rest] :=
    List.forall_mem_singleton.2 (not_namesError_append (by decide) (by decide) rest)
  cases value with
  | none => exact hnone
  | some text =>
    rw [Settings.readVariable]
    simp only [String.append_assoc]
    split
    · exact hnone
    · exact hnone
    · exact hwarning _

/-- So no warning about the environment does. -/
theorem silent_ofEnvironment (environment : String → Option String) :
    Silent (Settings.ofEnvironment environment).2 :=
  (silent_readVariable _ _ _).append (silent_readVariable _ _ _)

end Notes

/-- The end of a session that runs a program with limits, and that nobody watches. -/
def sessionEnd (l : Limits) (program : List UInt8) : Session Unit × Except SessionError Unit :=
  (Session.start .empty {} ()).runProgram { limits := l, observe := .blind } program

section Reports

variable {options : Options} {settings : Settings} {elapsed : Nat} {program : List UInt8}

/-- The end of the same session if it is watched, for the statistics and the log of a call. -/
def watchedEnd (options : Options) (settings : Settings) (program : List UInt8) :
    Session (Stats × List String) × Except SessionError Unit :=
  (Session.start .empty {} ({}, [])).runProgram
    { limits := limits options settings
      observe := Observer.both Stats.observe (logger settings options.listing) } program

/-- The watched session ends like the one that nobody watches. -/
theorem watchedEnd_unwatched (options : Options) (settings : Settings) (program : List UInt8) :
    (watchedEnd options settings program).map Session.unwatched id =
      sessionEnd (limits options settings) program :=
  (Session.runProgram_unwatched _ _ program).symm

/-- The log of a call names no error, whatever its program does. -/
theorem silent_watchedEnd (options : Options) (settings : Settings) (program : List UInt8) :
    Silent (watchedEnd options settings program).1.machine.seen.2 := by
  have hstart : Silent (Session.start .empty {} (({}, []) : Stats × List String)).machine.seen.2 :=
    List.forall_mem_nil _
  exact Session.seen_runProgram_keeps (P := fun seen : Stats × List String => Silent seen.2)
    (fun _ event h => silent_logger h event) hstart program

/-- A program that succeeds leaves its output, and the log and the statistics beside it. -/
theorem execute_of_ok {s : Session (Stats × List String)}
    (h : watchedEnd options settings program = (s, .ok ())) :
    execute options settings elapsed program =
      { exitCode := 0, output := s.machine.sink.text,
        notes := s.machine.seen.2.reverse ++
          if options.stats then statsLines elapsed s.machine.seen.1 else [] } := by
  rw [watchedEnd] at h
  simp only [execute, h]

/-- One that fails leaves the same, and then the lines of its error. -/
theorem execute_of_error {s : Session (Stats × List String)} {e : SessionError}
    (h : watchedEnd options settings program = (s, .error e)) :
    execute options settings elapsed program =
      { exitCode := 1, output := s.machine.sink.text,
        notes := (s.machine.seen.2.reverse ++
          if options.stats then statsLines elapsed s.machine.seen.1 else []) ++ errorLines e } := by
  rw [watchedEnd] at h
  simp only [execute, h]

/-- The exit code of a result. -/
def resultCode : Except SessionError Unit → Nat
  | .ok () => 0
  | .error _ => 1

/-- The last words on a result. -/
def resultLines : Except SessionError Unit → List String
  | .ok () => []
  | .error e => errorLines e

/-- What a call of the program shows of the end of its session. -/
structure Reports (outcome : Outcome) (ended : Session Unit × Except SessionError Unit) :
    Prop where
  output : outcome.output = ended.1.machine.sink.text
  exitCode : outcome.exitCode = resultCode ended.2
  finalLines : finalLines outcome.notes = resultLines ended.2

/-- Running a program with diagnostics shows the end of the session that nobody watches. -/
theorem reports_execute (options : Options) (settings : Settings) (elapsed : Nat)
    (program : List UInt8) :
    Reports (execute options settings elapsed program)
      (sessionEnd (limits options settings) program) := by
  have hlog := silent_watchedEnd options settings program
  rw [← watchedEnd_unwatched]
  rcases hended : watchedEnd options settings program with ⟨s, result⟩
  rw [hended] at hlog
  have hsaid : Silent (s.machine.seen.2.reverse ++
      if options.stats then statsLines elapsed s.machine.seen.1 else []) :=
    hlog.reverse.append ((silent_statsLines _ _).optional _)
  cases result with
  | ok =>
    rw [execute_of_ok hended]
    exact ⟨rfl, rfl, hsaid.finalLines_eq⟩
  | error e =>
    rw [execute_of_error hended]
    refine ⟨rfl, rfl, ?_⟩
    rw [hsaid.finalLines_append, finalLines_errorLines]
    rfl

/-- A call of the program shows the end of the session that its program and its limits lead to. -/
theorem reports_respond {world : World} {l : Limits}
    (hprogram : world.program? options = some program)
    (hlimits : Enforces options world.environment l) :
    Reports (respond world options) (sessionEnd l program) := by
  obtain ⟨houtput, hcode, hlines⟩ :=
    reports_execute options (Settings.ofEnvironment world.environment).1 world.elapsed program
  rw [enforces_iff.1 hlimits] at houtput hcode hlines
  have hrespond : respond world options =
      let outcome :=
        execute options (Settings.ofEnvironment world.environment).1 world.elapsed program
      { outcome with
        notes := (Settings.ofEnvironment world.environment).2 ++ outcome.notes } := by
    simp only [respond, hprogram]
  rw [hrespond]
  refine ⟨houtput, hcode, ?_⟩
  rw [(silent_ofEnvironment world.environment).finalLines_append, hlines]

/-- Arguments that give options call the program with them. -/
theorem invoke_of_options {world : World} {arguments : List String}
    (h : Options.parse arguments = .ok options) : invoke world arguments = respond world options := by
  simp only [invoke, h]

/-- Without a program nothing depends on options and settings. -/
theorem respond_of_no_program {world : World} (h : world.program? options = none) :
    respond world options =
      { exitCode := 1, notes := ["Error: " ++ IoFault.missingFile.message] } := by
  simp only [respond, h]

end Reports

/-- What two calls of the program have in common that differ in nothing but diagnostics. -/
structure SameEnd (outcome other : Outcome) : Prop where
  output : outcome.output = other.output
  exitCode : outcome.exitCode = other.exitCode
  finalLines : finalLines outcome.notes = finalLines other.notes

/-- The same program under the same limits comes to the same end, whatever else is asked for, and in
whatever time. -/
theorem sameEnd_respond {world other : World} {options options' : Options} {l : Limits}
    (hprogram : world.program? options = other.program? options')
    (hlimits : Enforces options world.environment l)
    (hlimits' : Enforces options' other.environment l) :
    SameEnd (respond world options) (respond other options') := by
  cases hown : world.program? options with
  | none =>
    have hother : other.program? options' = none := by rw [← hprogram, hown]
    rw [respond_of_no_program hown, respond_of_no_program hother]
    exact ⟨rfl, rfl, rfl⟩
  | some program =>
    have hother : other.program? options' = some program := by rw [← hprogram, hown]
    have hreports := reports_respond hown hlimits
    have hreports' := reports_respond hother hlimits'
    exact
      { output := hreports.output.trans hreports'.output.symm
        exitCode := hreports.exitCode.trans hreports'.exitCode.symm
        finalLines := hreports.finalLines.trans hreports'.finalLines.symm }

/-- **Diagnostics make no difference.** Two calls of the program, with the same program and the same
limits in force, have the same output, exit code and final error lines, whatever listing, statistics
and verbosity they ask for, and whatever arguments have given their options. And code runs the same
on a new machine that is observed, on one that is not, and on the machine itself. -/
theorem diagnostics_irrelevant {σ τ : Type} :
    (∀ (world other : World) (options options' : Options) (l : Limits),
      world.program? options = other.program? options' →
      Enforces options world.environment l → Enforces options' other.environment l →
      SameEnd (respond world options) (respond other options') ∧
        ∀ arguments others, Options.parse arguments = .ok options →
          Options.parse others = .ok options' →
          SameEnd (invoke world arguments) (invoke other others)) ∧
    ∀ (setup : Setup) (functions : Dictionary) (code : Code) (sink : Sink) (observe : Observer σ)
      (seen : σ) (observe' : Observer τ) (seen' : τ),
      let after := (setup.machine sink seen).run ⟨setup.limits, observe⟩ functions code
      setup.run functions code sink = (after.1.sink, after.2.map fun _ =>
          { stack := after.1.stack, executed := after.1.executed, seen := () }) ∧
        (setup.runObserved observe' seen' functions code sink).map id
          (Except.map RunResult.unwatched) = setup.run functions code sink := by
  refine ⟨?_, ?_⟩
  · intro world other options options' l hprogram hlimits hlimits'
    have hsame := sameEnd_respond hprogram hlimits hlimits'
    refine ⟨hsame, fun arguments others hparse hparse' => ?_⟩
    rw [invoke_of_options hparse, invoke_of_options hparse']
    exact hsame
  · intro setup functions code sink observe seen observe' seen'
    exact ⟨setup.run_eq_machine_run observe seen functions code sink,
      setup.runObserved_unwatched observe' seen' functions code sink⟩

/-- A function that calls itself is stopped by the option in one call and by the variable in the
other, which shows all there is to show. -/
theorem diagnostics_irrelevant_depth :
    let program : List UInt8 := "2\nDEF F 7 OUT F END\nF".toUTF8.toList
    let world : World :=
      { environment := fun key => if key = maxDepthVariable then some "9" else none
        file := fun _ => none
        input := program
        help := "-d"
        elapsed := 5 }
    let other : World :=
      { environment := fun key =>
          if key = maxDepthVariable then some "+2"
          else if key = verbosityVariable then some "30" else none
        file := fun name => if name = "program" then some program else none
        input := []
        help := "-d"
        elapsed := 1500000000 }
    let options : Options := { maxDepth := some 2 }
    let options' : Options := { file := some "program", stats := true, listing := true }
    let first := invoke world ["-d2"]
    let e : SessionError := .running 2 (.instructionFailed (.call "F") 2 7 (.tooDeep 2))
    (first.output = "7\n7\n" ∧ first.exitCode = 1 ∧ finalLines first.notes = errorLines e) ∧
      SameEnd (respond world options) (respond other options') ∧
      SameEnd first (invoke other ["--ir", "-s", "program"]) := by
  intro program world other options options' first e
  have hparse : Options.parse ["-d2"] = .ok options := by
    simp only [options]
    cbv
  have hparse' : Options.parse ["--ir", "-s", "program"] = .ok options' := by
    simp only [options']
    cbv
  have hlimits : Enforces options world.environment { depth := 2 } := ⟨rfl, rfl, .option rfl⟩
  have hlimits' : Enforces options' other.environment { depth := 2 } := by
    have hset : other.environment maxDepthVariable = some "+2" := by cbv
    have hread : Text.readCounter UInt64.size "+2".toList = .ok 2 := by cbv
    obtain ⟨hcounter, hfits⟩ := (readCounter_eq_ok_iff (by decide) _).1 hread
    exact ⟨rfl, rfl, .setting rfl hset hcounter hfits⟩
  have hprogram : other.program? options' = some program := by cbv
  have hended : (sessionEnd { depth := 2 } program).1.machine.sink.text = "7\n7\n" ∧
      (sessionEnd { depth := 2 } program).2 = .error e := by
    simp only [program, e]
    exact ⟨by cbv, by cbv⟩
  have hreports : Reports first (sessionEnd { depth := 2 } program) := by
    simp only [first, invoke_of_options hparse]
    exact reports_respond rfl hlimits
  obtain ⟨hrespond, hinvoke⟩ := (@diagnostics_irrelevant Unit Stats).1 world other options options'
    _ hprogram.symm hlimits hlimits'
  refine ⟨⟨?_, ?_, ?_⟩, hrespond, hinvoke _ _ hparse hparse'⟩
  · rw [hreports.output, hended.1]
  · rw [hreports.exitCode, hended.2]
    rfl
  · rw [hreports.finalLines, hended.2]
    rfl

end StackLang.CommandLine
