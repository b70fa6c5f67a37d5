import StackLang.Proofs.Observers
import StackLang.Proofs.Output
import StackLang.Proofs.Points
import StackLang.Proofs.RoundTrip

/-!
# Output reads back as source

Each `OUT` that succeeds writes its value on a line, and nothing else is written. So what a program
writes are the lines of these values, `outputText`, and as a line feed is a blank like any other,
all of it can be read as one line of source: its words are the texts of the values, each a literal
with this value (`words_outputText`). The values are those that an observer sees go by, `Outputs`;
with room for everything, it and the sink agree at every step (`Tells.agree`), and so they do after
any runs, and any programs of a session, whatever these end in. `output_reads_back` collects this.
-/

set_option autoImplicit false

namespace StackLang

open Text (IsAscii bytes carriageReturn decode? intText lineFeed)

/-- What an observer knows that keeps the values of `OUT`. -/
structure Outputs where
  /-- The value on top of the stack when the last instruction started. -/
  top : Option Int32 := none
  /-- The values that each `OUT` has taken off that did not fail, in order. -/
  values : List Int32 := []

/-- Keeps the values of `OUT`. -/
def Outputs.observe : Observer Outputs := fun seen event =>
  match event with
  | .start _ _ stack => { seen with top := stack.cells.head? }
  | .finish .out _ none => { seen with values := seen.values ++ seen.top.toList }
  | _ => seen

/-- A line for each value, with the decimal text of it. -/
def outputText (values : List Int32) : String :=
  String.join (values.map fun v => intText v.toInt ++ "\n")

/-- What it means for a text to be the output of values. -/
structure ReadsBack (text : String) (values : List Int32) : Prop where
  /-- It has a line for each value, in order, that ends in a line feed. -/
  lines : text = outputText values
  /-- As one line of source it is the literals of the values. -/
  reads : (({} : Reader).readLine text).2 = .ok (values.map .number)
  /-- Its bytes are ASCII. -/
  ascii : ∀ b ∈ bytes text, b < 128
  /-- And they are valid UTF-8, so that decoding leaves the text as it is. -/
  decodes : decode? (bytes text) = some text

section Text

@[simp]
theorem outputText_nil : outputText [] = "" := rfl

/-- A value makes a line of its own, before those of the other values. -/
theorem outputText_cons (v : Int32) (values : List Int32) :
    outputText (v :: values) = intText v.toInt ++ "\n" ++ outputText values := by
  simp [outputText, String.join_cons]

/-- The output of values after values is that of both. -/
theorem outputText_append (values more : List Int32) :
    outputText (values ++ more) = outputText values ++ outputText more := by
  rw [outputText, List.map_append, String.join_append]
  rfl

/-- Numbers and line feeds are ASCII. -/
theorem isAscii_outputText (values : List Int32) : IsAscii (outputText values).toList := by
  induction values with
  | nil => simp [IsAscii]
  | cons v values ih =>
    rw [outputText_cons, String.toList_append]
    exact (Text.isAscii_line v.toInt).append ih

/-- The text of a value is one word. -/
theorem words_intText (v : Int32) : Token.words (intText v.toInt) = [intText v.toInt] := by
  have hisWord := (Grammar.literal_intText v).isWord
  simpa using @Token.words_intercalate [intText v.toInt] (by simpa using hisWord)

/-- A line feed is a blank, so the words of an output are those of its lines. -/
theorem words_outputText (values : List Int32) :
    Token.words (outputText values) = values.map fun v => intText v.toInt := by
  induction values with
  | nil => exact Token.words_eq_nil_iff.2 (by simp [Token.IsBlankLine])
  | cons v values ih =>
    have hblank : Text.isBlank '\n' := by decide
    have hfeed : "\n".toList = ['\n'] := by decide
    have hword := words_intText v
    rw [Token.words, Token.scan] at hword ih ⊢
    rw [outputText_cons, String.toList_append, String.toList_append, hfeed, List.append_assoc,
      List.singleton_append, Token.map_text_scanFrom_append_blank hblank, hword, ih]
    rfl

/-- Texts of values are literals wherever they stand. -/
theorem Grammar.line_literals (functions : Dictionary) (values : List Int32) :
    Line functions (values.map fun v => intText v.toInt) (values.map .number) functions := by
  induction values with
  | nil => exact .nil
  | cons v values ih => exact .atom (.number (literal_intText v)) ih

/-- **Output is readable.** Lines of numbers are read back as the numbers, and their bytes are a
text. -/
theorem readsBack_outputText (values : List Int32) : ReadsBack (outputText values) values where
  lines := rfl
  reads := by
    have hline := Grammar.line_literals Dictionary.empty values
    rw [← words_outputText] at hline
    rw [Reader.readLine_of_line hline]
  ascii := by
    intro b hmem
    rw [Text.bytes_of_isAscii (isAscii_outputText values)] at hmem
    obtain ⟨c, hc, rfl⟩ := List.mem_map.1 hmem
    have hlow := isAscii_outputText values c hc
    rw [UInt8.lt_iff_toNat_lt]
    have hbyte : c.val.toUInt8.toNat = c.toNat % 256 := UInt32.toNat_toUInt8 c.val
    have hbound : (128 : UInt8).toNat = 128 := rfl
    omega
  decodes := Text.decode?_eq_some_iff.2 rfl

end Text

namespace Machine

variable {σ : Type} {functions : Dictionary} {m next : Machine Outputs} {i : Instruction}
  {limits : Limits} {before : String}

/-- Runs code after code on the same machine, each with its functions, whatever becomes of each. -/
def runEach (host : Host σ) (m : Machine σ) (runs : List (Dictionary × Code)) : Machine σ :=
  runs.foldl (fun m run => (m.run host run.1 run.2).1) m

/-- The values of the `OUT`s that succeed in runs, in order. -/
def outputs (host : Host σ) (m : Machine σ) (runs : List (Dictionary × Code)) : List Int32 :=
  (({ m with seen := {} } : Machine Outputs).runEach ⟨host.limits, Outputs.observe⟩
    runs).seen.values

/-- Runs do not depend on who watches. -/
theorem runEach_unwatched (host : Host σ) (m : Machine σ) (runs : List (Dictionary × Code)) :
    m.unwatched.runEach host.unwatched runs = (m.runEach host runs).unwatched := by
  induction runs generalizing m with
  | nil => rfl
  | cons run runs ih =>
    have hrun := congrArg Prod.fst (run_unwatched host run.1 m run.2)
    have hfirst : (m.unwatched.run host.unwatched run.1 run.2).1 =
        (m.run host run.1 run.2).1.unwatched := hrun
    rw [runEach, List.foldl_cons, hfirst]
    exact ih _

/-- The sink has room for everything, and what has been written since it held `before` are the
values that the observer has seen. -/
structure Agree (before : String) (m : Machine Outputs) : Prop where
  room : m.sink.room = none
  text : m.sink.text = before ++ outputText m.seen.values

/-- Moves of the stack are no output. -/
theorem foldl_moves_outputs (seen : Outputs) (moves : List Move) :
    (moves.map Move.event).foldl Outputs.observe seen = seen := by
  induction moves with
  | nil => rfl
  | cons move moves ih => cases move <;> exact ih

/-- Of an instruction the value on top at its start is kept, and what its finish makes of it. -/
theorem foldl_eventsOf_outputs (m : Machine Outputs) (i : Instruction) (moves : List Move)
    (height : Nat) (fault : Option Fault) :
    (m.eventsOf i moves height fault).foldl Outputs.observe m.seen =
      Outputs.observe { m.seen with top := m.stack.cells.head? } (.finish i height fault) := by
  rw [eventsOf, List.foldl_cons, List.foldl_append, foldl_moves_outputs]
  rfl

/-- The end of an instruction is output only if this is an `OUT` that has succeeded. -/
theorem values_observe_finish {fault : Option Fault} (h : fault = none → i ≠ .out)
    (seen : Outputs) (height : Nat) :
    (Outputs.observe seen (.finish i height fault)).values = seen.values := by
  unfold Outputs.observe
  split
  · rfl
  · rename_i hfinish
    obtain ⟨rfl, -, rfl⟩ := Event.finish.inj hfinish
    exact absurd rfl (h rfl)
  · rfl

/-- A step that writes a value is one whose value is seen. -/
theorem Tells.agree {events : List Event}
    (h : Tells ⟨limits, Outputs.observe⟩ functions m i next events)
    (hseen : next.seen = events.foldl Outputs.observe m.seen) (hm : m.Agree before) :
    next.Agree before := by
  obtain ⟨hroom, htext⟩ := hm
  cases h with
  | nothing => exact ⟨hroom, htext⟩
  | @out _ v hcells hsink =>
    rw [foldl_eventsOf_outputs, hcells] at hseen
    have hvalues : next.seen.values = m.seen.values ++ [v] := by
      rw [hseen]
      rfl
    have hwritten : next.sink.text = m.sink.text ++ (intText v.toInt ++ "\n") := by
      rw [hsink, Sink.write_of_room_none hroom]
    refine ⟨?_, ?_⟩
    · rw [hsink, Sink.write_of_room_none hroom]
      exact hroom
    · rw [hwritten, htext, hvalues, outputText_append, outputText_cons, outputText_nil,
        String.append_empty, String.append_assoc]
  | call _ _ _ hsink =>
    rw [List.foldl_append, foldl_eventsOf_outputs] at hseen
    have hvalues : next.seen.values = m.seen.values := by
      rw [hseen]
      rfl
    rw [← hsink] at hroom htext
    exact ⟨hroom, hvalues ▸ htext⟩
  | other _ hquiet hsink =>
    rw [foldl_eventsOf_outputs] at hseen
    rw [← hsink] at hroom htext
    refine ⟨hroom, ?_⟩
    rw [htext, hseen, values_observe_finish (fun hnone => (hquiet hnone).1)]

/-- Whatever a run ends in, what it has written are the values that have been seen. -/
theorem agree_run (functions : Dictionary) (code : Code) (hm : m.Agree before) :
    (m.run ⟨limits, Outputs.observe⟩ functions code).1.Agree before := by
  refine runTasks_keeps_state (I := fun after => after.Agree before) ?_ ?_ m _ hm
  · intro after depth h
    exact ⟨h.room, h.text⟩
  · intro after i h
    obtain ⟨events, hseen, htells⟩ := exists_tells ⟨limits, Outputs.observe⟩ functions after i
    exact htells.agree hseen h

/-- Runs, one after the other, keep output and values in agreement. -/
theorem agree_runEach (runs : List (Dictionary × Code)) (hm : m.Agree before) :
    (m.runEach ⟨limits, Outputs.observe⟩ runs).Agree before :=
  List.foldlRecOn runs _ hm fun _ h run _ => agree_run run.1 run.2 h

/-- With room for everything, runs add the output of the values that their `OUT`s take off. -/
theorem text_runEach (host : Host σ) {m : Machine σ} (hroom : m.sink.room = none)
    (runs : List (Dictionary × Code)) :
    (m.runEach host runs).sink.text = m.sink.text ++ outputText (m.outputs host runs) := by
  have hsink := congrArg Machine.sink (runEach_unwatched host m runs)
  have hsink' := congrArg Machine.sink
    (runEach_unwatched ⟨host.limits, Outputs.observe⟩ { m with seen := {} } runs)
  have hstart : Agree m.sink.text { m with seen := {} } := ⟨hroom, by simp⟩
  have hagree := (@agree_runEach _ host.limits _ runs hstart).text
  have hsame : (m.runEach host runs).sink =
      (({ m with seen := {} } : Machine Outputs).runEach ⟨host.limits, Outputs.observe⟩
        runs).sink :=
    hsink.symm.trans hsink'
  rw [hsame, hagree]
  rfl

end Machine

namespace Session

open Machine (Agree)

variable {σ : Type} {limits : Limits} {before : String}

/-- The values of the `OUT`s that succeed in steps, in order. -/
def outputs (host : Host σ) (s : Session σ) (steps : List Step) : List Int32 :=
  let watched : Session Outputs :=
    { reader := s.reader, machine := { s.machine with seen := {} }, linesRun := s.linesRun }
  (watched.performAll ⟨host.limits, Outputs.observe⟩ steps).machine.seen.values

/-- A session does not depend on who watches. -/
theorem performAll_unwatched (host : Host σ) (s : Session σ) (steps : List Step) :
    s.unwatched.performAll host.unwatched steps = (s.performAll host steps).unwatched := by
  induction steps generalizing s with
  | nil => rfl
  | cons step steps ih =>
    have hstep : (s.unwatched.perform host.unwatched step).1 =
        (s.perform host step).1.unwatched := by
      cases step with
      | line text => exact congrArg Prod.fst (runLine_unwatched host s text)
      | program input => exact congrArg Prod.fst (runProgram_unwatched host s input)
    rw [performAll, List.foldl_cons, hstep]
    exact ih _

/-- A line keeps output and values in agreement. -/
theorem agree_runLine (s : Session Outputs) (line : String) (hs : s.machine.Agree before) :
    (s.runLine ⟨limits, Outputs.observe⟩ line).1.machine.Agree before := by
  unfold runLine
  rcases s.reader.readLine line with ⟨reader, e | code⟩
  · exact hs
  · exact Machine.agree_run reader.functions code ⟨hs.room, hs.text⟩

/-- A step of a session does, too. -/
theorem agree_perform (s : Session Outputs) (step : Step) (hs : s.machine.Agree before) :
    (s.perform ⟨limits, Outputs.observe⟩ step).1.machine.Agree before := by
  have htexts := runTexts_keeps (P := fun s => s.machine.Agree before)
    (fun s text => @agree_runLine limits before s text) step.texts s hs
  rcases perform_eq_runTexts ⟨limits, Outputs.observe⟩ s step with hstep | hstep
  · rw [hstep]
    exact htexts
  · rw [hstep]
    exact ⟨htexts.room, htexts.text⟩

/-- With room for everything, steps add the output of the values that their `OUT`s take off. -/
theorem text_performAll (host : Host σ) {s : Session σ} (hroom : s.machine.sink.room = none)
    (steps : List Step) :
    (s.performAll host steps).machine.sink.text =
      s.machine.sink.text ++ outputText (s.outputs host steps) := by
  let watched : Session Outputs :=
    { reader := s.reader, machine := { s.machine with seen := {} }, linesRun := s.linesRun }
  have hstart : watched.machine.Agree s.machine.sink.text := ⟨hroom, by simp [watched]⟩
  have hagree : (watched.performAll ⟨host.limits, Outputs.observe⟩ steps).machine.Agree
      s.machine.sink.text :=
    List.foldlRecOn (motive := fun s : Session Outputs => s.machine.Agree _) steps _ hstart
      fun next h step _ => agree_perform next step h
  have hsame := (performAll_unwatched host s steps).symm.trans
    (performAll_unwatched ⟨host.limits, Outputs.observe⟩ watched steps)
  have htext := congrArg (fun s : Session Unit => s.machine.sink.text) hsame
  exact htext.trans hagree.text

section Literals

/-- The text of an `OUT` of a literal is one line. -/
theorem lineFeed_not_mem_bytes (v : Int32) : lineFeed ∉ bytes (intText v.toInt ++ " OUT") := by
  have hout : bytes " OUT" = [32, 79, 85, 84] := by cbv
  have hascii : IsAscii (intText v.toInt).toList := by
    have hline := Text.isAscii_line v.toInt
    rw [String.toList_append] at hline
    exact hline.of_isPrefix (List.prefix_append _ _)
  rw [Text.bytes_append, hout, List.mem_append, Text.bytes_of_isAscii hascii, intText,
    String.toList_ofList]
  rintro (hmem | hmem)
  · obtain ⟨c, hc, hfeed⟩ := List.mem_map.1 hmem
    rcases Text.isDigit_or_eq_of_mem_intDigits hc with hdigit | rfl
    · have hrange : 48 ≤ c.toNat ∧ c.toNat ≤ 57 := by
        simpa [Char.isDigit, UInt32.le_iff_toNat_le] using hdigit
      have hbyte : c.val.toUInt8.toNat = c.toNat % 256 := UInt32.toNat_toUInt8 c.val
      have hten : lineFeed.toNat = 10 := rfl
      rw [hfeed] at hbyte
      omega
    · exact absurd hfeed (by decide)
  · exact absurd hmem (by decide)

/-- The lines of a program of one line, which ends in a line feed only. -/
theorem lines_program {line : String} (hfeed : lineFeed ∉ bytes line)
    (hreturn : (bytes line).getLast? ≠ some carriageReturn) :
    Text.lines (bytes ("1\n" ++ line ++ "\n")) = [bytes "1", bytes line] := by
  have hone : bytes "1" = [49] := by cbv
  have hfirst : bytes "1\n" = [49, lineFeed] := by cbv
  have hlast : bytes "\n" = [lineFeed] := by cbv
  have hprogram : bytes ("1\n" ++ line ++ "\n") =
      [49] ++ lineFeed :: (bytes line ++ [lineFeed]) := by
    rw [Text.bytes_append, Text.bytes_append, hfirst, hlast]
    simp
  have hnotFeed : lineFeed ∉ ([49] : List UInt8) := by decide
  rw [hprogram, Text.lines_line hnotFeed, Text.lines_line hfeed, Text.chomp, Text.chomp,
    if_neg hreturn, hone]
  rfl

/-- A literal and an `OUT` leave the line of its value. -/
theorem run_literal (v : Int32) :
    Machine.run ⟨{}, .blind⟩ .empty { stack := .empty, sink := {}, seen := () } [.number v, .out] =
      ({ stack := .empty, sink := { text := intText v.toInt ++ "\n" }, executed := 2, seen := () },
        .ok ()) := by
  have hnumber : Machine.perform ⟨{}, .blind⟩ .empty { stack := .empty, sink := {}, seen := () }
      (.number v) = ({ stack := .ofList [v], sink := {}, executed := 1, seen := () }, .ok []) := rfl
  have hout : Machine.perform ⟨{}, .blind⟩ .empty
      { stack := .ofList [v], sink := {}, executed := 1, seen := () } .out =
        ({ stack := .empty, sink := { text := "" ++ (intText v.toInt ++ "\n") }, executed := 2,
           seen := () }, .ok []) := rfl
  rw [String.empty_append] at hout
  rw [Machine.run, List.map_cons, List.map_cons, List.map_nil, Machine.runTasks_perform_ok hnumber,
    List.nil_append, Machine.runTasks_perform_ok hout, List.nil_append, Machine.runTasks_nil]

/-- A line that prints a literal runs to its end. -/
theorem runLine_literal (v : Int32) :
    (start .empty {} ()).runLine ⟨{}, .blind⟩ (intText v.toInt ++ " OUT") =
      ({ reader := { linesRead := 1 }
         machine :=
           { stack := .empty
             sink := { text := intText v.toInt ++ "\n" }
             executed := 2
             seen := () }
         linesRun := 1 }, .ok ()) := by
  have hwords : Token.words (intText v.toInt ++ " OUT") = [intText v.toInt, "OUT"] := by
    have hsplit : intText v.toInt ++ " OUT" = intText v.toInt ++ " " ++ "OUT" := by
      rw [String.append_assoc]
      rfl
    have hout : Token.words "OUT" = ["OUT"] := by cbv
    rw [hsplit, Token.words_append_space, words_intText, hout]
    rfl
  have hline : Grammar.Line .empty (Token.words (intText v.toInt ++ " OUT")) [.number v, .out]
      .empty := by
    rw [hwords]
    exact .atom (.number (Grammar.literal_intText v)) (.atom (.opcode .out) .nil)
  have hread := @Reader.readLine_of_line {} _ _ _ hline
  have hreader : (start .empty {} () : Session Unit).reader = {} := rfl
  unfold runLine
  rw [hreader, hread]
  simp only
  rw [show Machine.run _ _ (Machine.note _ _ _) _ = _ from run_literal v]
  rfl

/-- A literal that is printed comes out as it is written. -/
theorem outputOf_literal (v : Int32) :
    outputOf ("1\n" ++ intText v.toInt ++ " OUT\n") = .ok (intText v.toInt ++ "\n") := by
  have hprogram : "1\n" ++ intText v.toInt ++ " OUT\n" =
      "1\n" ++ (intText v.toInt ++ " OUT") ++ "\n" := by
    simp [String.append_assoc]
  have hreturn : (bytes (intText v.toInt ++ " OUT")).getLast? ≠ some carriageReturn := by
    have hout : bytes " OUT" = [32, 79, 85, 84] := by cbv
    rw [Text.bytes_append, hout]
    simp [carriageReturn]
  have hopening : readCount (Text.lines (bytes ("1\n" ++ (intText v.toInt ++ " OUT") ++ "\n"))) =
      .ok (1, [bytes (intText v.toInt ++ " OUT")]) := by
    have hdecode : decode? (bytes "1") = some "1" := Text.decode?_eq_some_iff.2 rfl
    have hwords : Token.words "1" = ["1"] := by cbv
    have hcount : Text.readCounter UInt64.size "1".toList = .ok 1 := by cbv
    rw [lines_program (lineFeed_not_mem_bytes v) hreturn]
    simp only [readCount, hdecode, hwords, hcount]
  have hcounted : countedTexts (.ok (1, [bytes (intText v.toInt ++ " OUT")])) =
      [intText v.toInt ++ " OUT"] :=
    readable_of_decode (Text.decode?_eq_some_iff.2 rfl) []
  have hrun := runTexts_of_ok (runLine_literal v) []
  have hfolds := @foldsLines_of_readCount Unit ⟨{}, .blind⟩ (start .empty {} ()) _ _ hopening
  have hstate := hfolds.state
  have hresult := hfolds.complete 1 _ rfl (by rw [hcounted, hrun]; rfl) (by rw [hcounted]; rfl)
  rw [hcounted, hrun] at hstate
  rw [outputOf, Text.toList_toUTF8, hprogram]
  simp only [hresult, hstate]
  rfl

end Literals

/-- The output of a program is that of the values that its `OUT`s take off. -/
theorem eq_outputText_of_outputOf {program output : String} (h : outputOf program = .ok output) :
    output = outputText
      ((start .empty {} ()).outputs ⟨{}, .blind⟩ [.program program.toUTF8.toList]) := by
  have htext := text_performAll ⟨{}, .blind⟩ (s := start .empty {} ()) rfl
    [.program program.toUTF8.toList]
  have hstart : (start .empty {} () : Session Unit).machine.sink.text = "" := rfl
  rw [hstart, String.empty_append] at htext
  rw [← htext]
  unfold outputOf at h
  show output =
    ((start .empty {} ()).runProgram ⟨{}, .blind⟩ program.toUTF8.toList).1.machine.sink.text
  rcases hrun : (start .empty {} ()).runProgram ⟨{}, .blind⟩ program.toUTF8.toList with
    ⟨after, e | ⟨⟩⟩
  · simp only [hrun, Except.map] at h
    exact absurd h (by simp)
  · simp only [hrun, Except.map] at h
    exact (Except.ok.inj h).symm

/-- **Output reads back as source.** With a sink that has room for everything, whatever the limits
and whatever is on the machine: what any runs write, also runs that fail, is read back as the
literals of the values that `OUT` has taken off, in order; so is what the steps of a session write,
and so is the output of every program, which is its text and not only its bytes. A literal that is
printed comes out as it is written. -/
theorem output_reads_back {σ : Type} (host : Host σ) :
    (∀ (m : Machine σ) (runs : List (Dictionary × Code)), m.sink.room = none →
      ∃ text, (m.runEach host runs).sink.text = m.sink.text ++ text ∧
        ReadsBack text (m.outputs host runs)) ∧
    (∀ (s : Session σ) (steps : List Step), s.machine.sink.room = none →
      ∃ text, (s.performAll host steps).machine.sink.text = s.machine.sink.text ++ text ∧
        ReadsBack text (s.outputs host steps)) ∧
    (∀ program output, outputOf program = .ok output →
      ReadsBack output
        ((start .empty {} ()).outputs ⟨{}, .blind⟩ [.program program.toUTF8.toList])) ∧
    ∀ v : Int32,
      outputOf ("1\n" ++ intText v.toInt ++ " OUT\n") = .ok (intText v.toInt ++ "\n") := by
  refine ⟨?_, ?_, ?_, outputOf_literal⟩
  · intro m runs hroom
    exact ⟨_, Machine.text_runEach host hroom runs, readsBack_outputText _⟩
  · intro s steps hroom
    exact ⟨_, text_performAll host hroom steps, readsBack_outputText _⟩
  · intro program output h
    rw [eq_outputText_of_outputOf h]
    exact readsBack_outputText _

/-- A function that calls itself prints down from 2, and the run fails after that; the next one
prints the least value. Lines print negative values, and so does a program. -/
theorem output_reads_back_least :
    let host : Host Unit := { limits := {}, observe := .blind }
    let functions := Dictionary.empty.insert "F"
      [.dup, .out, .dup, .branch [.number 1, .binary .sub, .call "F"] []]
    let m : Machine Unit := { stack := .ofList [7], sink := { text := "a" }, seen := () }
    let runs : List (Dictionary × Code) :=
      [(functions, [.number 2, .call "F", .out, .out, .out, .number 1]),
        (.empty, [.number (-2147483648), .out])]
    let s : Session Unit := .start .empty {} ()
    let steps : List Step := [.line "DEF F OUT OUT END 4 -5 F 1", .line "7 OUT"]
    let program := "2\nDEF F OUT END\n-3 F\n"
    (m.sink.room = none ∧ (m.runEach host runs).sink.text = "a2\n1\n0\n0\n7\n-2147483648\n" ∧
      m.outputs host runs = [2, 1, 0, 0, 7, -2147483648]) ∧
    (s.machine.sink.room = none ∧ s.outputs host steps = [-5, 4, 7]) ∧
    outputOf program = .ok "-3\n" ∧
    (∃ text, (m.runEach host runs).sink.text = m.sink.text ++ text ∧
      ReadsBack text (m.outputs host runs)) ∧
    (∃ text, (s.performAll host steps).machine.sink.text = s.machine.sink.text ++ text ∧
      ReadsBack text (s.outputs host steps)) ∧
    ReadsBack "-3\n"
      ((start .empty {} ()).outputs ⟨{}, .blind⟩ [.program program.toUTF8.toList]) := by
  intro host functions m runs s steps program
  obtain ⟨hruns, hsteps, hprograms, -⟩ := output_reads_back host
  have hprogram : outputOf program = .ok "-3\n" := by
    simp only [program]
    cbv
  refine ⟨⟨rfl, ?_, ?_⟩, ⟨rfl, ?_⟩, hprogram, hruns m runs rfl, hsteps s steps rfl,
    hprograms program _ hprogram⟩
  · simp only [host, functions, m, runs]
    cbv
  · simp only [host, functions, m, runs]
    cbv
  · simp only [host, s, steps]
    cbv

end Session

end StackLang
