import StackLang.Proofs.Definitions
import StackLang.Proofs.Grammar.Completeness
import StackLang.Proofs.Histories
import StackLang.Proofs.Runs
import Mathlib

/-!
# Every call finds its function

A dictionary is closed if all calls in its bodies, at any depth, name functions that it has.
The grammar keeps dictionaries closed: in the definition of a function only the function
itself and functions known before may be called, and no function is ever lost, so neither a
call to itself nor a later definition of a name that others call can leave a call behind,
`Line.closed`. A line that fails leaves the dictionary of a first part of it. Running code
leads only to branches of it and to bodies of the dictionary, so no run of a session ever
looks for a function in vain.
-/

set_option autoImplicit false

namespace StackLang

mutual
/-- The names of the functions that an instruction calls, at any depth. -/
def Instruction.calls : Instruction → List String
  | .call name => [name]
  | .define _ body => callsOf body
  | .branch nonzero zero => callsOf nonzero ++ callsOf zero
  | _ => []
/-- The names of the functions that a sequence calls, at any depth. -/
def callsOf : Code → List String
  | [] => []
  | i :: is => i.calls ++ callsOf is
end

/-- The calls of code are those of its instructions. -/
theorem mem_callsOf {name : String} {code : Code} :
    name ∈ callsOf code ↔ ∃ i ∈ code, name ∈ i.calls := by
  induction code with
  | nil => simp [callsOf]
  | cons i code ih => simp [callsOf, ih]

namespace Dictionary

/-- Code calls only functions of the dictionary. -/
def Knows (functions : Dictionary) (code : Code) : Prop :=
  ∀ name ∈ callsOf code, functions.contains name

/-- All bodies of the dictionary call only functions of it. -/
def Closed (functions : Dictionary) : Prop :=
  ∀ name body, functions.find? name = some body → functions.Knows body

variable {functions final : Dictionary} {name : String} {body code : Code}

/-- Without functions there are no calls that lead nowhere. -/
theorem closed_empty : empty.Closed := by
  intro name body hfind
  simp at hfind

/-- Functions that are known stay known. -/
theorem Knows.insert (h : functions.Knows code) (name : String) (body : Code) :
    (functions.insert name body).Knows code := by
  intro callee hcallee
  rw [contains_insert, h callee hcallee, Bool.or_true]

/-- A body that calls itself and what is there keeps all calls known. -/
theorem Closed.insert (h : functions.Closed)
    (hbody : ∀ callee ∈ callsOf body, callee = name ∨ functions.contains callee) :
    (functions.insert name body).Closed := by
  intro other found hfind
  by_cases hother : other = name
  · subst hother
    obtain rfl : body = found := by simpa using hfind
    intro callee hcallee
    rw [contains_insert]
    rcases hbody callee hcallee with rfl | hknown
    · simp
    · simp [hknown]
  · rw [find?_insert_of_ne functions hother] at hfind
    exact (h other found hfind).insert name body

end Dictionary

namespace Grammar

/-- An instruction of one word calls nothing. -/
theorem Atom.calls_eq {word : String} {i : Instruction} (h : Atom word i) : i.calls = [] := by
  cases h with
  | number => simp [Instruction.calls]
  | opcode h => cases h <;> simp [Instruction.calls]

/-- The items of a block call what may be called in it. -/
theorem Items.callable_of_mem {callable : String → Prop} {block : Block} {ws : List String}
    {code : Code} (h : Items callable block ws code) : ∀ name ∈ callsOf code, callable name := by
  induction h with
  | nil => simp [callsOf]
  | item hi _ ih =>
    rw [callsOf]
    refine List.forall_mem_append.2 ⟨?_, ih⟩
    cases hi with
    | atom hi => simp [hi.calls_eq]
    | call _ _ _ _ hcall => exact List.forall_mem_singleton.2 hcall
  | branch _ _ ihn ih =>
    rw [callsOf, Instruction.calls, callsOf, List.append_nil]
    exact List.forall_mem_append.2 ⟨ihn, ih⟩
  | branchElse _ _ _ ihn ihz ih =>
    rw [callsOf, Instruction.calls]
    exact List.forall_mem_append.2 ⟨List.forall_mem_append.2 ⟨ihn, ihz⟩, ih⟩

variable {functions final : Dictionary} {ws : List String} {code : Code}

/-- A line takes no function out of the dictionary. -/
theorem Line.contains_mono (h : Line functions ws code final) {name : String}
    (hname : functions.contains name) : final.contains name := by
  rw [h.eq_insertAll]
  exact Dictionary.covers_insertAll functions _ name hname

/-- A line keeps all calls known. -/
theorem Line.closed (h : Line functions ws code final) (hclosed : functions.Closed) :
    final.Closed := by
  induction h with
  | nil => exact hclosed
  | atom _ _ ih => exact ih hclosed
  | call _ _ _ _ ih => exact ih hclosed
  | define hbody _ ih => exact ih (hclosed.insert hbody.callable_of_mem)

/-- The code of a line calls functions of the dictionary after the line. -/
theorem Line.knows (h : Line functions ws code final) : final.Knows code := by
  unfold Dictionary.Knows
  induction h with
  | nil => simp [callsOf]
  | atom hi _ ih =>
    rw [callsOf, hi.calls_eq, List.nil_append]
    exact ih
  | call _ _ hcall rest ih =>
    rw [callsOf]
    exact List.forall_mem_append.2 ⟨List.forall_mem_singleton.2 (rest.contains_mono hcall), ih⟩
  | define hbody rest ih =>
    rw [callsOf, Instruction.calls]
    refine List.forall_mem_append.2 ⟨fun name hname => rest.contains_mono ?_, ih⟩
    rw [Dictionary.contains_insert]
    rcases hbody.callable_of_mem name hname with rfl | hknown
    · simp
    · simp [hknown]

end Grammar

namespace Reader

open Grammar

/-- A line of text keeps all calls known, with or without a fault. -/
theorem closed_readLine {r : Reader} (h : r.functions.Closed) (line : String) :
    (r.readLine line).1.functions.Closed := by
  rcases hread : readTokens r.functions (Token.scan line) with ⟨final, result⟩
  obtain ⟨ws, code, -, hline⟩ := exists_line_of_readTokens hread
  have hfinal : (r.readLine line).1.functions = final := by simp [readLine, hread]
  rw [hfinal]
  exact hline.closed h

/-- Code that has just been read calls what is there. -/
theorem knows_readLine {r after : Reader} {line : String} {code : Code}
    (h : r.readLine line = (after, .ok code)) : after.functions.Knows code :=
  (line_of_readLine h).knows

/-- **The invariant of readers.** In every dictionary that lines have made, all calls are known. -/
theorem Reachable.closed {r : Reader} (h : r.Reachable) : r.functions.Closed := by
  induction h with
  | start => exact Dictionary.closed_empty
  | read _ line ih => exact closed_readLine ih line

end Reader

namespace Machine

variable {σ : Type} {host : Host σ} {functions : Dictionary}

/-- What is left to do calls functions of the dictionary. -/
def KnownTasks (functions : Dictionary) (tasks : List Task) : Prop :=
  ∀ i, .perform i ∈ tasks → ∀ name ∈ i.calls, functions.contains name

/-- The tasks of known code are known. -/
theorem knownTasks_map_perform {code : Code} (h : functions.Knows code) :
    KnownTasks functions (code.map .perform) := by
  intro i hi callee hcallee
  obtain ⟨j, hmem, heq⟩ := List.mem_map.1 hi
  obtain rfl := Task.perform.inj heq
  exact h callee (mem_callsOf.2 ⟨j, hmem, hcallee⟩)

/-- A step leaves tasks that are known, for bodies call what is there. -/
theorem knownTasks_perform {m next : Machine σ} {i : Instruction} {tasks rest : List Task}
    (hclosed : functions.Closed) (hknown : KnownTasks functions (.perform i :: rest))
    (h : m.perform host functions i = (next, .ok tasks)) :
    KnownTasks functions (tasks ++ rest) := by
  intro j hj name hname
  rcases List.mem_append.1 hj with hj | hj
  · rcases perform_tasks h j hj with ⟨callee, body, -, hfind, hmem⟩ | ⟨nonzero, zero, rfl, hmem⟩
    · exact hclosed callee body hfind name (mem_callsOf.2 ⟨j, hmem, hname⟩)
    · apply hknown _ List.mem_cons_self
      rw [Instruction.calls, List.mem_append]
      rcases hmem with hmem | hmem
      · exact .inl (mem_callsOf.2 ⟨j, hmem, hname⟩)
      · exact .inr (mem_callsOf.2 ⟨j, hmem, hname⟩)
  · exact hknown j (List.mem_cons_of_mem _ hj) name hname

/-- Code that calls functions of a closed dictionary never misses one when it runs. -/
theorem run_ne_unknownFunction {m : Machine σ} {code : Code} (hclosed : functions.Closed)
    (hknown : functions.Knows code) (i : Instruction) (depth executed : Nat) (name : String) :
    (m.run host functions code).2 ≠
      .error (.instructionFailed i depth executed (.unknownFunction name)) := by
  refine runTasks_keeps (I := fun _ tasks => KnownTasks functions tasks)
    (Q := fun r => r.2 ≠ .error (.instructionFailed i depth executed (.unknownFunction name)))
    ?_ ?_ ?_ ?_ m _ ?_
  · intro m _
    simp
  · intro m rest h j hj
    exact h j (List.mem_cons_of_mem _ hj)
  · intro m j rest next tasks h hperform
    exact knownTasks_perform hclosed h hperform
  · intro m j rest next e h hperform heq
    obtain rfl := Except.error.inj heq
    obtain ⟨rfl, hfind⟩ := perform_unknownFunction hperform
    have hcontains := h _ List.mem_cons_self name (by simp [Instruction.calls])
    simp [Dictionary.contains, hfind] at hcontains
  · exact knownTasks_map_perform hknown

end Machine

namespace Session

variable {σ : Type} {host : Host σ} {s : Session σ}

/-- No line of a session with known calls ends at an unknown function. -/
theorem runLine_ne_unknownFunction (h : s.reader.functions.Closed) (line : String) (number : Nat)
    (i : Instruction) (depth executed : Nat) (name : String) :
    (s.runLine host line).2 ≠
      .error (.running number (.instructionFailed i depth executed (.unknownFunction name))) := by
  have hclosed := Reader.closed_readLine h line
  rcases hread : s.reader.readLine line with ⟨reader, e | code⟩
  · rw [runLine_of_fault hread]
    simp
  · rw [hread] at hclosed
    obtain ⟨announced, hrun⟩ := @runLine_of_read σ host s reader code line hread
    have hne := @Machine.run_ne_unknownFunction σ host reader.functions announced code hclosed
      (Reader.knows_readLine hread) i depth executed name
    rw [hrun]
    intro heq
    apply hne
    cases hresult : (announced.run host reader.functions code).2 with
    | ok => simp [hresult, Except.mapError] at heq
    | error e =>
      have herror : e = .instructionFailed i depth executed (.unknownFunction name) := by
        simp only [hresult, Except.mapError, Except.error.injEq, SessionError.running.injEq] at heq
        exact heq.2
      rw [herror]

/-- What a session does keeps all calls known, and ends at no unknown function. -/
theorem closed_perform (h : s.reader.functions.Closed) (step : Step) :
    Kept host (fun s => s.reader.functions.Closed) (s.perform host step) := by
  have hline : ∀ (s : Session σ) text, s.reader.functions.Closed →
      (s.runLine host text).1.reader.functions.Closed := by
    intro s text hs
    rw [reader_runLine]
    exact Reader.closed_readLine hs text
  cases step with
  | line text => exact ⟨hline s text h, fun e he _ => ⟨s, text, h, he⟩⟩
  | program input => exact runProgram_keeps hline (fun _ _ hs => hs) h input

/-- **The invariant of sessions.** Whatever a session has run, all its calls are known. -/
theorem Reachable.closed {stack : Stack} {sink : Sink} {seen : σ}
    (h : Reachable host stack sink seen s) : s.reader.functions.Closed := by
  induction h with
  | start => exact Dictionary.closed_empty
  | step _ step ih => exact (closed_perform ih step).1

/-- **No dangling calls.** After any lines, faulty ones and redefinitions among them, every call in
a body of the dictionary and every call in the code of a line that is read next, at any depth,
names a function of the dictionary at that time; and no step of any session, under any limits
and from any initial stack, ever ends because a function is unknown. -/
theorem no_dangling_calls (host : Host σ) (stack : Stack) (sink : Sink) (seen : σ) :
    (∀ r : Reader, r.Reachable → r.functions.Closed ∧
      ∀ line after code, r.readLine line = (after, .ok code) → after.functions.Knows code) ∧
    ∀ s, Reachable host stack sink seen s → ∀ step number i depth executed name,
      (s.perform host step).2 ≠
        .error (.running number (.instructionFailed i depth executed (.unknownFunction name))) := by
  refine ⟨fun r hr => ⟨hr.closed, fun line after code hread => Reader.knows_readLine hread⟩, ?_⟩
  intro s hs step number i depth executed name heq
  obtain ⟨t, text, ht, hline⟩ := (closed_perform hs.closed step).2 _ heq trivial
  exact runLine_ne_unknownFunction ht text number i depth executed name hline

/-- A line that fails after its first definition, and two functions that come to call each other
because one of them is defined again. -/
theorem no_dangling_calls_redefined :
    let faulty := "DEF F F END DEF G H END"
    let again := "DEF G F END DEF F G END"
    let host : Host Unit := { limits := { depth := 5 }, observe := .blind }
    let r : Reader := ((({} : Reader).readLine faulty).1.readLine again).1
    let s : Session Unit :=
      (((Session.start .empty {} ()).perform host (.line faulty)).1.perform host (.line again)).1
    r.functions.names = ["F", "G"] ∧ r.functions.Closed ∧
      ∀ number i depth executed name, (s.perform host (.line "G")).2 ≠
        .error (.running number (.instructionFailed i depth executed (.unknownFunction name))) := by
  intro faulty again host r s
  have hr : r.Reachable := .read (.read .start faulty) again
  have hs : Reachable host .empty {} () s := .step (.step .start (.line faulty)) (.line again)
  obtain ⟨hreaders, hsessions⟩ := no_dangling_calls host .empty {} ()
  exact ⟨by cbv, (hreaders r hr).1, hsessions s hs (.line "G")⟩

end Session

end StackLang
