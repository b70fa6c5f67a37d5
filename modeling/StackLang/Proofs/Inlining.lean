import Mathlib
import StackLang.Proofs.Observers
import StackLang.Proofs.OpenCalls
import StackLang.Proofs.Views

/-!
# A call means its body

Take a machine, and one that is ahead of it: on the same stack and the same sink, more has been run
and more calls are open. What these do differs in what they report of a failing instruction, its
depth and its count, and in where the limits of operations and of open calls stop them. If these do
not stop the machine that is ahead, then it does what the other one does, and stays ahead as much:
`perform_ahead` for a step and `runTasks_ahead` for a run, for which as many calls have to be open
as it leaves.

A call puts the machine ahead by itself, one count and one open call, until the body is over. After
the body it is ahead by one count. So code in which a call is replaced by its body ends alike:
`run_call_eq_run_body`.
-/

set_option autoImplicit false

namespace StackLang

namespace RunError

/-- The error of a machine on which more calls are open and more has been run. -/
def ahead (calls count : Nat) : RunError → RunError
  | .instructionFailed i depth executed fault =>
    .instructionFailed i (depth + calls) (executed + count) fault
  | .tooLong executed => .tooLong (executed + count)
  | .output cause => .output cause

/-- Whether an error is that of the limit of operations, or that of open calls. -/
def Runaway : RunError → Prop
  | .instructionFailed _ _ _ (.tooDeep _) => True
  | .tooLong _ => True
  | _ => False

end RunError

/-- A result that is no error, or one that is not about how much has been run before. -/
def Settles {α : Type} (result : Except RunError α) : Prop := ∀ e, result = .error e → ¬ e.Runaway

/-- Of a result that settles, each part does whose errors are errors of the whole. -/
theorem Settles.of_errors {α β : Type} {part : Except RunError α} {whole : Except RunError β}
    (h : Settles whole) (herrors : ∀ e, part = .error e → whole = .error e) : Settles part :=
  fun e he => h e (herrors e he)

namespace Machine

variable {calls count : Nat} {functions : Dictionary} {i : Instruction}

/-- A machine with more open calls, on which more has been run. -/
def ahead {σ : Type} (calls count : Nat) (m : Machine σ) : Machine σ :=
  { m with executed := m.executed + count, depth := m.depth + calls }

section Steps

variable {host : Host Unit} {m next : Machine Unit}

/-- Where there is nothing to be seen, events leave no trace. -/
theorem note_eq (host : Host Unit) (event : Event) (m : Machine Unit) : note host event m = m := rfl

/-- Of the depth a plan sees whether it is at its limit. -/
theorem plan_ahead {limits : Limits} {depth : Nat} {stack : Stack}
    (h : ∀ limit, i.plan limits functions (depth + calls) stack ≠ .error (.tooDeep limit)) :
    i.plan limits functions (depth + calls) stack = i.plan limits functions depth stack := by
  cases i with
  | call name =>
    have hdeep := h limits.depth.toNat
    rw [Instruction.plan] at hdeep ⊢
    rw [Instruction.plan]
    cases hfind : functions.find? name with
    | none => rfl
    | some body =>
      simp only [hfind] at hdeep ⊢
      by_cases hlimit : limits.depth.toNat ≤ depth + calls
      · exact absurd (if_pos hlimit) hdeep
      · rw [if_neg hlimit, if_neg (by omega)]
  | _ => rfl

/-- A machine that is ahead applies an instruction alike, unless it has too many calls open. -/
theorem apply_ahead
    (h : ∀ limit, ((m.ahead calls count).apply host functions i).2 ≠ .error (.tooDeep limit)) :
    (m.ahead calls count).apply host functions i =
      (m.apply host functions i).map (ahead calls count) id := by
  have hplan : i.plan host.limits functions (m.depth + calls) m.stack =
      i.plan host.limits functions m.depth m.stack := by
    refine plan_ahead fun limit hdeep => h limit ?_
    show (apply host functions (m.ahead calls count) i).2 = _
    unfold apply
    rw [show i.plan host.limits functions (m.ahead calls count).depth (m.ahead calls count).stack =
      _ from hdeep]
  unfold apply
  rw [show i.plan host.limits functions (m.ahead calls count).depth (m.ahead calls count).stack =
    _ from hplan]
  cases i.plan host.limits functions m.depth m.stack with
  | error fault => rfl
  | ok plan =>
    have hplay := @play_map Unit Unit host host (ahead calls count) rfl (fun _ => rfl)
      (fun _ _ => rfl) (fun _ _ => rfl) m plan.moves
    simp only [hplay]
    rfl

/-- A machine that is ahead does with an instruction what the other one does, as far as it is not
stopped. -/
theorem execute_ahead (h : Settles ((m.ahead calls count).execute host functions i).2) :
    (m.ahead calls count).execute host functions i =
      (m.execute host functions i).map (ahead calls count)
        (Except.mapError (RunError.ahead calls count)) := by
  have hcount : (m.ahead calls count).executed = m.executed + count := rfl
  by_cases hlimit : host.limits.operations.toNat ≤ m.executed + count
  · have hlong : ((m.ahead calls count).execute host functions i).2 =
        .error (.tooLong (m.executed + count)) := by
      rw [execute, hcount, if_pos hlimit]
    exact absurd trivial (h _ hlong)
  · have hless : ¬ host.limits.operations.toNat ≤ m.executed := by omega
    have hroom : (m.ahead calls count).executed < host.limits.operations.toNat := by omega
    have happly : (m.ahead calls count).apply host functions i =
        (m.apply host functions i).map (ahead calls count) id := by
      refine apply_ahead fun limit hdeep => ?_
      have hresult := @result_execute _ host functions _ i hroom
      rw [note_eq, hdeep] at hresult
      exact h _ hresult trivial
    rw [execute, execute, hcount, if_neg hlimit, if_neg hless, note_eq, note_eq, happly]
    rcases m.apply host functions i with ⟨after, fault | effect⟩
    · refine Prod.ext (Machine.ext rfl rfl ?_ rfl rfl) rfl
      exact Nat.add_right_comm _ _ _
    · refine Prod.ext (Machine.ext rfl rfl ?_ rfl rfl) rfl
      exact Nat.add_right_comm _ _ _

/-- A machine that is ahead prints, follows and enters alike, and stays ahead. -/
theorem realize_ahead (effect : Effect) :
    (m.ahead calls count).realize host effect =
      (m.realize host effect).map (ahead calls count)
        (Except.mapError (RunError.ahead calls count)) := by
  cases effect with
  | print v =>
    have hsink : (m.ahead calls count).sink = m.sink := rfl
    rw [realize, realize, print, print, hsink]
    rcases m.sink.write (Text.intText v.toInt ++ "\n") with ⟨sink, cause | ⟨⟩⟩
    · rfl
    · rfl
  | enter name body =>
    refine Prod.ext (Machine.ext rfl rfl rfl ?_ rfl) rfl
    exact Nat.add_right_comm _ _ _
  | nothing | follow => rfl

/-- An instruction that fails fails its step. -/
theorem perform_error_of_execute {e : RunError} (h : (m.execute host functions i).2 = .error e) :
    (m.perform host functions i).2 = .error e := by
  have hexec : m.execute host functions i = ((m.execute host functions i).1, .error e) :=
    Prod.ext rfl h
  rw [perform, hexec]

/-- **A step of a machine that is ahead** is a step of the other one, if it is not stopped. -/
theorem perform_ahead (h : Settles ((m.ahead calls count).perform host functions i).2) :
    (m.ahead calls count).perform host functions i =
      (m.perform host functions i).map (ahead calls count)
        (Except.mapError (RunError.ahead calls count)) := by
  have hexec := execute_ahead (h.of_errors fun _ => perform_error_of_execute)
  unfold perform
  rw [hexec]
  rcases m.execute host functions i with ⟨after, e | effect⟩
  · rfl
  · exact realize_ahead effect

/-- A step that fails fails the run. -/
theorem runTasks_error_of_perform {e : RunError} (h : (m.perform host functions i).2 = .error e)
    (rest : List Task) : (m.runTasks host functions (.perform i :: rest)).2 = .error e := by
  rw [runTasks_perform_error (Prod.ext rfl h)]

/-- **A run of a machine that is ahead** is a run of the other one, if it is not stopped. As many
calls as it leaves are open on both. -/
theorem runTasks_ahead {tasks : List Task} (hopen : openCalls tasks ≤ m.depth)
    (h : Settles ((m.ahead calls count).runTasks host functions tasks).2) :
    (m.ahead calls count).runTasks host functions tasks =
      (m.runTasks host functions tasks).map (ahead calls count)
        (Except.mapError (RunError.ahead calls count)) := by
  induction m, tasks using runTasks.induct host functions with
  | case1 m =>
    rw [runTasks_nil, runTasks_nil]
    rfl
  | case2 m rest ih =>
    rw [openCalls_leave_cons] at hopen
    have hleave : (m.ahead calls count).leave = m.leave.ahead calls count := by
      refine Machine.ext rfl rfl rfl ?_ rfl
      show m.depth + calls - 1 = m.depth - 1 + calls
      omega
    have hrest : openCalls rest ≤ m.leave.depth := Nat.le_sub_one_of_lt hopen
    rw [runTasks_leave, hleave] at h ⊢
    rw [runTasks_leave]
    exact ih hrest h
  | case3 m i rest next tasks hperform ih =>
    have hahead := perform_ahead (h.of_errors fun _ he => runTasks_error_of_perform he rest)
    rw [hperform] at hahead
    have hnext := depth_perform hperform
    have hrest : openCalls (.perform i :: rest) = openCalls rest := rfl
    rw [runTasks_perform_ok hahead] at h ⊢
    rw [runTasks_perform_ok hperform]
    refine ih ?_ h
    rw [openCalls_append]
    omega
  | case4 m i rest next e hperform =>
    have hahead := perform_ahead (h.of_errors fun _ he => runTasks_error_of_perform he rest)
    rw [hperform] at hahead
    have hnext := depth_perform_error hperform
    have hrest : openCalls (.perform i :: rest) = openCalls rest := rfl
    rw [runTasks_perform_error hahead, runTasks_perform_error hperform]
    refine Prod.ext (Machine.ext rfl rfl rfl ?_ rfl) rfl
    show next.depth + calls - openCalls rest = next.depth - openCalls rest + calls
    omega

/-- A run from a machine that is ahead is the run from the other one, the counts in its errors
apart, unless a limit stops it. -/
theorem run_ahead {code : Code} (h : Settles ((m.ahead calls count).run host functions code).2) :
    (m.ahead calls count).run host functions code =
      (m.run host functions code).map (ahead calls count)
        (Except.mapError (RunError.ahead calls count)) := by
  refine runTasks_ahead ?_ h
  rw [openCalls_map_perform]
  exact Nat.zero_le _

end Steps

section Calls

variable {host : Host Unit} {m after inner : Machine Unit} {name : String} {body post : Code}

/-- A call of a function that has a body is made, if no limit stops it. -/
theorem execute_call (hfind : functions.find? name = some body)
    (h : Settles (m.execute host functions (.call name)).2) :
    m.execute host functions (.call name) =
      ({ m with executed := m.executed + 1 }, .ok (.enter name body)) := by
  unfold execute at h ⊢
  by_cases hlimit : host.limits.operations.toNat ≤ m.executed
  · rw [if_pos hlimit] at h
    exact absurd trivial (h _ rfl)
  · rw [if_neg hlimit, note_eq] at h ⊢
    by_cases hdeep : host.limits.depth.toNat ≤ m.depth
    · have hplan : (Instruction.call name).plan host.limits functions m.depth m.stack =
          .error (.tooDeep host.limits.depth.toNat) := by
        simp [Instruction.plan, hfind, hdeep]
      rw [apply, hplan] at h
      exact absurd trivial (h _ rfl)
    · have hplan : (Instruction.call name).plan host.limits functions m.depth m.stack =
          .ok { moves := [], effect := .enter name body } := by
        simp [Instruction.plan, hfind, hdeep]
      rw [apply, hplan]
      rfl

/-- An evaluation from a machine that is ahead is that from the other one, in the same way. -/
theorem eval_ahead {calls count : Nat} {code : Code}
    (h : Settles ((m.ahead calls count).eval host functions code).2) :
    (m.ahead calls count).eval host functions code =
      (m.eval host functions code).map (ahead calls count)
        (Except.mapError (RunError.ahead calls count)) := by
  rw [← run_eq_eval] at h ⊢
  rw [← run_eq_eval]
  exact run_ahead h

/-- An instruction that fails fails the code that it stands first in. -/
theorem eval_error_of_execute {e : RunError} (h : (m.execute host functions i).2 = .error e)
    (rest : Code) : (m.eval host functions (i :: rest)).2 = .error e := by
  have hexec : m.execute host functions i = ((m.execute host functions i).1, .error e) :=
    Prod.ext rfl h
  rw [eval_cons, hexec]

/-- If the body of a call fails, then its error is that of the code, and the call is left. -/
theorem eval_enter_of_error {e : RunError}
    (hexec : m.execute host functions i = (after, .ok (.enter name body)))
    (hbody : (enter host name after).eval host functions body = (inner, .error e)) (rest : Code) :
    m.eval host functions (i :: rest) = (inner.leave, .error e) := by
  rw [eval_cons, hexec]
  simp only [hbody]

/-- If the body of a call succeeds, then the code goes on after it, and the call is left. -/
theorem eval_enter_of_ok (hexec : m.execute host functions i = (after, .ok (.enter name body)))
    (hbody : (enter host name after).eval host functions body = (inner, .ok ())) (rest : Code) :
    m.eval host functions (i :: rest) = inner.leave.eval host functions rest := by
  rw [eval_cons, hexec]
  simp only [hbody]

/-- What code comes to after a call: if the body fails, then to its error, with the call open, and
otherwise to what the code comes to after the body. The call itself is counted on top. -/
theorem eval_call (hfind : functions.find? name = some body)
    (h : Settles (m.eval host functions (.call name :: post)).2) :
    (∀ inner e, m.eval host functions body = (inner, .error e) →
      m.eval host functions (.call name :: post) = (inner.ahead 0 1, .error (e.ahead 1 1))) ∧
    ∀ inner, m.eval host functions body = (inner, .ok ()) →
      m.eval host functions (.call name :: post) =
        (inner.eval host functions post).map (ahead 0 1)
          (Except.mapError (RunError.ahead 0 1)) := by
  have hexec := execute_call hfind (h.of_errors fun _ he => eval_error_of_execute he post)
  -- in the body the machine is ahead by the call, which is counted and open
  have hbody := @eval_ahead functions host m 1 1 body <| h.of_errors fun e he => by
    rw [eval_enter_of_error hexec (Prod.ext rfl he)]
  refine ⟨fun inner e hinner => ?_, fun inner hinner => ?_⟩
  · rw [hinner] at hbody
    exact eval_enter_of_error hexec hbody post
  · rw [hinner] at hbody
    have hcall : m.eval host functions (.call name :: post) =
        (inner.ahead 0 1).eval host functions post :=
      eval_enter_of_ok hexec hbody post
    rw [hcall] at h ⊢
    exact eval_ahead h

end Calls

variable {σ : Type}

/-- Two runs that end alike: in the second one a call has been replaced by its body. -/
structure EndsAlike (calls : Nat) (called inlined : Machine σ × Except RunError Unit) : Prop where
  stack : inlined.1.stack = called.1.stack
  sink : inlined.1.sink = called.1.sink
  depth : inlined.1.depth = called.1.depth
  /-- The call is not counted. -/
  executed : inlined.1.executed + 1 = called.1.executed
  /-- Both succeed, or the same instruction fails for the same reason, or the sink fails alike. -/
  result : called.2 = inlined.2.mapError (RunError.ahead calls 1)

/-- Two outcomes end alike if the unobserved ones differ by the counts in their errors only. -/
theorem EndsAlike.of_unwatched {calls : Nat} {called inlined : Machine σ × Except RunError Unit}
    (h : called.map unwatched id =
      (inlined.map unwatched id).map (ahead 0 1) (Except.mapError (RunError.ahead calls 1))) :
    EndsAlike calls called inlined where
  stack := (congrArg (fun r => r.1.stack) h).symm
  sink := (congrArg (fun r => r.1.sink) h).symm
  depth := (congrArg (fun r => r.1.depth) h).symm
  executed := (congrArg (fun r => r.1.executed) h).symm
  result := congrArg Prod.snd h

/-- What becomes of code in which a call is replaced by a body. -/
structure MeansBody (host : Host σ) (functions : Dictionary) (m : Machine σ) (pre body : Code)
    (called inlined : Machine σ × Except RunError Unit) : Prop where
  /-- If the code in front of the call fails, then there is no difference at all. -/
  unreached (e : RunError) (h : (m.run host functions pre).2 = .error e) : called = inlined
  /-- If the call is reached and the body succeeds, then what follows is the same. -/
  returns (before inner : Machine σ) (h : m.run host functions pre = (before, .ok ()))
    (hbody : before.run host functions body = (inner, .ok ())) : EndsAlike 0 called inlined
  /-- If the body fails, then its error tells of one open call more. -/
  fails (before inner : Machine σ) (e : RunError) (h : m.run host functions pre = (before, .ok ()))
    (hbody : before.run host functions body = (inner, .error e)) : EndsAlike 1 called inlined

section Around

variable {host : Host σ} {m before inner : Machine σ} {name : String} {body pre post : Code}

/-- Evaluation does not depend on who watches. -/
theorem eval_unwatched (host : Host σ) (functions : Dictionary) (m : Machine σ) (code : Code) :
    m.unwatched.eval host.unwatched functions code =
      (m.eval host functions code).map unwatched id := by
  rw [← run_eq_eval, ← run_eq_eval]
  exact run_unwatched host functions m code

/-- Code with a call in it, of which the part in front of the call has run: what it comes to apart
from what an observer knows, by what the body comes to. -/
theorem eval_call_unwatched (hfind : functions.find? name = some body)
    (h : Settles (m.eval host functions (pre ++ .call name :: post)).2)
    (hpre : m.eval host functions pre = (before, .ok ())) :
    (∀ inner e, before.eval host functions body = (inner, .error e) →
      (m.eval host functions (pre ++ .call name :: post)).map unwatched id =
        (inner.unwatched.ahead 0 1, .error (e.ahead 1 1))) ∧
    ∀ inner, before.eval host functions body = (inner, .ok ()) →
      (m.eval host functions (pre ++ .call name :: post)).map unwatched id =
        ((inner.eval host functions post).map unwatched id).map (ahead 0 1)
          (Except.mapError (RunError.ahead 0 1)) := by
  have hrest := eval_unwatched host functions before (.call name :: post)
  rw [eval_append_of_ok hpre] at h ⊢
  have hsettles : Settles
      (before.unwatched.eval host.unwatched functions (.call name :: post)).2 := by
    rw [hrest]
    exact h
  obtain ⟨hfails, hreturns⟩ := eval_call hfind hsettles
  rw [eval_unwatched, hrest] at hfails hreturns
  refine ⟨fun inner e hbody => hfails _ e ?_, fun inner hbody => ?_⟩
  · rw [hbody]
    rfl
  · rw [hreturns inner.unwatched (by rw [hbody]; rfl), eval_unwatched]

/-- A call whose body returns does what the body does in its place, with one instruction more. -/
theorem endsAlike_of_returns (hfind : functions.find? name = some body)
    (h : Settles (m.eval host functions (pre ++ .call name :: post)).2)
    (hpre : m.eval host functions pre = (before, .ok ()))
    (hbody : before.eval host functions body = (inner, .ok ())) :
    EndsAlike 0 (m.eval host functions (pre ++ .call name :: post))
      (m.eval host functions (pre ++ body ++ post)) := by
  refine .of_unwatched ?_
  rw [(eval_call_unwatched hfind h hpre).2 inner hbody, List.append_assoc,
    eval_append_of_ok hpre, eval_append_of_ok hbody]

/-- A call whose body fails fails as the body does in its place, with one call more open. -/
theorem endsAlike_of_fails {e : RunError} (hfind : functions.find? name = some body)
    (h : Settles (m.eval host functions (pre ++ .call name :: post)).2)
    (hpre : m.eval host functions pre = (before, .ok ()))
    (hbody : before.eval host functions body = (inner, .error e)) :
    EndsAlike 1 (m.eval host functions (pre ++ .call name :: post))
      (m.eval host functions (pre ++ body ++ post)) := by
  refine .of_unwatched ?_
  rw [(eval_call_unwatched hfind h hpre).1 inner e hbody, List.append_assoc,
    eval_append_of_ok hpre, eval_append_of_error hbody]
  rfl

/-- **A call means its body.** For every function that has a body, and all code around a call of it:
if the run is stopped neither by the limit of operations nor by that of open calls, then the run in
which the body stands in place of the call ends alike, with one instruction less if the call is
reached. -/
theorem run_call_eq_run_body (hfind : functions.find? name = some body) (m : Machine σ)
    (pre post : Code) (h : Settles (m.run host functions (pre ++ .call name :: post)).2) :
    MeansBody host functions m pre body (m.run host functions (pre ++ .call name :: post))
      (m.run host functions (pre ++ body ++ post)) := by
  rw [run_eq_eval] at h ⊢
  rw [run_eq_eval]
  refine ⟨fun e hpre => ?_, fun before inner hpre hbody => ?_, fun before inner e hpre hbody => ?_⟩
  · rw [run_eq_eval] at hpre
    have hfails : m.eval host functions pre = ((m.eval host functions pre).1, .error e) :=
      Prod.ext rfl hpre
    rw [List.append_assoc, eval_append_of_error hfails, eval_append_of_error hfails]
  · rw [run_eq_eval] at hpre hbody
    exact endsAlike_of_returns hfind h hpre hbody
  · rw [run_eq_eval] at hpre hbody
    exact endsAlike_of_fails hfind h hpre hbody

/-- A function that divides 6 by smaller and smaller values, and calls itself until it fails. Called
where a value is printed and another one follows. -/
theorem run_call_eq_run_body_division :
    let body : Code := [.dup, .number 6, .swap, .binary .div, .out, .number 1, .binary .sub,
      .call "F"]
    let functions := Dictionary.empty.insert "F" body
    let host : Host Unit := { limits := { depth := 4 }, observe := .blind }
    let m : Machine Unit := { stack := .empty, sink := {}, seen := () }
    let pre : Code := [.number 5, .out, .number 2]
    let post : Code := [.number 9, .out]
    let called := m.run host functions (pre ++ .call "F" :: post)
    let inlined := m.run host functions (pre ++ body ++ post)
    functions.find? "F" = some body ∧ Settles called.2 ∧
      called.1.sink.text = "5\n3\n6\n" ∧ inlined.1.sink.text = "5\n3\n6\n" ∧
      called.2 = .error (.instructionFailed (.binary .div) 3 23 .divisionByZero) ∧
      inlined.2 = .error (.instructionFailed (.binary .div) 2 22 .divisionByZero) ∧
      MeansBody host functions m pre body called inlined := by
  intro body functions host m pre post called inlined
  have hfind : functions.find? "F" = some body := by
    simp only [functions, body]
    cbv
  have hcalled : called.2 = .error (.instructionFailed (.binary .div) 3 23 .divisionByZero) := by
    simp only [called, host, functions, m, pre, post, body]
    cbv
  have hsettles : Settles called.2 := by
    rintro e he
    obtain rfl := Except.error.inj (hcalled.symm.trans he)
    exact id
  refine ⟨hfind, hsettles, ?_, ?_, hcalled, ?_, run_call_eq_run_body hfind m pre post hsettles⟩
  · simp only [called, host, functions, m, pre, post, body]
    cbv
  · simp only [inlined, host, functions, m, pre, post, body]
    cbv
  · simp only [inlined, host, functions, m, pre, post, body]
    cbv

end Around

end Machine

end StackLang
