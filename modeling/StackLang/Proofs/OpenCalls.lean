import StackLang.Proofs.Budget
import StackLang.Proofs.Histories
import StackLang.Proofs.Nesting

/-!
# The calls that are open

Evaluation is inside a call from the moment at which the body is entered to the moment at which
it is left, however many branches and calls there are in between. `Inside` says so along the
nesting of the code, with the names of the open calls. The machine keeps no such names but a
number, which it raises and lowers by hand: the number is right at every moment
(`Inside.depth_eq`), it does not exceed its limit (`Inside.depth_le`), and whatever code ends in, it
is what it was before (`depth_eval`).

A run works through a flat list of tasks. Each of its moments is a moment of the nested evaluation
with a marker for each open call, `inside_of_reaches`, so all this can be said of runs.
`KeepsDepth` collects it, and `call_depth_exact` says it of every run in any sequence of runs, and
of every session.
-/

set_option autoImplicit false

namespace StackLang

/-- A call is planned only if one more may be open. -/
theorem Instruction.Plans.depth_lt_of_enter {limits : Limits} {functions : Dictionary} {depth : Nat}
    {stack : Stack} {i : Instruction} {p : Plan} {name : String} {body : Code}
    (h : Plans limits functions depth stack i p) (heffect : p.effect = .enter name body) :
    depth < limits.depth.toNat := by
  cases h with
  | call _ hdepth => exact hdepth
  | _ => simp at heffect

namespace Machine

variable {σ : Type} {host : Host σ} {functions : Dictionary} {m next after now : Machine σ}
  {i : Instruction} {code left : Code} {names : List String}

@[simp]
theorem openCalls_append (tasks rest : List Task) :
    openCalls (tasks ++ rest) = openCalls tasks + openCalls rest :=
  List.countP_append

@[simp]
theorem openCalls_map_perform (code : Code) : openCalls (code.map .perform) = 0 := by
  simp [openCalls, List.countP_eq_zero]

section Restored

/-- An instruction opens and closes no call by itself. -/
theorem depth_execute {result : Except RunError Effect}
    (h : m.execute host functions i = (after, result)) : after.depth = m.depth := by
  have hframe := (frame_execute host functions m i).2
  rwa [h] at hframe

/-- A step opens a call for each marker that it leaves behind. -/
theorem depth_perform {tasks : List Task} (h : m.perform host functions i = (next, .ok tasks)) :
    next.depth = m.depth + openCalls tasks := by
  cases performs_of_perform h with
  | nothing hexec => exact depth_execute hexec
  | follow hexec =>
    rw [openCalls_map_perform]
    exact depth_execute hexec
  | @print after _ v hexec hprint =>
    have hprinted : (after.print v).1.depth = after.depth := rfl
    rw [hprint] at hprinted
    rw [hprinted]
    exact depth_execute hexec
  | enter hexec =>
    rw [openCalls_append, openCalls_map_perform, ← depth_execute hexec]
    rfl

/-- A step that fails opens no call. -/
theorem depth_perform_error {e : RunError} (h : m.perform host functions i = (next, .error e)) :
    next.depth = m.depth := by
  rcases hexec : m.execute host functions i with ⟨after, e' | effect⟩
  · have hfailed : m.perform host functions i = (after, .error e') := by simp [perform, hexec]
    obtain ⟨rfl, -⟩ := Prod.mk.inj (h.symm.trans hfailed)
    exact depth_execute hexec
  · have hrealize : after.realize host effect = (next, .error e) := by
      rw [← h]
      simp [perform, hexec]
    cases effect with
    | print v =>
      -- the sink has refused the value, and nothing else has changed
      have hprinted : ((after.print v).1).depth = after.depth := rfl
      obtain ⟨rfl, -⟩ := Prod.mk.inj hrealize
      exact hprinted.trans (depth_execute hexec)
    | _ => simp [realize] at hrealize

/-- With a marker for each call that it has to leave, a run leaves them all. -/
theorem depth_runTasks {depth : Nat} (tasks : List Task) (h : m.depth = depth + openCalls tasks) :
    (m.runTasks host functions tasks).1.depth = depth := by
  refine runTasks_keeps (I := fun m tasks => m.depth = depth + openCalls tasks)
    (Q := fun r => r.1.depth = depth) ?_ ?_ ?_ ?_ m tasks h
  · intro m hm
    exact hm
  · intro m rest hm
    rw [openCalls_leave_cons] at hm
    show m.depth - 1 = _
    omega
  · intro m i rest next tasks hm hperform
    have hnext := depth_perform hperform
    have hrest : openCalls (.perform i :: rest) = openCalls rest := rfl
    rw [openCalls_append]
    omega
  · intro m i rest next e hm hperform
    have hnext := depth_perform_error hperform
    have hrest : openCalls (.perform i :: rest) = openCalls rest := rfl
    show next.depth - openCalls rest = depth
    omega

/-- **No call is left open.** Whatever the evaluation of code ends in, as many calls are open as
before. -/
theorem depth_eval (host : Host σ) (functions : Dictionary) (m : Machine σ) (code : Code) :
    (m.eval host functions code).1.depth = m.depth := by
  rw [← run_eq_eval]
  exact depth_runTasks _ (by simp)

/-- Code that is evaluated leaves as many calls open as there were, whatever it ends in. -/
theorem depth_of_eval {result : Except RunError Unit}
    (h : m.eval host functions code = (next, result)) : next.depth = m.depth := by
  have hdepth := depth_eval host functions m code
  rwa [h] at hdepth

end Restored

section First

variable {inner : Machine σ} {block : Code} {name : String}

/-- An instruction that goes on with nothing is evaluated. -/
theorem eval_of_nothing (hexec : m.execute host functions i = (after, .ok .nothing)) :
    m.eval host functions [i] = (after, .ok ()) := by
  rw [eval_cons]
  simp [hexec]

/-- One that prints is evaluated if the value can be written. -/
theorem eval_of_print {v : Int32} (hexec : m.execute host functions i = (after, .ok (.print v)))
    (hprint : after.print v = (next, .ok ())) : m.eval host functions [i] = (next, .ok ()) := by
  rw [eval_cons]
  simp [hexec, hprint]

/-- One that goes on with a branch is evaluated as the branch. -/
theorem eval_of_follow (hexec : m.execute host functions i = (after, .ok (.follow block)))
    (hinner : after.eval host functions block = (inner, .ok ())) :
    m.eval host functions [i] = (inner, .ok ()) := by
  rw [eval_cons]
  simp [hexec, hinner]

/-- One that enters a function is evaluated as its body, in a call that is then left. -/
theorem eval_of_enter (hexec : m.execute host functions i = (after, .ok (.enter name block)))
    (hinner : (enter host name after).eval host functions block = (inner, .ok ())) :
    m.eval host functions [i] = (inner.leave, .ok ()) := by
  rw [eval_cons]
  simp [hexec, hinner]

end First

/-- A moment inside the evaluation of code, which starts in a state: the calls that are open,
innermost first, the state at this moment, and what is left of the innermost block. -/
inductive Inside (host : Host σ) (functions : Dictionary) :
    Machine σ → Code → List String → Machine σ → Code → Prop
  /-- The code is about to be run. -/
  | here (m : Machine σ) (code : Code) : Inside host functions m code [] m code
  /-- A first part of the code, with all that it has led to, is over. -/
  | later {m next now : Machine σ} {first rest left : Code} {names : List String}
      (hfirst : m.eval host functions first = (next, .ok ()))
      (h : Inside host functions next rest names now left) :
      Inside host functions m (first ++ rest) names now left
  /-- The first instruction has led to a branch. -/
  | branch {m after now : Machine σ} {i : Instruction} {rest block left : Code}
      {names : List String} (hexec : m.execute host functions i = (after, .ok (.follow block)))
      (h : Inside host functions after block names now left) :
      Inside host functions m (i :: rest) names now left
  /-- The first instruction has called a function. -/
  | call {m after now : Machine σ} {i : Instruction} {name : String} {rest body left : Code}
      {names : List String} (hexec : m.execute host functions i = (after, .ok (.enter name body)))
      (h : Inside host functions (enter host name after) body names now left) :
      Inside host functions m (i :: rest) (names ++ [name]) now left

namespace Inside

/-- The depth is higher by the number of open calls. -/
theorem depth_eq (h : Inside host functions m code names now left) :
    now.depth = m.depth + names.length := by
  induction h with
  | here => rfl
  | later hfirst _ ih => rw [ih, depth_of_eval hfirst]
  | branch hexec _ ih => rw [ih, depth_execute hexec]
  | @call m after _ i name rest body _ names hexec _ ih =>
    have hdepth := depth_execute hexec
    have henter : (enter host name after).depth = after.depth + 1 := rfl
    rw [List.length_append, List.length_singleton]
    omega

/-- No more calls are open than the limit allows. -/
theorem depth_le (h : Inside host functions m code names now left)
    (hm : m.depth ≤ host.limits.depth.toNat) : now.depth ≤ host.limits.depth.toNat := by
  induction h with
  | here => exact hm
  | later hfirst _ ih => exact ih (by rwa [depth_of_eval hfirst])
  | branch hexec _ ih => exact ih (by rwa [depth_execute hexec])
  | @call m after _ i name rest body _ names hexec _ ih =>
    obtain ⟨plan, hplan, heffect⟩ := execute_ok hexec
    have hroom := (Instruction.plans_of_plan hplan).depth_lt_of_enter heffect
    have hdepth := depth_execute hexec
    have henter : (enter host name after).depth = after.depth + 1 := rfl
    exact ih (by omega)

/-- An error leaves all blocks and calls. -/
theorem eval_error {e : RunError} (h : Inside host functions m code names now left)
    (hleft : (now.eval host functions left).2 = .error e) :
    (m.eval host functions code).2 = .error e := by
  induction h with
  | here => exact hleft
  | @later m next _ first rest _ _ hfirst _ ih =>
    rw [eval_append_of_ok hfirst]
    exact ih hleft
  | @branch m after _ i rest block _ _ hexec _ ih =>
    have hblock := ih hleft
    rcases hinner : after.eval host functions block with ⟨inner, e' | ⟨⟩⟩
    · rw [eval_cons]
      simpa [hexec, hinner] using hblock
    · simp [hinner] at hblock
  | @call m after _ i name rest body _ _ hexec _ ih =>
    have hbody := ih hleft
    rcases hinner : (enter host name after).eval host functions body with ⟨inner, e' | ⟨⟩⟩
    · rw [eval_cons]
      simpa [hexec, hinner] using hbody
    · simp [hinner] at hbody

/-- The end of code that succeeds. -/
theorem of_eval_ok (h : m.eval host functions code = (next, .ok ())) :
    Inside host functions m code [] next [] := by
  have hend := Inside.later h (.here next [])
  rwa [List.append_nil] at hend

end Inside

/-- A moment of a run through code and other tasks, `rest`, as a moment inside the code: what is
left of the innermost block comes first, then what is left of the blocks around it, with a marker
for each open call, and the other tasks last. The end of a block is such a moment only if a call
ends with it. -/
def Locates (host : Host σ) (functions : Dictionary) (m : Machine σ) (code : Code)
    (rest : List Task) (moment : Moment σ) : Prop :=
  ∃ names left later, Inside host functions m code names moment.1 left ∧
    moment.2 = left.map .perform ++ (later ++ rest) ∧ openCalls later = names.length ∧
      (left = [] → later.head? = some .leave)

section Flat

variable {rest : List Task} {moment : Moment σ} {block : Code}

/-- A moment in later code is a moment of the whole code, if the first part succeeds. -/
theorem Locates.later {first : Code} (hfirst : m.eval host functions first = (next, .ok ()))
    (h : Locates host functions next code rest moment) :
    Locates host functions m (first ++ code) rest moment := by
  obtain ⟨names, left, later, hinside, hmoment⟩ := h
  exact ⟨names, left, later, .later hfirst hinside, hmoment⟩

/-- A moment in a branch is a moment of the code with the branch in it. -/
theorem Locates.branch (hexec : m.execute host functions i = (after, .ok (.follow block)))
    (h : Locates host functions after block (code.map .perform ++ rest) moment) :
    Locates host functions m (i :: code) rest moment := by
  obtain ⟨names, left, later, hinside, htasks, hopen, hend⟩ := h
  refine ⟨names, left, later ++ code.map .perform, .branch hexec hinside, ?_, ?_, fun hleft => ?_⟩
  · rw [htasks, List.append_assoc later]
  · rw [openCalls_append, openCalls_map_perform, hopen, Nat.add_zero]
  · rw [List.head?_append, hend hleft]
    rfl

/-- A moment in the body of a function is a moment of the code that calls it, with the call open. -/
theorem Locates.call {name : String}
    (hexec : m.execute host functions i = (after, .ok (.enter name block)))
    (h : Locates host functions (enter host name after) block
      (.leave :: (code.map .perform ++ rest)) moment) :
    Locates host functions m (i :: code) rest moment := by
  obtain ⟨names, left, later, hinside, htasks, hopen, hend⟩ := h
  refine ⟨names ++ [name], left, later ++ .leave :: code.map .perform, .call hexec hinside, ?_, ?_,
    fun hleft => ?_⟩
  · rw [htasks, List.append_assoc later, List.cons_append]
  · rw [openCalls_append, openCalls_leave_cons, openCalls_map_perform, hopen, List.length_append]
    rfl
  · rw [List.head?_append, hend hleft]
    rfl

/-- The end of a body, where its call is still open. -/
theorem Locates.bodyEnd {name : String} {inner : Machine σ}
    (hexec : m.execute host functions i = (after, .ok (.enter name block)))
    (hinner : (enter host name after).eval host functions block = (inner, .ok ())) :
    Locates host functions m (i :: code) rest (inner, .leave :: (code.map .perform ++ rest)) :=
  ⟨[name], [], .leave :: code.map .perform, .call hexec (.of_eval_ok hinner), rfl, by simp,
    fun _ => rfl⟩

/-- A run through code and other tasks is inside the code, or it has come past it. -/
theorem locates_or_past (m : Machine σ) (code : Code) (rest : List Task)
    (h : Reaches host functions (m, code.map .perform ++ rest) moment) :
    Locates host functions m code rest moment ∨
      ∃ inner, m.eval host functions code = (inner, .ok ()) ∧
        Reaches host functions (inner, rest) moment := by
  -- by induction on the operations that the limit leaves
  generalize hn : host.limits.operations.toNat - m.executed = n
  induction n using Nat.strongRecOn generalizing m code rest with
  | _ n ih =>
    cases code with
    | nil => exact .inr ⟨m, eval_nil host functions m, h⟩
    | cons i code =>
      rcases Relation.ReflTransGen.cases_head h with rfl | ⟨middle, hstep, hrest⟩
      · exact .inl ⟨[], i :: code, [], .here m _, rfl, rfl, by simp⟩
      cases hstep with
      | @perform _ next _ tasks hperform _ =>
        obtain ⟨hcount, hroom⟩ := executed_perform hperform
        have past (inner : Machine σ) (hfirst : m.eval host functions [i] = (inner, .ok ()))
            (hmore : m.executed < inner.executed)
            (hreaches : Reaches host functions (inner, code.map .perform ++ rest) moment) :
            Locates host functions m (i :: code) rest moment ∨
              ∃ last, m.eval host functions (i :: code) = (last, .ok ()) ∧
                Reaches host functions (last, rest) moment := by
          have hlast := eval_append_of_ok hfirst code
          rw [List.singleton_append] at hlast
          rw [hlast]
          exact (ih _ (by omega) inner code rest hreaches rfl).imp_left (.later hfirst)
        cases performs_of_perform hperform with
        | nothing hexec => exact past next (eval_of_nothing hexec) (by omega) hrest
        | print hexec hprint => exact past next (eval_of_print hexec hprint) (by omega) hrest
        | @follow _ block hexec =>
          rcases ih _ (by omega) next block _ hrest rfl with hin | ⟨inner, hinner, hreaches⟩
          · exact .inl (hin.branch hexec)
          · have hmore := executed_le_eval host functions next block
            rw [hinner] at hmore
            exact past inner (eval_of_follow hexec hinner) (by simp only at hmore; omega) hreaches
        | @enter after name body hexec =>
          rw [List.append_assoc] at hrest
          rcases ih _ (by omega) (enter host name after) body _ hrest rfl with
            hin | ⟨inner, hinner, hreaches⟩
          · exact .inl (hin.call hexec)
          · have hmore := executed_le_eval host functions (enter host name after) body
            rw [hinner] at hmore
            -- the call is left, unless this is the moment before
            rcases Relation.ReflTransGen.cases_head hreaches with rfl | ⟨left, hleave, hreaches⟩
            · exact .inl (.bodyEnd hexec hinner)
            · cases hleave with
              | leave =>
                exact past inner.leave (eval_of_enter hexec hinner)
                  (by rw [executed_leave]; simp only at hmore; omega) hreaches

/-- **Flat moments are nested moments.** Every moment of a run is inside the evaluation of its code,
with a marker among its tasks for each open call. -/
theorem inside_of_reaches (h : Reaches host functions (m, code.map .perform) moment) :
    ∃ names left later, Inside host functions m code names moment.1 left ∧
      moment.2 = left.map .perform ++ later ∧ openCalls later = names.length := by
  rw [← List.append_nil (code.map Task.perform)] at h
  rcases locates_or_past m code [] h with ⟨names, left, later, hinside, htasks, hopen, -⟩ |
    ⟨inner, hinner, hreaches⟩
  · rw [List.append_nil] at htasks
    exact ⟨names, left, later, hinside, htasks, hopen⟩
  · rcases Relation.ReflTransGen.cases_head hreaches with rfl | ⟨next, hstep, -⟩
    · exact ⟨[], [], [], .of_eval_ok hinner, rfl, rfl⟩
    · cases hstep

/-- An instruction that is about to run stands at a moment inside the code. -/
theorem inside_of_reaches_perform {rest : List Task}
    (h : Reaches host functions (m, code.map .perform) (now, .perform i :: rest)) :
    ∃ names left, Inside host functions m code names now (i :: left) := by
  rw [← List.append_nil (code.map Task.perform)] at h
  rcases locates_or_past m code [] h with ⟨names, left, later, hinside, htasks, -, hend⟩ |
    ⟨inner, -, hpast⟩
  · cases left with
    | nil =>
      -- an instruction is about to run, so no block ends here
      have hhead := hend rfl
      rw [List.map_nil, List.nil_append, List.append_nil] at htasks
      simp only at htasks
      rw [← htasks] at hhead
      simp at hhead
    | cons j left =>
      obtain ⟨hj, -⟩ := List.cons.inj htasks
      obtain rfl := Task.perform.inj hj
      exact ⟨names, left, hinside⟩
  · rcases Relation.ReflTransGen.cases_head hpast with heq | ⟨next, hstep, -⟩
    · simp at heq
    · cases hstep

/-- A run that fails does so at an instruction inside its code. -/
theorem inside_of_run_error {e : RunError} (h : (m.run host functions code).2 = .error e) :
    ∃ names now i left, Inside host functions m code names now (i :: left) ∧
      (now.perform host functions i).2 = .error e := by
  obtain ⟨last, hreaches, hstops⟩ := exists_reaches_stops host functions m (code.map .perform)
  have hrun : m.run host functions code = m.runTasks host functions (code.map .perform) := rfl
  rw [← hrun] at hstops
  generalize m.run host functions code = r at h hstops
  cases hstops with
  | done => simp at h
  | @error now next i e' hperform rest =>
    obtain rfl := Except.error.inj h
    obtain ⟨names, left, hinside⟩ := inside_of_reaches_perform hreaches
    exact ⟨names, now, i, left, hinside, by rw [hperform]⟩

end Flat

section Reported

variable {fault : Fault} {j : Instruction} {depth k : Nat}

/-- An instruction that is not planned fails where it stands. -/
theorem perform_of_plan_error (hroom : m.executed < host.limits.operations.toNat)
    (hplan : i.plan host.limits functions m.depth m.stack = .error fault) :
    (m.perform host functions i).2 = .error (.instructionFailed i m.depth m.executed fault) := by
  have happly : ((note host (.start i m.depth m.stack) m).apply host functions i).2 =
      .error fault := by
    have hnoted : i.plan host.limits functions (note host (.start i m.depth m.stack) m).depth
        (note host (.start i m.depth m.stack) m).stack = .error fault := hplan
    unfold apply
    rw [hnoted]
  have hexec := @result_execute σ host functions m i hroom
  rw [happly] at hexec
  rcases hm : m.execute host functions i with ⟨after, result⟩
  rw [hm] at hexec
  obtain rfl := hexec
  simp [perform, hm, Except.mapError]

/-- A step that fails reports its instruction and the depth and the count at which it stands. -/
theorem perform_failed (h : (m.perform host functions i).2 =
    .error (.instructionFailed j depth k fault)) :
    j = i ∧ depth = m.depth ∧ k = m.executed ∧ m.executed < host.limits.operations.toNat ∧
      (m.execute host functions i).2 = .error (.instructionFailed i m.depth m.executed fault) ∧
      (i.plan host.limits functions m.depth m.stack = .error fault ∨
        fault = .emptyStack ∨ fault = .fullStack) := by
  have hroom : m.executed < host.limits.operations.toNat := by
    refine Nat.lt_of_not_le fun hlimit => ?_
    rw [perform_of_limit_le hlimit] at h
    simp at h
  rcases hm : m.perform host functions i with ⟨after, result⟩
  rw [hm] at h
  obtain rfl := h
  rcases perform_error hm with hexec | ⟨cause, hcause⟩
  · have hresult := congrArg Prod.snd hexec
    rcases execute_error hresult with ⟨-, hlong⟩ | ⟨fault', hfailed, hfault⟩
    · simp at hlong
    · obtain ⟨rfl, rfl, rfl, rfl⟩ := RunError.instructionFailed.inj hfailed
      exact ⟨rfl, rfl, rfl, hroom, hresult, hfault⟩
  · simp at hcause

/-- The call depth is what a step finds wrong exactly if it calls a function at the limit. -/
theorem perform_tooDeep_iff {limit : Nat} :
    (m.perform host functions i).2 = .error (.instructionFailed j depth k (.tooDeep limit)) ↔
      ∃ name body, i = .call name ∧ functions.find? name = some body ∧
        m.executed < host.limits.operations.toNat ∧ host.limits.depth.toNat ≤ m.depth ∧
        j = i ∧ depth = m.depth ∧ k = m.executed ∧ limit = host.limits.depth.toNat := by
  constructor
  · intro h
    obtain ⟨hj, hdepth, hk, hroom, -, hplan | hmove | hmove⟩ := perform_failed h
    · generalize hfault : Fault.tooDeep limit = fault at hplan
      cases Instruction.misses_of_plan hplan with
      | underflow =>
        unfold Instruction.underflow at hfault
        split at hfault <;> simp at hfault
      | divisor | unknown => simp at hfault
      | @tooDeep name body hfind hlimit =>
        obtain rfl := Fault.tooDeep.inj hfault
        exact ⟨name, body, rfl, hfind, hroom, hlimit, hj, hdepth, hk, rfl⟩
    · simp at hmove
    · simp at hmove
  · rintro ⟨name, body, rfl, hfind, hroom, hlimit, rfl, rfl, rfl, rfl⟩
    exact perform_of_plan_error hroom (Instruction.Misses.tooDeep hfind hlimit).plan_eq

/-- A step that fails ends the evaluation that it is in. -/
theorem Inside.run_error {e : RunError} (h : Inside host functions m code names now (i :: left))
    (hfail : (now.perform host functions i).2 = .error e) :
    (m.run host functions code).2 = .error e := by
  rw [run_eq_eval]
  refine h.eval_error ?_
  rcases hnow : now.perform host functions i with ⟨after, result⟩
  rw [hnow] at hfail
  obtain rfl := hfail
  rw [← run_eq_eval, run, List.map_cons, runTasks_perform_error hnow]

end Reported

/-- What the count of open calls means for a run that starts with none. -/
structure KeepsDepth (host : Host σ) (functions : Dictionary) (m : Machine σ) (code : Code) :
    Prop where
  /-- At every moment the depth is the number of open calls, and within its limit. -/
  exact (names : List String) (now : Machine σ) (left : Code)
    (h : Inside host functions m code names now left) :
    now.depth = names.length ∧ now.depth ≤ host.limits.depth.toNat
  /-- These are the moments of the run, step by step, with a marker left for each open call. -/
  moments (moment : Moment σ) (h : Reaches host functions (m, code.map .perform) moment) :
    ∃ names left later, Inside host functions m code names moment.1 left ∧
      moment.2 = left.map .perform ++ later ∧ openCalls later = names.length
  /-- The depth of an instruction that fails is reported as the number of calls open there. -/
  reported (i : Instruction) (depth k : Nat) (fault : Fault)
    (h : (m.run host functions code).2 = .error (.instructionFailed i depth k fault)) :
    ∃ names now left, Inside host functions m code names now (i :: left) ∧
      (now.execute host functions i).2 = .error (.instructionFailed i depth k fault) ∧
      depth = names.length
  /-- A run exceeds the limit of open calls exactly if it calls a defined function with as many
  calls open as the limit allows. -/
  exceeds (i : Instruction) (depth k limit : Nat) :
    (m.run host functions code).2 = .error (.instructionFailed i depth k (.tooDeep limit)) ↔
      ∃ names now left name body, Inside host functions m code names now (i :: left) ∧
        i = .call name ∧ functions.find? name = some body ∧
        now.executed < host.limits.operations.toNat ∧ names.length = host.limits.depth.toNat ∧
        depth = names.length ∧ k = now.executed ∧ limit = names.length
  /-- At the end, with or without an error, no call is open. -/
  restored : (m.run host functions code).1.depth = 0

/-- **The rule for one run.** A run that starts without open calls keeps the depth exact. -/
theorem keepsDepth_run (functions : Dictionary) (code : Code) (h : m.depth = 0) :
    KeepsDepth host functions m code where
  exact names now left hinside := by
    have hdepth := hinside.depth_eq
    have hlimit := hinside.depth_le (by omega)
    omega
  moments moment hmoment := inside_of_reaches hmoment
  reported i depth k fault hfailed := by
    obtain ⟨names, now, i', left, hinside, hperform⟩ := inside_of_run_error hfailed
    obtain ⟨rfl, rfl, rfl, -, hexec, -⟩ := perform_failed hperform
    have hdepth := hinside.depth_eq
    exact ⟨names, now, left, hinside, hexec, by omega⟩
  exceeds i depth k limit := by
    constructor
    · intro hfailed
      obtain ⟨names, now, i', left, hinside, hperform⟩ := inside_of_run_error hfailed
      obtain ⟨name, body, hcall, hfind, hroom, hlimit, rfl, rfl, rfl, rfl⟩ :=
        perform_tooDeep_iff.1 hperform
      have hdepth := hinside.depth_eq
      have hwithin := hinside.depth_le (by omega)
      exact ⟨names, now, left, name, body, hinside, hcall, hfind, hroom, by omega, by omega, rfl,
        by omega⟩
    · rintro ⟨names, now, left, name, body, hinside, rfl, hfind, hroom, hnames, rfl, rfl, rfl⟩
      have hdepth := hinside.depth_eq
      refine hinside.run_error (perform_tooDeep_iff.2 ⟨name, body, rfl, hfind, hroom, ?_⟩)
      exact ⟨by omega, rfl, by omega, rfl, hnames⟩
  restored := by
    rw [run_eq_eval, depth_eval, h]

/-- Jobs leave no call open. -/
theorem depth_runJobs (jobs : List Job) (h : m.depth = 0) : (m.runJobs host jobs).depth = 0 := by
  induction jobs generalizing m with
  | nil => exact h
  | cons job jobs ih =>
    have hjob := @keepsDepth_run σ host { m with sink := job.sink } job.functions job.code h
    exact ih hjob.restored

end Machine

namespace Session

variable {σ : Type} {host : Host σ} {s : Session σ}

/-- A line leaves no call open, whether or not it can be read and run. -/
theorem depth_runLine (host : Host σ) (s : Session σ) (line : String) :
    (s.runLine host line).1.machine.depth = s.machine.depth := by
  unfold runLine
  rcases s.reader.readLine line with ⟨reader, e | code⟩
  · rfl
  · exact Machine.depth_runTasks _ (by simp)

/-- **No open calls between steps.** Whatever a session has run, its depth is zero. -/
theorem Reachable.depth_eq_zero {stack : Stack} {sink : Sink} {seen : σ}
    (h : Reachable host stack sink seen s) : s.machine.depth = 0 := by
  have hline : ∀ (s : Session σ) text, s.machine.depth = 0 →
      (s.runLine host text).1.machine.depth = 0 := by
    intro s text hs
    rw [depth_runLine, hs]
  induction h with
  | start => rfl
  | step _ step ih =>
    cases step with
    | line text => exact hline _ text ih
    | program input => exact (runProgram_keeps hline (fun _ _ hs => hs) ih input).1

/-- **The call depth is exact and does not leak.** On a machine on which no call is open, none is
open after any sequence of runs, whatever these end in, and the next run keeps the depth: at every
moment it is the number of open calls and within its limit, an instruction that fails reports it,
the limit is exceeded exactly by a call of a defined function with as many calls open, and at the
end none is open again. Between the lines of a session no call is open either. -/
theorem call_depth_exact (host : Host σ) (m : Machine σ) (h : m.depth = 0) (jobs : List Machine.Job)
    (job : Machine.Job) :
    (m.runJobs host jobs).depth = 0 ∧
      Machine.KeepsDepth host job.functions { m.runJobs host jobs with sink := job.sink }
        job.code ∧
      ∀ stack sink seen s, Reachable host stack sink seen s → s.machine.depth = 0 := by
  have hjobs := @Machine.depth_runJobs σ host m jobs h
  exact ⟨hjobs, Machine.keepsDepth_run job.functions job.code hjobs,
    fun _ _ _ _ hs => hs.depth_eq_zero⟩

/-- A division by zero inside a call inside a branch inside a call, and then a function that calls
itself up to the limit. -/
theorem call_depth_exact_nested :
    let host : Host Unit := { limits := { depth := 2 }, observe := .blind }
    let functions := ((Dictionary.empty.insert "F" [.branch [.call "G"] []]).insert "G"
      [.number 0, .binary .div]).insert "R" [.call "R"]
    let m : Machine Unit := { stack := .ofList [7, 1], sink := {}, seen := () }
    let first : Machine.Job := { functions, code := [.call "F"], sink := {} }
    let second : Machine.Job := { functions, code := [.number 1, .call "R"], sink := {} }
    m.depth = 0 ∧
      (m.run host functions first.code).2 =
        .error (.instructionFailed (.binary .div) 2 4 .divisionByZero) ∧
      ({ m.runJobs host [first] with sink := {} }.run host functions second.code).2 =
        .error (.instructionFailed (.call "R") 2 8 (.tooDeep 2)) ∧
      (m.runJobs host [first]).depth = 0 ∧
      Machine.KeepsDepth host second.functions { m.runJobs host [first] with sink := second.sink }
        second.code ∧
      ((start .empty {} ()).perform host (.line "DEF R R END R")).1.machine.depth = 0 := by
  intro host functions m first second
  obtain ⟨hjobs, hkeeps, hsession⟩ := call_depth_exact host m rfl [first] second
  have hline := hsession .empty {} () _ (.step .start (.line "DEF R R END R"))
  refine ⟨rfl, ?_, ?_, hjobs, hkeeps, hline⟩
  · simp only [host, functions, m, first]
    cbv
  · simp only [host, functions, m, first, second]
    cbv

end Session

end StackLang
