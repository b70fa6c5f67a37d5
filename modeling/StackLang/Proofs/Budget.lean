import StackLang.Proofs.Events
import StackLang.Proofs.Steps
import Mathlib.Data.List.Permutation

/-!
# The limit of operations

Counts go up by one for each instruction that is carried out, also for one that fails, and only
while the limit has room; so a count that starts within the limit stays within it, and within a
64-bit word (`executed_runTasks_le`). Once it is at the limit nothing happens any more but that
calls are left (`runTasks_of_limit_le`). What an observer is shown agrees with the count: as many
instructions are finished as are counted, `shows_runTasks`.

`KeepsBudget` collects what the limit means for one run, and `operation_budget_exact` says it of
every run in any sequence of runs on one machine.
-/

set_option autoImplicit false

namespace StackLang

/-- The number of instructions that events show, each one counted when it is over. -/
def finishedIn (events : List Event) : Nat := events.countP (· matches .finish _ _ _)

/-- Instructions that two lists of events finish are those of each. -/
theorem finishedIn_append (events more : List Event) :
    finishedIn (events ++ more) = finishedIn events + finishedIn more :=
  List.countP_append

namespace Machine

variable {σ : Type} {host : Host σ} {functions : Dictionary} {m middle next after : Machine σ}
  {i : Instruction}

/-- What an observer is shown from one state to another, with as many instructions in it as are
counted in between. -/
def Shows (host : Host σ) (m after : Machine σ) : Prop :=
  ∃ events : List Event, after.seen = events.foldl host.observe m.seen ∧
    after.executed = m.executed + finishedIn events

section Shown

/-- Where neither the count nor the observer has changed, nothing has been shown. -/
theorem Shows.of_eq (hseen : after.seen = m.seen) (hcount : after.executed = m.executed) :
    Shows host m after :=
  ⟨[], hseen, hcount⟩

/-- What is shown up to a machine and what is shown from there on make up what is shown. -/
theorem Shows.trans (h : Shows host m middle) (h' : Shows host middle after) :
    Shows host m after := by
  obtain ⟨first, hseen, hcount⟩ := h
  obtain ⟨second, hseen', hcount'⟩ := h'
  refine ⟨first ++ second, ?_, ?_⟩
  · rw [hseen', hseen, List.foldl_append]
  · rw [finishedIn_append]
    omega

/-- A count that is shown does not go down. -/
theorem Shows.executed_le (h : Shows host m after) : m.executed ≤ after.executed := by
  obtain ⟨events, -, hcount⟩ := h
  omega

@[simp]
theorem finishedIn_eventsOf {moves : List Move} {height : Nat} {fault : Option Fault} :
    finishedIn (m.eventsOf i moves height fault) = 1 := by
  have hmoves : finishedIn (moves.map Move.event) = 0 :=
    List.countP_eq_zero.2 fun event hmem => by
      obtain ⟨move, -, rfl⟩ := List.mem_map.1 hmem
      cases move <;> simp [Move.event]
  show finishedIn (moves.map Move.event ++ [.finish i height fault]) = 1
  rw [finishedIn_append, hmoves]
  rfl

/-- A step shows an instruction if it counts one. -/
theorem Tells.counts {events : List Event} (h : Tells host functions m i next events) :
    next.executed = m.executed + finishedIn events := by
  cases h with
  | nothing => rfl
  | out _ _ hcount | other _ _ _ hcount => rw [finishedIn_eventsOf, hcount]
  | call _ _ _ _ hcount =>
    rw [finishedIn_append, finishedIn_eventsOf, hcount]
    rfl

/-- A step shows as many finished instructions as it counts. -/
theorem shows_perform (host : Host σ) (functions : Dictionary) (m : Machine σ) (i : Instruction) :
    Shows host m (m.perform host functions i).1 := by
  obtain ⟨events, hseen, htells⟩ := exists_tells host functions m i
  exact ⟨events, hseen, htells.counts⟩

/-- And so does a run. -/
theorem shows_runTasks (host : Host σ) (functions : Dictionary) (m : Machine σ)
    (tasks : List Task) : Shows host m (m.runTasks host functions tasks).1 := by
  refine runTasks_keeps_state (I := fun after => Shows host m after) ?_ ?_ m tasks (.of_eq rfl rfl)
  · intro after depth h
    exact h
  · intro after i h
    exact h.trans (shows_perform host functions after i)

/-- At any moment of a run the count is between those at its ends. -/
theorem Reaches.executed_le {moment : Moment σ} {tasks : List Task}
    (h : Reaches host functions (m, tasks) moment) :
    m.executed ≤ moment.1.executed ∧
      moment.1.executed ≤ (m.runTasks host functions tasks).1.executed := by
  constructor
  · induction h with
    | refl => exact Nat.le_refl _
    | tail _ hstep ih =>
      rcases hstep.counts_or_shortens with ⟨hcount, -⟩ | ⟨hcount, -⟩ <;> omega
  · rw [← h.runTasks_eq]
    exact (shows_runTasks host functions moment.1 moment.2).executed_le

end Shown

section Limit

/-- A step does not count beyond the limit. -/
theorem executed_perform_le_limit (functions : Dictionary) (i : Instruction)
    (h : m.executed ≤ host.limits.operations.toNat) :
    (m.perform host functions i).1.executed ≤ host.limits.operations.toNat := by
  rw [executed_perform_eq, executed_execute_eq]
  split_ifs with hlimit
  · exact h
  · omega

/-- Counts stay within the limit. -/
theorem executed_runTasks_le (functions : Dictionary) (tasks : List Task)
    (h : m.executed ≤ host.limits.operations.toNat) :
    (m.runTasks host functions tasks).1.executed ≤ host.limits.operations.toNat := by
  refine runTasks_keeps_state (I := fun after => after.executed ≤ host.limits.operations.toNat)
    ?_ ?_ m tasks h
  · intro after depth hafter
    exact hafter
  · intro after i hafter
    exact executed_perform_le_limit functions i hafter

/-- At the limit a run only leaves calls. -/
theorem runTasks_of_limit_le (h : host.limits.operations.toNat ≤ m.executed)
    (functions : Dictionary) (tasks : List Task) :
    ∃ depth, (m.runTasks host functions tasks).1 = { m with depth } := by
  induction tasks generalizing m with
  | nil => exact ⟨m.depth, by rw [runTasks_nil]⟩
  | cons task rest ih =>
    cases task with
    | leave =>
      rw [runTasks_leave]
      exact ih (m := m.leave) h
    | perform i =>
      rw [runTasks_perform_error (perform_of_limit_le h)]
      exact ⟨_, rfl⟩

/-- A run is too long only at the limit. -/
theorem runTasks_tooLong {tasks : List Task} {n : Nat}
    (h : m.executed ≤ host.limits.operations.toNat)
    (hlong : (m.runTasks host functions tasks).2 = .error (.tooLong n)) :
    n = host.limits.operations.toNat ∧ (m.runTasks host functions tasks).1.executed = n := by
  obtain ⟨last, hreaches, hstops⟩ := exists_reaches_stops host functions m tasks
  have hlast := Nat.le_trans hreaches.executed_le.2 (executed_runTasks_le functions tasks h)
  generalize m.runTasks host functions tasks = r at hlong hstops
  cases hstops with
  | done after => simp at hlong
  | @error after next i e hperform rest =>
    obtain rfl := Except.error.inj hlong
    rcases perform_error hperform with hexec | ⟨cause, hcause⟩
    · rcases execute_error (congrArg Prod.snd hexec) with ⟨hlimit, hn⟩ | ⟨fault, hfailed, -⟩
      · obtain rfl := RunError.tooLong.inj hn
        have hsame := hperform.symm.trans (perform_of_limit_le hlimit)
        obtain ⟨rfl, -⟩ := Prod.mk.inj hsame
        exact ⟨Nat.le_antisymm hlast hlimit, rfl⟩
      · simp at hfailed
    · simp at hcause

end Limit

/-- What the limit of operations means for a run. -/
structure KeepsBudget (host : Host σ) (functions : Dictionary) (m : Machine σ) (code : Code) :
    Prop where
  /-- The steps of the run do not go on for ever. -/
  finite (moments : Nat → Moment σ) (hstart : moments 0 = (m, code.map .perform)) :
    ¬ ∀ n, Step host functions (moments n) (moments (n + 1))
  /-- They come to a stop, and to the outcome of the run. -/
  stops : ∃ last, Reaches host functions (m, code.map .perform) last ∧
    Stops host functions last (m.run host functions code)
  /-- At every moment the count is between those at the ends of the run. -/
  between (moment : Moment σ) (h : Reaches host functions (m, code.map .perform) moment) :
    m.executed ≤ moment.1.executed ∧ moment.1.executed ≤ (m.run host functions code).1.executed
  /-- The count does not exceed the limit. -/
  within : (m.run host functions code).1.executed ≤ host.limits.operations.toNat
  /-- The count has a 64-bit word, so it never wraps. -/
  fits : (m.run host functions code).1.executed < UInt64.size
  /-- A run is too long only at the limit. -/
  atLimit (n : Nat) (h : (m.run host functions code).2 = .error (.tooLong n)) :
    n = host.limits.operations.toNat ∧ (m.run host functions code).1.executed = n
  /-- From the moment on at which the limit is reached, neither the stack nor the sink changes,
  and nothing is shown. -/
  nothingAfter (moment : Moment σ) (h : Reaches host functions (m, code.map .perform) moment)
    (hlimit : moment.1.executed = host.limits.operations.toNat) :
    ∃ depth, (m.run host functions code).1 = { moment.1 with depth }
  /-- The observer is shown as many instructions as are counted. -/
  shows : Shows host m (m.run host functions code).1

/-- **The rule for one run.** A run that starts within the limit keeps to the budget of
instructions. -/
theorem keepsBudget_run (functions : Dictionary) (code : Code)
    (h : m.executed ≤ host.limits.operations.toNat) : KeepsBudget host functions m code where
  finite moments _ hsteps :=
    (wellFounded_iff_isEmpty_descending_chain.1 (wellFounded_step host functions)).false
      ⟨moments, hsteps⟩
  stops := exists_reaches_stops host functions m _
  between _ hmoment := hmoment.executed_le
  within := executed_runTasks_le functions _ h
  fits := Nat.lt_of_le_of_lt (executed_runTasks_le functions _ h) host.limits.operations.toNat_lt
  atLimit _ hlong := runTasks_tooLong h hlong
  nothingAfter moment hmoment hlimit := by
    have houtcome := runTasks_of_limit_le (Nat.le_of_eq hlimit.symm) functions moment.2
    rwa [hmoment.runTasks_eq] at houtcome
  shows := shows_runTasks host functions m _

/-- Code to run, with its functions and the sink that it writes to. -/
structure Job where
  functions : Dictionary
  code : Code
  sink : Sink

/-- Runs one job after the other on the same machine, whatever becomes of each. -/
def runJobs (host : Host σ) (m : Machine σ) (jobs : List Job) : Machine σ :=
  jobs.foldl (fun m job => ({ m with sink := job.sink }.run host job.functions job.code).1) m

/-- Jobs, one after the other, keep the count between what it was and the limit. -/
theorem executed_runJobs (jobs : List Job) (h : m.executed ≤ host.limits.operations.toNat) :
    m.executed ≤ (m.runJobs host jobs).executed ∧
      (m.runJobs host jobs).executed ≤ host.limits.operations.toNat := by
  induction jobs generalizing m with
  | nil => exact ⟨Nat.le_refl _, h⟩
  | cons job jobs ih =>
    have hjob := keepsBudget_run (m := { m with sink := job.sink }) job.functions job.code h
    obtain ⟨hle, hlimit⟩ := ih hjob.within
    exact ⟨Nat.le_trans hjob.shows.executed_le hle, hlimit⟩

/-- **Every run ends, and the budget is exact.** On a machine whose count is within the limit, after
any sequence of runs, whatever their functions and results, the count has not gone back and is
within the limit, and the next run keeps the budget: it ends, counts each instruction once,
never beyond the limit, and is too long only at the limit, after which nothing happens. -/
theorem operation_budget_exact (host : Host σ) (m : Machine σ)
    (h : m.executed ≤ host.limits.operations.toNat) (jobs : List Job) (job : Job) :
    m.executed ≤ (m.runJobs host jobs).executed ∧
      (m.runJobs host jobs).executed ≤ host.limits.operations.toNat ∧
      KeepsBudget host job.functions { m.runJobs host jobs with sink := job.sink } job.code := by
  obtain ⟨hle, hlimit⟩ := executed_runJobs jobs h
  exact ⟨hle, hlimit, keepsBudget_run job.functions job.code hlimit⟩

/-- After a first job, a function that calls itself and another function uses up what is left. -/
theorem operation_budget_exact_recursion :
    let host : Host Stats := { limits := { operations := 7 }, observe := Stats.observe }
    let functions := (Dictionary.empty.insert "F" [.number 1, .call "G", .call "F"]).insert "G" []
    let m : Machine Stats := { stack := .empty, sink := {}, seen := {} }
    let first : Job := { functions := .empty, code := [.number 3, .out], sink := {} }
    let second : Job := { functions, code := [.call "F"], sink := {} }
    let r := { m.runJobs host [first] with sink := {} }.run host functions [.call "F"]
    m.executed ≤ host.limits.operations.toNat ∧ (m.runJobs host [first]).executed = 2 ∧
      r.2 = .error (.tooLong 7) ∧ r.1.seen.instructions = 7 ∧
      KeepsBudget host second.functions { m.runJobs host [first] with sink := second.sink }
        second.code := by
  intro host functions m first second r
  have hcount : m.executed ≤ host.limits.operations.toNat := by decide
  refine ⟨hcount, ?_, ?_, ?_, (operation_budget_exact host m hcount [first] second).2.2⟩
  · simp only [host, m, first]
    cbv
  · simp only [r, host, functions, m, first]
    cbv
  · simp only [r, host, functions, m, first]
    cbv

end Machine

end StackLang
