import StackLang.Proofs.Events
import StackLang.Proofs.Output
import StackLang.Proofs.Points
import Mathlib.Order.Bounds.Basic

/-!
# What statistics count

Statistics are kept by an observer, which sees an instruction when it is over and before what it
leads to. All the same they agree with the machine after every step. `Agrees` says so of the
instructions, the lines that have been written and the depth of calls, and a step keeps it, since
what it tells is what they count (`Tells.eq_or_counts`, `Counts.advances`).

The two maxima are taken at the ends of instructions and at the entries of calls. That they are
the maxima over all points of a session is said by `Records`: from one state to another a maximum
rises to the greatest of the values at the points in between, if that is higher. A step records its
points because no instruction is higher on its way than before or after it, and what is recorded one
after the other is recorded together (`Records.trans`): a run records its points, and so do lines,
programs and sessions. `stats_agree` puts both together.
-/

set_option autoImplicit false

namespace StackLang

/-- Maxima over two sets, one after the other, are a maximum over both. -/
theorem isGreatest_insert_trans {a b c : Nat} {s t : Set Nat} (h : IsGreatest (insert a s) b)
    (h' : IsGreatest (insert b t) c) : IsGreatest (insert a (s ∪ t)) c := by
  have hb : b ≤ c := h'.2 (.inl rfl)
  constructor
  · rcases h'.1 with rfl | hmem
    · exact h.1.imp_right .inl
    · exact .inr (.inr hmem)
  · rintro x (rfl | hs | ht)
    · exact (h.2 (.inl rfl)).trans hb
    · exact (h.2 (.inr hs)).trans hb
    · exact h'.2 (.inr ht)

/-- The maximum of a bound and a member of a set is the greatest of the set and the bound, if
nothing in the set is above it. -/
theorem isGreatest_insert_max {a b : Nat} {s : Set Nat} (hb : b ∈ s) (hs : ∀ x ∈ s, x ≤ max a b) :
    IsGreatest (insert a s) (max a b) := by
  refine ⟨?_, ?_⟩
  · rcases Nat.le_total a b with h | h
    · rw [max_eq_right h]
      exact .inr hb
    · exact .inl (max_eq_left h)
  · rintro x (rfl | hx)
    · exact Nat.le_max_left _ _
    · exact hs x hx

/-- Between two states of statistics, the greatest height and the greatest depth have risen to the
greatest of the values at some points. The height at the very bottom counts as well. -/
structure Records (bottom : Nat) (first : Stats) (points : Set Point) (last : Stats) : Prop where
  heights : IsGreatest
    (insert (max bottom first.maxHeight) ((fun point => point.stack.height) '' points))
    (max bottom last.maxHeight)
  depths : IsGreatest (insert first.maxDepth (Point.openCalls '' points)) last.maxDepth

namespace Records

variable {bottom : Nat} {first middle last : Stats} {points more : Set Point}

/-- Records over some points, and then over others, are records over all of them. -/
theorem trans (h : Records bottom first points middle) (h' : Records bottom middle more last) :
    Records bottom first (points ∪ more) last where
  heights := by
    rw [Set.image_union]
    exact isGreatest_insert_trans h.heights h'.heights
  depths := by
    rw [Set.image_union]
    exact isGreatest_insert_trans h.depths h'.depths

/-- Points that are no higher and no deeper than what has been recorded add nothing. -/
theorem of_le (hheight : ∀ point ∈ points, point.stack.height ≤ max bottom first.maxHeight)
    (hdepth : ∀ point ∈ points, point.openCalls ≤ first.maxDepth) :
    Records bottom first points first where
  heights := by
    refine ⟨.inl rfl, ?_⟩
    rintro height (rfl | ⟨point, hpoint, rfl⟩)
    · exact Nat.le_refl _
    · exact hheight point hpoint
  depths := by
    refine ⟨.inl rfl, ?_⟩
    rintro depth (rfl | ⟨point, hpoint, rfl⟩)
    · exact Nat.le_refl _
    · exact hdepth point hpoint

end Records

namespace Machine

variable {limits : Limits} {functions : Dictionary} {m next : Machine Stats} {i : Instruction}
  {moves : List Move} {events : List Event} {fault : Option Fault} {bottom height : Nat}

/-- Statistics agree with the machine that they are kept of. The stack has had the height `bottom`
before anything was counted. -/
structure Agrees (limits : Limits) (bottom : Nat) (m : Machine Stats) : Prop where
  unlimited : m.sink.room = none
  instructions : m.seen.instructions = m.executed
  outputs : m.seen.outputs = m.sink.text.toList.count '\n'
  height : m.stack.height ≤ max bottom m.seen.maxHeight
  maxHeight : max bottom m.seen.maxHeight ≤ max bottom limits.stack.toNat
  depth : m.depth ≤ m.seen.maxDepth
  maxDepth : m.seen.maxDepth ≤ limits.depth.toNat
  openCalls : m.seen.maxDepth ≤ m.seen.calls
  calls : m.seen.calls ≤ m.seen.instructions

/-- How a step changes statistics that agree: they agree again, and the maxima take account of the
state after it. -/
structure Advances (limits : Limits) (bottom : Nat) (m next : Machine Stats) : Prop where
  agrees : Agrees limits bottom next
  heights : max bottom next.seen.maxHeight = max (max bottom m.seen.maxHeight) next.stack.height
  depths : next.seen.maxDepth = max m.seen.maxDepth next.depth

/-- What a step that carries an instruction out changes in the machine and in its statistics. -/
structure Counts (limits : Limits) (m next : Machine Stats) : Prop where
  executed : next.executed = m.executed + 1
  depth : next.depth = m.depth ∨ next.depth = m.depth + 1 ∧ m.depth < limits.depth.toNat
  instructions : next.seen.instructions = m.seen.instructions + 1
  outputs : next.seen.outputs + m.sink.text.toList.count '\n' =
    m.seen.outputs + next.sink.text.toList.count '\n'
  maxHeight : next.seen.maxHeight = max m.seen.maxHeight next.stack.height
  maxDepth : next.seen.maxDepth = max m.seen.maxDepth next.depth
  calls : next.seen.calls + m.depth = m.seen.calls + next.depth

/-- **What a step tells is what statistics count.** -/
theorem Tells.eq_or_counts (h : Tells ⟨limits, Stats.observe⟩ functions m i next events)
    (hseen : next.seen = events.foldl Stats.observe m.seen) (hm : Agrees limits bottom m) :
    next = m ∨ Counts limits m next := by
  have hdepth := hm.depth
  cases h with
  | nothing => exact .inl rfl
  | @out _ v hcells hsink hcount hsame =>
    obtain ⟨pushes, pops, hstats⟩ :=
      exists_foldl_eventsOf m m.seen .out [.pop] next.stack.height none
    rw [hstats] at hseen
    rw [Sink.write_of_room_none hm.unlimited] at hsink
    have hlines : next.sink.text.toList.count '\n' = m.sink.text.toList.count '\n' + 1 := by
      simp only [hsink]
      rw [String.toList_append, List.count_append, Text.count_newline_line]
    refine .inr ⟨hcount, .inl hsame, ?_, ?_, ?_, ?_, ?_⟩
    all_goals simp only [hseen, and_self, if_true]
    all_goals omega
  | @call _ name body hfind hlimit hstack hsink hcount hsame =>
    obtain ⟨pushes, pops, hstats⟩ :=
      exists_foldl_eventsOf m m.seen (.call name) [] m.stack.height none
    rw [List.foldl_append, hstats] at hseen
    refine .inr ⟨hcount, .inr ⟨hsame, hlimit⟩, ?_, ?_, ?_, ?_, ?_⟩
    all_goals simp only [hseen, hsink, hstack, Stats.observe, List.foldl_cons, List.foldl_nil,
      reduceCtorEq, false_and, if_false]
    all_goals omega
  | @other _ _ moves fault _ hquiet hsink hcount hsame =>
    obtain ⟨pushes, pops, hstats⟩ :=
      exists_foldl_eventsOf m m.seen i moves next.stack.height fault
    have hno : ¬ (i = .out ∧ fault = none) := fun hout => (hquiet hout.2).1 hout.1
    rw [hstats, if_neg hno] at hseen
    refine .inr ⟨hcount, .inl hsame, ?_, ?_, ?_, ?_, ?_⟩
    all_goals simp only [hseen, hsink]
    all_goals omega

/-- Statistics that agree go on agreeing. -/
theorem Counts.advances (h : Counts limits m next) (hm : Agrees limits bottom m)
    (hroom : next.sink.room = none)
    (hheight : next.stack.height ≤ max bottom limits.stack.toNat) :
    Advances limits bottom m next := by
  obtain ⟨hcount, hdeeper, hinstructions, houtputs, hmaxHeight, hmaxDepth, hcalls⟩ := h
  obtain ⟨-, hcounted, hwritten, hlow, hlimited, hopen, hopenLimited, hdepth, hcalled⟩ := hm
  exact ⟨⟨hroom, by omega, by omega, by omega, by omega, by omega, by omega, by omega, by omega⟩,
    by omega, hmaxDepth⟩

/-- **Every step keeps the statistics in agreement.** Its maxima take account of the state that it
leaves. -/
theorem advances_perform (functions : Dictionary) (i : Instruction) (hm : Agrees limits bottom m) :
    Advances limits bottom m (m.perform ⟨limits, Stats.observe⟩ functions i).1 := by
  have hheight : m.stack.height ≤ max bottom limits.stack.toNat := hm.height.trans hm.maxHeight
  have hlow := hm.height
  have hdepth := hm.depth
  obtain ⟨events, hseen, htells⟩ := exists_tells ⟨limits, Stats.observe⟩ functions m i
  rcases htells.eq_or_counts hseen hm with hsame | hcounts
  · rw [hsame]
    exact ⟨hm, by omega, by omega⟩
  · exact hcounts.advances hm (room_perform hm.unlimited _ functions i)
      (height_perform_le (Nat.le_max_right _ _) functions i hheight)

/-- Closing calls leaves the agreement alone. -/
theorem Agrees.with_depth {depth : Nat} (h : Agrees limits bottom m) (hdepth : depth ≤ m.depth) :
    Agrees limits bottom { m with depth } :=
  { h with depth := hdepth.trans h.depth }

/-- A state that agrees has been recorded. -/
theorem Agrees.records_here {depth : Nat} (h : Agrees limits bottom m)
    (hdepth : depth ≤ m.seen.maxDepth) :
    Records bottom m.seen {⟨m.stack, depth⟩} m.seen := by
  refine .of_le ?_ ?_
  · rintro point rfl
    exact h.height
  · rintro point rfl
    exact hdepth

/-- The points at a moment and the state after it are recorded by the step in between. -/
theorem Advances.records {points : Set Point} (h : Advances limits bottom m next)
    (hheights : ∀ point ∈ points, point.stack.height ≤ max m.stack.height next.stack.height)
    (hdepths : ∀ point ∈ points, point.openCalls ≤ max m.depth next.depth)
    (hnext : ⟨next.stack, next.depth⟩ ∈ points) (hm : Agrees limits bottom m) :
    Records bottom m.seen points next.seen where
  heights := by
    rw [h.heights]
    refine isGreatest_insert_max ⟨_, hnext, rfl⟩ ?_
    rintro height ⟨point, hpoint, rfl⟩
    have hle := hheights point hpoint
    have hlow := hm.height
    simp only
    omega
  depths := by
    rw [h.depths]
    refine isGreatest_insert_max ⟨_, hnext, rfl⟩ ?_
    rintro depth ⟨point, hpoint, rfl⟩
    have hle := hdepths point hpoint
    have hlow := hm.depth
    omega

/-- **A run records its points.** Statistics agree at its end, whatever it ends in, if they agree at
its start, and their maxima have been taken over all of its points. -/
theorem records_runTasks (functions : Dictionary) (tasks : List Task)
    (hm : Agrees limits bottom m) (hdepth : m.depth = openCalls tasks) :
    Agrees limits bottom (m.runTasks ⟨limits, Stats.observe⟩ functions tasks).1 ∧
      Records bottom m.seen (m.points ⟨limits, Stats.observe⟩ functions tasks)
        (m.runTasks ⟨limits, Stats.observe⟩ functions tasks).1.seen := by
  induction m, tasks using runTasks.induct ⟨limits, Stats.observe⟩ functions with
  | case1 m =>
    rw [runTasks_nil, points_nil]
    exact ⟨hm, hm.records_here (Nat.zero_le _)⟩
  | case2 m rest ih =>
    rw [openCalls_leave_cons] at hdepth
    have hleave : m.leave.depth = m.depth - 1 := rfl
    obtain ⟨hlast, hrest⟩ := ih (hm.with_depth (by omega)) (by omega)
    rw [runTasks_leave, points_leave, Set.insert_eq]
    exact ⟨hlast, .trans (hm.records_here (hdepth ▸ hm.depth)) hrest⟩
  | case3 m i rest next tasks hperform ih =>
    have hadvance := advances_perform functions i hm
    have hopen := depth_perform hperform
    have hrest : openCalls (.perform i :: rest) = openCalls rest := rfl
    have hdeeper : next.depth = openCalls (tasks ++ rest) := by
      rw [openCalls_append]
      omega
    have hhere : (⟨next.stack, next.depth⟩ : Point) ∈
        next.points ⟨limits, Stats.observe⟩ functions (tasks ++ rest) := by
      rw [hdeeper]
      exact ⟨_, .refl, .moment next _⟩
    rw [hperform] at hadvance
    obtain ⟨hlast, hmore⟩ := ih hadvance.agrees hdeeper
    rw [runTasks_perform_ok hperform, points_perform_ok hperform, ← Set.insert_eq_of_mem hhere,
      Set.union_insert, ← Set.insert_union]
    refine ⟨hlast, .trans (hadvance.records ?_ ?_ (.inl rfl) hm) hmore⟩
    · rintro point (rfl | hpoint)
      · exact Nat.le_max_right _ _
      · have hheight := hpoint.height_le
        rwa [hperform] at hheight
    · rintro point (rfl | hpoint)
      · exact Nat.le_max_right _ _
      · rw [hpoint.openCalls_eq]
        omega
  | case4 m i rest next e hperform =>
    have hadvance := advances_perform functions i hm
    have hsame := depth_perform_error hperform
    have hlast := pointAt_perform ⟨limits, Stats.observe⟩ functions m i rest
    have hrest : openCalls (.perform i :: rest) = openCalls rest := rfl
    rw [hperform] at hadvance hlast
    rw [runTasks_perform_error hperform, points_perform_error hperform]
    refine ⟨hadvance.agrees.with_depth (Nat.sub_le _ _), hadvance.records ?_ ?_ ?_ hm⟩
    · intro point hpoint
      have hheight := PointAt.height_le hpoint
      rwa [hperform] at hheight
    · intro point hpoint
      rw [PointAt.openCalls_eq hpoint]
      omega
    · have hopen : next.depth = openCalls rest := by omega
      rw [hopen]
      exact hlast

end Machine

namespace Session

variable {limits : Limits} {bottom : Nat} {s : Session Stats}

/-- A line records the points of its run. -/
theorem records_runLine (text : String) (hs : s.machine.Agrees limits bottom)
    (hdepth : s.machine.depth = 0) :
    (s.runLine ⟨limits, Stats.observe⟩ text).1.machine.Agrees limits bottom ∧
      Records bottom s.machine.seen (s.linePoints ⟨limits, Stats.observe⟩ text)
        (s.runLine ⟨limits, Stats.observe⟩ text).1.machine.seen := by
  unfold runLine linePoints
  rcases s.reader.readLine text with ⟨reader, e | code⟩
  · exact ⟨hs, .of_le (by simp) (by simp)⟩
  · -- that the line is announced is not counted
    have hopen : s.machine.depth = Machine.openCalls (code.map .perform) := by simp [hdepth]
    exact Machine.records_runTasks reader.functions (code.map .perform) hs hopen

/-- So do lines that are run up to the first that fails. -/
theorem records_runTexts (texts : List String) (hs : s.machine.Agrees limits bottom)
    (hdepth : s.machine.depth = 0) :
    (s.runTexts ⟨limits, Stats.observe⟩ texts).1.machine.Agrees limits bottom ∧
      (s.runTexts ⟨limits, Stats.observe⟩ texts).1.machine.depth = 0 ∧
      Records bottom s.machine.seen (s.textPoints ⟨limits, Stats.observe⟩ texts)
        (s.runTexts ⟨limits, Stats.observe⟩ texts).1.machine.seen := by
  induction texts generalizing s with
  | nil => exact ⟨hs, hdepth, hs.records_here (Nat.zero_le _)⟩
  | cons text texts ih =>
    obtain ⟨hnext, hline⟩ := records_runLine text hs hdepth
    have hclosed := depth_runLine ⟨limits, Stats.observe⟩ s text
    rw [hdepth] at hclosed
    unfold textPoints
    rcases hrun : s.runLine ⟨limits, Stats.observe⟩ text with ⟨next, e | ⟨⟩⟩
    all_goals rw [hrun] at hnext hline hclosed
    · rw [runTexts_of_error hrun]
      exact ⟨hnext, hclosed, hline.trans (hnext.records_here (Nat.zero_le _))⟩
    · obtain ⟨hlast, hend, hmore⟩ := ih hnext hclosed
      rw [runTexts_of_ok hrun]
      exact ⟨hlast, hend, hline.trans hmore⟩

/-- And a step, which flushes at most when it has run its lines. -/
theorem records_perform (step : Step) (hs : s.machine.Agrees limits bottom)
    (hdepth : s.machine.depth = 0) :
    (s.perform ⟨limits, Stats.observe⟩ step).1.machine.Agrees limits bottom ∧
      (s.perform ⟨limits, Stats.observe⟩ step).1.machine.depth = 0 ∧
      Records bottom s.machine.seen (s.textPoints ⟨limits, Stats.observe⟩ step.texts)
        (s.perform ⟨limits, Stats.observe⟩ step).1.machine.seen := by
  obtain ⟨hlast, hend, hrecords⟩ := records_runTexts step.texts hs hdepth
  rcases perform_eq_runTexts ⟨limits, Stats.observe⟩ s step with hstep | hstep
  · rw [hstep]
    exact ⟨hlast, hend, hrecords⟩
  · rw [hstep]
    exact ⟨{ hlast with }, hend, hrecords⟩

/-- A session starts at its first point. -/
theorem mem_points_start (host : Host Stats) (s : Session Stats) (steps : List Step) :
    ⟨s.machine.stack, 0⟩ ∈ s.points host steps := by
  cases steps with
  | nil => rfl
  | cons step steps => exact .inl rfl

/-- Steps, one after the other, record the points of all of them. -/
theorem records_performAll (steps : List Step) (hs : s.machine.Agrees limits bottom)
    (hdepth : s.machine.depth = 0) :
    (s.performAll ⟨limits, Stats.observe⟩ steps).machine.Agrees limits bottom ∧
      Records bottom s.machine.seen (s.points ⟨limits, Stats.observe⟩ steps)
        (s.performAll ⟨limits, Stats.observe⟩ steps).machine.seen := by
  induction steps generalizing s with
  | nil => exact ⟨hs, hs.records_here (Nat.zero_le _)⟩
  | cons step steps ih =>
    obtain ⟨hnext, hclosed, hstep⟩ := records_perform step hs hdepth
    obtain ⟨hlast, hmore⟩ := ih hnext hclosed
    rw [points, Set.insert_eq]
    exact ⟨hlast, (hs.records_here (Nat.zero_le _)).trans (hstep.trans hmore)⟩

/-- What statistics say of a session that started with a stack and has passed some points. -/
structure StatsAgree (limits : Limits) (stack : Stack) (points : Set Point) (m : Machine Stats) :
    Prop where
  /-- As many instructions as the machine has counted. -/
  instructions : m.seen.instructions = m.executed
  /-- As many outputs as lines have been written. -/
  outputs : m.seen.outputs = m.sink.text.toList.count '\n'
  /-- The greatest height at any point, unless the stack was higher from the start, and then that
  height is the greatest. -/
  maxHeight : IsGreatest ((fun point => point.stack.height) '' points)
    (max stack.height m.seen.maxHeight)
  /-- The stack has not grown beyond its limit. -/
  maxHeight_le : max stack.height m.seen.maxHeight ≤ max stack.height limits.stack.toNat
  /-- The greatest number of calls that were open at any point. -/
  maxDepth : IsGreatest (Point.openCalls '' points) m.seen.maxDepth
  /-- No more calls were open than the limit allows. -/
  maxDepth_le : m.seen.maxDepth ≤ limits.depth.toNat
  /-- Each call that was open has been counted. -/
  maxDepth_le_calls : m.seen.maxDepth ≤ m.seen.calls
  /-- A call is an instruction. -/
  calls_le : m.seen.calls ≤ m.seen.instructions

/-- **Statistics agree with what can be observed.** Take a new session with statistics that start
from zero, with any limits, any stack and a sink with room for everything. After any lines and
programs, in any order and whatever errors these end in, the statistics are what the machine, its
output and all the points that the session has passed say. -/
theorem stats_agree (limits : Limits) (stack : Stack) (flushFails : Bool) (steps : List Step) :
    let host : Host Stats := ⟨limits, Stats.observe⟩
    let s : Session Stats := start stack { flushFails } {}
    StatsAgree limits stack (s.points host steps) (s.performAll host steps).machine := by
  intro host s
  have hs : s.machine.Agrees limits stack.height :=
    { unlimited := rfl, instructions := rfl, outputs := rfl
      height := Nat.le_max_left _ _
      maxHeight := Nat.max_le.2 ⟨Nat.le_max_left _ _, Nat.zero_le _⟩
      depth := Nat.le_refl _
      maxDepth := Nat.zero_le _
      openCalls := Nat.le_refl _
      calls := Nat.le_refl _ }
  obtain ⟨hlast, hrecords⟩ := records_performAll steps hs rfl
  have hstart := mem_points_start host s steps
  -- the values before the first step are those of the first point
  have hheight : max stack.height s.machine.seen.maxHeight ∈
      (fun point => point.stack.height) '' s.points host steps :=
    ⟨_, hstart, (Nat.max_zero _).symm⟩
  have hdepth : s.machine.seen.maxDepth ∈ Point.openCalls '' s.points host steps :=
    ⟨_, hstart, rfl⟩
  have hheights := hrecords.heights
  have hdepths := hrecords.depths
  rw [Set.insert_eq_of_mem hheight] at hheights
  rw [Set.insert_eq_of_mem hdepth] at hdepths
  exact ⟨hlast.instructions, hlast.outputs, hheights, hlast.maxHeight, hdepths, hlast.maxDepth,
    hlast.openCalls, hlast.calls⟩

end Session

end StackLang
