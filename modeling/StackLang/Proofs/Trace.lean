import StackLang.Proofs.Budget
import StackLang.Proofs.Events
import StackLang.Proofs.OpenCalls

/-!
# The trace of a run

What a run shows is enough to follow it. `Faithful` says so of the events up to some moment: the
moves among them, carried out on the values from the start, never miss a value, agree with every
height that is reported, and lead to the values of this moment; as many instructions are finished
as are counted; and calls are entered exactly where an instruction that calls a function has been
finished without a fault, at the depth of the calls that are open there.

Nothing has to be known about the code for this. A step adds the events of `Tells`, and these are
faithful by themselves, so the events up to the next moment are faithful again (`Faithful.step`).
The last step of a run that fails is a step like the others, so this holds of the outcome too,
`run_faithful`.
-/

set_option autoImplicit false

namespace StackLang

/-- The move that an event shows. -/
def Event.move? : Event → Option Move
  | .push v => some (.push v)
  | .pop => some .pop
  | _ => none

/-- The moves that events show, in order. -/
def movesIn (events : List Event) : List Move := events.filterMap Event.move?

@[simp]
theorem movesIn_append (events more : List Event) :
    movesIn (events ++ more) = movesIn events ++ movesIn more :=
  List.filterMap_append

@[simp]
theorem movesIn_map_event (moves : List Move) : movesIn (moves.map Move.event) = moves := by
  induction moves with
  | nil => rfl
  | cons move moves ih => cases move <;> exact congrArg (_ :: ·) ih

/-- An event among others that come in two parts is in the first part or in the second. -/
theorem event_in_append {events more before rest : List Event} {event : Event}
    (h : events ++ more = before ++ event :: rest) :
    (∃ middle, events = before ++ event :: middle ∧ rest = middle ++ more) ∨
      ∃ middle, before = events ++ middle ∧ more = middle ++ event :: rest := by
  rcases List.append_eq_append_iff.1 h with ⟨middle, hbefore, hmore⟩ | ⟨middle, hevents, hrest⟩
  · exact .inr ⟨middle, hbefore, hmore⟩
  · rcases List.cons_eq_append_iff.1 hrest with ⟨rfl, hmore⟩ | ⟨middle, rfl, hrest⟩
    · exact .inr ⟨[], by simpa using hevents.symm, hmore⟩
    · exact .inl ⟨middle, hevents, (List.cons.inj hrest).2⟩

namespace Machine

variable {σ : Type} {host : Host σ} {functions : Dictionary} {m now next : Machine σ}
  {i j : Instruction} {code left : Code} {names : List String} {moves : List Move}
  {events chunk before rest : List Event} {fault : Option Fault} {name : String}
  {depth height : Nat}

@[simp]
theorem movesIn_eventsOf : movesIn (m.eventsOf i moves height fault) = moves := by
  show movesIn (moves.map Move.event ++ [.finish i height fault]) = moves
  rw [movesIn_append, movesIn_map_event]
  exact List.append_nil moves

/-- Among the events of an instruction it is the last that finishes it. -/
theorem finish_in_eventsOf {height' : Nat} {fault' : Option Fault}
    (h : m.eventsOf i moves height' fault' = before ++ .finish j height fault :: rest) :
    movesIn before = moves ∧ rest = [] ∧ j = i ∧ height = height' ∧ fault = fault' := by
  have hsplit : (.start i m.depth m.stack :: moves.map Move.event) ++ [.finish i height' fault'] =
      before ++ .finish j height fault :: rest := h
  rcases event_in_append hsplit with ⟨middle, hmiddle, -⟩ | ⟨middle, rfl, hlast⟩
  · -- before the last event there are only the start and the moves
    have hmem :
        Event.finish j height fault ∈ Event.start i m.depth m.stack :: moves.map Move.event := by
      rw [hmiddle]
      simp
    simp only [List.mem_cons, List.mem_map, reduceCtorEq, false_or] at hmem
    obtain ⟨move, -, hmove⟩ := hmem
    cases move <;> simp [Move.event] at hmove
  · cases middle with
    | nil =>
      obtain ⟨hfinish, rfl⟩ := List.cons.inj hlast
      obtain ⟨rfl, rfl, rfl⟩ := Event.finish.inj hfinish
      refine ⟨?_, rfl, rfl, rfl, rfl⟩
      rw [List.append_nil]
      exact movesIn_map_event moves
    | cons event middle => simp at hlast

/-- No call is among the events of an instruction, for calls come after it. -/
theorem call_notMem_eventsOf {height' : Nat} :
    Event.call name depth height ∉ m.eventsOf i moves height' fault := by
  simp only [eventsOf, List.mem_cons, List.mem_append, List.mem_map, reduceCtorEq, false_or,
    List.not_mem_nil, or_false, not_exists, not_and]
  intro move _ hmove
  cases move <;> simp [Move.event] at hmove

namespace Tells

/-- The moves that a step shows lead from its stack to that of the next moment. -/
theorem replays (h : Tells host functions m i next chunk) :
    replay m.stack.cells (movesIn chunk) = some next.stack.cells := by
  cases h with
  | nothing => rfl
  | out hcells =>
    rw [movesIn_eventsOf, hcells]
    rfl
  | call _ _ hstack =>
    rw [movesIn_append, movesIn_eventsOf, hstack]
    rfl
  | other hreplay =>
    rw [movesIn_eventsOf]
    exact hreplay

/-- The instruction that a step finishes, with what comes before and after it. -/
theorem finishes (h : Tells host functions m i next chunk)
    (hchunk : chunk = before ++ .finish j height fault :: rest) :
    movesIn before = movesIn chunk ∧ height = next.stack.height ∧
      (∀ name, j = .call name → fault = none → ∃ depth, rest = [.call name depth height]) := by
  cases h with
  | nothing => simp at hchunk
  | out =>
    obtain ⟨hmoves, -, rfl, rfl, -⟩ := finish_in_eventsOf hchunk
    exact ⟨by rw [hmoves, movesIn_eventsOf], rfl, by simp⟩
  | @call next name body hfind hroom hstack =>
    rcases event_in_append hchunk with ⟨middle, hmiddle, rfl⟩ | ⟨middle, -, hcall⟩
    · obtain ⟨hmoves, rfl, rfl, rfl, -⟩ := finish_in_eventsOf hmiddle
      refine ⟨?_, by rw [hstack], fun name' hname _ => ?_⟩
      · rw [hmoves, movesIn_append, movesIn_eventsOf]
        rfl
      · obtain rfl := Instruction.call.inj hname
        exact ⟨_, rfl⟩
    · have hmem : Event.finish j height fault ∈ [Event.call name (m.depth + 1) m.stack.height] := by
        rw [hcall]
        simp
      simp at hmem
  | other _ hquiet =>
    obtain ⟨hmoves, -, rfl, rfl, rfl⟩ := finish_in_eventsOf hchunk
    refine ⟨by rw [hmoves, movesIn_eventsOf], rfl, fun name hname hnone => ?_⟩
    exact absurd hname ((hquiet hnone).2 name)

/-- A step enters a call right after it has finished the instruction that calls. -/
theorem enters (h : Tells host functions m i next chunk)
    (hchunk : chunk = before ++ .call name depth height :: rest) :
    i = .call name ∧ depth = m.depth + 1 ∧
      before = [.start (.call name) m.depth m.stack, .finish (.call name) height none] := by
  cases h with
  | nothing => simp at hchunk
  | out | other =>
    have hmem := congrArg (Event.call name depth height ∈ ·) hchunk
    simp [call_notMem_eventsOf] at hmem
  | @call next name' body hfind hroom hstack =>
    rcases event_in_append hchunk with ⟨middle, hmiddle, -⟩ | ⟨middle, rfl, hcall⟩
    · have hmem := congrArg (Event.call name depth height ∈ ·) hmiddle
      simp [call_notMem_eventsOf] at hmem
    · cases middle with
      | nil =>
        obtain ⟨hevent, -⟩ := List.cons.inj hcall
        obtain ⟨rfl, rfl, rfl⟩ := Event.call.inj hevent
        exact ⟨rfl, rfl, rfl⟩
      | cons event middle => simp at hcall

end Tells

/-- What the events say that a run shows, up to the moment at which the state is `now`. -/
structure Faithful (host : Host σ) (functions : Dictionary) (m : Machine σ) (code : Code)
    (events : List Event) (now : Machine σ) : Prop where
  /-- The moves that are shown, carried out on the values from the start, never miss a value, and
  lead to the values of the stack. -/
  replays : replay m.stack.cells (movesIn events) = some now.stack.cells
  /-- At the end of an instruction they have led to as many values as are reported there. -/
  heights (before rest : List Event) (i : Instruction) (height : Nat) (fault : Option Fault)
    (h : events = before ++ .finish i height fault :: rest) :
    ∃ values, replay m.stack.cells (movesIn before) = some values ∧ values.length = height
  /-- As many instructions are finished as are counted. -/
  counts : now.executed = m.executed + finishedIn events
  /-- After the end of an instruction that calls a function and has no fault, this function is
  entered. -/
  follows (before rest : List Event) (name : String) (height : Nat)
    (h : events = before ++ .finish (.call name) height none :: rest) :
    ∃ depth rest', rest = .call name depth height :: rest'
  /-- A function is entered right after the end of an instruction that calls it and has no fault.
  This instruction stands at a moment inside the code, up to which the events before it have been
  shown, and the depth is that of the calls that are open there and one more. -/
  enters (before rest : List Event) (name : String) (depth height : Nat)
    (h : events = before ++ .call name depth height :: rest) :
    ∃ earlier here names left,
      before =
        earlier ++ [.start (.call name) here.depth here.stack, .finish (.call name) height none] ∧
      Inside host functions m code names here (.call name :: left) ∧
      here.seen = earlier.foldl host.observe m.seen ∧ depth = m.depth + names.length + 1

namespace Faithful

/-- Before anything happens, the empty trace is faithful. -/
theorem refl (host : Host σ) (functions : Dictionary) (m : Machine σ) (code : Code) :
    Faithful host functions m code [] m where
  replays := rfl
  heights := by simp
  counts := rfl
  follows := by simp
  enters := by simp

/-- Only the stack and the count have a say in it. -/
theorem congr (h : Faithful host functions m code events now) (hstack : next.stack = now.stack)
    (hcount : next.executed = now.executed) : Faithful host functions m code events next where
  replays := by rw [hstack]; exact h.replays
  heights := h.heights
  counts := by rw [hcount]; exact h.counts
  follows := h.follows
  enters := h.enters

/-- **A step stays faithful.** -/
theorem step (h : Faithful host functions m code events now)
    (hseen : now.seen = events.foldl host.observe m.seen)
    (hinside : Inside host functions m code names now (i :: left))
    (htells : Tells host functions now i next chunk) :
    Faithful host functions m code (events ++ chunk) next where
  replays := by
    rw [movesIn_append, replay_append, h.replays]
    exact htells.replays
  heights before rest j height fault hsplit := by
    rcases event_in_append hsplit with ⟨middle, hevents, -⟩ | ⟨middle, rfl, hchunk⟩
    · exact h.heights before middle j height fault hevents
    · obtain ⟨hmoves, rfl, -⟩ := htells.finishes hchunk
      refine ⟨next.stack.cells, ?_, next.stack.height_eq.symm⟩
      rw [movesIn_append, replay_append, h.replays, hmoves]
      exact htells.replays
  counts := by rw [finishedIn_append, htells.counts, h.counts, Nat.add_assoc]
  follows before rest name height hsplit := by
    rcases event_in_append hsplit with ⟨middle, hevents, rfl⟩ | ⟨middle, rfl, hchunk⟩
    · obtain ⟨depth, rest', rfl⟩ := h.follows before middle name height hevents
      exact ⟨depth, rest' ++ chunk, rfl⟩
    · obtain ⟨-, -, hcall⟩ := htells.finishes hchunk
      obtain ⟨depth, rfl⟩ := hcall name rfl rfl
      exact ⟨depth, [], rfl⟩
  enters before rest name depth height hsplit := by
    rcases event_in_append hsplit with ⟨middle, hevents, -⟩ | ⟨middle, rfl, hchunk⟩
    · exact h.enters before middle name depth height hevents
    · obtain ⟨rfl, rfl, rfl⟩ := htells.enters hchunk
      have hdepth := hinside.depth_eq
      exact ⟨events, now, names, left, rfl, hinside, hseen, by omega⟩

end Faithful

/-- A step inside the code adds events, and the events are faithful again. -/
theorem Faithful.perform (h : Faithful host functions m code events now)
    (hseen : now.seen = events.foldl host.observe m.seen)
    (hinside : Inside host functions m code names now (i :: left)) :
    ∃ events', (now.perform host functions i).1.seen = events'.foldl host.observe m.seen ∧
      Faithful host functions m code events' (now.perform host functions i).1 := by
  obtain ⟨chunk, hchunk, htells⟩ := exists_tells host functions now i
  refine ⟨events ++ chunk, ?_, h.step hseen hinside htells⟩
  rw [List.foldl_append, ← hseen]
  exact hchunk

/-- At every moment of a run what was shown is faithful. -/
theorem Reaches.exists_faithful {moment : Moment σ}
    (h : Reaches host functions (m, code.map .perform) moment) :
    ∃ events, moment.1.seen = events.foldl host.observe m.seen ∧
      Faithful host functions m code events moment.1 := by
  induction h with
  | refl => exact ⟨[], rfl, .refl host functions m code⟩
  | tail hreaches hstep ih =>
    obtain ⟨events, hseen, hfaithful⟩ := ih
    cases hstep with
    | leave => exact ⟨events, hseen, hfaithful.congr rfl rfl⟩
    | perform hperform rest =>
      obtain ⟨names, left, hinside⟩ := inside_of_reaches_perform hreaches
      have hnext := hfaithful.perform hseen hinside
      rwa [hperform] at hnext

/-- What a run shows to any observer is faithful, whatever the run ends in. -/
theorem exists_faithful_run (host : Host σ) (functions : Dictionary) (m : Machine σ)
    (code : Code) :
    ∃ events, (m.run host functions code).1.seen = events.foldl host.observe m.seen ∧
      Faithful host functions m code events (m.run host functions code).1 := by
  obtain ⟨last, hreaches, hstops⟩ := exists_reaches_stops host functions m (code.map .perform)
  obtain ⟨events, hseen, hfaithful⟩ := hreaches.exists_faithful
  rw [run]
  generalize m.runTasks host functions (code.map .perform) = r at hstops
  cases hstops with
  | done => exact ⟨events, hseen, hfaithful⟩
  | error hperform rest =>
    obtain ⟨names, left, hinside⟩ := inside_of_reaches_perform hreaches
    obtain ⟨events', hseen', hfaithful'⟩ := hfaithful.perform hseen hinside
    rw [hperform] at hseen' hfaithful'
    exact ⟨events', hseen', hfaithful'.congr rfl rfl⟩

/-- **The trace is faithful.** For all limits, functions and code, on every machine with any stack,
sink, count and depth: an observer that keeps all events has, after a run with or without an error,
the events from before and those of the run, in their order, and from these the run can be told. -/
theorem run_faithful (limits : Limits) (functions : Dictionary) (m : Machine (List Event))
    (code : Code) :
    ∃ events, (m.run ⟨limits, .recorder⟩ functions code).1.seen = events.reverse ++ m.seen ∧
      Faithful ⟨limits, .recorder⟩ functions m code events
        (m.run ⟨limits, .recorder⟩ functions code).1 := by
  obtain ⟨events, hseen, hfaithful⟩ := exists_faithful_run ⟨limits, .recorder⟩ functions m code
  refine ⟨events, ?_, hfaithful⟩
  rw [hseen]
  exact List.foldl_flip_cons_eq_append'

/-- On a stack above its limit `SWAP` fails halfway, and what it has done by then is shown. -/
example :
    let m : Machine (List Event) := { stack := .ofList [1, 2], sink := {}, seen := [] }
    let r := m.run ⟨{ stack := 1 }, .recorder⟩ .empty [.swap]
    r.1.seen.take 4 = [.finish .swap 1 (some .fullStack), .push 2, .pop, .pop] := by
  intro m r
  simp only [r, m]
  cbv

end Machine

end StackLang
