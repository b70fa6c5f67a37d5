import StackLang.Machine.Stats
import StackLang.Proofs.Runs

/-!
# What a step does and shows

A step changes the stack by moves and shows each of them, so the moves can be read back from the
events: `replay` carries moves out on bare values, without limits, and what a machine has carried
out of a plan is a replay of a first part of it (`exists_replay_play`). An instruction that comes to
an effect has carried out its whole plan, and one that fails a part of it (`exists_replay_execute`).

`Tells` collects what one step can do, together with the events that show it: nothing at the limit
of operations, or an instruction from its start to its finish, and after the finish of a call that
succeeds the entry into the body. Every step is one of these, `exists_tells`. What statistics make
of the events of an instruction is told by `exists_foldl_eventsOf`.
-/

set_option autoImplicit false

namespace StackLang

open Text (intText)

/-- Carries out a change on values, top first. Where there is none, none is taken off. -/
def Move.on? (values : List Int32) : Move → Option (List Int32)
  | .push v => some (v :: values)
  | .pop => values.tail?

/-- Carries out changes on values, in order. -/
def replay (values : List Int32) (moves : List Move) : Option (List Int32) :=
  moves.foldlM Move.on? values

@[simp]
theorem replay_nil (values : List Int32) : replay values [] = some values := rfl

@[simp]
theorem replay_push (values : List Int32) (v : Int32) (moves : List Move) :
    replay values (.push v :: moves) = replay (v :: values) moves := rfl

@[simp]
theorem replay_pop (v : Int32) (values : List Int32) (moves : List Move) :
    replay (v :: values) (.pop :: moves) = replay values moves := rfl

/-- Moves after moves are replayed one after the other, if the first can be. -/
theorem replay_append (values : List Int32) (moves more : List Move) :
    replay values (moves ++ more) = (replay values moves).bind (replay · more) :=
  List.foldlM_append

/-- The event that shows a change. -/
def Move.event : Move → Event
  | .pop => .pop
  | .push v => .push v

namespace Machine

variable {σ : Type} {host : Host σ} {functions : Dictionary} {m next after : Machine σ}
  {i : Instruction}

/-- Moves are carried out one by one, up to the first that is impossible, and each is shown. -/
theorem exists_replay_play (host : Host σ) (m : Machine σ) (moves : List Move) :
    ∃ done, done <+: moves ∧
      replay m.stack.cells done = some (m.play host moves).1.stack.cells ∧
      (m.play host moves).1.seen = (done.map Move.event).foldl host.observe m.seen ∧
      ((m.play host moves).2 = .ok () → done = moves) := by
  induction moves generalizing m with
  | nil => exact ⟨[], List.prefix_rfl, rfl, rfl, fun _ => rfl⟩
  | cons move moves ih =>
    cases move with
    | pop =>
      unfold play
      cases hpop : m.stack.pop? with
      | none => exact ⟨[], List.nil_prefix, rfl, rfl, by simp⟩
      | some popped =>
        obtain ⟨v, stack⟩ := popped
        obtain ⟨done, hpart, hreplay, hseen, hall⟩ := ih (note host .pop { m with stack })
        refine ⟨.pop :: done, List.cons_prefix_cons.2 ⟨rfl, hpart⟩, ?_, hseen, fun hok => ?_⟩
        · rw [(Stack.pop?_eq_some_iff _ _ _).1 hpop, replay_pop]
          exact hreplay
        · rw [hall hok]
    | push v =>
      unfold play
      by_cases hroom : m.stack.height < host.limits.stack.toNat
      · rw [if_pos hroom]
        obtain ⟨done, hpart, hreplay, hseen, hall⟩ :=
          ih (note host (.push v) { m with stack := m.stack.push v })
        refine ⟨.push v :: done, List.cons_prefix_cons.2 ⟨rfl, hpart⟩, hreplay, hseen, ?_⟩
        intro hok
        rw [hall hok]
      · rw [if_neg hroom]
        exact ⟨[], List.nil_prefix, rfl, rfl, by simp⟩

/-- The events of an instruction that makes the given moves. -/
def eventsOf (m : Machine σ) (i : Instruction) (moves : List Move) (height : Nat)
    (fault : Option Fault) : List Event :=
  .start i m.depth m.stack :: (moves.map Move.event ++ [.finish i height fault])

/-- An instruction that is applied makes moves, all of its plan if it comes to an effect. -/
theorem exists_replay_apply (host : Host σ) (functions : Dictionary) (m : Machine σ)
    (i : Instruction) :
    ∃ moves, replay m.stack.cells moves = some (m.apply host functions i).1.stack.cells ∧
      (m.apply host functions i).1.seen = (moves.map Move.event).foldl host.observe m.seen ∧
      ∀ effect, (m.apply host functions i).2 = .ok effect →
        ∃ p, Instruction.Plans host.limits functions m.depth m.stack i p ∧ p.effect = effect ∧
          moves = p.moves := by
  unfold apply
  split
  · exact ⟨[], rfl, rfl, by simp⟩
  · rename_i p hplan
    obtain ⟨done, -, hreplay, hseen, hall⟩ := exists_replay_play host m p.moves
    refine ⟨done, hreplay, hseen, fun effect heffect => ?_⟩
    have hplayed : (m.play host p.moves).2 = .ok () ∧ p.effect = effect := by
      rcases hplay : (m.play host p.moves).2 with fault | ⟨⟩
      · simp [hplay, Except.map] at heffect
      · simpa [hplay, Except.map] using heffect
    exact ⟨p, Instruction.plans_of_plan hplan, hplayed.2, hall hplayed.1⟩

/-- With room for it, an instruction makes moves and is shown from its start to its finish. -/
theorem exists_replay_execute (functions : Dictionary) (i : Instruction)
    (hroom : m.executed < host.limits.operations.toNat) :
    ∃ moves fault,
      replay m.stack.cells moves = some (m.execute host functions i).1.stack.cells ∧
      (m.execute host functions i).1.seen =
        (m.eventsOf i moves (m.execute host functions i).1.stack.height fault).foldl
          host.observe m.seen ∧
      (∀ e, (m.execute host functions i).2 = .error e → fault ≠ none) ∧
      ∀ effect, (m.execute host functions i).2 = .ok effect → fault = none ∧
        ∃ p, Instruction.Plans host.limits functions m.depth m.stack i p ∧ p.effect = effect ∧
          moves = p.moves := by
  obtain ⟨moves, hreplay, hseen, hplanned⟩ :=
    exists_replay_apply host functions (note host (.start i m.depth m.stack) m) i
  unfold execute
  rw [if_neg (Nat.not_le_of_lt hroom)]
  rcases happly : (note host (.start i m.depth m.stack) m).apply host functions i with
    ⟨inner, fault | effect⟩
  · rw [happly] at hreplay hseen
    refine ⟨moves, some fault, hreplay, ?_, by simp, by simp [Except.mapError]⟩
    show host.observe inner.seen _ = _
    rw [hseen, eventsOf, List.foldl_cons, List.foldl_append]
    rfl
  · rw [happly] at hreplay hseen hplanned
    refine ⟨moves, none, hreplay, ?_, by simp [Except.mapError], fun effect' heffect => ⟨rfl, ?_⟩⟩
    · show host.observe inner.seen _ = _
      rw [hseen, eventsOf, List.foldl_cons, List.foldl_append]
      rfl
    · obtain rfl : effect = effect' := by simpa [Except.mapError] using heffect
      exact hplanned effect rfl

/-- What a step does, and the events that show it. -/
inductive Tells (host : Host σ) (functions : Dictionary) (m : Machine σ) :
    Instruction → Machine σ → List Event → Prop
  /-- At the limit of operations nothing happens. -/
  | nothing {i : Instruction} (hlimit : host.limits.operations.toNat ≤ m.executed) :
      Tells host functions m i m []
  /-- A value is taken off and written, as far as there is room for it. -/
  | out {next : Machine σ} {v : Int32} (hcells : m.stack.cells = v :: next.stack.cells)
      (hsink : next.sink = (m.sink.write (intText v.toInt ++ "\n")).1)
      (hcount : next.executed = m.executed + 1) (hdepth : next.depth = m.depth) :
      Tells host functions m .out next (m.eventsOf .out [.pop] next.stack.height none)
  /-- A function is called, and its body is entered. -/
  | call {next : Machine σ} {name : String} {body : Code}
      (hfind : functions.find? name = some body) (hroom : m.depth < host.limits.depth.toNat)
      (hstack : next.stack = m.stack) (hsink : next.sink = m.sink)
      (hcount : next.executed = m.executed + 1) (hdepth : next.depth = m.depth + 1) :
      Tells host functions m (.call name) next
        (m.eventsOf (.call name) [] m.stack.height none ++
          [.call name (m.depth + 1) m.stack.height])
  /-- The instruction fails, or it changes the stack and at most leads to a branch. -/
  | other {i : Instruction} {next : Machine σ} {moves : List Move} {fault : Option Fault}
      (hreplay : replay m.stack.cells moves = some next.stack.cells)
      (hquiet : fault = none → i ≠ .out ∧ ∀ name, i ≠ .call name) (hsink : next.sink = m.sink)
      (hcount : next.executed = m.executed + 1) (hdepth : next.depth = m.depth) :
      Tells host functions m i next (m.eventsOf i moves next.stack.height fault)

/-- **Every step tells what it does.** -/
theorem exists_tells (host : Host σ) (functions : Dictionary) (m : Machine σ) (i : Instruction) :
    ∃ events, (m.perform host functions i).1.seen = events.foldl host.observe m.seen ∧
      Tells host functions m i (m.perform host functions i).1 events := by
  by_cases hroom : m.executed < host.limits.operations.toNat
  · obtain ⟨moves, fault, hreplay, hseen, hfailed, hplanned⟩ :=
      exists_replay_execute functions i hroom
    obtain ⟨hsink, hdepth⟩ := frame_execute host functions m i
    have hcount := executed_execute_eq host functions m i
    rw [if_neg (Nat.not_le_of_lt hroom)] at hcount
    unfold perform
    generalize m.execute host functions i = r
      at hreplay hseen hfailed hplanned hsink hdepth hcount ⊢
    obtain ⟨after, e | effect⟩ := r
    all_goals simp only at hreplay hseen hsink hdepth hcount
    · have hfault := hfailed e rfl
      exact ⟨_, hseen, .other hreplay (fun hnone => absurd hnone hfault) hsink hcount hdepth⟩
    · obtain ⟨rfl, p, hplans, heffect, rfl⟩ := hplanned effect rfl
      cases effect with
      | nothing =>
        refine ⟨_, hseen, .other hreplay (fun _ => ?_) hsink hcount hdepth⟩
        cases hplans <;> simp at heffect ⊢
      | follow code =>
        refine ⟨_, hseen, .other hreplay (fun _ => ?_) hsink hcount hdepth⟩
        cases hplans <;> simp at heffect ⊢
      | print v =>
        cases hplans with
        | @out v' rest hcells =>
          obtain rfl : v' = v := Effect.print.inj heffect
          have hwritten : (after.print v').1.sink =
              (after.sink.write (intText v'.toInt ++ "\n")).1 := rfl
          rw [hsink] at hwritten
          rw [hcells, replay_pop, replay_nil] at hreplay
          obtain rfl : rest = after.stack.cells := Option.some.inj hreplay
          exact ⟨_, hseen, .out hcells hwritten hcount hdepth⟩
        | _ => simp at heffect
      | enter name body =>
        cases hplans with
        | call hfind hlimit =>
          obtain ⟨rfl, rfl⟩ := Effect.enter.inj heffect
          have hstack : after.stack = m.stack := Stack.ext (Option.some.inj hreplay).symm
          refine ⟨_, ?_, .call hfind hlimit hstack hsink hcount (congrArg (· + 1) hdepth)⟩
          rw [List.foldl_append, ← hstack, ← hseen, ← hdepth]
          rfl
        | _ => simp at heffect
  · have hlimit := Nat.le_of_not_lt hroom
    rw [perform_of_limit_le hlimit]
    exact ⟨[], rfl, .nothing hlimit⟩

section Statistics

/-- Statistics count moves, each as what it is, and change in nothing else. -/
theorem exists_foldl_moves (stats : Stats) (moves : List Move) :
    ∃ pushes pops, (moves.map Move.event).foldl Stats.observe stats =
      { stats with pushes, pops } := by
  induction moves generalizing stats with
  | nil => exact ⟨_, _, rfl⟩
  | cons move moves ih =>
    obtain ⟨pushes, pops, hrest⟩ := ih (Stats.observe stats move.event)
    refine ⟨pushes, pops, hrest.trans ?_⟩
    cases move <;> rfl

/-- What statistics make of an instruction. -/
theorem exists_foldl_eventsOf (m : Machine σ) (stats : Stats) (i : Instruction)
    (moves : List Move) (height : Nat) (fault : Option Fault) :
    ∃ pushes pops, (m.eventsOf i moves height fault).foldl Stats.observe stats =
      { stats with
        pushes, pops
        instructions := stats.instructions + 1
        maxHeight := max stats.maxHeight height
        outputs := if i = .out ∧ fault = none then stats.outputs + 1 else stats.outputs } := by
  obtain ⟨pushes, pops, hmoves⟩ := exists_foldl_moves stats moves
  refine ⟨pushes, pops, ?_⟩
  rw [eventsOf, List.foldl_cons, List.foldl_append]
  show [Event.finish i height fault].foldl _ ((moves.map Move.event).foldl _ stats) = _
  rw [hmoves]
  rfl

end Statistics

end Machine

end StackLang
