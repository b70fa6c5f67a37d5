import StackLang.Proofs.Events
import StackLang.Proofs.OpenCalls
import StackLang.Proofs.Output
import StackLang.Proofs.Truncation
import StackLang.Proofs.Views

/-!
# A full sink cuts the output

Take a run with room for everything that it writes, and the same run with room for a number of
characters. As long as the output fits, the second machine is the first one with a sink that has
as much less room as has been written, and so it does the same steps. The step that takes the output
beyond the room is an `OUT`; it writes the part that fits, and there the second run ends. `cut`
makes the second machine out of the first one in both cases: `perform_cut` is about a step, and
`runTasks_cut` about a run.

Programs write ASCII only, so characters are bytes, and `run_cuts_output` speaks of these.
-/

set_option autoImplicit false

namespace StackLang

open Text (bytes intText)

variable {capacity : Nat}

/-- A sink without a limit, had it had room for a number of characters only. -/
def Sink.cut (capacity : Nat) (s : Sink) : Sink :=
  { s with
    text := String.ofList (s.text.toList.take capacity)
    room := some (capacity - s.text.length) }

/-- A sink that holds no more than its capacity is cut in its room only. -/
theorem Sink.cut_of_length_le {s : Sink} (h : s.text.length ≤ capacity) :
    s.cut capacity = { s with room := some (capacity - s.text.length) } := by
  rw [cut, List.take_of_length_le (by rwa [String.length_toList]), String.ofList_toList]

/-- A write to a cut sink is the cut of a write, and fails if this does not fit. -/
theorem Sink.write_cut {s : Sink} (hroom : s.room = none) (hfit : s.text.length ≤ capacity)
    (text : String) :
    (s.cut capacity).write text = ((s.write text).1.cut capacity,
      if (s.write text).1.text.length ≤ capacity then .ok () else .error .sinkFull) := by
  have hlength : (s.text ++ text).length = s.text.length + text.length :=
    String.length_append s.text text
  rw [write_of_room_none hroom, cut_of_length_le hfit]
  by_cases hmore : text.length ≤ capacity - s.text.length
  · have hwritten : (s.text ++ text).length ≤ capacity := by omega
    have hleft : capacity - s.text.length - text.length = capacity - (s.text ++ text).length := by
      omega
    have hcut := @cut_of_length_le capacity { s with text := s.text ++ text } hwritten
    rw [write_of_length_le rfl hmore, if_pos hwritten, hcut, hleft]
  · have hover : ¬ (s.text ++ text).length ≤ capacity := by omega
    have hleft : 0 = capacity - (s.text ++ text).length := by omega
    have hall : s.text.toList.take capacity = s.text.toList :=
      List.take_of_length_le (by rwa [String.length_toList])
    have htext : s.text ++ String.ofList (text.toList.take (capacity - s.text.length)) =
        String.ofList ((s.text ++ text).toList.take capacity) := by
      rw [String.toList_append, List.take_append, hall, String.ofList_append, String.ofList_toList,
        String.length_toList]
    rw [write_of_lt_length rfl (Nat.lt_of_not_le hmore), if_neg hover, cut, htext, hleft]

namespace Machine

variable {σ : Type} {host : Host σ} {functions : Dictionary} {m now next : Machine σ}
  {i : Instruction} {code : Code}

/-- A machine with a sink without limit, had this had room for a number of characters only. -/
def cut (capacity : Nat) (m : Machine σ) : Machine σ := { m with sink := m.sink.cut capacity }

/-- Before its effect an instruction does not notice the room of the sink. -/
theorem view_cut (host : Host σ) (capacity : Nat) : View host host (cut capacity) where
  stackLimit := rfl
  depthLimit := rfl
  stack _ := rfl
  executed _ := rfl
  depth _ := rfl
  note _ _ := rfl
  withStack _ _ := rfl
  withExecuted _ _ := rfl

/-- With room for everything a value is written. -/
theorem print_of_room_none (hroom : m.sink.room = none) (v : Int32) :
    m.print v =
      ({ m with sink := { m.sink with text := m.sink.text ++ (intText v.toInt ++ "\n") } },
        .ok ()) := by
  rw [print, Sink.write_of_room_none hroom]
  rfl

/-- An effect is started on a cut machine like on the machine itself, and fails if what it writes
does not fit. -/
theorem realize_cut (host : Host σ) (hroom : m.sink.room = none)
    (hfit : m.sink.text.length ≤ capacity) (effect : Effect) :
    (m.cut capacity).realize host effect =
      ((m.realize host effect).1.cut capacity,
        if (m.realize host effect).1.sink.text.length ≤ capacity then (m.realize host effect).2
        else .error (.output .sinkFull)) := by
  cases effect with
  | print v =>
    have hwrite : (m.cut capacity).sink.write (intText v.toInt ++ "\n") = _ :=
      Sink.write_cut hroom hfit _
    rw [realize, realize, print_of_room_none hroom, print, hwrite, Sink.write_of_room_none hroom]
    refine Prod.ext rfl ?_
    simp only
    split_ifs <;> rfl
  | nothing | enter | follow => exact Prod.ext rfl (if_pos hfit).symm

/-- A value is taken off and written on a line, with room for everything. -/
structure Prints (host : Host σ) (functions : Dictionary) (m next : Machine σ) : Prop where
  perform : m.perform host functions .out = (next, .ok [])
  value : ∃ v, m.stack.pop? = some (v, next.stack) ∧
    next.sink.text = m.sink.text ++ (intText v.toInt ++ "\n")
  executed : next.executed = m.executed + 1

/-- A step that writes is an `OUT`, and with room for everything it succeeds. -/
theorem sink_eq_or_prints (hroom : m.sink.room = none) (host : Host σ) (functions : Dictionary)
    (i : Instruction) :
    (m.perform host functions i).1.sink = m.sink ∨
      i = .out ∧ Prints host functions m (m.perform host functions i).1 := by
  have hsink := (frame_execute host functions m i).1
  rcases hexec : m.execute host functions i with ⟨after, e | effect⟩
  all_goals rw [hexec] at hsink
  · left
    simp only [perform, hexec]
    exact hsink
  · cases effect with
    | print v =>
      -- only the plan of `OUT` has a value to print
      right
      obtain ⟨hcount, hlimit⟩ := executed_execute hexec
      obtain ⟨moves, fault, hreplay, -, -, hplanned⟩ := exists_replay_execute functions i hlimit
      rw [hexec] at hreplay hplanned
      obtain ⟨-, p, hplans, heffect, rfl⟩ := hplanned (.print v) rfl
      cases hplans with
      | @out v' rest hcells =>
        obtain rfl : v' = v := Effect.print.inj heffect
        rw [hcells, replay_pop, replay_nil] at hreplay
        obtain rfl : rest = after.stack.cells := Option.some.inj hreplay
        have hpop : m.stack.pop? = some (v', after.stack) := (Stack.pop?_eq_some_iff _ _ _).2 hcells
        have hprint := print_of_room_none (hsink ▸ hroom) v'
        have hperform : m.perform host functions .out =
            ({ after with sink :=
                { after.sink with text := after.sink.text ++ (intText v'.toInt ++ "\n") } },
              .ok []) := by
          simp [perform, hexec, realize, hprint, Except.map]
        rw [hperform]
        exact ⟨rfl, hperform, ⟨v', hpop, hsink ▸ rfl⟩, hcount⟩
      | _ => simp at heffect
    | nothing | enter | follow =>
      left
      simp only [perform, hexec]
      exact hsink

/-- **A step with less room.** It is the cut of the step with room for everything, and it fails
where this has written too much. -/
theorem perform_cut (host : Host σ) (functions : Dictionary) (i : Instruction)
    (hroom : m.sink.room = none) (hfit : m.sink.text.length ≤ capacity) :
    (m.cut capacity).perform host functions i =
      ((m.perform host functions i).1.cut capacity,
        if (m.perform host functions i).1.sink.text.length ≤ capacity then
          (m.perform host functions i).2
        else .error (.output .sinkFull)) := by
  have hsink := (frame_execute host functions m i).1
  rw [perform, perform, (view_cut host capacity).execute functions m i Iff.rfl]
  generalize m.execute host functions i = r at hsink ⊢
  obtain ⟨after, e | effect⟩ := r
  all_goals
    change after.sink = m.sink at hsink
    rw [← hsink] at hroom hfit
  · exact Prod.ext rfl (if_pos hfit).symm
  · exact realize_cut host hroom hfit effect

/-- A moment of a run at which an `OUT` takes the output beyond a number of characters. -/
structure Crosses (host : Host σ) (functions : Dictionary) (capacity : Nat) (m : Machine σ)
    (tasks : List Task) (now next : Machine σ) (rest : List Task) : Prop where
  reaches : Reaches host functions (m, tasks) (now, .perform .out :: rest)
  prints : Prints host functions now next
  fits : now.sink.text.length ≤ capacity
  exceeds : capacity < next.sink.text.length

/-- **A run with less room.** It is the cut of the run with room for everything, or it ends at an
`OUT` where this has written too much. -/
theorem runTasks_cut (host : Host σ) (functions : Dictionary) (tasks : List Task)
    (hroom : m.sink.room = none) (hfit : m.sink.text.length ≤ capacity) :
    (m.runTasks host functions tasks).1.sink.text.length ≤ capacity ∧
        (m.cut capacity).runTasks host functions tasks =
          ((m.runTasks host functions tasks).1.cut capacity,
            (m.runTasks host functions tasks).2) ∨
      ∃ now next rest, Crosses host functions capacity m tasks now next rest ∧
        (m.cut capacity).runTasks host functions tasks =
          ({ next.cut capacity with depth := next.depth - openCalls rest },
            .error (.output .sinkFull)) := by
  induction m, tasks using runTasks.induct host functions with
  | case1 m =>
    rw [runTasks_nil, runTasks_nil]
    exact .inl ⟨hfit, rfl⟩
  | case2 m rest ih =>
    rw [runTasks_leave, runTasks_leave]
    refine (ih hroom hfit).imp_right ?_
    rintro ⟨now, next, rest', ⟨hreaches, hprints, hbefore, hafter⟩, hcut⟩
    exact ⟨now, next, rest', ⟨.head (.leave m rest) hreaches, hprints, hbefore, hafter⟩, hcut⟩
  | case3 m i rest next tasks hperform ih =>
    have hcut := perform_cut host functions i hroom hfit
    have hnext := room_perform hroom host functions i
    have hwrites := sink_eq_or_prints hroom host functions i
    rw [hperform] at hcut hnext hwrites
    rw [runTasks_perform_ok hperform]
    by_cases hmore : next.sink.text.length ≤ capacity
    · rw [if_pos hmore] at hcut
      rw [runTasks_perform_ok hcut]
      refine (ih hnext hmore).imp_right ?_
      rintro ⟨now, last, rest', ⟨hreaches, hprints, hbefore, hafter⟩, hrun⟩
      exact ⟨now, last, rest', ⟨.head (.perform hperform rest) hreaches, hprints, hbefore, hafter⟩,
        hrun⟩
    · rw [if_neg hmore] at hcut
      rw [runTasks_perform_error hcut]
      rcases hwrites with hsame | ⟨rfl, hprints⟩
      · rw [← hsame] at hfit
        exact absurd hfit hmore
      · exact .inr ⟨m, next, rest, ⟨.refl, hprints, hfit, Nat.lt_of_not_le hmore⟩, rfl⟩
  | case4 m i rest next e hperform =>
    have hcut := perform_cut host functions i hroom hfit
    have hwrites := sink_eq_or_prints hroom host functions i
    rw [hperform] at hcut hwrites
    rcases hwrites with hsame | ⟨rfl, hprints⟩
    · -- what fails with room for everything has written nothing
      rw [← hsame] at hfit
      rw [if_pos hfit] at hcut
      rw [runTasks_perform_error hperform, runTasks_perform_error hcut]
      exact .inl ⟨hfit, rfl⟩
    · have hok := hprints.perform
      rw [hperform] at hok
      simp at hok

/-- What becomes of a run if there is room for a number of bytes only. -/
structure CutsOutput (host : Host σ) (functions : Dictionary) (m : Machine σ) (code : Code)
    (capacity : Nat) (full capped : Machine σ × Except RunError Unit) : Prop where
  /-- The first bytes are stored. -/
  stored : bytes capped.1.sink.text = (bytes full.1.sink.text).take capacity
  /-- If all bytes have room, then all but the sink is the same. -/
  fits (h : (bytes full.1.sink.text).length ≤ capacity) :
    capped.2 = full.2 ∧ capped.1 = { full.1 with sink := capped.1.sink }
  /-- Otherwise the run fails at an `OUT` that is at some moment of the run with room for
  everything, at any nesting. There this `OUT` succeeds and takes the output beyond the room. The
  run leaves all but the sink as this `OUT` leaves it, with its value taken off and counted, and
  closes its calls. -/
  fails (h : capacity < (bytes full.1.sink.text).length) :
    capped.2 = .error (.output .sinkFull) ∧
      ∃ now next rest,
        Reaches host functions (m, code.map .perform) (now, .perform .out :: rest) ∧
        Prints host functions now next ∧ (bytes now.sink.text).length ≤ capacity ∧
        capacity < (bytes next.sink.text).length ∧
        capped.1 = { next with sink := capped.1.sink, depth := m.depth }

/-- The text of a cut sink has the first bytes. -/
theorem bytes_cut {sink : Sink} (h : Text.IsAscii sink.text.toList) :
    bytes (sink.cut capacity).text = (bytes sink.text).take capacity :=
  Text.bytes_take h capacity

/-- A moment of a run has a first part of its output. -/
theorem Reaches.prefix_run {moment : Moment σ}
    (h : Reaches host functions (m, code.map .perform) moment) :
    moment.1.sink.text.toList <+: (m.run host functions code).1.sink.text.toList := by
  have hgrows := grows_runTasks host functions moment.1 moment.2
  rw [h.runTasks_eq] at hgrows
  exact hgrows.1

/-- **The rule for a full sink.** A run into the sink that is cut is the run into the one that is
not, as long as its output fits, and breaks off where it does not. -/
theorem cutsOutput_run (functions : Dictionary) (code : Code) (hroom : m.sink.room = none)
    (hfit : m.sink.text.length ≤ capacity) (hascii : Text.IsAscii m.sink.text.toList) :
    CutsOutput host functions m code capacity (m.run host functions code)
      ((m.cut capacity).run host functions code) := by
  have hall := isAscii_run host functions code hascii
  have hlength := Text.length_bytes hall
  have hclosed := depth_eval host functions (m.cut capacity) code
  rw [← run_eq_eval] at hclosed
  rcases runTasks_cut host functions (code.map .perform) hroom hfit with
    ⟨hwithin, hcut⟩ | ⟨now, next, rest, ⟨hreaches, hprints, hbefore, hafter⟩, hcut⟩
  · change (m.cut capacity).run host functions code =
      ((m.run host functions code).1.cut capacity, (m.run host functions code).2) at hcut
    change (m.run host functions code).1.sink.text.length ≤ capacity at hwithin
    rw [hcut]
    exact ⟨bytes_cut hall, fun _ => ⟨rfl, rfl⟩, fun hmore => by omega⟩
  · change (m.cut capacity).run host functions code = _ at hcut
    have hnext : Reaches host functions (m, code.map .perform) (next, rest) :=
      hreaches.tail (.perform hprints.perform rest)
    have hnowPart : now.sink.text.toList <+: _ := hreaches.prefix_run
    have hnextPart : next.sink.text.toList <+: _ := hnext.prefix_run
    have hnowLength := Text.length_bytes (hall.of_isPrefix hnowPart)
    have hnextLength := Text.length_bytes (hall.of_isPrefix hnextPart)
    have hlonger := hnextPart.length_le
    rw [String.length_toList, String.length_toList] at hlonger
    have hdepth : next.depth - openCalls rest = m.depth := by
      rw [hcut] at hclosed
      exact hclosed
    rw [hcut, hdepth]
    refine ⟨?_, fun hless => by omega, fun _ => ⟨rfl, now, next, rest, hreaches, hprints, by omega,
      by omega, rfl⟩⟩
    -- what is written after this `OUT` is beyond the room
    have htake : next.sink.text.toList.take capacity =
        (m.run host functions code).1.sink.text.toList.take capacity := by
      obtain ⟨more, hmore⟩ := hnextPart
      rw [← hmore, List.take_append_of_le_length]
      rw [String.length_toList]
      omega
    show bytes (String.ofList (next.sink.text.toList.take capacity)) = _
    rw [htake, Text.bytes_take hall]

/-- **A full sink cuts the output and nothing else.** For all code, functions, limits, observers and
machines, and any number of bytes: the run with room for as many bytes stores the first bytes of
what the run with room for everything writes. If these are all, the runs agree, and otherwise the
run ends at the `OUT` that writes the first byte without room. -/
theorem run_cuts_output (host : Host σ) (functions : Dictionary) (m : Machine σ) (code : Code)
    (capacity : Nat) :
    CutsOutput host functions { m with sink := {} } code capacity
      ({ m with sink := {} }.run host functions code)
      ({ m with sink := { room := some capacity } }.run host functions code) := by
  have hascii : Text.IsAscii "".toList := by simp [Text.IsAscii]
  have hempty : ({} : Sink).cut capacity = { room := some capacity } :=
    Sink.cut_of_length_le (Nat.zero_le capacity)
  rw [← hempty]
  exact cutsOutput_run functions code rfl (Nat.zero_le capacity) hascii

/-- One byte has room, and `OUT` in a function writes two. -/
example :
    let functions := Dictionary.empty.insert "F" [.number 7, .number 5, .out, .out]
    let m : Machine Unit := { stack := .empty, sink := { room := some 1 }, seen := () }
    let r := m.run ⟨{}, .blind⟩ functions [.call "F"]
    r.2 = .error (.output .sinkFull) ∧ r.1.stack.toList = [7] ∧ r.1.executed = 4 := by
  cbv

end Machine

end StackLang
