import StackLang.Machine.Stats
import StackLang.Proofs.CallGraph
import StackLang.Proofs.OpenCalls
import Mathlib

/-!
# How deep calls nest

The calls that are open at a moment of a run are a way through the call graph: the code calls the
outermost function, and each function the next one, `Inside.trail`. In a graph without circles no
function is twice on a way, so there are never more calls open than functions:
`Inside.length_le_size`. Statistics keep the greatest depth of a call, and so they are bounded by
the number of functions as well, `maxDepth_run_le_size`.

A session without a second definition of a name has a call graph without circles, if no function
calls itself. `Registers` relates a session to all definitions that its lines have completed, and
`no_mutual_recursion` says what follows for the functions and for the statistics.
-/

set_option autoImplicit false

namespace StackLang

/-- An observer that keeps statistics, maybe beside other things. -/
def Host.KeepsStats {σ : Type} (host : Host σ) (stats : σ → Stats) : Prop :=
  ∀ seen event, stats (host.observe seen event) = Stats.observe (stats seen) event

namespace Dictionary

variable {functions small large : Dictionary} {code larger : Code} {names : List String}
  {name : String}

/-- The names of a dictionary are those of its functions. -/
theorem mem_names_iff : name ∈ functions.names ↔ functions.contains name := by
  rw [contains, find?, List.lookup_isSome_iff, names, List.mem_map]
  constructor
  · rintro ⟨e, he, rfl⟩
    exact ⟨e, he, beq_self_eq_true _⟩
  · rintro ⟨e, he, hname⟩
    exact ⟨e, he, (eq_of_beq hname).symm⟩

/-- Different functions are not more than there are. -/
theorem length_le_size (hnodup : names.Nodup) (h : ∀ name ∈ names, functions.contains name) :
    names.length ≤ functions.size := by
  have hsubset : names ⊆ functions.names := fun name hname => mem_names_iff.2 (h name hname)
  have hlength := (List.subperm_of_subset hnodup hsubset).length_le
  rwa [Dictionary.names, List.length_map] at hlength

/-- No name stands twice in a dictionary. -/
theorem nodup_names (functions : Dictionary) : functions.names.Nodup := by
  rw [names, List.Nodup, List.pairwise_map]
  refine functions.sorted.imp ?_
  intro e f hlt heq
  rw [heq] at hlt
  exact String.lt_irrefl _ hlt

/-- A dictionary that extends another one has no fewer functions. -/
theorem Extends.size_le (h : large.Extends small) : small.size ≤ large.size := by
  have hcontains : ∀ name ∈ small.names, large.contains name := by
    intro name hname
    obtain ⟨body, hfind⟩ := Option.isSome_iff_exists.1 (mem_names_iff.1 hname)
    rw [contains, h name body hfind]
    rfl
  have hlength := length_le_size small.nodup_names hcontains
  rwa [names, List.length_map] at hlength

/-- A way from code into functions that call each other, the outermost one first. -/
inductive Trail (functions : Dictionary) : Code → List String → Prop
  | nil (code : Code) : Trail functions code []
  | call {code body : Code} {name : String} {names : List String} (hcall : name ∈ callsOf code)
      (hfind : functions.find? name = some body) (h : Trail functions body names) :
      Trail functions code (name :: names)

namespace Trail

/-- A way through the call graph starts in all code that makes the same calls. -/
theorem mono (h : functions.Trail code names) (hsubset : callsOf code ⊆ callsOf larger) :
    functions.Trail larger names := by
  cases h with
  | nil => exact .nil larger
  | call hcall hfind h => exact .call (hsubset hcall) hfind h

/-- The functions on a way through the call graph have bodies. -/
theorem contains (h : functions.Trail code names) : ∀ name ∈ names, functions.contains name := by
  induction h with
  | nil => simp
  | call _ hfind _ ih =>
    refine List.forall_mem_cons.2 ⟨?_, ih⟩
    simp [Dictionary.contains, hfind]

/-- On a way each function calls the next one. -/
theorem isChain (h : functions.Trail code names) : names.IsChain functions.Calls := by
  induction h with
  | nil => exact .nil
  | call _ hfind h ih =>
    refine List.isChain_cons.2 ⟨?_, ih⟩
    cases h with
    | nil => simp
    | @call _ _ next _ hnext _ _ =>
      intro callee hcallee
      obtain rfl : next = callee := by simpa using hcallee
      exact ⟨_, hfind, hnext⟩

/-- Without circles a way visits no function twice. -/
theorem nodup (h : functions.Trail code names)
    (hacyclic : ∀ name, ¬ Relation.TransGen functions.Calls name name) : names.Nodup := by
  have hchain : names.IsChain (Relation.TransGen functions.Calls) :=
    h.isChain.imp fun _ _ hcalls => .single hcalls
  refine (List.isChain_iff_pairwise.1 hchain).imp fun hway heq => ?_
  subst heq
  exact hacyclic _ hway

/-- Without circles no function comes twice on a way through the call graph, so the way is no longer
than there are functions. -/
theorem length_le_size (h : functions.Trail code names)
    (hacyclic : ∀ name, ¬ Relation.TransGen functions.Calls name name) :
    names.length ≤ functions.size :=
  Dictionary.length_le_size (h.nodup hacyclic) h.contains

end Trail

end Dictionary

namespace Machine

variable {σ : Type} {host : Host σ} {functions : Dictionary} {m now : Machine σ}
  {i : Instruction} {code left : Code} {names : List String} {stats : σ → Stats}

/-- The open calls are a way through the call graph. -/
theorem Inside.trail (h : Inside host functions m code names now left) :
    functions.Trail code names.reverse := by
  induction h with
  | here _ code => exact .nil code
  | @later _ _ _ first rest _ _ _ _ ih =>
    refine ih.mono fun name hname => ?_
    obtain ⟨i, hi, hcall⟩ := mem_callsOf.1 hname
    exact mem_callsOf.2 ⟨i, List.mem_append_right _ hi, hcall⟩
  | branch hexec _ ih =>
    obtain ⟨plan, hplan, heffect⟩ := execute_ok hexec
    obtain ⟨nonzero, zero, rfl, hblock⟩ := (Instruction.plans_of_plan hplan).of_follow heffect
    refine ih.mono fun name hname => ?_
    rw [callsOf, Instruction.calls]
    rcases hblock with rfl | rfl
    · exact List.mem_append_left _ (List.mem_append_left _ hname)
    · exact List.mem_append_left _ (List.mem_append_right _ hname)
  | call hexec _ ih =>
    obtain ⟨plan, hplan, heffect⟩ := execute_ok hexec
    obtain ⟨rfl, hfind⟩ := (Instruction.plans_of_plan hplan).of_enter heffect
    rw [List.reverse_append, List.reverse_singleton, List.singleton_append]
    exact .call (by simp [callsOf, Instruction.calls]) hfind ih

/-- Without circles there are never more calls open than functions. -/
theorem Inside.length_le_size (h : Inside host functions m code names now left)
    (hacyclic : ∀ name, ¬ Relation.TransGen functions.Calls name name) :
    names.length ≤ functions.size := by
  have hlength := h.trail.length_le_size hacyclic
  rwa [List.length_reverse] at hlength

section Statistics

/-- The greatest depth is raised by calls only. -/
theorem maxDepth_note (hstats : host.KeepsStats stats) {event : Event}
    (hcall : ∀ name depth height, event ≠ .call name depth height) (m : Machine σ) :
    (stats (note host event m).seen).maxDepth = (stats m.seen).maxDepth := by
  show (stats (host.observe m.seen event)).maxDepth = _
  rw [hstats]
  cases event with
  | call name depth height => exact absurd rfl (hcall name depth height)
  | _ => rfl

/-- What statistics beside other things make of events is what statistics alone make of them. -/
theorem stats_foldl (hstats : host.KeepsStats stats) (events : List Event) (seen : σ) :
    stats (events.foldl host.observe seen) = events.foldl Stats.observe (stats seen) := by
  induction events generalizing seen with
  | nil => rfl
  | cons event events ih => rw [List.foldl_cons, ih, hstats, List.foldl_cons]

/-- The greatest depth grows by entering a call only, up to the depth there. -/
theorem maxDepth_perform_le (hstats : host.KeepsStats stats) (functions : Dictionary)
    (m : Machine σ) (i : Instruction) :
    (stats (m.perform host functions i).1.seen).maxDepth ≤
      max (stats m.seen).maxDepth (m.perform host functions i).1.depth := by
  obtain ⟨events, hseen, htells⟩ := exists_tells host functions m i
  rw [hseen, stats_foldl hstats]
  generalize (m.perform host functions i).1 = next at htells
  cases htells with
  | nothing => exact le_max_left _ _
  | out =>
    obtain ⟨pushes, pops, hfold⟩ :=
      exists_foldl_eventsOf m (stats m.seen) .out [.pop] next.stack.height none
    rw [hfold]
    exact le_max_left _ _
  | @call _ name body _ _ _ _ _ hdepth =>
    obtain ⟨pushes, pops, hfold⟩ :=
      exists_foldl_eventsOf m (stats m.seen) (.call name) [] m.stack.height none
    rw [List.foldl_append, hfold, hdepth]
    exact Nat.le_refl _
  | @other _ _ moves fault =>
    obtain ⟨pushes, pops, hfold⟩ :=
      exists_foldl_eventsOf m (stats m.seen) i moves next.stack.height fault
    rw [hfold]
    exact le_max_left _ _

/-- The greatest depth is bounded by what bounds the depth at all moments. -/
theorem maxDepth_run_le (hstats : host.KeepsStats stats) {bound : Nat}
    (hdepth : ∀ moment, Reaches host functions (m, code.map .perform) moment →
      moment.1.depth ≤ bound) :
    (stats (m.run host functions code).1.seen).maxDepth ≤ max (stats m.seen).maxDepth bound := by
  have hmoment (moment : Moment σ) (h : Reaches host functions (m, code.map .perform) moment) :
      (stats moment.1.seen).maxDepth ≤ max (stats m.seen).maxDepth bound := by
    induction h with
    | refl => exact le_max_left _ _
    | tail hreaches hstep ih =>
      have hlater := hdepth _ (hreaches.tail hstep)
      cases hstep with
      | leave => exact ih
      | @perform now next i tasks hperform rest =>
        have hnext := maxDepth_perform_le hstats functions now i
        rw [hperform] at hnext
        simp only at hnext ih hlater ⊢
        omega
  obtain ⟨last, hreaches, hstops⟩ := exists_reaches_stops host functions m (code.map .perform)
  have hlast := hmoment last hreaches
  have hhere := hdepth last hreaches
  rw [run]
  generalize m.runTasks host functions (code.map .perform) = r at hstops
  cases hstops with
  | done => exact hlast
  | @error now next i e hperform rest =>
    -- a step that fails has entered no call
    have hsame := depth_perform_error hperform
    have hnext := maxDepth_perform_le hstats functions now i
    rw [hperform] at hnext
    simp only at hnext hlast hhere ⊢
    omega

/-- Without circles the greatest depth is at most the number of functions. -/
theorem maxDepth_run_le_size (hstats : host.KeepsStats stats) (hdepth : m.depth = 0)
    (hacyclic : ∀ name, ¬ Relation.TransGen functions.Calls name name) :
    (stats (m.run host functions code).1.seen).maxDepth ≤
      max (stats m.seen).maxDepth functions.size := by
  refine maxDepth_run_le hstats fun moment hmoment => ?_
  obtain ⟨names, left, later, hinside, -, -⟩ := inside_of_reaches hmoment
  have hlength := hinside.length_le_size hacyclic
  have hnow := hinside.depth_eq
  omega

end Statistics

end Machine

namespace Session

open Dictionary (InTurn IsNew CallsKnown)

variable {σ : Type} {host : Host σ} {s : Session σ} {stack : Stack} {sink : Sink} {seen : σ}
  {history : List (String × Code)} {stats : σ → Stats}

/-- A session after any lines, and the definitions that these lines have completed, in their order.
Between lines the sink may change, as it does when a program has ended and is flushed. -/
inductive Registers (host : Host σ) (stack : Stack) (sink : Sink) (seen : σ) :
    List (String × Code) → Session σ → Prop
  | start : Registers host stack sink seen [] (.start stack sink seen)
  | line {history : List (String × Code)} {s : Session σ}
      (h : Registers host stack sink seen history s) (line : String) :
      Registers host stack sink seen (history ++ s.reader.completed line) (s.runLine host line).1
  | output {history : List (String × Code)} {s : Session σ}
      (h : Registers host stack sink seen history s) (sink' : Sink) :
      Registers host stack sink seen history { s with machine := { s.machine with sink := sink' } }

/-- Every session is one of these, whatever lines and programs it has run. -/
theorem Reachable.exists_registers (h : Reachable host stack sink seen s) :
    ∃ history, Registers host stack sink seen history s := by
  have hline : ∀ (s : Session σ) text, (∃ history, Registers host stack sink seen history s) →
      ∃ history, Registers host stack sink seen history (s.runLine host text).1 := by
    rintro s text ⟨history, h⟩
    exact ⟨_, h.line text⟩
  induction h with
  | start => exact ⟨[], .start⟩
  | step _ step ih =>
    cases step with
    | line text => exact hline _ text ih
    | program input =>
      refine (runProgram_keeps hline ?_ ih input).1
      rintro s sink' ⟨history, h⟩
      exact ⟨history, h.output sink'⟩

/-- A line raises the greatest depth to the number of functions after it at most. -/
theorem maxDepth_runLine_le (hstats : host.KeepsStats stats) (hdepth : s.machine.depth = 0)
    {line : String}
    (hacyclic : ∀ name, ¬ Relation.TransGen (s.reader.readLine line).1.functions.Calls name name) :
    (stats (s.runLine host line).1.machine.seen).maxDepth ≤
      max (stats s.machine.seen).maxDepth (s.reader.readLine line).1.functions.size := by
  unfold runLine
  rcases hread : s.reader.readLine line with ⟨reader, e | code⟩
  · exact le_max_left _ _
  · rw [hread] at hacyclic
    let announced := s.machine.note host (.line (s.linesRun + 1) code s.machine.stack.height)
    have hrun := @Machine.maxDepth_run_le_size σ host reader.functions announced code stats hstats
      hdepth hacyclic
    rw [Machine.maxDepth_note hstats (by simp)] at hrun
    exact hrun

namespace Registers

/-- The functions of a session are those that its history defines, one after the other. -/
theorem functions_eq (h : Registers host stack sink seen history s) :
    s.reader.functions = Dictionary.empty.insertAll history := by
  induction h with
  | start => rfl
  | line _ line ih =>
    rw [reader_runLine, Reader.functions_readLine, ih, Dictionary.insertAll_append]
  | output _ _ ih => exact ih

/-- Every definition of the history calls itself, or what has been defined before it. -/
theorem callsKnown (h : Registers host stack sink seen history s) :
    InTurn CallsKnown .empty history := by
  induction h with
  | start => exact trivial
  | @line history s h line ih =>
    obtain ⟨ws, code, hline, hcode⟩ := s.reader.exists_line_completed line
    have hknown := hline.callsKnown
    rw [hcode, h.functions_eq] at hknown
    exact Dictionary.inTurn_append.2 ⟨ih, hknown⟩
  | output _ _ ih => exact ih

/-- Between lines no call is open. -/
theorem depth_eq_zero (h : Registers host stack sink seen history s) : s.machine.depth = 0 := by
  induction h with
  | start => rfl
  | line _ line ih => rw [depth_runLine, ih]
  | output _ _ ih => exact ih

/-- Without self-calls there are no circles at all. -/
theorem not_transGen_calls (h : Registers host stack sink seen history s)
    (hnew : InTurn IsNew .empty history)
    (hself : ∀ name body, s.reader.functions.find? name = some body → name ∉ callsOf body)
    (name : String) : ¬ Relation.TransGen s.reader.functions.Calls name name := by
  have hother : s.reader.functions.Calls ≤ s.reader.functions.CallsOther := by
    intro caller callee hcalls
    refine ⟨hcalls, ?_⟩
    rintro rfl
    obtain ⟨body, hfind, hcall⟩ := hcalls
    exact hself _ body hfind hcall
  rw [h.functions_eq] at hother ⊢
  intro hcircle
  exact Dictionary.not_transGen_callsOther hnew h.callsKnown name
    (Relation.TransGen.mono hother name name hcircle)

/-- The greatest depth in a session is at most the number of functions. -/
theorem maxDepth_le_size (h : Registers host stack sink seen history s)
    (hnew : InTurn IsNew .empty history)
    (hself : ∀ name body, s.reader.functions.find? name = some body → name ∉ callsOf body)
    (hstats : host.KeepsStats stats) (hseen : stats seen = {}) :
    (stats s.machine.seen).maxDepth ≤ s.reader.functions.size := by
  induction h with
  | start =>
    show (stats seen).maxDepth ≤ _
    rw [hseen]
    exact Nat.zero_le _
  | @line history s h line ih =>
    have hacyclic := (h.line line).not_transGen_calls hnew hself
    have hreader := reader_runLine host s line
    obtain ⟨hold, hmore⟩ := Dictionary.inTurn_append.1 hnew
    -- the functions from before are there with the same bodies
    have hextends : (s.runLine host line).1.reader.functions.Extends s.reader.functions := by
      rw [hreader, Reader.functions_readLine, h.functions_eq]
      exact Dictionary.extends_insertAll hmore.nodup.2
    have hbefore := ih hold fun name body hfind => hself name body (hextends name body hfind)
    have hsize := hextends.size_le
    rw [hreader] at hacyclic hsize ⊢
    have hline := maxDepth_runLine_le hstats h.depth_eq_zero hacyclic
    omega
  | output _ _ ih => exact ih hnew hself

end Registers

/-- **No mutual recursion without redefinition.** Every session, whatever lines and programs it has
run, is one after lines that have completed definitions. Take these, and let none of them use a name
a second time. Whatever a function calls, at any depth and itself apart, was registered before it, so
different functions do not call each other in a circle. If no function calls itself either, then the
greatest number of calls that were ever open at a time is at most the number of functions. -/
theorem no_mutual_recursion (host : Host σ) (stack : Stack) (sink : Sink) (seen : σ) :
    (∀ s, Reachable host stack sink seen s →
      ∃ history, Registers host stack sink seen history s) ∧
    ∀ s history, Registers host stack sink seen history s → InTurn IsNew .empty history →
      (∀ name body, s.reader.functions.find? name = some body →
        ∃ before after, history = before ++ (name, body) :: after ∧
          ∀ callee ∈ callsOf body, callee ≠ name → callee ∈ before.map Prod.fst) ∧
      (∀ name, ¬ Relation.TransGen s.reader.functions.CallsOther name name) ∧
      ((∀ name body, s.reader.functions.find? name = some body → name ∉ callsOf body) →
        ∀ stats, host.KeepsStats stats → stats seen = {} →
          (stats s.machine.seen).maxDepth ≤ s.reader.functions.size) := by
  refine ⟨fun s hreachable => hreachable.exists_registers, fun s history h hnew => ?_⟩
  refine ⟨?_, ?_, ?_⟩
  · rw [h.functions_eq]
    intro name body hfind
    exact Dictionary.exists_before h.callsKnown hfind
  · rw [h.functions_eq]
    exact Dictionary.not_transGen_callsOther hnew h.callsKnown
  · intro hself stats hstats hseen
    exact h.maxDepth_le_size hnew hself hstats hseen

/-- Three functions, the last of them completed by a line with a fault. -/
theorem no_mutual_recursion_faulty :
    let host : Host Stats := { limits := {}, observe := Stats.observe }
    let first := "DEF F 1 END DEF G F F END"
    let faulty := "DEF H G END FI"
    let s : Session Stats :=
      ((((start .empty {} {}).runLine host first).1.runLine host faulty).1.runLine host "H").1
    let history : List (String × Code) :=
      [("F", [.number 1]), ("G", [.call "F", .call "F"]), ("H", [.call "G"])]
    Registers host .empty {} {} history s ∧ InTurn IsNew .empty history ∧
      (∀ name body, s.reader.functions.find? name = some body → name ∉ callsOf body) ∧
      (∀ name, ¬ Relation.TransGen s.reader.functions.CallsOther name name) ∧
      s.machine.seen.maxDepth ≤ s.reader.functions.size ∧ s.reader.functions.size = 3 := by
  intro host first faulty s history
  have hs : Registers host .empty {} {} history s := by
    have hlines := Registers.line (.line (.line (@Registers.start Stats host .empty {} {}) first)
      faulty) "H"
    have hhistory : ({} : Reader).completed first ++
        (({} : Reader).readLine first).1.completed faulty ++
        ((({} : Reader).readLine first).1.readLine faulty).1.completed "H" = history := by
      simp only [first, faulty, history]
      cbv
    simp only [reader_runLine] at hlines
    rw [← hhistory]
    exact hlines
  have hnew : InTurn IsNew .empty history := by
    simp [history, InTurn, IsNew]
  have hself : ∀ name body, s.reader.functions.find? name = some body → name ∉ callsOf body := by
    rw [hs.functions_eq]
    intro name body hfind
    obtain ⟨before, after, hsplit, -⟩ := Dictionary.exists_before hs.callsKnown hfind
    have hmem : (name, body) ∈ history := by simp [hsplit]
    simp only [history, List.mem_cons, Prod.mk.injEq, List.not_mem_nil, or_false] at hmem
    rcases hmem with ⟨rfl, rfl⟩ | ⟨rfl, rfl⟩ | ⟨rfl, rfl⟩ <;> simp [callsOf, Instruction.calls]
  obtain ⟨-, hacyclic, hbound⟩ := (no_mutual_recursion host .empty {} {}).2 s history hs hnew
  refine ⟨hs, hnew, hself, hacyclic, hbound hself id (fun _ _ => rfl) rfl, ?_⟩
  rw [hs.functions_eq]
  simp only [history]
  cbv

end Session

end StackLang
