import StackLang.Proofs.Nesting
import StackLang.Proofs.Steps

/-!
# Iterating steps and recursing along the code

A moment of a run has at most one way to go on: it makes one step (`rightUnique_step`), or it
stops with one outcome, and never both. So all moments of a run lie on one path, and what
iterating comes to (`ComesTo`) is a function of the start. The recursive evaluation of code, which
runs a branch or a body to its end before the code after it, gives this outcome and no other
one: `eval_eq_iff_comesTo`.
-/

set_option autoImplicit false

namespace StackLang.Machine

variable {σ : Type} {host : Host σ} {functions : Dictionary}
  {start moment : Moment σ} {r r' : Machine σ × Except RunError Unit}

/-- A moment makes at most one step. -/
theorem rightUnique_step (host : Host σ) (functions : Dictionary) :
    Relator.RightUnique (Step host functions) := by
  intro moment after after' h h'
  cases h with
  | leave m rest =>
    cases h' with
    | leave => rfl
  | perform h rest =>
    cases h' with
    | perform h' =>
      obtain ⟨rfl, htasks⟩ := Prod.mk.inj (h.symm.trans h')
      rw [Except.ok.inj htasks]

/-- A moment that stops makes no step. -/
theorem Stops.not_step (h : Stops host functions moment r) (after : Moment σ) :
    ¬ Step host functions moment after := by
  intro hstep
  cases h with
  | done => cases hstep
  | error h =>
    cases hstep with
    | perform h' => simp [h] at h'

/-- A moment stops with at most one outcome. -/
theorem Stops.unique (h : Stops host functions moment r) (h' : Stops host functions moment r') :
    r = r' := by
  cases h with
  | done =>
    cases h' with
    | done => rfl
  | error h =>
    cases h' with
    | error h' =>
      obtain ⟨rfl, he⟩ := Prod.mk.inj (h.symm.trans h')
      rw [Except.error.inj he]

/-- Where a run stops it goes nowhere else. -/
theorem Stops.eq_of_reaches (h : Stops host functions start r)
    (hreaches : Reaches host functions start moment) : moment = start := by
  cases Relation.ReflTransGen.cases_head hreaches with
  | inl h => exact h.symm
  | inr h' =>
    obtain ⟨next, hstep, -⟩ := h'
    exact absurd hstep (h.not_step next)

/-- Iterating steps from a moment comes to an end with an outcome: from every moment on the way
the steps go on to this end. -/
def ComesTo (host : Host σ) (functions : Dictionary) (start : Moment σ)
    (outcome : Machine σ × Except RunError Unit) : Prop :=
  ∃ last, Stops host functions last outcome ∧
    ∀ moment, Reaches host functions start moment → Reaches host functions moment last

/-- What a moment comes to is determined. -/
theorem ComesTo.unique (h : ComesTo host functions start r) (h' : ComesTo host functions start r') :
    r = r' := by
  obtain ⟨last, hstops, hall⟩ := h
  obtain ⟨last', hstops', hall'⟩ := h'
  have hreaches : Reaches host functions last last' := hall' last (hall start .refl)
  obtain rfl := hstops.eq_of_reaches hreaches
  exact hstops.unique hstops'

/-- Working through tasks is what iterating steps comes to. -/
theorem comesTo_runTasks (host : Host σ) (functions : Dictionary) (m : Machine σ)
    (tasks : List Task) : ComesTo host functions (m, tasks) (m.runTasks host functions tasks) := by
  obtain ⟨last, hreaches, hstops⟩ := exists_reaches_stops host functions m tasks
  refine ⟨last, hstops, fun moment hmoment => ?_⟩
  -- two moments of one run come one after the other, and nothing comes after the last one
  rcases Relation.ReflTransGen.total_of_right_unique (rightUnique_step host functions) hmoment
    hreaches with hafter | hbefore
  · exact hafter
  · obtain rfl := hstops.eq_of_reaches hbefore
    exact .refl

/-- **Recursion is iteration.** Take any code, functions, limits, observer, sink and state.
Iterating the machine from the code as its list of tasks, where a step takes the first task, carries
out one instruction if the limit of operations has room, and puts a branch, or a body and the
marker of its end, in front of the other tasks, always comes to an end. The end is the state and
the result of the recursive evaluation of the code and no other; and it is what a run gives. -/
theorem eval_eq_iff_comesTo (host : Host σ) (functions : Dictionary) (m : Machine σ) (code : Code) :
    m.run host functions code = m.eval host functions code ∧
      ∀ outcome, m.eval host functions code = outcome ↔
        ComesTo host functions (m, code.map .perform) outcome := by
  have hcomes : ComesTo host functions (m, code.map .perform) (m.eval host functions code) := by
    rw [← run_eq_eval]
    exact comesTo_runTasks host functions m _
  refine ⟨run_eq_eval host functions m code, fun outcome => ⟨?_, ?_⟩⟩
  · rintro rfl
    exact hcomes
  · exact hcomes.unique

end StackLang.Machine
