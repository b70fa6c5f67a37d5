import StackLang.Proofs.Definitions
import StackLang.Proofs.KnownCalls
import Mathlib

/-!
# Which functions call which

A function calls those that are named in its body, at any depth. Definitions are read one after the
other, and at its turn a definition calls itself and functions that are there already, no others:
`Line.callsKnown`. So the functions that the body of a function calls were registered before the
function, itself apart: `exists_before`. If no name is used twice, no body is ever exchanged for
a later one, the order of the definitions is an order of the functions, and calls between different
functions go down in it. There is no circle then, `not_transGen_callsOther`.
-/

set_option autoImplicit false

namespace StackLang

open Grammar (Callable)

namespace Dictionary

/-- One function calls another one, at any depth of its body. -/
def Calls (functions : Dictionary) (caller callee : String) : Prop :=
  ∃ body, functions.find? caller = some body ∧ callee ∈ callsOf body

/-- One function calls another one that is not itself. -/
def CallsOther (functions : Dictionary) (caller callee : String) : Prop :=
  functions.Calls caller callee ∧ callee ≠ caller

/-- Something holds of each definition in the dictionary at its turn. -/
def InTurn (P : Dictionary → String × Code → Prop) : Dictionary → List (String × Code) → Prop
  | _, [] => True
  | d, e :: es => P d e ∧ InTurn P (d.insert e.1 e.2) es

/-- A definition of a name that is not there yet. -/
def IsNew (d : Dictionary) (e : String × Code) : Prop := ¬ d.contains e.1

/-- A definition that calls itself and functions that are there, and no others. -/
def CallsKnown (d : Dictionary) (e : String × Code) : Prop :=
  ∀ callee ∈ callsOf e.2, Callable d e.1 callee

variable {P : Dictionary → String × Code → Prop} {d : Dictionary}
  {history more : List (String × Code)}

/-- Two lists of definitions stand in turn if the first does, and the second does once the first is
there. -/
theorem inTurn_append :
    InTurn P d (history ++ more) ↔ InTurn P d history ∧ InTurn P (d.insertAll history) more := by
  induction history generalizing d with
  | nil => simp [InTurn]
  | cons e history ih =>
    rw [List.cons_append, InTurn, InTurn, ih, insertAll_cons, and_assoc]

/-- The names of new definitions are new, and no name is used twice. -/
theorem InTurn.nodup (h : InTurn IsNew d history) :
    (history.map Prod.fst).Nodup ∧ ∀ name ∈ history.map Prod.fst, ¬ d.contains name := by
  induction history generalizing d with
  | nil => simp
  | cons e history ih =>
    obtain ⟨hnew, hrest⟩ := h
    obtain ⟨hnodup, hlater⟩ := ih hrest
    have hlater (name : String) (hname : name ∈ history.map Prod.fst) :
        name ≠ e.1 ∧ ¬ d.contains name := by
      simpa [contains_insert] using hlater name hname
    rw [List.map_cons, List.nodup_cons]
    refine ⟨⟨fun hmem => (hlater e.1 hmem).1 rfl, hnodup⟩, fun name hname => ?_⟩
    rcases List.mem_cons.1 hname with rfl | hname
    · exact hnew
    · exact (hlater name hname).2

/-- A body was there before, or it comes from a definition, and then its calls name functions that
were there or were registered before this definition. -/
theorem InTurn.find?_or_before {name : String} {body : Code} (h : InTurn CallsKnown d history)
    (hfind : (d.insertAll history).find? name = some body) :
    d.find? name = some body ∨ ∃ before after, history = before ++ (name, body) :: after ∧
      ∀ callee ∈ callsOf body, callee ≠ name →
        d.contains callee ∨ callee ∈ before.map Prod.fst := by
  induction history generalizing d with
  | nil => exact .inl hfind
  | cons e history ih =>
    obtain ⟨defined, code⟩ := e
    obtain ⟨hknown, hrest⟩ := h
    rcases ih hrest hfind with hfind | ⟨before, after, rfl, hcalls⟩
    · by_cases hname : name = defined
      · subst hname
        obtain rfl : code = body := by simpa using hfind
        refine .inr ⟨[], history, rfl, fun callee hcallee hother => .inl ?_⟩
        exact (hknown callee hcallee).resolve_left hother
      · rw [find?_insert_of_ne d hname] at hfind
        exact .inl hfind
    · refine .inr ⟨(defined, code) :: before, after, rfl, fun callee hcallee hother => ?_⟩
      rcases hcalls callee hcallee hother with hthere | hmem
      · rw [contains_insert, Bool.or_eq_true, beq_iff_eq] at hthere
        rcases hthere with rfl | hthere
        · exact .inr List.mem_cons_self
        · exact .inl hthere
      · exact .inr (List.mem_cons_of_mem _ hmem)

/-- **Callees come first.** The functions that a body calls were registered before the function of
this body, itself apart. -/
theorem exists_before {name : String} {body : Code} (h : InTurn CallsKnown empty history)
    (hfind : (empty.insertAll history).find? name = some body) :
    ∃ before after, history = before ++ (name, body) :: after ∧
      ∀ callee ∈ callsOf body, callee ≠ name → callee ∈ before.map Prod.fst := by
  rcases h.find?_or_before hfind with hnone | ⟨before, after, hsplit, hcalls⟩
  · simp at hnone
  · refine ⟨before, after, hsplit, fun callee hcallee hother => ?_⟩
    have hcalled := hcalls callee hcallee hother
    simpa using hcalled

/-- Without a second definition of a name, a call goes down in the order of the definitions. -/
theorem idxOf_lt_of_callsOther {caller callee : String} (hnew : InTurn IsNew empty history)
    (hknown : InTurn CallsKnown empty history)
    (h : (empty.insertAll history).CallsOther caller callee) :
    (history.map Prod.fst).idxOf callee < (history.map Prod.fst).idxOf caller := by
  obtain ⟨⟨body, hfind, hcallee⟩, hother⟩ := h
  obtain ⟨before, after, rfl, hcalls⟩ := exists_before hknown hfind
  have hmem : callee ∈ before.map Prod.fst := hcalls callee hcallee hother
  have hcaller : caller ∉ before.map Prod.fst := by
    have hnodup := hnew.nodup.1
    rw [List.map_append, List.map_cons, List.nodup_append] at hnodup
    exact fun hbefore => hnodup.2.2 caller hbefore caller List.mem_cons_self rfl
  rw [List.map_append, List.idxOf_append_of_mem hmem, List.idxOf_append_of_notMem hcaller]
  have hlt := List.idxOf_lt_length_iff.2 hmem
  omega

/-- **No circle.** If no name is defined twice, no function calls itself through others. -/
theorem not_transGen_callsOther (hnew : InTurn IsNew empty history)
    (hknown : InTurn CallsKnown empty history) (name : String) :
    ¬ Relation.TransGen (empty.insertAll history).CallsOther name name := by
  have hdown (caller callee : String)
      (h : Relation.TransGen (empty.insertAll history).CallsOther caller callee) :
      (history.map Prod.fst).idxOf callee < (history.map Prod.fst).idxOf caller := by
    induction h with
    | single h => exact idxOf_lt_of_callsOther hnew hknown h
    | tail _ h ih => exact (idxOf_lt_of_callsOther hnew hknown h).trans ih
  exact fun h => Nat.lt_irrefl _ (hdown name name h)

end Dictionary

namespace Grammar

/-- The definitions of a line call themselves and what is there at their turn. -/
theorem Line.callsKnown {functions final : Dictionary} {ws : List String} {code : Code}
    (h : Line functions ws code final) :
    Dictionary.InTurn Dictionary.CallsKnown functions (definitionsOf code) := by
  induction h with
  | nil => exact trivial
  | atom hi _ ih =>
    rw [definitionsOf, List.filterMap_cons_none hi.definition?_eq]
    exact ih
  | call _ _ _ _ ih => exact ih
  | define hbody _ ih => exact ⟨hbody.callable_of_mem, ih⟩

end Grammar

end StackLang
