import StackLang.Proofs.Grammar.Soundness

/-!
# What a line defines

The definitions of code stand at its top level, `definitionsOf`, and a line puts exactly these into
the dictionary, one after the other: `Line.eq_insertAll`. A line with a fault puts in those that it
has completed before the fault, so every line has such a list, `Reader.completed`, and
`functions_readLine` says what reading does to a dictionary without a case for faults.

A dictionary that has all names of another one covers it, and so does every dictionary that
definitions lead to, `covers_insertAll`. A dictionary with more functions, all old ones with their
bodies, extends the old one. Definitions of names that are new to a dictionary lead to one that
extends it, `extends_insertAll`.
-/

set_option autoImplicit false

namespace StackLang

/-- The name and the body of a definition. -/
def Instruction.definition? : Instruction → Option (String × Code)
  | .define name body => some (name, body)
  | _ => none

/-- The definitions of a sequence, in their order. -/
def definitionsOf (code : Code) : List (String × Code) := code.filterMap Instruction.definition?

/-- The definitions of code are those that stand in it. -/
theorem mem_definitionsOf {name : String} {body code : Code} :
    (name, body) ∈ definitionsOf code ↔ .define name body ∈ code := by
  rw [definitionsOf, List.mem_filterMap]
  constructor
  · rintro ⟨i, hi, hdef⟩
    cases i with
    | define name' body' =>
      obtain ⟨rfl, rfl⟩ := Prod.mk.inj (Option.some.inj hdef)
      exact hi
    | _ => simp [Instruction.definition?] at hdef
  · intro h
    exact ⟨_, h, rfl⟩

namespace Dictionary

@[simp]
theorem contains_empty (name : String) : empty.contains name = false := rfl

/-- Gives several functions their bodies, one after the other. -/
def insertAll (d : Dictionary) (definitions : List (String × Code)) : Dictionary :=
  definitions.foldl (fun d e => d.insert e.1 e.2) d

variable {d : Dictionary} {name : String} {body : Code} {definitions : List (String × Code)}

@[simp]
theorem insertAll_nil (d : Dictionary) : d.insertAll [] = d := rfl

@[simp]
theorem insertAll_cons (d : Dictionary) (e : String × Code) (definitions : List (String × Code)) :
    d.insertAll (e :: definitions) = (d.insert e.1 e.2).insertAll definitions := rfl

/-- Definitions after definitions are inserted after them. -/
theorem insertAll_append (d : Dictionary) (definitions more : List (String × Code)) :
    d.insertAll (definitions ++ more) = (d.insertAll definitions).insertAll more :=
  List.foldl_append

/-- A name without a definition keeps its body. -/
theorem find?_insertAll_of_not_mem (h : name ∉ definitions.map Prod.fst) :
    (d.insertAll definitions).find? name = d.find? name := by
  induction definitions generalizing d with
  | nil => rfl
  | cons e definitions ih =>
    rw [List.map_cons, List.mem_cons, not_or] at h
    rw [insertAll_cons, ih h.2, find?_insert_of_ne d h.1]

/-- A name keeps its body or gets one of the new ones. -/
theorem find?_insertAll_or_mem (h : (d.insertAll definitions).find? name = some body) :
    d.find? name = some body ∨ (name, body) ∈ definitions := by
  induction definitions generalizing d with
  | nil => exact .inl h
  | cons e definitions ih =>
    rcases ih h with h | h
    · by_cases hname : name = e.1
      · rw [hname, find?_insert_self] at h
        obtain rfl := Option.some.inj h
        exact .inr (hname ▸ List.mem_cons_self)
      · rw [find?_insert_of_ne d hname] at h
        exact .inl h
    · exact .inr (List.mem_cons_of_mem _ h)

/-- A dictionary has all names of another one, whatever their bodies are. -/
def Covers (large small : Dictionary) : Prop :=
  ∀ name, small.contains name → large.contains name

/-- Every dictionary covers the one without functions. -/
theorem covers_empty (d : Dictionary) : d.Covers empty := by
  intro name hname
  simp at hname

/-- A function more, on both sides, leaves a dictionary covered, whatever its bodies are. -/
theorem Covers.insert {large small : Dictionary} (h : large.Covers small) (name : String)
    (body other : Code) : (large.insert name body).Covers (small.insert name other) := by
  intro callee hcallee
  rw [contains_insert, Bool.or_eq_true] at hcallee ⊢
  exact hcallee.imp_right (h callee)

/-- Definitions take no name out of a dictionary. -/
theorem covers_insertAll (d : Dictionary) (definitions : List (String × Code)) :
    (d.insertAll definitions).Covers d := by
  induction definitions generalizing d with
  | nil => exact fun _ hname => hname
  | cons e definitions ih =>
    intro name hname
    refine ih (d.insert e.1 e.2) name ?_
    rw [contains_insert, hname, Bool.or_true]

/-- A dictionary has all functions of another one, with the same bodies. -/
def Extends (large small : Dictionary) : Prop :=
  ∀ name body, small.find? name = some body → large.find? name = some body

/-- New names leave the bodies of the others alone. -/
theorem extends_insertAll (h : ∀ name ∈ definitions.map Prod.fst, ¬ d.contains name) :
    (d.insertAll definitions).Extends d := by
  intro name body hfind
  rw [find?_insertAll_of_not_mem, hfind]
  intro hmem
  have hnew := h name hmem
  simp [contains, hfind] at hnew

end Dictionary

namespace Grammar

/-- An instruction of one word defines nothing. -/
theorem Atom.definition?_eq {word : String} {i : Instruction} (h : Atom word i) :
    i.definition? = none := by
  cases h with
  | number => rfl
  | opcode h => cases h <;> rfl

/-- A line puts its definitions into the dictionary, and nothing else. -/
theorem Line.eq_insertAll {functions final : Dictionary} {ws : List String} {code : Code}
    (h : Line functions ws code final) : final = functions.insertAll (definitionsOf code) := by
  induction h with
  | nil => rfl
  | atom hi _ ih =>
    rw [ih, definitionsOf, definitionsOf, List.filterMap_cons_none hi.definition?_eq]
  | call _ _ _ _ ih => exact ih
  | define _ _ ih => exact ih

end Grammar

namespace Reader

open Grammar

/-- The definitions that a line completes, those of a faulty line included. -/
def completed (r : Reader) (line : String) : List (String × Code) :=
  definitionsOf (LineState.feed { functions := r.functions } (Token.scan line)).1.code.reverse

/-- What a line completes comes from a first part of it. -/
theorem exists_line_completed (r : Reader) (line : String) :
    ∃ ws code, Line r.functions ws code (r.readLine line).1.functions ∧
      definitionsOf code = r.completed line := by
  rcases hfeed : LineState.feed { functions := r.functions } (Token.scan line) with
    ⟨state, fault?⟩
  obtain ⟨read, -, hreads, -⟩ := (LineState.Reads.topLevel .nil).feed hfeed
  obtain ⟨ws, -, hline⟩ := hreads.line
  have hfinal : (r.readLine line).1.functions = state.functions := by
    simp only [readLine, readTokens, hfeed]
    cases fault? <|> state.endFault? <;> rfl
  refine ⟨ws, state.code.reverse, ?_, ?_⟩
  · rw [hfinal]
    exact hline
  · rw [completed, hfeed]

/-- Reading a line, with or without a fault, puts what it completes into the dictionary. -/
theorem functions_readLine (r : Reader) (line : String) :
    (r.readLine line).1.functions = r.functions.insertAll (r.completed line) := by
  obtain ⟨ws, code, hline, hcode⟩ := exists_line_completed r line
  rw [hline.eq_insertAll, hcode]

end Reader

end StackLang
