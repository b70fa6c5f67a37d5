/-!
# The stack

Values on top of each other, written top first. The height is kept beside the values, and
the type says that it is right, so a stack is determined by its values: `Stack.ext`.
-/

set_option autoImplicit false

namespace StackLang

/-- Values, top first, and their number. -/
structure Stack where
  cells : List Int32 := []
  height : Nat := cells.length
  height_eq : height = cells.length := by rfl

namespace Stack

/-- Stacks with the same values are the same. -/
@[ext]
theorem ext {s t : Stack} (h : s.cells = t.cells) : s = t := by
  obtain ⟨cells, height, hs⟩ := s
  obtain ⟨cells', height', ht⟩ := t
  subst hs ht
  subst h
  rfl

instance : DecidableEq Stack := fun s t =>
  if h : s.cells = t.cells then .isTrue (ext h)
  else .isFalse fun e => h (congrArg cells e)

/-- The stack without values. -/
def empty : Stack := {}

/-- The stack of the given values, the last one on top. -/
def ofList (values : List Int32) : Stack := { cells := values.reverse }

/-- The values from the bottom to the top. -/
def toList (s : Stack) : List Int32 := s.cells.reverse

/-- Puts a value on top. -/
def push (s : Stack) (v : Int32) : Stack :=
  { cells := v :: s.cells, height := s.height + 1, height_eq := by simp [s.height_eq] }

/-- Takes the top value off; an empty stack has none. -/
def pop? (s : Stack) : Option (Int32 × Stack) :=
  match h : s.cells with
  | [] => none
  | v :: rest =>
    some (v, { cells := rest, height := s.height - 1, height_eq := by simp [s.height_eq, h] })

@[simp]
theorem toList_ofList (values : List Int32) : (ofList values).toList = values := by
  simp [ofList, toList]

@[simp]
theorem cells_push (s : Stack) (v : Int32) : (s.push v).cells = v :: s.cells := rfl

@[simp]
theorem height_push (s : Stack) (v : Int32) : (s.push v).height = s.height + 1 := rfl

/-- Popping undoes pushing. -/
@[simp]
theorem pop?_push (s : Stack) (v : Int32) : (s.push v).pop? = some (v, s) := rfl

/-- Nothing can be popped exactly if there are no values. -/
theorem pop?_eq_none_iff (s : Stack) : s.pop? = none ↔ s.cells = [] := by
  unfold pop?
  split <;> simp_all

/-- What is popped is the first value, and the others are left. -/
theorem pop?_eq_some_iff (s t : Stack) (v : Int32) :
    s.pop? = some (v, t) ↔ s.cells = v :: t.cells := by
  unfold pop?
  split
  · simp_all
  · rename_i w rest h
    constructor
    · intro e
      obtain ⟨rfl, rfl⟩ := Prod.mk.inj (Option.some.inj e)
      exact h
    · intro e
      obtain ⟨rfl, rfl⟩ := List.cons.inj (h.symm.trans e)
      congr 2
      exact Stack.ext rfl

/-- A stack that was popped was higher by one. -/
theorem height_of_pop? {s t : Stack} {v : Int32} (h : s.pop? = some (v, t)) :
    s.height = t.height + 1 := by
  rw [s.height_eq, (pop?_eq_some_iff s t v).1 h, List.length_cons, t.height_eq]

/-- A stack without two values is lower than two. -/
theorem height_lt_two {s : Stack} (h : ∀ a b rest, s.cells = a :: b :: rest → False) :
    s.height < 2 := by
  rw [s.height_eq]
  match hcells : s.cells with
  | [] | [_] => simp
  | a :: b :: rest => exact (h a b rest hcells).elim

/-- A stack without three values is lower than three. -/
theorem height_lt_three {s : Stack} (h : ∀ a b c rest, s.cells = a :: b :: c :: rest → False) :
    s.height < 3 := by
  rw [s.height_eq]
  match hcells : s.cells with
  | [] | [_] | [_, _] => simp
  | a :: b :: c :: rest => exact (h a b c rest hcells).elim

end Stack

end StackLang
