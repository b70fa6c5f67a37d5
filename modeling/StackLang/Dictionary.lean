import StackLang.Instruction.Basic

/-!
# The dictionary of functions

Function bodies by name. A later definition of a name takes the place of the earlier one,
and no name is ever removed. Entries stand in the code point order of their names, one for
each name.
-/

set_option autoImplicit false

namespace StackLang

/-- Function bodies by name, in the order of the names. -/
structure Dictionary where
  entries : List (String × Code) := []
  sorted : entries.Pairwise (·.1 < ·.1) := by simp
deriving DecidableEq

namespace Dictionary

/-- The dictionary without functions. -/
def empty : Dictionary := {}

/-- The body of a function. -/
def find? (d : Dictionary) (name : String) : Option Code := d.entries.lookup name

/-- Whether a function has a body. -/
def contains (d : Dictionary) (name : String) : Bool := (d.find? name).isSome

/-- The number of functions. -/
def size (d : Dictionary) : Nat := d.entries.length

/-- The names of all functions, in code point order. -/
def names (d : Dictionary) : List String := d.entries.map (·.1)

/-- Puts an entry at its place, over an entry of the same name. -/
def insertEntry (name : String) (body : Code) : List (String × Code) → List (String × Code)
  | [] => [(name, body)]
  | e :: es =>
    if name < e.1 then (name, body) :: e :: es
    else if name = e.1 then (name, body) :: es
    else e :: insertEntry name body es

/-- An insertion adds its own entry at most. -/
theorem mem_insertEntry {name : String} {body : Code} {es : List (String × Code)}
    {e : String × Code} (h : e ∈ insertEntry name body es) : e = (name, body) ∨ e ∈ es := by
  induction es with
  | nil => simpa [insertEntry] using h
  | cons f es ih =>
    rw [insertEntry] at h
    split at h
    · simpa using h
    · split at h
      · rcases List.mem_cons.1 h with h | h
        · exact .inl h
        · exact .inr (List.mem_cons_of_mem _ h)
      · rcases List.mem_cons.1 h with h | h
        · exact .inr (h ▸ List.mem_cons_self)
        · exact (ih h).imp_right (List.mem_cons_of_mem _)

/-- Entries stay in the order of their names, and no name comes twice. -/
theorem sorted_insertEntry (name : String) (body : Code) {es : List (String × Code)}
    (h : es.Pairwise (·.1 < ·.1)) : (insertEntry name body es).Pairwise (·.1 < ·.1) := by
  induction es with
  | nil => simp [insertEntry]
  | cons f es ih =>
    obtain ⟨hf, hes⟩ := List.pairwise_cons.1 h
    rw [insertEntry]
    split
    · -- the new entry comes first
      rename_i hlt
      refine List.pairwise_cons.2 ⟨fun e he => ?_, h⟩
      rcases List.mem_cons.1 he with rfl | he
      · exact hlt
      · exact String.lt_trans hlt (hf e he)
    · split
      · -- it stands over the first one
        rename_i heq
        exact List.pairwise_cons.2 ⟨fun e he => heq ▸ hf e he, hes⟩
      · rename_i hlt hne
        refine List.pairwise_cons.2 ⟨fun e he => ?_, ih hes⟩
        rcases mem_insertEntry he with rfl | he
        · exact Decidable.byContradiction fun hn =>
            hne (String.le_antisymm (String.not_lt.1 hn) (String.not_lt.1 hlt))
        · exact hf e he

/-- Gives a function a body, in place of the one it had. -/
def insert (d : Dictionary) (name : String) (body : Code) : Dictionary :=
  ⟨insertEntry name body d.entries, sorted_insertEntry name body d.sorted⟩

/-- Gives a function a body, and gives back the one that it had. -/
def replace (d : Dictionary) (name : String) (body : Code) : Dictionary × Option Code :=
  (d.insert name body, d.find? name)

@[simp]
theorem find?_empty (name : String) : empty.find? name = none := rfl

/-- A body is found under its name. -/
@[simp]
theorem find?_insert_self (d : Dictionary) (name : String) (body : Code) :
    (d.insert name body).find? name = some body := by
  simp only [find?, insert]
  induction d.entries with
  | nil => simp [insertEntry]
  | cons e es ih =>
    obtain ⟨key, old⟩ := e
    rw [insertEntry]
    split
    · simp
    · split
      · simp
      · rename_i hne
        simpa [List.lookup_cons, beq_eq_false_iff_ne.2 hne] using ih

/-- Other names are found as before. -/
theorem find?_insert_of_ne (d : Dictionary) {name other : String} (h : other ≠ name)
    (body : Code) : (d.insert name body).find? other = d.find? other := by
  have hne : (other == name) = false := beq_eq_false_iff_ne.2 h
  simp only [find?, insert]
  induction d.entries with
  | nil => simp [insertEntry, List.lookup_cons, hne]
  | cons e es ih =>
    obtain ⟨key, old⟩ := e
    rw [insertEntry]
    split
    · simp [List.lookup_cons, hne]
    · split
      · rename_i heq
        obtain rfl : name = key := heq
        simp [List.lookup_cons, hne]
      · simp only [List.lookup_cons, ih]

/-- After an insertion there is one name more, unless it was there before. -/
@[simp]
theorem contains_insert (d : Dictionary) (name other : String) (body : Code) :
    (d.insert name body).contains other = (other == name || d.contains other) := by
  by_cases h : other = name
  · simp [contains, h]
  · simp [contains, find?_insert_of_ne d h, h]

end Dictionary

end StackLang
