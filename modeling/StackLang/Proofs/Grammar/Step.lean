import StackLang.Proofs.Grammar.Basic

/-!
# What one word does to the reader

The transitions of the line automaton, one rule for each, told in the terms of the grammar.
`step_eq_ok_iff` says that these are all of them: a token is accepted exactly if a rule covers
it, and the rule gives the next state. Everything else about the reader's control flow is
derived from the rules.
-/

set_option autoImplicit false

namespace StackLang

open Grammar

/-- The branch that is being read. -/
def OpenConditional.block (c : OpenConditional) : Block :=
  match c.zero with
  | none => .nonzero
  | some _ => .zero

/-- The block that is being read. -/
def OpenDefinition.block (d : OpenDefinition) : Block :=
  match d.conditionals with
  | [] => .body
  | c :: _ => c.block

namespace Grammar

/-- The words that end a block mean nothing by themselves. -/
theorem not_taken_of_mem_ends {block : Block} {word : String} (h : word ∈ block.ends) :
    ¬ Taken word := by
  refine not_taken_of_mem ?_
  cases block <;> simp only [Block.ends, List.mem_cons, List.not_mem_nil, or_false] at h
  · simp [h]
  · rcases h with rfl | rfl <;> simp
  · simp [h]

/-- No item ends its block. -/
theorem Item.not_mem_ends {callable : String → Prop} {block : Block} {word : String}
    {i : Instruction} (h : Item callable block word i) : word ∉ block.ends := by
  cases h with
  | call _ _ _ hends _ => exact hends
  | atom h => exact fun hmem => not_taken_of_mem_ends hmem h.taken

end Grammar

namespace OpenDefinition

/-- Opens a conditional inside a definition. -/
def enter (d : OpenDefinition) (column : Nat) : OpenDefinition :=
  { d with conditionals := { column } :: d.conditionals }

/-- A word that does not end the block opens a conditional or is an item. -/
theorem readItem_eq_ok_iff {functions : Dictionary} {d next : OpenDefinition} {t : Token}
    (hends : t.text ∉ d.block.ends) :
    d.readItem functions t = .ok next ↔
      (t.text = "IF" ∧ next = d.enter t.column) ∨
        ∃ i, Item (Callable functions d.name) d.block t.text i ∧ next = d.add i := by
  have hif : t.text = "IF" → t.plain? = none := by
    intro h
    rw [plain?_eq_none_iff, h]
    exact not_taken_of_mem (by simp)
  unfold readItem
  constructor
  · intro h
    split at h
    · rename_i i hi
      exact .inr ⟨i, .atom (plain?_eq_ok_iff.1 hi), (Except.ok.inj h).symm⟩
    · simp at h
    · rename_i hnone
      split at h
      · rename_i hword
        exact .inl ⟨hword, (Except.ok.inj h).symm⟩
      · rename_i hword
        split at h
        · simp at h
        · rename_i hdef
          split at h
          · rename_i hcall
            refine .inr ⟨_, ?_, (Except.ok.inj h).symm⟩
            exact .call (plain?_eq_none_iff.1 hnone) hword hdef hends hcall
          · split at h <;> simp at h
  · rintro (⟨hword, rfl⟩ | ⟨i, hitem, rfl⟩)
    · simp only [hif hword, if_pos hword]
      rfl
    · cases hitem with
      | atom h => simp only [plain?_eq_ok_iff.2 h]
      | call htaken hword hdef _ hcall =>
        unfold Callable at hcall
        simp only [plain?_eq_none_iff.2 htaken, if_neg hword, if_neg hdef, if_pos hcall]

end OpenDefinition

namespace LineState

/-- The transitions of the reader. -/
inductive Step (s : LineState) (t : Token) : LineState → Prop
  | atom {i : Instruction} (hs : s.place = .topLevel) (h : Atom t.text i) : Step s t (s.add i)
  | call (hs : s.place = .topLevel) (htaken : ¬ Taken t.text) (hdef : t.text ≠ "DEF")
      (hcall : s.functions.contains t.text) : Step s t (s.add (.call t.text))
  | define (hs : s.place = .topLevel) (h : t.text = "DEF") :
      Step s t { s with place := .name t.column }
  | name {column : Nat} (hs : s.place = .name column) :
      Step s t { s with place := .definition { column, name := t.text } }
  | item {d : OpenDefinition} {i : Instruction} (hs : s.place = .definition d)
      (h : Item (Callable s.functions d.name) d.block t.text i) :
      Step s t { s with place := .definition (d.add i) }
  | enter {d : OpenDefinition} (hs : s.place = .definition d) (h : t.text = "IF") :
      Step s t { s with place := .definition (d.enter t.column) }
  | switch {d : OpenDefinition} {c : OpenConditional} {cs : List OpenConditional}
      (hs : s.place = .definition d) (h : t.text = "ELS") (hc : d.conditionals = c :: cs)
      (hzero : c.zero = none) :
      Step s t { s with place := .definition { d with conditionals := c.switch :: cs } }
  | leave {d : OpenDefinition} {c : OpenConditional} {cs : List OpenConditional}
      (hs : s.place = .definition d) (h : t.text = "FI") (hc : d.conditionals = c :: cs) :
      Step s t { s with place := .definition ({ d with conditionals := cs }.add c.close) }
  | close {d : OpenDefinition} (hs : s.place = .definition d) (h : t.text = "END")
      (hc : d.conditionals = []) : Step s t (s.close d)

variable {s next : LineState} {t : Token} {d : OpenDefinition}

/-- A word that does not end the block is read as an item of the definition. -/
theorem step_eq_map_readItem (hs : s.place = .definition d) (hends : t.text ∉ d.block.ends) :
    s.step t = (d.readItem s.functions t).map fun d => { s with place := .definition d } := by
  unfold OpenDefinition.block at hends
  unfold step OpenDefinition.step
  simp only [hs]
  cases hc : d.conditionals with
  | nil =>
    have hword : t.text ≠ "END" := by simpa [hc, Block.ends] using hends
    simp [hword]
  | cons c cs =>
    unfold OpenConditional.block at hends
    cases hzero : c.zero with
    | none =>
      have hword : t.text ≠ "ELS" ∧ t.text ≠ "FI" := by simpa [hc, hzero, Block.ends] using hends
      simp [hword]
    | some zero =>
      have hword : t.text ≠ "FI" := by simpa [hc, hzero, Block.ends] using hends
      simp [hword, hzero]

/-- An item is added to the definition that is being read. -/
theorem step_of_item (hs : s.place = .definition d) {i : Instruction}
    (h : Item (Callable s.functions d.name) d.block t.text i) :
    s.step t = .ok { s with place := .definition (d.add i) } := by
  have hends := h.not_mem_ends
  rw [step_eq_map_readItem hs hends, (OpenDefinition.readItem_eq_ok_iff hends).2 (.inr ⟨i, h, rfl⟩)]
  rfl

/-- `IF` opens a conditional in it. -/
theorem step_of_if (hs : s.place = .definition d) (h : t.text = "IF") :
    s.step t = .ok { s with place := .definition (d.enter t.column) } := by
  have hends : t.text ∉ d.block.ends := by
    rw [h]
    cases d.block <;> decide
  rw [step_eq_map_readItem hs hends,
    (OpenDefinition.readItem_eq_ok_iff hends).2 (.inl ⟨h, rfl⟩)]
  rfl

/-- Every rule is a step that the reader takes. -/
theorem Step.step_eq (h : Step s t next) : s.step t = .ok next := by
  cases h with
  | atom hs h =>
    unfold step readItem
    simp only [hs, plain?_eq_ok_iff.2 h]
  | call hs htaken hdef hcall =>
    unfold step readItem
    simp only [hs, plain?_eq_none_iff.2 htaken, if_neg hdef, if_pos hcall]
  | define hs h =>
    have hnone : t.plain? = none := plain?_eq_none_iff.2 (h ▸ not_taken_of_mem (by simp))
    unfold step readItem
    simp only [hs, hnone, if_pos h]
  | name hs => simp only [step, hs]
  | item hs h => exact step_of_item hs h
  | enter hs h => exact step_of_if hs h
  | switch hs h hc hzero => simp [step, OpenDefinition.step, hs, hc, h, hzero, Except.map]
  | leave hs h hc => simp [step, OpenDefinition.step, hs, hc, h, Except.map]
  | close hs h hc => simp [step, hs, hc, h]

/-- What is read outside of definitions is a step of the grammar. -/
theorem Step.of_readItem (hs : s.place = .topLevel) (h : s.readItem t = .ok next) :
    Step s t next := by
  unfold readItem at h
  split at h
  · rename_i i hi
    obtain rfl := Except.ok.inj h
    exact .atom hs (plain?_eq_ok_iff.1 hi)
  · simp at h
  · rename_i hnone
    split at h
    · rename_i hdef
      obtain rfl := Except.ok.inj h
      exact .define hs hdef
    · rename_i hdef
      split at h
      · rename_i hcall
        obtain rfl := Except.ok.inj h
        exact .call hs (plain?_eq_none_iff.1 hnone) hdef hcall
      · split at h <;> simp at h

/-- A word that ends the block closes what is open or goes over to the other branch. -/
theorem Step.of_mem_ends (hs : s.place = .definition d) (hends : t.text ∈ d.block.ends)
    (h : s.step t = .ok next) : Step s t next := by
  have same {other : LineState} (ho : Step s t other) : Step s t next := by
    obtain rfl := Except.ok.inj (ho.step_eq.symm.trans h)
    exact ho
  unfold OpenDefinition.block at hends
  cases hc : d.conditionals with
  | nil => exact same (.close hs (by simpa [hc, Block.ends] using hends) hc)
  | cons c cs =>
    unfold OpenConditional.block at hends
    cases hzero : c.zero with
    | none =>
      have hword : t.text = "ELS" ∨ t.text = "FI" := by simpa [hc, hzero, Block.ends] using hends
      rcases hword with hword | hword
      · exact same (.switch hs hword hc hzero)
      · exact same (.leave hs hword hc)
    | some zero => exact same (.leave hs (by simpa [hc, hzero, Block.ends] using hends) hc)

/-- The reader accepts a token exactly if a rule covers it, and goes where the rule leads. -/
theorem step_eq_ok_iff : s.step t = .ok next ↔ Step s t next := by
  refine ⟨fun h => ?_, Step.step_eq⟩
  cases hs : s.place with
  | topLevel =>
    simp only [step, hs] at h
    exact .of_readItem hs h
  | name column =>
    simp only [step, hs] at h
    obtain rfl := Except.ok.inj h
    exact .name hs
  | definition d =>
    by_cases hends : t.text ∈ d.block.ends
    · exact .of_mem_ends hs hends h
    · rw [step_eq_map_readItem hs hends] at h
      cases hitem : d.readItem s.functions t with
      | error fault => simp [hitem, Except.map] at h
      | ok d' =>
        obtain rfl : { s with place := .definition d' } = next := by
          simpa [hitem, Except.map] using h
        rcases (OpenDefinition.readItem_eq_ok_iff hends).1 hitem with ⟨hword, rfl⟩ | ⟨i, hi, rfl⟩
        · exact .enter hs hword
        · exact .item hs hi

end LineState

end StackLang
