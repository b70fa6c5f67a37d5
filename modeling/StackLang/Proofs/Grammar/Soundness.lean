import StackLang.Reader.Basic
import StackLang.Proofs.Grammar.Step

/-!
# What the reader reads is a line

The state of the reader holds what it has read: finished items derive the code that stands for
them, and an open construct is a derivation that has not been completed. This is kept by every
step, `Reads.step`, and so by every run over tokens, `Reads.feed`, up to the first fault. A
line that is read without fault is therefore a line of the grammar; and since definitions are
entered only when they are complete, the dictionary that a faulty line leaves is one that a
first part of the line derives as well: `readTokens_eq`.
-/

set_option autoImplicit false

namespace StackLang

open Grammar

namespace OpenConditional

/-- The words that have been read of an open conditional. -/
inductive Reads (callable : String → Prop) : OpenConditional → List String → Prop
  | nonzero {column : Nat} {code : Code} {ns : List String}
      (hn : Items callable .nonzero ns code.reverse) : Reads callable ⟨column, code, none⟩ ("IF" :: ns)
  | zero {column : Nat} {code other : Code} {ns zs : List String}
      (hn : Items callable .nonzero ns code.reverse)
      (hz : Items callable .zero zs other.reverse) :
      Reads callable ⟨column, code, some other⟩ ("IF" :: (ns ++ "ELS" :: zs))

variable {callable : String → Prop} {c : OpenConditional} {ws vs : List String}

/-- Items that a conditional is given belong to the branch that is being read. -/
theorem Reads.add (h : c.Reads callable ws) {i : Instruction}
    (hi : Items callable c.block vs [i]) : (c.add i).Reads callable (ws ++ vs) := by
  cases h with
  | @nonzero column code ns hn =>
    have hnew : Items callable .nonzero (ns ++ vs) (i :: code).reverse := by
      rw [List.reverse_cons]
      exact hn.append hi
    exact .nonzero hnew
  | @zero column code other ns zs hn hz =>
    have hnew : Items callable .zero (zs ++ vs) (i :: other).reverse := by
      rw [List.reverse_cons]
      exact hz.append hi
    rw [List.cons_append, List.append_assoc, List.cons_append]
    exact .zero hn hnew

/-- After `ELS` a conditional is in its second branch. -/
theorem Reads.switch (h : c.Reads callable ws) (hzero : c.zero = none) :
    c.switch.Reads callable (ws ++ ["ELS"]) := by
  cases h with
  | nonzero hn => exact .zero hn .nil
  | zero => simp at hzero

/-- With its `FI` a conditional is an item of the block around it. -/
theorem Reads.close (h : c.Reads callable ws) (block : Block) :
    Items callable block (ws ++ ["FI"]) [c.close] := by
  cases h with
  | nonzero hn => exact .branch hn .nil
  | zero hn hz =>
    have hnil : Items callable block [] [] := .nil
    have hbranch := Items.branchElse hn hz hnil
    simpa [OpenConditional.close] using hbranch

end OpenConditional

namespace OpenDefinition

/-- The words that have been read of an open definition. -/
inductive Reads (functions : Dictionary) : OpenDefinition → List String → Prop
  | body {column : Nat} {name : String} {code : Code} {ws : List String}
      (h : Items (Callable functions name) .body ws code.reverse) :
      Reads functions ⟨column, name, code, []⟩ ("DEF" :: name :: ws)
  | conditional {column : Nat} {name : String} {code : Code} {c : OpenConditional}
      {cs : List OpenConditional} {outer inner : List String}
      (houter : Reads functions ⟨column, name, code, cs⟩ outer)
      (hinner : c.Reads (Callable functions name) inner) :
      Reads functions ⟨column, name, code, c :: cs⟩ (outer ++ inner)

variable {functions : Dictionary} {d : OpenDefinition} {ws vs : List String}

/-- Items that a definition is given belong to the innermost block that is open. -/
theorem Reads.add (h : d.Reads functions ws) {i : Instruction}
    (hi : Items (Callable functions d.name) d.block vs [i]) :
    (d.add i).Reads functions (ws ++ vs) := by
  cases h with
  | @body column name code bs h =>
    have hnew : Items (Callable functions name) .body (bs ++ vs) (i :: code).reverse := by
      rw [List.reverse_cons]
      exact h.append hi
    exact .body hnew
  | conditional houter hinner =>
    rw [List.append_assoc]
    exact .conditional houter (hinner.add hi)

/-- After `IF` one conditional more is open. -/
theorem Reads.enter (h : d.Reads functions ws) (column : Nat) :
    (d.enter column).Reads functions (ws ++ ["IF"]) :=
  .conditional h (.nonzero .nil)

/-- The words of a definition with an open conditional are those outside of it, `IF`, and those
inside of it. -/
theorem Reads.inner {c : OpenConditional} {cs : List OpenConditional}
    (h : d.Reads functions ws) (hc : d.conditionals = c :: cs) :
    ∃ outer inner, ws = outer ++ inner ∧
      ({ d with conditionals := cs } : OpenDefinition).Reads functions outer ∧
      c.Reads (Callable functions d.name) inner := by
  cases h with
  | body => simp at hc
  | conditional houter hinner =>
    obtain ⟨rfl, rfl⟩ := List.cons.inj hc
    exact ⟨_, _, rfl, houter, hinner⟩

/-- `ELS` belongs to the innermost conditional, if it is the first one there. -/
theorem Reads.switch {c : OpenConditional} {cs : List OpenConditional}
    (h : d.Reads functions ws) (hc : d.conditionals = c :: cs) (hzero : c.zero = none) :
    ({ d with conditionals := c.switch :: cs } : OpenDefinition).Reads functions
      (ws ++ ["ELS"]) := by
  obtain ⟨outer, inner, rfl, houter, hinner⟩ := h.inner hc
  rw [List.append_assoc]
  exact .conditional houter (hinner.switch hzero)

/-- `FI` makes the innermost conditional an item of what it stands in. -/
theorem Reads.leave {c : OpenConditional} {cs : List OpenConditional}
    (h : d.Reads functions ws) (hc : d.conditionals = c :: cs) :
    (({ d with conditionals := cs } : OpenDefinition).add c.close).Reads functions
      (ws ++ ["FI"]) := by
  obtain ⟨outer, inner, rfl, houter, hinner⟩ := h.inner hc
  rw [List.append_assoc]
  exact houter.add (hinner.close _)

/-- `END` makes a definition an item of the line, and registers it. -/
theorem Reads.close (h : d.Reads functions ws) (hc : d.conditionals = []) :
    Line functions (ws ++ ["END"]) [.define d.name d.body.reverse]
      (functions.insert d.name d.body.reverse) := by
  cases h with
  | body h => exact .define h .nil
  | conditional => simp at hc

end OpenDefinition

namespace LineState

/-- The words that have been read of a line, with the dictionary before it. -/
inductive Reads (start : Dictionary) : LineState → List String → Prop
  | topLevel {functions : Dictionary} {code : Code} {ws : List String}
      (h : Line start ws code.reverse functions) : Reads start ⟨functions, code, .topLevel⟩ ws
  | name {functions : Dictionary} {code : Code} {column : Nat} {ws : List String}
      (h : Line start ws code.reverse functions) :
      Reads start ⟨functions, code, .name column⟩ (ws ++ ["DEF"])
  | definition {functions : Dictionary} {code : Code} {d : OpenDefinition} {ws ds : List String}
      (h : Line start ws code.reverse functions) (hd : d.Reads functions ds) :
      Reads start ⟨functions, code, .definition d⟩ (ws ++ ds)

variable {start : Dictionary} {s next : LineState} {ws : List String}

/-- Whatever is still open, the finished part of a line is a line. -/
theorem Reads.line (h : s.Reads start ws) :
    ∃ read, read <+: ws ∧ Line start read s.code.reverse s.functions := by
  cases h with
  | topLevel h => exact ⟨_, List.prefix_rfl, h⟩
  | name h => exact ⟨_, List.prefix_append _ _, h⟩
  | definition h hd => exact ⟨_, List.prefix_append _ _, h⟩

/-- What has been read outside of definitions is a line. -/
theorem Reads.line_of_topLevel (h : s.Reads start ws) (hs : s.place = .topLevel) :
    Line start ws s.code.reverse s.functions := by
  cases h with
  | topLevel h => exact h
  | name => simp at hs
  | definition => simp at hs

/-- What has been read inside of a definition is a line, and the open definition after it. -/
theorem Reads.definition_of_place {d : OpenDefinition} (h : s.Reads start ws)
    (hs : s.place = .definition d) :
    ∃ vs ds, ws = vs ++ ds ∧ Line start vs s.code.reverse s.functions ∧
      d.Reads s.functions ds := by
  cases h with
  | topLevel => simp at hs
  | name => simp at hs
  | definition h hd =>
    obtain rfl := Place.definition.inj hs
    exact ⟨_, _, rfl, h, hd⟩

/-- Items outside of definitions make the line longer. -/
theorem Reads.add (h : s.Reads start ws) (hs : s.place = .topLevel) {vs : List String}
    {i : Instruction} (hi : Line s.functions vs [i] s.functions) :
    (s.add i).Reads start (ws ++ vs) := by
  obtain ⟨functions, code, place⟩ := s
  obtain rfl : place = .topLevel := hs
  have hnew : Line start (ws ++ vs) (i :: code).reverse functions := by
    rw [List.reverse_cons]
    exact (h.line_of_topLevel rfl).append hi
  exact .topLevel hnew

/-- A step inside a definition adds its word to what has been read of the definition. -/
theorem Reads.inside {d d' : OpenDefinition} {word : String} (h : s.Reads start ws)
    (hs : s.place = .definition d)
    (hd : ∀ {ds : List String}, d.Reads s.functions ds → d'.Reads s.functions (ds ++ [word])) :
    ({ s with place := .definition d' } : LineState).Reads start (ws ++ [word]) := by
  obtain ⟨vs, ds, rfl, hline, hreads⟩ := h.definition_of_place hs
  rw [List.append_assoc]
  exact .definition hline (hd hreads)

/-- Every step keeps the account of what has been read. -/
theorem Reads.step {t : Token} (h : s.Reads start ws) (hstep : Step s t next) :
    next.Reads start (ws ++ [t.text]) := by
  cases hstep with
  | atom hs hi => exact h.add hs (.atom hi .nil)
  | call hs htaken hdef hcall => exact h.add hs (.call htaken hdef hcall .nil)
  | define hs hword =>
    rw [hword]
    exact .name (h.line_of_topLevel hs)
  | name hs =>
    cases h with
    | topLevel => simp at hs
    | name h =>
      rw [List.append_assoc]
      exact .definition h (.body .nil)
    | definition => simp at hs
  | item hs hi => exact h.inside hs fun hd => hd.add (.item hi .nil)
  | enter hs hword =>
    rw [hword]
    exact h.inside hs fun hd => hd.enter _
  | switch hs hword hc hzero =>
    rw [hword]
    exact h.inside hs fun hd => hd.switch hc hzero
  | leave hs hword hc =>
    rw [hword]
    exact h.inside hs fun hd => hd.leave hc
  | close hs hword hc =>
    obtain ⟨vs, ds, rfl, hline, hd⟩ := h.definition_of_place hs
    rw [hword, List.append_assoc]
    have hnew := hline.append (hd.close hc)
    rw [← List.reverse_cons] at hnew
    exact .topLevel hnew

/-- A run over tokens reads all of them, or those in front of a faulty one. -/
theorem Reads.feed {tokens : List Token} {fault? : Option SyntaxFault} (h : s.Reads start ws)
    (hfeed : s.feed tokens = (next, fault?)) :
    ∃ read, read <+: tokens ∧ next.Reads start (ws ++ read.map Token.text) ∧
      (fault? = none → read = tokens) := by
  induction tokens generalizing s ws with
  | nil =>
    obtain ⟨rfl, rfl⟩ := Prod.mk.inj hfeed
    exact ⟨[], List.prefix_rfl, by simpa using h, fun _ => rfl⟩
  | cons t ts ih =>
    rw [LineState.feed] at hfeed
    split at hfeed
    · rename_i middle hmiddle
      obtain ⟨read, hread, hreads, hall⟩ := ih (h.step (step_eq_ok_iff.1 hmiddle)) hfeed
      refine ⟨t :: read, List.cons_prefix_cons.2 ⟨rfl, hread⟩, ?_, ?_⟩
      · simpa using hreads
      · intro hnone
        rw [hall hnone]
    · obtain ⟨rfl, rfl⟩ := Prod.mk.inj hfeed
      exact ⟨[], List.nil_prefix, by simpa using h, by simp⟩

/-- Only at top level can a line end. -/
theorem endFault?_eq_none_iff : s.endFault? = none ↔ s.place = .topLevel := by
  unfold endFault?
  split
  · simp_all
  · simp_all
  · split <;> simp_all

end LineState

namespace Reader

variable {functions final : Dictionary} {tokens : List Token}

/-- The dictionary after any line, faulty or not, is derived by a first part of the line. -/
theorem exists_line_of_readTokens {result : Except SyntaxFault Code}
    (h : readTokens functions tokens = (final, result)) :
    ∃ ws code, ws <+: tokens.map Token.text ∧ Line functions ws code final := by
  unfold readTokens at h
  rcases hfeed : LineState.feed { functions } tokens with ⟨state, fault?⟩
  obtain ⟨read, hread, hreads, -⟩ := (LineState.Reads.topLevel .nil).feed hfeed
  obtain ⟨ws, hws, hline⟩ := hreads.line
  have hfinal : state.functions = final := by
    simp only [hfeed] at h
    split at h <;> exact congrArg Prod.fst h
  refine ⟨ws, state.code.reverse, ?_, hfinal ▸ hline⟩
  exact hws.trans (by simpa using hread.map Token.text)

/-- A line that is read without fault is a line of the grammar. -/
theorem line_of_readTokens {code : Code} (h : readTokens functions tokens = (final, .ok code)) :
    Line functions (tokens.map Token.text) code final := by
  unfold readTokens at h
  rcases hfeed : LineState.feed { functions } tokens with ⟨state, fault?⟩
  obtain ⟨read, -, hreads, hall⟩ := (LineState.Reads.topLevel .nil).feed hfeed
  simp only [hfeed] at h
  split at h
  · rename_i hnone
    obtain ⟨rfl, hcode⟩ := Prod.mk.inj h
    obtain rfl := Except.ok.inj hcode
    cases fault? with
    | some fault => simp at hnone
    | none =>
      have htop : state.place = .topLevel := LineState.endFault?_eq_none_iff.1 (by simpa using hnone)
      rw [← hall rfl]
      simpa using hreads.line_of_topLevel htop
  · simp at h

end Reader

end StackLang
