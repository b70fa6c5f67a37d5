import StackLang.Proofs.Grammar.Soundness

/-!
# Every line of the grammar is read

The words of a block take the reader through a definition and leave it in the same block with
the code of the block added, `Items.consumes`; the words of a line take it from top level to
top level, `Line.consumes`. Columns differ from line to line and stand in the states on the
way, but not in the states before and after. Together with soundness this makes reading and
the grammar the same: `readTokens_eq_ok_iff`.
-/

set_option autoImplicit false

namespace StackLang

open Grammar

namespace OpenConditional

/-- Code that is added to the first branch stands in it, last instruction first. -/
theorem foldl_add_nonzero (code : Code) {c : OpenConditional} (hzero : c.zero = none) :
    code.foldl add c = { c with nonzero := code.reverse ++ c.nonzero } := by
  induction code generalizing c with
  | nil => rfl
  | cons i code ih =>
    obtain ⟨column, nonzero, zero⟩ := c
    obtain rfl : zero = none := hzero
    rw [List.foldl_cons, ih rfl]
    simp [add]

/-- Code that is added to the second branch stands there. -/
theorem foldl_add_zero (code : Code) {c : OpenConditional} {zero : Code}
    (hzero : c.zero = some zero) :
    code.foldl add c = { c with zero := some (code.reverse ++ zero) } := by
  induction code generalizing c zero with
  | nil => simp [← hzero]
  | cons i code ih =>
    obtain ⟨column, nonzero, zero?⟩ := c
    obtain rfl : zero? = some zero := hzero
    rw [List.foldl_cons, ih rfl]
    simp [add]

@[simp]
theorem block_add (c : OpenConditional) (i : Instruction) : (c.add i).block = c.block := by
  unfold add block
  cases c.zero <;> simp

end OpenConditional

namespace OpenDefinition

@[simp]
theorem name_add (d : OpenDefinition) (i : Instruction) : (d.add i).name = d.name := by
  unfold add
  split <;> rfl

@[simp]
theorem block_add (d : OpenDefinition) (i : Instruction) : (d.add i).block = d.block := by
  unfold add block
  cases hc : d.conditionals with
  | nil => simp
  | cons c cs => exact c.block_add i

/-- Code that is added to a definition stands in its body, if no conditional is open. -/
theorem foldl_add_body (code : Code) {d : OpenDefinition} (hc : d.conditionals = []) :
    code.foldl add d = { d with body := code.reverse ++ d.body } := by
  induction code generalizing d with
  | nil => rfl
  | cons i code ih =>
    obtain ⟨column, name, body, conditionals⟩ := d
    obtain rfl : conditionals = [] := hc
    rw [List.foldl_cons, ih rfl]
    simp [add]

/-- If one is, the code is added to the innermost one. -/
theorem foldl_add_conditional (code : Code) (d : OpenDefinition) (c : OpenConditional)
    (cs : List OpenConditional) :
    code.foldl add { d with conditionals := c :: cs } =
      { d with conditionals := code.foldl OpenConditional.add c :: cs } := by
  induction code generalizing c with
  | nil => rfl
  | cons i code ih =>
    rw [List.foldl_cons, List.foldl_cons, ← ih]
    rfl

/-- Code that is added to a new conditional stands in its first branch. -/
theorem foldl_add_enter (code : Code) (d : OpenDefinition) (column : Nat) :
    code.foldl add (d.enter column) =
      { d with conditionals := ⟨column, code.reverse, none⟩ :: d.conditionals } := by
  unfold enter
  rw [foldl_add_conditional, OpenConditional.foldl_add_nonzero code rfl]
  simp

/-- A definition inside the second branch of a conditional. -/
def inZero (d : OpenDefinition) (column : Nat) (nonzero : Code) : OpenDefinition :=
  { d with conditionals := ⟨column, nonzero, some []⟩ :: d.conditionals }

/-- Code that is added after an `ELS` stands in its second branch. -/
theorem foldl_add_inZero (code : Code) (d : OpenDefinition) (column : Nat) (nonzero : Code) :
    code.foldl add (d.inZero column nonzero) =
      { d with conditionals := ⟨column, nonzero, some code.reverse⟩ :: d.conditionals } := by
  unfold inZero
  rw [foldl_add_conditional, OpenConditional.foldl_add_zero code rfl]
  simp

end OpenDefinition

namespace LineState

/-- Words that take the reader from a state to another one, in whatever columns they stand. -/
def Consumes (s : LineState) (ws : List String) (next : LineState) : Prop :=
  ∀ tokens : List Token, tokens.map Token.text = ws → s.feed tokens = (next, none)

variable {s middle next : LineState} {ws vs : List String}

/-- Tokens after tokens are fed one after the other. -/
theorem feed_append {ts us : List Token} (h : s.feed ts = (middle, none)) :
    s.feed (ts ++ us) = middle.feed us := by
  induction ts generalizing s with
  | nil =>
    obtain ⟨rfl, -⟩ := Prod.mk.inj h
    rfl
  | cons t ts ih =>
    rw [feed] at h
    rw [List.cons_append, feed]
    split at h
    · exact ih h
    · simp at h

/-- The first token is a step, and the others are fed after it. -/
theorem feed_cons {t : Token} (h : Step s t next) (ts : List Token) :
    s.feed (t :: ts) = next.feed ts := by
  rw [feed, h.step_eq]

/-- No words lead nowhere else. -/
theorem Consumes.nil : s.Consumes [] s := by
  intro tokens htokens
  obtain rfl : tokens = [] := List.map_eq_nil_iff.1 htokens
  rfl

/-- A word that is a step whatever its column is comes before others. -/
theorem Consumes.cons {word : String}
    (h : ∀ t : Token, t.text = word → ∃ middle, Step s t middle ∧ middle.Consumes ws next) :
    s.Consumes (word :: ws) next := by
  intro tokens htokens
  obtain ⟨t, ts, rfl, hword, hws⟩ := List.map_eq_cons_iff.1 htokens
  obtain ⟨middle, hstep, hrest⟩ := h t hword
  rw [feed_cons hstep]
  exact hrest ts hws

/-- Words after words lead where they lead one after the other. -/
theorem Consumes.append (h : s.Consumes ws middle) (hrest : middle.Consumes vs next) :
    s.Consumes (ws ++ vs) next := by
  intro tokens htokens
  obtain ⟨ts, us, rfl, hws, hvs⟩ := List.map_eq_append_iff.1 htokens
  rw [feed_append (h ts hws)]
  exact hrest us hvs

end LineState

namespace Grammar

open LineState

/-- The words of a block add its code to the innermost construct that is open. -/
theorem Items.consumes {functions : Dictionary} {name : String} {block : Block}
    {ws : List String} {code : Code} (h : Items (Callable functions name) block ws code)
    (before : Code) {d : OpenDefinition} (hname : d.name = name) (hblock : d.block = block) :
    (⟨functions, before, .definition d⟩ : LineState).Consumes ws
      ⟨functions, before, .definition (code.foldl OpenDefinition.add d)⟩ := by
  induction h generalizing d with
  | nil => exact .nil
  | @item block word i ws code hi _ ih =>
    subst hname hblock
    apply Consumes.cons
    intro t ht
    refine ⟨_, .item rfl (ht ▸ hi), ?_⟩
    exact ih (d.name_add i) (d.block_add i)
  | @branch block ns ws nonzero code _ _ ihn ih =>
    subst hname hblock
    apply Consumes.cons
    intro t ht
    refine ⟨_, .enter rfl ht, ?_⟩
    refine (@ihn (d.enter t.column) rfl rfl).append (.cons fun t' ht' => ?_)
    -- all of the branch has been read, and `FI` closes the conditional
    rw [OpenDefinition.foldl_add_enter]
    refine ⟨_, .leave rfl ht' rfl, ?_⟩
    have hrest := ih (d.name_add (.branch nonzero [])) (d.block_add _)
    simpa [OpenConditional.close] using hrest
  | @branchElse block ns zs ws nonzero zero code _ _ _ ihn ihz ih =>
    subst hname hblock
    apply Consumes.cons
    intro t ht
    refine ⟨_, .enter rfl ht, ?_⟩
    refine (@ihn (d.enter t.column) rfl rfl).append (.cons fun t' ht' => ?_)
    rw [OpenDefinition.foldl_add_enter]
    refine ⟨_, .switch rfl ht' rfl rfl, ?_⟩
    refine (@ihz (d.inZero t.column nonzero.reverse) rfl rfl).append (.cons fun t'' ht'' => ?_)
    rw [OpenDefinition.foldl_add_inZero]
    refine ⟨_, .leave rfl ht'' rfl, ?_⟩
    have hrest := ih (d.name_add (.branch nonzero zero)) (d.block_add _)
    simpa [OpenConditional.close] using hrest

/-- The words of a line add its code at top level, and its definitions to the dictionary. -/
theorem Line.consumes {functions final : Dictionary} {ws : List String} {code : Code}
    (h : Line functions ws code final) (before : Code) :
    (⟨functions, before, .topLevel⟩ : LineState).Consumes ws
      ⟨final, code.reverse ++ before, .topLevel⟩ := by
  induction h generalizing before with
  | nil => exact .nil
  | @atom _ _ word i ws code hi _ ih =>
    apply Consumes.cons
    intro t ht
    refine ⟨_, .atom rfl (ht ▸ hi), ?_⟩
    simpa [LineState.add] using ih (i :: before)
  | @call _ _ word ws code htaken hdef hcall _ ih =>
    apply Consumes.cons
    rintro t rfl
    refine ⟨_, .call rfl htaken hdef hcall, ?_⟩
    simpa [LineState.add] using ih (.call t.text :: before)
  | @define functions _ name bs ws body code hbody _ ih =>
    apply Consumes.cons
    intro t ht
    refine ⟨_, .define rfl ht, .cons fun t' ht' => ⟨_, .name rfl, ?_⟩⟩
    refine (hbody.consumes before ht' rfl).append (.cons fun t'' ht'' => ?_)
    rw [OpenDefinition.foldl_add_body _ rfl]
    refine ⟨_, .close rfl ht'' rfl, ?_⟩
    simpa [LineState.close, ht'] using ih (.define name body :: before)

end Grammar

namespace Reader

/-- **Completeness.** The tokens of a line of the grammar are read, as its code, and leave the
functions that the line leaves. -/
theorem readTokens_of_line {functions final : Dictionary} {tokens : List Token} {code : Code}
    (h : Line functions (tokens.map Token.text) code final) :
    readTokens functions tokens = (final, .ok code) := by
  have hfeed : LineState.feed { functions } tokens = (⟨final, code.reverse ++ [], .topLevel⟩, none) :=
    h.consumes [] tokens rfl
  unfold readTokens
  rw [hfeed]
  simp [LineState.endFault?]

/-- **Reading meets the grammar.** Tokens are read exactly if they are a line, and the code and the
functions are those of the line. -/
theorem readTokens_eq_ok_iff {functions final : Dictionary} {tokens : List Token} {code : Code} :
    readTokens functions tokens = (final, .ok code) ↔
      Line functions (tokens.map Token.text) code final :=
  ⟨line_of_readTokens, readTokens_of_line⟩

/-- Reading a line is reading its tokens. -/
theorem readLine_ok_iff_readTokens {r : Reader} {line : String} {code : Code}
    {final : Dictionary} :
    ((r.readLine line).2 = .ok code ∧ (r.readLine line).1.functions = final) ↔
      readTokens r.functions (Token.scan line) = (final, .ok code) := by
  unfold readLine
  rcases hread : readTokens r.functions (Token.scan line) with ⟨after, result⟩
  cases result with
  | error fault => simp [Except.mapError]
  | ok read =>
    simp only [Except.mapError, Except.ok.injEq, Prod.mk.injEq]
    exact and_comm

/-- A line of text that is read is one of the grammar. -/
theorem line_of_readLine {r after : Reader} {line : String} {code : Code}
    (h : r.readLine line = (after, .ok code)) :
    Line r.functions (Token.words line) code after.functions := by
  have hread : (r.readLine line).2 = .ok code ∧
      (r.readLine line).1.functions = after.functions := by
    rw [h]
    exact ⟨rfl, rfl⟩
  exact readTokens_eq_ok_iff.1 (readLine_ok_iff_readTokens.1 hread)

/-- And a line of the grammar is read. -/
theorem readLine_of_line {r : Reader} {line : String} {code : Code} {final : Dictionary}
    (h : Line r.functions (Token.words line) code final) :
    r.readLine line = ({ functions := final, linesRead := r.linesRead + 1 }, .ok code) := by
  have hread : readTokens r.functions (Token.scan line) = (final, .ok code) :=
    readTokens_eq_ok_iff.2 h
  simp [readLine, hread, Except.mapError]

/-- **The reader accepts the lines of the grammar.** Whatever functions a reader knows, a line is
read as some code and leaves some dictionary exactly if its words derive this code and this
dictionary from the functions known before. -/
theorem readLine_ok_iff_line (r : Reader) (line : String) (code : Code) (final : Dictionary) :
    ((r.readLine line).2 = .ok code ∧ (r.readLine line).1.functions = final) ↔
      Line r.functions (Token.words line) code final := by
  rw [readLine_ok_iff_readTokens]
  exact readTokens_eq_ok_iff

end Reader

end StackLang
