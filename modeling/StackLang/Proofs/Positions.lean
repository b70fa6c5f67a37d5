import StackLang.Proofs.Prefixes
import Mathlib

/-!
# Where faults stand

A fault names a word of its line, and the column of this word. If a token is at fault, it is a token
of the line, so its word stands in its column, `Token.runAt_of_mem_scan`. If the line ends too early,
the fault names the innermost construct that is open there. Which constructs are open is a question
of the grammar: the words after the opening ones of a construct are items of it, as long as the line
goes on, and they complete all constructs that they open themselves, `OpenAtEnd`. The constructs that
the reader has on its stack are these, with the columns of their opening words,
`LineState.openAtEnd_iff`.
-/

set_option autoImplicit false

namespace StackLang

namespace Construct

/-- The word that opens a construct. -/
def keyword : Construct → String
  | .definition _ => "DEF"
  | .conditional => "IF"

/-- The words that a construct starts with, the name of a function included. -/
def openingWords : Construct → List String
  | .definition name => ["DEF", name]
  | .conditional => ["IF"]

end Construct

/-- The constructs that are open in a definition, innermost first, and the columns in which they were
opened. -/
def OpenDefinition.opens (d : OpenDefinition) : List (Construct × Nat) :=
  d.conditionals.map (fun c => (.conditional, c.column)) ++ [(.definition d.name, d.column)]

namespace Grammar

/-- What follows the `IF` of a conditional that has no `FI`, if nothing else is open in it. -/
inductive Branches (callable : String → Prop) : List String → Prop
  | nonzero {ns : List String} {nonzero : Code} (hn : Items callable .nonzero ns nonzero) :
      Branches callable ns
  | zero {ns zs : List String} {nonzero zero : Code} (hn : Items callable .nonzero ns nonzero)
      (hz : Items callable .zero zs zero) : Branches callable (ns ++ "ELS" :: zs)

/-- A definition that has no `END`, and the constructs that are open at the end of it, innermost
first, with the columns of their first words. -/
inductive Unfinished (known : Dictionary) (name : String) :
    List Token → List (Construct × Nat) → Prop
  | definition {first second : Token} {rest : List Token} {body : Code}
      (hfirst : first.text = "DEF") (hsecond : second.text = name)
      (hbody : Items (Callable known name) .body (rest.map Token.text) body) :
      Unfinished known name (first :: second :: rest) [(.definition name, first.column)]
  | conditional {first : Token} {outer inner : List Token} {opens : List (Construct × Nat)}
      (houter : Unfinished known name outer opens) (hfirst : first.text = "IF")
      (hinner : Branches (Callable known name) (inner.map Token.text)) :
      Unfinished known name (outer ++ first :: inner) ((.conditional, first.column) :: opens)

/-- The constructs that are open at the end of a line. What stands in front of the definition they
belong to is complete. -/
def OpenAtEnd (functions : Dictionary) (tokens : List Token) (opens : List (Construct × Nat)) :
    Prop :=
  ∃ front rest code known name, tokens = front ++ rest ∧
    Line functions (front.map Token.text) code known ∧ Unfinished known name rest opens

variable {functions known : Dictionary} {name : String} {tokens : List Token}
  {opens : List (Construct × Nat)} {ws : List String}

/-- The branches of a conditional leave the reader inside of it. -/
theorem Branches.consumes {d : OpenDefinition} (h : Branches (Callable known d.name) ws)
    (before : Code) (column : Nat) :
    ∃ c : OpenConditional, c.column = column ∧
      (⟨known, before, .definition (d.enter column)⟩ : LineState).Consumes ws
        ⟨known, before, .definition { d with conditionals := c :: d.conditionals }⟩ := by
  cases h with
  | @nonzero _ nonzero hn =>
    have hbranch := @Items.consumes known d.name _ _ _ hn before (d.enter column) rfl rfl
    rw [OpenDefinition.foldl_add_enter] at hbranch
    exact ⟨_, rfl, hbranch⟩
  | @zero _ _ nonzero zero hn hz =>
    have hbranch := @Items.consumes known d.name _ _ _ hn before (d.enter column) rfl rfl
    have hother := @Items.consumes known d.name _ _ _ hz before (d.inZero column nonzero.reverse)
      rfl rfl
    rw [OpenDefinition.foldl_add_enter] at hbranch
    rw [OpenDefinition.foldl_add_inZero] at hother
    refine ⟨⟨column, nonzero.reverse, some zero.reverse⟩, rfl, hbranch.append (.cons ?_)⟩
    exact fun t ht => ⟨_, .switch rfl ht rfl rfl, hother⟩

/-- An unfinished definition leaves the reader in a state with the same open constructs. -/
theorem Unfinished.feed (h : Unfinished known name tokens opens) (before : Code) :
    ∃ d, LineState.feed ⟨known, before, .topLevel⟩ tokens =
      (⟨known, before, .definition d⟩, none) ∧ d.name = name ∧ d.opens = opens := by
  induction h with
  | @definition first second rest body hfirst hsecond hbody =>
    let opened : OpenDefinition := { column := first.column, name := second.text }
    have hitems := @Items.consumes known name _ _ body hbody before opened hsecond rfl
    rw [OpenDefinition.foldl_add_body body rfl] at hitems
    refine ⟨{ opened with body := body.reverse ++ opened.body }, ?_, hsecond, ?_⟩
    · rw [LineState.feed_cons (.define rfl hfirst), LineState.feed_cons (.name rfl)]
      exact hitems rest rfl
    · simp [OpenDefinition.opens, opened, hsecond]
  | @conditional first outer inner opens houter hfirst hinner ih =>
    obtain ⟨d, hd, rfl, rfl⟩ := ih
    obtain ⟨c, hcolumn, hbranches⟩ := hinner.consumes before first.column
    refine ⟨{ d with conditionals := c :: d.conditionals }, ?_, rfl, ?_⟩
    · rw [LineState.feed_append hd, LineState.feed_cons (.enter rfl hfirst)]
      exact hbranches inner rfl
    · simp [OpenDefinition.opens, hcolumn]

end Grammar

/-- What has been read of an open conditional is an `IF` and branches. -/
theorem OpenConditional.Reads.branches {callable : String → Prop} {c : OpenConditional}
    {ws : List String} (h : c.Reads callable ws) :
    ∃ vs, ws = "IF" :: vs ∧ Grammar.Branches callable vs := by
  cases h with
  | nonzero hn => exact ⟨_, rfl, .nonzero hn⟩
  | zero hn hz => exact ⟨_, rfl, .zero hn hz⟩

/-- Tokens with the words of an open definition are an unfinished definition. -/
theorem OpenDefinition.Reads.unfinished {known : Dictionary} {d : OpenDefinition}
    {ws : List String} (h : d.Reads known ws) {tokens : List Token}
    (htokens : tokens.map Token.text = ws) :
    ∃ opens, Grammar.Unfinished known d.name tokens opens := by
  induction h generalizing tokens with
  | body h =>
    obtain ⟨first, _, rfl, hfirst, hrest⟩ := List.map_eq_cons_iff.1 htokens
    obtain ⟨second, rest, rfl, hsecond, rfl⟩ := List.map_eq_cons_iff.1 hrest
    exact ⟨_, .definition hfirst hsecond h⟩
  | conditional _ hinner ih =>
    obtain ⟨vs, rfl, hbranches⟩ := hinner.branches
    obtain ⟨outer, rest, rfl, houter, hrest⟩ := List.map_eq_append_iff.1 htokens
    obtain ⟨first, inner, rfl, hfirst, rfl⟩ := List.map_eq_cons_iff.1 hrest
    obtain ⟨opens, hopens⟩ := ih houter
    exact ⟨_, .conditional hopens hfirst hbranches⟩

namespace LineState

open Grammar

variable {functions : Dictionary} {tokens : List Token} {state : LineState} {d : OpenDefinition}
  {opens : List (Construct × Nat)}

/-- What is open at the end of tokens decides the state that they lead to. -/
theorem opens_of_openAtEnd (h : OpenAtEnd functions tokens opens)
    (hfeed : feed { functions } tokens = (state, none)) (hs : state.place = .definition d) :
    opens = d.opens := by
  obtain ⟨front, rest, code, known, name, rfl, hline, hrest⟩ := h
  obtain ⟨d', hlast, -, rfl⟩ := hrest.feed (code.reverse ++ [])
  have hstate := hfeed.symm.trans ((feed_append (hline.consumes [] front rfl)).trans hlast)
  have hplace := congrArg (·.1.place) hstate
  obtain rfl : d = d' := by simpa [hs] using hplace
  rfl

/-- The constructs on the stack of a reader are those that the grammar says are open. -/
theorem openAtEnd_iff (h : feed { functions } tokens = (state, none))
    (hs : state.place = .definition d) : OpenAtEnd functions tokens opens ↔ opens = d.opens := by
  refine ⟨fun hopens => opens_of_openAtEnd hopens h hs, ?_⟩
  rintro rfl
  obtain ⟨read, -, hreads, hall⟩ := (Reads.topLevel .nil).feed h
  obtain rfl := hall rfl
  obtain ⟨vs, ds, hwords, hline, hd⟩ := hreads.definition_of_place hs
  obtain ⟨front, rest, rfl, rfl, rfl⟩ := List.map_eq_append_iff.1 hwords
  obtain ⟨opens, hrest⟩ := hd.unfinished rfl
  have hopens : OpenAtEnd functions (front ++ rest) opens :=
    ⟨front, rest, _, _, _, rfl, hline, hrest⟩
  rwa [← opens_of_openAtEnd hopens h hs]

/-- What lacks its end is the innermost construct of those that are open in the definition. -/
theorem opens_of_endFault? {construct : Construct} {column : Nat}
    (h : state.endFault? = some (.unterminated construct column)) :
    ∃ d outer, state.place = .definition d ∧ d.opens = (construct, column) :: outer := by
  unfold endFault? at h
  split at h
  · simp at h
  · simp at h
  · rename_i d hplace
    refine ⟨d, ?_⟩
    unfold OpenDefinition.opens
    split at h
    · rename_i hnone
      obtain ⟨rfl, rfl⟩ : Construct.definition d.name = construct ∧ d.column = column := by
        simpa using h
      exact ⟨[], hplace, by simp [hnone]⟩
    · rename_i c cs hc
      obtain ⟨rfl, rfl⟩ : Construct.conditional = construct ∧ c.column = column := by
        simpa using h
      exact ⟨_, hplace, by rw [hc, List.map_cons, List.cons_append]⟩

end LineState

namespace Grammar

variable {functions : Dictionary} {tokens : List Token} {construct : Construct} {column : Nat}
  {outer : List (Construct × Nat)}

/-- The innermost open construct was opened by its words, in its column. -/
theorem Unfinished.exists_opening {known : Dictionary} {name : String}
    (h : Unfinished known name tokens ((construct, column) :: outer)) :
    ∃ front rest, tokens = front ++ ⟨construct.keyword, column⟩ :: rest ∧
      construct.openingWords <+: construct.keyword :: rest.map Token.text := by
  cases h with
  | @definition first second rest _ hfirst hsecond _ =>
    refine ⟨[], second :: rest, ?_, ?_⟩
    · exact congrArg (· :: second :: rest) (Token.eq_mk hfirst)
    · simp [Construct.openingWords, Construct.keyword, hsecond]
  | @conditional first outer inner _ _ hfirst _ =>
    refine ⟨outer, inner, ?_, ?_⟩
    · exact congrArg (outer ++ · :: inner) (Token.eq_mk hfirst)
    · simp [Construct.openingWords, Construct.keyword]

/-- A construct that is open at the end was opened by a token of the line, which its opening words
start with. -/
theorem OpenAtEnd.exists_opening (h : OpenAtEnd functions tokens ((construct, column) :: outer)) :
    ∃ front rest, tokens = front ++ ⟨construct.keyword, column⟩ :: rest ∧
      construct.openingWords <+: construct.keyword :: rest.map Token.text := by
  obtain ⟨before, _, _, _, _, rfl, -, hrest⟩ := h
  obtain ⟨front, rest, rfl, hwords⟩ := hrest.exists_opening
  exact ⟨before ++ front, rest, by rw [List.append_assoc], hwords⟩

end Grammar

namespace Reader

open Grammar Token

/-- Where a fault stands in a line. -/
structure Located (functions : Dictionary) (line : String) (fault : SyntaxFault) : Prop where
  /-- The token at fault is the word that stands in its column; it is `DEF` for a definition inside
  of a definition, and `IF` for a conditional outside of one. -/
  token (t : Token) (h : fault.token? = some t) : RunAt line t.column t.text
  /-- A construct that lacks its end is the innermost one that is open at the end of the line. -/
  innermost (construct : Construct) (column : Nat) (h : fault = .unterminated construct column) :
    ∃ outer, ∀ opens, OpenAtEnd functions (scan line) opens ↔ opens = (construct, column) :: outer
  /-- It was opened by the word that stands in its column, and the name of a function comes next. -/
  opening (construct : Construct) (column : Nat) (h : fault = .unterminated construct column) :
    RunAt line column construct.keyword ∧
      ∃ front rest, scan line = front ++ ⟨construct.keyword, column⟩ :: rest ∧
        construct.openingWords <+: construct.keyword :: rest.map Token.text

/-- The reader after some lines. -/
def readAll (r : Reader) (lines : List String) : Reader :=
  lines.foldl (fun r line => (r.readLine line).1) r

/-- Every line counts, with or without a fault. -/
theorem linesRead_readAll (r : Reader) (lines : List String) :
    (r.readAll lines).linesRead = r.linesRead + lines.length := by
  induction lines generalizing r with
  | nil => rfl
  | cons line lines ih =>
    have hrest : r.readAll (line :: lines) = (r.readLine line).1.readAll lines := rfl
    rw [hrest, ih, List.length_cons]
    simp only [readLine]
    omega

/-- Every fault stands where it says. -/
theorem located_of_readTokens {functions : Dictionary} {line : String} {fault : SyntaxFault}
    (h : (readTokens functions (scan line)).2 = .error fault) : Located functions line fault := by
  rcases hfeed : LineState.feed { functions } (scan line) with ⟨state, _ | found⟩
  · have hend := endFault?_of_readTokens hfeed h
    have hopens {construct : Construct} {column : Nat}
        (hfault : fault = .unterminated construct column) :
        ∃ outer, ∀ opens, OpenAtEnd functions (scan line) opens ↔
          opens = (construct, column) :: outer := by
      rw [hfault] at hend
      obtain ⟨d, outer, hplace, hd⟩ := LineState.opens_of_endFault? hend
      refine ⟨outer, fun opens => ?_⟩
      rw [LineState.openAtEnd_iff hfeed hplace, hd]
    refine ⟨fun t ht => ?_, fun _ _ => hopens, fun construct column hfault => ?_⟩
    · rw [SyntaxFault.token?_of_atEnd (LineState.atEnd_of_endFault? hend)] at ht
      simp at ht
    · obtain ⟨outer, houter⟩ := hopens hfault
      obtain ⟨front, rest, hscan, hwords⟩ := ((houter _).2 rfl).exists_opening
      have hrun := @runAt_of_mem_scan line ⟨construct.keyword, column⟩ (by simp [hscan])
      exact ⟨hrun, front, rest, hscan, hwords⟩
  · obtain rfl : found = fault := by simpa [readTokens_of_fault hfeed] using h
    obtain ⟨front, t, rest, hscan, -, hstep⟩ := LineState.exists_step_error hfeed
    have htoken := LineState.token?_of_step hstep
    have hnone {construct : Construct} {column : Nat} :
        found ≠ .unterminated construct column := by
      rintro rfl
      simp [SyntaxFault.token?] at htoken
    refine ⟨fun u hu => ?_, fun _ _ h => absurd h hnone, fun _ _ h => absurd h hnone⟩
    obtain rfl : t = u := Option.some.inj (htoken.symm.trans hu)
    exact runAt_of_mem_scan (by simp [hscan])

/-- **Errors point to the right place.** If a reader has been given some lines, with or without
faults, then an error in the next line carries the number of this line, and its column is that of
what it names: the token at fault, or the opening word of the innermost construct that is open at
the end of the line. -/
theorem located_of_readLine_error (lines : List String) {line : String} {after : Reader}
    {e : SyntaxError} (h : (({} : Reader).readAll lines).readLine line = (after, .error e)) :
    e.line = lines.length + 1 ∧
      Located (({} : Reader).readAll lines).functions line e.fault := by
  obtain ⟨hfault, hline⟩ := fault_of_readLine_error (congrArg Prod.snd h)
  refine ⟨?_, located_of_readTokens hfault⟩
  rw [hline, linesRead_readAll]
  simp

/-- Lines with wide blanks and letters that are not ASCII, after a line with a fault: a definition
that breaks off in the second branch of a conditional, and a literal that is too large. -/
theorem located_of_readLine_error_wide :
    let r : Reader := ({} : Reader).readAll ["X", "DEF Ω 1 END"]
    let nested := "Ω\u3000DEF ä IF 1 ELS IF Ω FI Ω"
    let large := "Ω\u2003 2147483648 X"
    (r.readLine nested).2 = .error ⟨3, .unterminated .conditional 9⟩ ∧
      Located r.functions nested (.unterminated .conditional 9) ∧
      (r.readLine large).2 = .error ⟨3, .invalidNumber ⟨"2147483648", 4⟩⟩ ∧
      RunAt large 4 "2147483648" := by
  intro r nested large
  have hnested : (r.readLine nested).2 = .error ⟨3, .unterminated .conditional 9⟩ := by cbv
  have hlarge : (r.readLine large).2 = .error ⟨3, .invalidNumber ⟨"2147483648", 4⟩⟩ := by cbv
  obtain ⟨-, hopen⟩ := located_of_readLine_error ["X", "DEF Ω 1 END"] (Prod.ext rfl hnested)
  obtain ⟨-, htoken⟩ := located_of_readLine_error ["X", "DEF Ω 1 END"] (Prod.ext rfl hlarge)
  exact ⟨hnested, hopen, hlarge, htoken.token _ rfl⟩

end Reader

end StackLang
