import StackLang.Proofs.Columns
import StackLang.Proofs.Grammar.Completeness
import Mathlib

/-!
# What the first part of a line decides

A line is read from left to right and a word at a time, so a fault at a token is found whatever
comes after the token, `feed_append_of_fault`, and what comes before it has no such fault. A fault
at the end of a line is of another kind: something is still open. It can always be closed, since
`FI` ends a conditional and `END` a definition whatever functions have these names,
`exists_closing`. So a line fails at its end only if it is the first part of a line that can be
read, and it fails at a token only if it is not.
-/

set_option autoImplicit false

namespace StackLang

open Text (isBlank)

namespace SyntaxFault

/-- Whether a fault is that the line ends while something is open. -/
def AtEnd : SyntaxFault → Prop
  | .missingName | .unterminated _ _ => True
  | _ => False

/-- The column of the token that is at fault, unless it is the end of the line that is. -/
def column? : SyntaxFault → Option Nat
  | .unknownToken t | .invalidNumber t | .unexpectedToken t => some t.column
  | .nestedDefinition column | .conditionalOutsideFunction column => some column
  | .missingName | .unterminated _ _ => none

/-- The token that is at fault, unless it is the end of the line that is. -/
def token? : SyntaxFault → Option Token
  | .unknownToken t | .invalidNumber t | .unexpectedToken t => some t
  | .nestedDefinition column => some ⟨"DEF", column⟩
  | .conditionalOutsideFunction column => some ⟨"IF", column⟩
  | .missingName | .unterminated _ _ => none

/-- The column of a fault is that of the token at fault. -/
theorem column?_eq (fault : SyntaxFault) : fault.column? = fault.token?.map Token.column := by
  cases fault <;> rfl

/-- A fault at the end of a line has no token. -/
theorem token?_of_atEnd {fault : SyntaxFault} (h : fault.AtEnd) : fault.token? = none := by
  cases fault <;> first | rfl | exact h.elim

/-- A fault with a column is none at the end of a line. -/
theorem not_atEnd_of_column? {fault : SyntaxFault} {column : Nat}
    (h : fault.column? = some column) : ¬ fault.AtEnd := by
  cases fault <;> simp_all [AtEnd, column?]

end SyntaxFault

/-- A token is its word in its column. -/
theorem Token.eq_mk {t : Token} {word : String} (h : t.text = word) : t = ⟨word, t.column⟩ := by
  rw [← h]

/-- A word that cannot be read by itself is a number out of range, and it is at fault. -/
theorem Token.token?_of_plain? {t : Token} {fault : SyntaxFault}
    (h : t.plain? = some (.error fault)) : fault.token? = some t := by
  unfold plain? at h
  split at h
  · split at h
    · simp at h
    · obtain rfl : SyntaxFault.invalidNumber t = fault := by simpa using h
      rfl
  · simp at h

namespace OpenDefinition

variable {functions : Dictionary} {d : OpenDefinition} {t : Token} {fault : SyntaxFault}

/-- An item that is refused is at fault itself. -/
theorem token?_of_readItem (h : d.readItem functions t = .error fault) :
    fault.token? = some t := by
  unfold readItem at h
  split at h
  · simp at h
  · rename_i hplain
    obtain rfl := Except.error.inj h
    exact Token.token?_of_plain? hplain
  · split_ifs at h with _ hdef
    · obtain rfl := Except.error.inj h
      exact congrArg some (Token.eq_mk hdef).symm
    all_goals
      obtain rfl := Except.error.inj h
      rfl

/-- A token that a definition refuses is at fault itself. -/
theorem token?_of_step (h : d.step functions t = .error fault) : fault.token? = some t := by
  unfold step at h
  split at h
  · exact token?_of_readItem h
  · split_ifs at h
    exact token?_of_readItem h

end OpenDefinition

/-- An instruction that is added opens and closes no conditional. -/
theorem OpenDefinition.length_conditionals_add (d : OpenDefinition) (i : Instruction) :
    (d.add i).conditionals.length = d.conditionals.length := by
  unfold OpenDefinition.add
  split
  · rfl
  · rename_i c cs hc
    simp [hc]

namespace LineState

variable {s next : LineState} {t : Token} {fault : SyntaxFault} {ts us : List Token}

/-- Outside of definitions, too, a token that is refused is at fault itself. -/
theorem token?_of_readItem (h : s.readItem t = .error fault) : fault.token? = some t := by
  unfold readItem at h
  split at h
  · simp at h
  · rename_i hplain
    obtain rfl := Except.error.inj h
    exact Token.token?_of_plain? hplain
  · split_ifs at h with _ _ hif
    · obtain rfl := Except.error.inj h
      exact congrArg some (Token.eq_mk hif).symm
    · obtain rfl := Except.error.inj h
      rfl

/-- A token that is not accepted is the one at fault. -/
theorem token?_of_step (h : s.step t = .error fault) : fault.token? = some t := by
  unfold step at h
  split at h
  · exact token?_of_readItem h
  · simp at h
  · rename_i d hplace
    split_ifs at h
    cases hstep : d.step s.functions t with
    | ok d' => simp [hstep, Except.map] at h
    | error fault' =>
      obtain rfl : fault' = fault := by simpa [hstep, Except.map] using h
      exact OpenDefinition.token?_of_step hstep

/-- A step that fails has the column of its token. -/
theorem column?_of_step (h : s.step t = .error fault) : fault.column? = some t.column := by
  rw [SyntaxFault.column?_eq, token?_of_step h]
  rfl

/-- What a line lacks at its end is a fault at the end. -/
theorem atEnd_of_endFault? (h : s.endFault? = some fault) : fault.AtEnd := by
  unfold endFault? at h
  split at h
  · simp at h
  · obtain rfl := Option.some.inj h
    trivial
  · split at h <;> (obtain rfl := Option.some.inj h; trivial)

/-- Tokens after a fault are not looked at. -/
theorem feed_append_of_fault (h : s.feed ts = (next, some fault)) (us : List Token) :
    s.feed (ts ++ us) = (next, some fault) := by
  induction ts generalizing s with
  | nil => simp [feed] at h
  | cons t ts ih =>
    rw [feed] at h
    rw [List.cons_append, feed]
    split at h
    · exact ih h
    · exact h

/-- A fault is found at one of the tokens, after the tokens before it have been accepted. -/
theorem exists_step_error (h : s.feed ts = (next, some fault)) :
    ∃ front t rest, ts = front ++ t :: rest ∧ s.feed front = (next, none) ∧
      next.step t = .error fault := by
  induction ts generalizing s with
  | nil => simp [feed] at h
  | cons t ts ih =>
    rw [feed] at h
    split at h
    · rename_i middle hstep
      obtain ⟨front, u, rest, rfl, hfront, hfault⟩ := ih h
      refine ⟨t :: front, u, rest, rfl, ?_, hfault⟩
      rw [feed, hstep]
      exact hfront
    · rename_i fault' hstep
      obtain ⟨rfl, hfault⟩ := Prod.mk.inj h
      obtain rfl := Option.some.inj hfault
      exact ⟨[], t, ts, rfl, rfl, hstep⟩

/-- Whatever is open can be closed: a conditional by `FI` and a definition by `END`, the innermost
construct first. -/
theorem exists_closing {d : OpenDefinition} (hs : s.place = .definition d) :
    ∃ ws next, (∀ w ∈ ws, Token.IsWord w) ∧ s.Consumes ws next ∧ next.place = .topLevel := by
  -- by induction on the number of open conditionals
  generalize hn : d.conditionals.length = n
  induction n generalizing s d with
  | zero =>
    have hnone : d.conditionals = [] := List.eq_nil_of_length_eq_zero hn
    refine ⟨["END"], s.close d, by decide, .cons fun t ht => ?_, rfl⟩
    exact ⟨s.close d, .close hs ht hnone, .nil⟩
  | succ n ih =>
    obtain ⟨c, cs, hc⟩ := List.exists_cons_of_length_eq_add_one hn
    let closed : OpenDefinition := { d with conditionals := cs }.add c.close
    have hclosed : closed.conditionals.length = n := by
      rw [OpenDefinition.length_conditionals_add]
      simpa [hc] using hn
    obtain ⟨ws, next, hws, hconsumes, hplace⟩ :=
      @ih { s with place := .definition closed } closed rfl hclosed
    refine ⟨"FI" :: ws, next, ?_, .cons fun t ht => ⟨_, .leave hs ht hc, hconsumes⟩, hplace⟩
    exact List.forall_mem_cons.2 ⟨by decide, hws⟩

/-- From every state some words lead back to top level, where a line can end. -/
theorem exists_completion (s : LineState) :
    ∃ ws next, (∀ w ∈ ws, Token.IsWord w) ∧ s.Consumes ws next ∧ next.place = .topLevel := by
  cases hplace : s.place with
  | topLevel => exact ⟨[], s, by simp, .nil, hplace⟩
  | name column =>
    -- any word is a name
    let opened : LineState := { s with place := .definition { column, name := "F" } }
    obtain ⟨ws, next, hws, hconsumes, htop⟩ := @exists_closing opened _ rfl
    refine ⟨"F" :: ws, next, List.forall_mem_cons.2 ⟨by decide, hws⟩, .cons fun t ht => ?_, htop⟩
    refine ⟨opened, ?_, hconsumes⟩
    have hname := @Step.name s t column hplace
    rwa [ht] at hname
  | definition d => exact exists_closing hplace

end LineState

namespace Reader

variable {r after : Reader} {line : String} {functions : Dictionary} {tokens : List Token}
  {state : LineState} {fault : SyntaxFault}

/-- A fault among the tokens is that of the line. -/
theorem readTokens_of_fault (h : LineState.feed { functions } tokens = (state, some fault)) :
    readTokens functions tokens = (state.functions, .error fault) := by
  simp [readTokens, h]

/-- Tokens without a fault that leave nothing open are read, with the code that has been collected.
-/
theorem readTokens_of_topLevel (h : LineState.feed { functions } tokens = (state, none))
    (hplace : state.place = .topLevel) :
    readTokens functions tokens = (state.functions, .ok state.code.reverse) := by
  simp [readTokens, h, LineState.endFault?_eq_none_iff.2 hplace]

/-- A fault of a line without a fault among its tokens is one at its end. -/
theorem endFault?_of_readTokens (h : LineState.feed { functions } tokens = (state, none))
    (hresult : (readTokens functions tokens).2 = .error fault) : state.endFault? = some fault := by
  cases hend : state.endFault? with
  | none => simp [readTokens, h, hend] at hresult
  | some fault' => simpa [readTokens, h, hend] using hresult

/-- A reader reads the tokens of a line. -/
theorem readLine_congr {other : String}
    (h : readTokens r.functions (Token.scan other) = readTokens r.functions (Token.scan line)) :
    r.readLine other = r.readLine line := by
  rw [readLine, readLine, h]

/-- An error is a fault with the number of the line. -/
theorem fault_of_readLine_error {e : SyntaxError} (h : (r.readLine line).2 = .error e) :
    (readTokens r.functions (Token.scan line)).2 = .error e.fault ∧ e.line = r.linesRead + 1 := by
  unfold readLine at h
  cases hread : (readTokens r.functions (Token.scan line)).2 with
  | error fault =>
    obtain rfl : (⟨r.linesRead + 1, fault⟩ : SyntaxError) = e := by
      simpa [hread, Except.mapError] using h
    exact ⟨rfl, rfl⟩
  | ok code => simp [hread, Except.mapError] at h

/-- A line with a fault has tokens with this fault. -/
theorem readTokens_of_readLine_error {e : SyntaxError} (h : (r.readLine line).2 = .error e) :
    (readTokens r.functions (Token.scan line)).2 = .error e.fault :=
  (fault_of_readLine_error h).1

/-- What the fault of a line says about longer lines and about shorter ones. -/
structure DecidedBy (r : Reader) (line : String) (e : SyntaxError) : Prop where
  /-- If the line ends too early, it can be read with some further words. -/
  completes (h : e.fault.AtEnd) : ∃ ws, (∀ w ∈ ws, Token.IsWord w) ∧ ∃ after code,
    r.readLine (line ++ " " ++ " ".intercalate ws) = (after, .ok code)
  /-- Otherwise the same fault is found, and the same functions are left, whatever is added behind a
  blank. -/
  stays (h : ¬ e.fault.AtEnd) (b : Char) (hb : isBlank b) (more : String) :
    r.readLine (line ++ String.singleton b ++ more) = r.readLine line
  /-- Then it is a token of the line that is at fault, and the line up to this token can be read or
  ends too early. -/
  front (h : ¬ e.fault.AtEnd) : ∃ t ∈ Token.scan line, e.fault.column? = some t.column ∧
    ∀ e', (r.readLine (Token.before line t.column)).2 = .error e' → e'.fault.AtEnd

/-- A line that was accepted word by word can be completed. -/
theorem exists_readLine_append {r : Reader} {line : String}
    (h : LineState.feed { functions := r.functions } (Token.scan line) = (state, none)) :
    ∃ ws, (∀ w ∈ ws, Token.IsWord w) ∧ ∃ after code,
      r.readLine (line ++ " " ++ " ".intercalate ws) = (after, .ok code) := by
  obtain ⟨ws, next, hws, hconsumes, hplace⟩ := state.exists_completion
  have hspace : isBlank ' ' := by decide
  have hscan : Token.scan (line ++ " " ++ " ".intercalate ws) = Token.scan line ++ _ :=
    Token.scan_append_blank hspace line _
  have hwords := Token.map_text_scanFrom_intercalate (1 + line.toList.length + 1) hws
  have hfeed : LineState.feed { functions := r.functions }
      (Token.scan (line ++ " " ++ " ".intercalate ws)) = (next, none) := by
    rw [hscan, LineState.feed_append h]
    exact hconsumes _ hwords
  refine ⟨ws, hws, ⟨next.functions, r.linesRead + 1⟩, next.code.reverse, ?_⟩
  rw [readLine, readTokens_of_topLevel hfeed hplace]
  rfl

/-- **A fault is decided by the first part of a line that has it.** A reader that does not read a
line either misses the end of something, which further words can bring, or finds a token at fault:
then it finds the same in every longer line, and nothing of the kind in the line up to the token. -/
theorem decidedBy_of_readLine_error {e : SyntaxError} (h : r.readLine line = (after, .error e)) :
    DecidedBy r line e := by
  have hresult : (readTokens r.functions (Token.scan line)).2 = .error e.fault :=
    readTokens_of_readLine_error (congrArg Prod.snd h)
  rcases hfeed : LineState.feed { functions := r.functions } (Token.scan line) with
    ⟨state, _ | fault⟩
  · have hend := LineState.atEnd_of_endFault? (endFault?_of_readTokens hfeed hresult)
    exact ⟨fun _ => exists_readLine_append hfeed, fun hnot => absurd hend hnot,
      fun hnot => absurd hend hnot⟩
  · obtain rfl : fault = e.fault := by simpa [readTokens_of_fault hfeed] using hresult
    obtain ⟨front, t, rest, hscan, hfront, hstep⟩ := LineState.exists_step_error hfeed
    have hcolumn := LineState.column?_of_step hstep
    refine ⟨fun hend => absurd hend (SyntaxFault.not_atEnd_of_column? hcolumn), ?_, ?_⟩
    · intro _ b hb more
      apply readLine_congr
      rw [Token.scan_append_blank hb, readTokens_of_fault hfeed,
        readTokens_of_fault (LineState.feed_append_of_fault hfeed _)]
    · intro _
      refine ⟨t, by simp [hscan], hcolumn, fun e' he' => ?_⟩
      have hshort := readTokens_of_readLine_error he'
      rw [Token.scan_before hscan] at hshort
      exact LineState.atEnd_of_endFault? (endFault?_of_readTokens hfront hshort)

/-- Two block words name functions. A definition that lacks its end inside two conditionals can be
completed, and one with a word that is unknown inside of them cannot. -/
theorem decidedBy_of_readLine_error_nested :
    let r : Reader := (({} : Reader).readLine "DEF FI END DEF END 1 END").1
    let early := "2 DEF F IF END ELS IF"
    let faulty := "2 DEF F IF END ELS X"
    (∃ e, (r.readLine early).2 = .error e ∧ e.fault = .unterminated .conditional 20 ∧
      DecidedBy r early e) ∧
    ∃ e, (r.readLine faulty).2 = .error e ∧ e.fault = .unknownToken ⟨"X", 20⟩ ∧
      DecidedBy r faulty e := by
  intro r early faulty
  have hearly : (r.readLine early).2 = .error ⟨2, .unterminated .conditional 20⟩ := by cbv
  have hfaulty : (r.readLine faulty).2 = .error ⟨2, .unknownToken ⟨"X", 20⟩⟩ := by cbv
  exact ⟨⟨_, hearly, rfl, decidedBy_of_readLine_error (Prod.ext rfl hearly)⟩,
    ⟨_, hfaulty, rfl, decidedBy_of_readLine_error (Prod.ext rfl hfaulty)⟩⟩

end Reader

end StackLang
