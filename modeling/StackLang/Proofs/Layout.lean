import StackLang.Proofs.LineEnds
import StackLang.Proofs.RoundTrip
import StackLang.Proofs.Histories
import Mathlib

/-!
# The layout of a line

Where the words of a line stand makes no difference, apart from the columns that faults name. A
token, a state of the reading and a fault can be stripped of their columns, and reading commutes
with this, `step_unplaced` and `feed_unplaced`: so lines with the same words lead a reader to the
same state and the same code, or to faults that differ in their columns only. Rendered code reads
back, hence it can take the place of its line as well. A session goes through the same states
whichever of these lines it is given, `outcomes_unplaced`.
-/

set_option autoImplicit false

namespace StackLang

/-- A token without its column. -/
def Token.unplaced (t : Token) : Token := { t with column := 0 }

@[simp]
theorem Token.unplaced_text (t : Token) : t.unplaced.text = t.text := rfl

@[simp]
theorem Token.unplaced_column (t : Token) : t.unplaced.column = 0 := rfl

/-- Tokens with the same words are the same without their places. -/
theorem Token.map_unplaced_eq_of_map_text_eq {tokens others : List Token}
    (h : tokens.map Token.text = others.map Token.text) :
    tokens.map Token.unplaced = others.map Token.unplaced := by
  have hword : Token.unplaced = (Token.mk · 0) ∘ Token.text := rfl
  rw [hword, ← List.map_map, ← List.map_map, h]

/-- A fault without columns. -/
def SyntaxFault.unplaced : SyntaxFault → SyntaxFault
  | .unknownToken t => .unknownToken t.unplaced
  | .invalidNumber t => .invalidNumber t.unplaced
  | .missingName => .missingName
  | .unterminated construct _ => .unterminated construct 0
  | .unexpectedToken t => .unexpectedToken t.unplaced
  | .nestedDefinition _ => .nestedDefinition 0
  | .conditionalOutsideFunction _ => .conditionalOutsideFunction 0

/-- An error without columns. The number of its line stays. -/
def SyntaxError.unplaced (e : SyntaxError) : SyntaxError := { e with fault := e.fault.unplaced }

/-- A session's error without columns. -/
def SessionError.unplaced : SessionError → SessionError
  | .reading line e => .reading line e.unplaced
  | e => e

/-- What a word means by itself does not depend on where it stands. -/
theorem Token.plain?_unplaced (t : Token) :
    t.unplaced.plain? = t.plain?.map (Except.mapError SyntaxFault.unplaced) := by
  unfold Token.plain?
  rw [Token.unplaced_text]
  split
  · split
    · rfl
    · rfl
  · cases Instruction.ofKeyword? t.text <;> rfl

def OpenConditional.unplaced (c : OpenConditional) : OpenConditional := { c with column := 0 }

namespace OpenConditional

/-- Adding an instruction does not look at columns. -/
theorem add_unplaced (c : OpenConditional) (i : Instruction) :
    c.unplaced.add i = (c.add i).unplaced := by
  obtain ⟨column, nonzero, zero⟩ := c
  cases zero <;> rfl

end OpenConditional

namespace OpenDefinition

/-- An open definition without columns. -/
def unplaced (d : OpenDefinition) : OpenDefinition :=
  { d with column := 0, conditionals := d.conditionals.map OpenConditional.unplaced }

/-- In a definition, too, adding an instruction does not look at columns. -/
theorem add_unplaced (d : OpenDefinition) (i : Instruction) :
    d.unplaced.add i = (d.add i).unplaced := by
  obtain ⟨column, name, body, conditionals⟩ := d
  cases conditionals with
  | nil => rfl
  | cons c cs => simp [unplaced, add, OpenConditional.add_unplaced]

/-- Reading an item looks at the word, and its faults differ in their columns only. -/
theorem readItem_unplaced (functions : Dictionary) (d : OpenDefinition) (t : Token) :
    d.unplaced.readItem functions t.unplaced =
      ((d.readItem functions t).map unplaced).mapError SyntaxFault.unplaced := by
  have hname : d.unplaced.name = d.name := rfl
  unfold readItem
  rw [Token.plain?_unplaced, Token.unplaced_text, Token.unplaced_column, hname, add_unplaced]
  rcases t.plain? with _ | fault | i
  · simp only [Option.map_none]
    split_ifs <;> rfl
  · rfl
  · exact congrArg Except.ok (add_unplaced d i)

/-- So does any step in a definition. -/
theorem step_unplaced (functions : Dictionary) (d : OpenDefinition) (t : Token) :
    d.unplaced.step functions t.unplaced =
      ((d.step functions t).map unplaced).mapError SyntaxFault.unplaced := by
  obtain ⟨column, name, body, conditionals⟩ := d
  cases conditionals with
  | nil => exact readItem_unplaced functions ⟨column, name, body, []⟩ t
  | cons c cs =>
    have hitem := readItem_unplaced functions ⟨column, name, body, c :: cs⟩ t
    have hzero : c.unplaced.zero = c.zero := rfl
    simp only [step, unplaced, List.map_cons, Token.unplaced_text, hzero] at hitem ⊢
    split
    · have hadd := add_unplaced ⟨column, name, body, cs⟩ c.close
      exact congrArg Except.ok hadd
    · split
      · rfl
      · exact hitem

end OpenDefinition

/-- A place without columns. -/
def Place.unplaced : Place → Place
  | .topLevel => .topLevel
  | .name _ => .name 0
  | .definition d => .definition d.unplaced

namespace LineState

/-- What has been read of a line, without columns. -/
def unplaced (s : LineState) : LineState := { s with place := s.place.unplaced }

/-- A token at top level opens a definition or stays there. -/
theorem readItem_unplaced {s : LineState} (h : s.place = .topLevel) (t : Token) :
    s.unplaced.readItem t.unplaced =
      ((s.readItem t).map unplaced).mapError SyntaxFault.unplaced := by
  obtain ⟨functions, code, place⟩ := s
  obtain rfl : place = .topLevel := h
  unfold readItem
  rw [Token.plain?_unplaced, Token.unplaced_text, Token.unplaced_column]
  rcases t.plain? with _ | fault | i
  · simp only [Option.map_none]
    split_ifs <;> first | rfl | contradiction
  · rfl
  · rfl

/-- Reading a token commutes with stripping the columns. -/
theorem step_unplaced (s : LineState) (t : Token) :
    s.unplaced.step t.unplaced = ((s.step t).map unplaced).mapError SyntaxFault.unplaced := by
  obtain ⟨functions, code, place⟩ := s
  cases place with
  | topLevel => exact readItem_unplaced (s := ⟨functions, code, .topLevel⟩) rfl t
  | name column => rfl
  | definition d =>
    have hopen : d.unplaced.conditionals = [] ↔ d.conditionals = [] := List.map_eq_nil_iff
    have hstep := d.step_unplaced functions t
    simp only [step, unplaced, Place.unplaced, Token.unplaced_text, hopen]
    split_ifs
    · rfl
    · rw [hstep]
      cases d.step functions t <;> rfl

/-- So does reading tokens, one after the other. -/
theorem feed_unplaced (s : LineState) (tokens : List Token) :
    s.unplaced.feed (tokens.map Token.unplaced) =
      ((s.feed tokens).1.unplaced, (s.feed tokens).2.map SyntaxFault.unplaced) := by
  induction tokens generalizing s with
  | nil => rfl
  | cons t tokens ih =>
    rw [List.map_cons, feed, feed, step_unplaced]
    cases s.step t with
    | ok next => exact ih next
    | error fault => rfl

/-- What a line lacks at its end is the same wherever its words stand. -/
theorem endFault?_unplaced (s : LineState) :
    s.unplaced.endFault? = s.endFault?.map SyntaxFault.unplaced := by
  obtain ⟨functions, code, place⟩ := s
  cases place with
  | topLevel => rfl
  | name column => rfl
  | definition d =>
    obtain ⟨column, name, body, conditionals⟩ := d
    cases conditionals <;> rfl

end LineState

namespace Reader

/-- Two lines with the same words are read alike, the columns of a fault apart. -/
theorem readTokens_unplaced (functions : Dictionary) (tokens : List Token) :
    readTokens functions (tokens.map Token.unplaced) =
      ((readTokens functions tokens).1,
        (readTokens functions tokens).2.mapError SyntaxFault.unplaced) := by
  have hfeed : LineState.feed { functions } (tokens.map Token.unplaced) = _ :=
    LineState.feed_unplaced { functions } tokens
  unfold readTokens
  rw [hfeed]
  rcases LineState.feed { functions } tokens with ⟨state, _ | fault⟩
  · have hend := state.endFault?_unplaced
    simp only [Option.map_none, Option.orElse_eq_orElse, Option.orElse_none, hend]
    cases state.endFault? <;> rfl
  · rfl

/-- What two readings have in common that differ in their columns at most. -/
def Agree (first second : Reader × Except SyntaxError Code) : Prop :=
  first.1 = second.1 ∧
    first.2.mapError SyntaxError.unplaced = second.2.mapError SyntaxError.unplaced

/-- A reader sees the words of a line, and where they stand only if it finds a fault. -/
theorem readLine_of_words (r : Reader) {line other : String}
    (h : Token.words other = Token.words line) : Agree (r.readLine other) (r.readLine line) := by
  have htokens := congrArg (readTokens r.functions) (Token.map_unplaced_eq_of_map_text_eq h)
  rw [readTokens_unplaced, readTokens_unplaced] at htokens
  obtain ⟨hfunctions, hresult⟩ := Prod.ext_iff.1 htokens
  have hnumbered (result : Except SyntaxFault Code) :
      (result.mapError (SyntaxError.mk (r.linesRead + 1))).mapError SyntaxError.unplaced =
        (result.mapError SyntaxFault.unplaced).mapError (SyntaxError.mk (r.linesRead + 1)) := by
    cases result <;> rfl
  refine ⟨congrArg (Reader.mk · (r.linesRead + 1)) hfunctions, ?_⟩
  exact (hnumbered _).trans ((congrArg _ hresult).trans (hnumbered _).symm)

/-- The lines that can take the place of a line when a reader reads it: those with the same words,
and the rendered code of the line. -/
inductive Substitutes (r : Reader) (line : String) : String → Prop
  | words {other : String} (h : Token.words other = Token.words line) : Substitutes r line other
  | rendered {after : Reader} {code : Code} (h : r.readLine line = (after, .ok code)) :
      Substitutes r line (Instruction.renderLine code)

/-- A line that takes the place of another one is read alike. -/
theorem Substitutes.agree {r : Reader} {line other : String} (h : r.Substitutes line other) :
    Agree (r.readLine other) (r.readLine line) := by
  cases h with
  | words h => exact readLine_of_words r h
  | @rendered after code h =>
    have hline := line_of_readLine h
    have hrendered := hline.rendered
    rw [← words_renderLine hline] at hrendered
    rw [readLine_of_line hrendered, readLine_of_line hline]
    exact ⟨rfl, rfl⟩

end Reader

namespace Session

open Text (withReturns)

variable {σ : Type}

/-- The state after a step and its result, without columns. -/
def unplaced (outcome : Session σ × Except SessionError Unit) :
    Session σ × Except SessionError Unit :=
  (outcome.1, outcome.2.mapError SessionError.unplaced)

/-- What every one of a session's steps comes to. -/
def outcomes (host : Host σ) (s : Session σ) :
    List Step → List (Session σ × Except SessionError Unit)
  | [] => []
  | step :: steps => s.perform host step :: (s.perform host step).1.outcomes host steps

/-- Steps of a session with other lines in the place of some. Whether a line can take another
one's place is up to the reader at this line's turn. -/
inductive Relaid (host : Host σ) : Session σ → List Step → List Step → Prop
  | nil (s : Session σ) : Relaid host s [] []
  | line {s : Session σ} {text other : String} {steps others : List Step}
      (h : s.reader.Substitutes text other)
      (hrest : Relaid host (s.runLine host text).1 steps others) :
      Relaid host s (.line text :: steps) (.line other :: others)
  | program {s : Session σ} {input : List UInt8} {steps others : List Step}
      (hrest : Relaid host (s.runProgram host input).1 steps others) :
      Relaid host s (.program input :: steps) (.program input :: others)

/-- A session runs the code that is read, so it goes the same way after readings that agree. -/
theorem runLine_of_agree (host : Host σ) (s : Session σ) {line other : String}
    (h : Reader.Agree (s.reader.readLine other) (s.reader.readLine line)) :
    unplaced (s.runLine host other) = unplaced (s.runLine host line) := by
  obtain ⟨hreader, hresult⟩ := h
  unfold runLine
  generalize s.reader.readLine other = second at hreader hresult ⊢
  generalize s.reader.readLine line = first at hreader hresult ⊢
  obtain ⟨reader, result⟩ := first
  obtain ⟨reader', result'⟩ := second
  obtain rfl : reader' = reader := hreader
  cases result with
  | error e =>
    cases result' with
    | error e' =>
      have hunplaced : e'.unplaced = e.unplaced := Except.error.inj hresult
      simp [unplaced, SessionError.unplaced, Except.mapError, hunplaced]
    | ok code' => simp [Except.mapError] at hresult
  | ok code =>
    cases result' with
    | error e' => simp [Except.mapError] at hresult
    | ok code' =>
      obtain rfl : code' = code := Except.ok.inj hresult
      rfl

/-- **The same outcomes.** Sessions with lines that take each other's place, step by step, come to
the same, columns apart. -/
theorem outcomes_of_relaid {host : Host σ} {s : Session σ} {steps others : List Step}
    (h : Relaid host s steps others) :
    (s.outcomes host others).map unplaced = (s.outcomes host steps).map unplaced := by
  induction h with
  | nil s => rfl
  | @line s text other steps others h hrest ih =>
    have hline := runLine_of_agree host s h.agree
    have hnext : (s.runLine host other).1 = (s.runLine host text).1 := (Prod.ext_iff.1 hline).1
    simp only [outcomes, perform, List.map_cons]
    rw [hline, hnext, ih]
  | program hrest ih =>
    simp only [outcomes, perform, List.map_cons]
    rw [ih]

/-- **Layout makes no difference.** Steps of a session come to the same, up to the columns in
errors of reading, if lines are given another layout or rendered from their code, each at its turn;
and a program comes to the same to the last column if its lines end in carriage returns and line
feeds. -/
theorem outcomes_unplaced_of_relaid (host : Host σ) (s : Session σ) :
    (∀ steps others, Relaid host s steps others →
      (s.outcomes host others).map unplaced = (s.outcomes host steps).map unplaced) ∧
    ∀ input, s.runProgram host (withReturns input) = s.runProgram host input :=
  ⟨fun _ _ => outcomes_of_relaid, runProgram_withReturns host s⟩

/-- A line with other blanks, one with a fault whose column moves, and one that is rendered once the
function it calls is known; and a program whose first line ends in a carriage return already. -/
theorem outcomes_unplaced_of_relaid_spaced :
    let host : Host Unit := { limits := {}, observe := .blind }
    let s : Session Unit := .start .empty {} ()
    let steps : List Step := [.line "DEF SQR DUP MUL END", .line "2 X", .line "007 SQR OUT"]
    let others : List Step := [.line "DEF  SQR DUP MUL END ", .line "\t2  X", .line "7 SQR OUT"]
    let input : List UInt8 := "1\r\n2 X\nOUT".toUTF8.toList
    (s.outcomes host steps).map Prod.snd =
        [.ok (), .error (.reading 2 ⟨2, .unknownToken ⟨"X", 3⟩⟩), .ok ()] ∧
      (s.outcomes host others).map Prod.snd =
        [.ok (), .error (.reading 2 ⟨2, .unknownToken ⟨"X", 5⟩⟩), .ok ()] ∧
      Relaid host s steps others ∧
      (s.outcomes host others).map unplaced = (s.outcomes host steps).map unplaced ∧
      s.runProgram host (withReturns input) = s.runProgram host input := by
  intro host s steps others input
  have hrelaid : Relaid host s steps others := by
    have hrender : Instruction.renderLine [.number 7, .call "SQR", .out] = "7 SQR OUT" := by cbv
    refine .line (.words (by cbv)) (.line (.words (by cbv)) (.line ?_ (.nil _)))
    rw [← hrender]
    exact .rendered (Prod.ext rfl (by cbv))
  have hunplaced := (outcomes_unplaced_of_relaid host s).1 steps others hrelaid
  have hreturns := (outcomes_unplaced_of_relaid host s).2 input
  exact ⟨by cbv, by cbv, hrelaid, hunplaced, hreturns⟩

end Session

end StackLang
