import StackLang.Proofs.RoundTrip
import Mathlib

/-!
# The words that rendering keeps

Code that was read from a line is rendered with the words of this line, in their order. Two things
can change, and no more: a literal is written as the canonical text of its value, and an `ELS` right
in front of its `FI` is left out, because the branch that it opens is empty. `Respelled` relates the
words of a line to such words. It holds of each part of a line and is closed under juxtaposition, so
it follows the derivation of the line, `Line.respelled`.
-/

set_option autoImplicit false

namespace StackLang

open Text (intText)

/-- The words of one line in the spelling of another one: literals may become the canonical text of
their values, and an `ELS` may be left out in front of `FI`. -/
inductive Respelled : List String → List String → Prop
  | nil : Respelled [] []
  | same (word : String) {ws vs : List String} (h : Respelled ws vs) :
      Respelled (word :: ws) (word :: vs)
  | number {word : String} {v : Int32} (hword : Grammar.Literal word.toList v.toInt)
      {ws vs : List String} (h : Respelled ws vs) :
      Respelled (word :: ws) (intText v.toInt :: vs)
  | emptyBranch {ws vs : List String} (h : Respelled ("FI" :: ws) vs) :
      Respelled ("ELS" :: "FI" :: ws) vs

/-- Words after words are respelled one by one. -/
theorem Respelled.append {ws vs us ts : List String} (h : Respelled ws vs)
    (hrest : Respelled us ts) : Respelled (ws ++ us) (vs ++ ts) := by
  induction h with
  | nil => exact hrest
  | same word _ ih => exact .same word ih
  | number hword _ ih => exact .number hword ih
  | emptyBranch _ ih => exact .emptyBranch ih

namespace Grammar

open Instruction (wordsOfCode)

variable {callable : String → Prop} {block : Block} {word : String} {i : Instruction}
  {ws : List String} {code : Code}

/-- An instruction of one word is written in this word, or in its number. -/
theorem Atom.respelled (h : Atom word i) : Respelled [word] i.words := by
  cases h with
  | number h => simpa [Instruction.words, Instruction.mnemonic] using Respelled.number h .nil
  | opcode h =>
    rw [h.words_eq]
    exact .same word .nil

/-- Only without words there is no code. -/
theorem Items.eq_nil (h : Items callable block ws []) : ws = [] := by
  cases h
  rfl

/-- The items of a block are rendered in their own words. -/
theorem Items.respelled (h : Items callable block ws code) : Respelled ws (wordsOfCode code) := by
  induction h with
  | nil => exact .nil
  | @item _ word i _ _ h _ ih =>
    rw [wordsOfCode]
    have hword : Respelled [word] i.words := by
      cases h with
      | atom h => exact h.respelled
      | call => exact .same word .nil
    exact hword.append ih
  | branch _ _ ihn ih =>
    have hbranch := Respelled.same "IF" (ihn.append (.same "FI" ih))
    simpa [wordsOfCode, Instruction.words, Instruction.elseWords] using hbranch
  | @branchElse _ _ _ _ _ zero _ _ hz _ ihn ihz ih =>
    cases zero with
    | nil =>
      obtain rfl := hz.eq_nil
      have hbranch := Respelled.same "IF" (ihn.append (.emptyBranch (.same "FI" ih)))
      simpa [wordsOfCode, Instruction.words, Instruction.elseWords] using hbranch
    | cons i zero =>
      have hzero := Respelled.same "ELS" (ihz.append (.same "FI" ih))
      have hbranch := Respelled.same "IF" (ihn.append hzero)
      have helse := elseWords_of_ne_nil (wordsOfCode_cons_ne_nil i zero)
      rw [wordsOfCode, Instruction.words, helse]
      simpa using hbranch

/-- A line is written in its words, literals and empty second branches apart. -/
theorem Line.respelled {functions final : Dictionary} (h : Line functions ws code final) :
    Respelled ws (wordsOfCode code) := by
  induction h with
  | nil => exact .nil
  | atom h _ ih =>
    rw [wordsOfCode]
    exact h.respelled.append ih
  | call _ _ _ _ ih =>
    rw [wordsOfCode]
    exact .same _ ih
  | define hbody _ ih =>
    have hdefine := hbody.respelled.append (.same "END" ih)
    simpa [wordsOfCode, Instruction.words] using Respelled.same "DEF" (.same _ hdefine)

end Grammar

namespace Reader

/-- **No word is lost and none is invented.** The words of rendered code are the words of the line
that it was read from, in their order, apart from literals that became canonical and from every
`ELS` that was left out in front of its `FI`. -/
theorem respelled_words_renderLine {r after : Reader} {line : String} {code : Code}
    (h : r.readLine line = (after, .ok code)) :
    Respelled (Token.words line) (Token.words (Instruction.renderLine code)) := by
  have hline := line_of_readLine h
  rw [words_renderLine hline]
  exact hline.respelled

/-- Literals that are not canonical, one of them the name of a function; an `ELS` that is left out,
one that stays, and one that is called. -/
theorem respelled_words_renderLine_empty :
    let r : Reader := (({} : Reader).readLine "DEF ELS 7 END").1
    let line := "-00 DEF 01 IF ELS FI IF ELS ELS FI 02 END"
    let code : Code :=
      [.number 0, .define "01" [.branch [] [], .branch [] [.call "ELS"], .number 2]]
    (r.readLine line).2 = .ok code ∧
      Token.words (Instruction.renderLine code) =
        ["0", "DEF", "01", "IF", "FI", "IF", "ELS", "ELS", "FI", "2", "END"] ∧
      Respelled (Token.words line) (Token.words (Instruction.renderLine code)) := by
  intro r line code
  have hread : (r.readLine line).2 = .ok code := by cbv
  exact ⟨hread, by cbv, respelled_words_renderLine (Prod.ext rfl hread)⟩

end Reader

end StackLang
