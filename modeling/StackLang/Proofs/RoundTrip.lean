import StackLang.Proofs.Words
import StackLang.Proofs.Grammar.Completeness
import Mathlib

/-!
# Rendered code reads back

Code that was read from a line can be rendered and read again. The rendered words need not be
the words of the line: numbers become canonical, and an `ELS` in front of its `FI` is dropped.
But they derive the same code in the same place, `Items.rendered` and `Line.rendered`, and the
line they make has just these words, since no word of a line holds a blank, `words_renderLine`.
With the grammar on both sides, reading the rendered line gives the same code and the same
dictionary.
-/

set_option autoImplicit false

namespace StackLang

open Text (intDigits intText isBlank)

namespace Grammar

open Instruction (elseWords wordsOfCode)

/-- What writes a number in digits is digits. -/
theorem Digits.isDigit_of_mem {ds : List Char} {n : Nat} (h : Digits ds n) :
    ∀ c ∈ ds, c.isDigit := by
  induction h with
  | one hc => simpa using hc
  | more _ hc ih =>
    intro c hmem
    rcases List.mem_append.1 hmem with hmem | hmem
    · exact ih c hmem
    · obtain rfl := List.mem_singleton.1 hmem
      exact hc

/-- No digit is blank. -/
theorem isBlank_of_isDigit {c : Char} (h : c.isDigit) : isBlank c = false := by
  have hrange : 48 ≤ c.toNat ∧ c.toNat ≤ 57 := by
    simpa [Char.isDigit, UInt32.le_iff_toNat_le] using h
  obtain ⟨hlow, hhigh⟩ := hrange
  simp only [isBlank, Text.blankRanges, List.any_cons, List.any_nil, Bool.or_false,
    Bool.or_eq_false_iff, Bool.and_eq_false_iff, decide_eq_false_iff_not]
  omega

/-- A literal is a word. -/
theorem Literal.isWord {word : String} {z : Int} (h : Literal word.toList z) :
    Token.IsWord word := by
  have hchars : word.toList ≠ [] ∧ ∀ c ∈ word.toList, isBlank c = false := by
    generalize word.toList = cs at h
    cases h with
    | unsigned hds =>
      constructor
      · cases hds <;> simp
      · intro c hc
        exact isBlank_of_isDigit (hds.isDigit_of_mem c hc)
    | signed hds =>
      refine ⟨by simp, fun c hc => ?_⟩
      rcases List.mem_cons.1 hc with rfl | hc
      · decide
      · exact isBlank_of_isDigit (hds.isDigit_of_mem c hc)
  exact ⟨by simpa using hchars.1, hchars.2⟩

/-- An opcode is a word. -/
theorem Opcode.isWord {word : String} {i : Instruction} (h : Opcode word i) :
    Token.IsWord word := by
  cases h with
  | binary op => cases op <;> decide
  | unary op => cases op <;> decide
  | _ => decide

/-- An opcode is written as itself. -/
theorem Opcode.words_eq {word : String} {i : Instruction} (h : Opcode word i) :
    i.words = [word] := by
  cases h <;> simp [Instruction.words, Instruction.mnemonic]

/-- The text of a value is a literal with this value. -/
theorem literal_intText (v : Int32) : Literal (intText v.toInt).toList v.toInt := by
  rw [literal_iff, intText, String.toList_ofList]
  exact Text.readLiteral?_intDigits _

/-- An instruction of one fixed meaning is rendered as one word, which has this meaning. -/
theorem Atom.rendered {word : String} {i : Instruction} (h : Atom word i) :
    ∃ written, i.words = [written] ∧ Atom written i ∧ Token.IsWord written := by
  cases h with
  | @number v h =>
    have hliteral := literal_intText v
    refine ⟨intText v.toInt, ?_, .number hliteral, hliteral.isWord⟩
    simp [Instruction.words, Instruction.mnemonic]
  | opcode h => exact ⟨word, h.words_eq, .opcode h, h.isWord⟩

/-- A second branch that is not empty is written after `ELS`. -/
theorem elseWords_of_ne_nil {ws : List String} (h : ws ≠ []) : elseWords ws = "ELS" :: ws := by
  cases ws with
  | nil => exact absurd rfl h
  | cons word ws => rfl

/-- No instruction is written without words. -/
theorem wordsOfCode_cons_ne_nil (i : Instruction) (code : Code) :
    wordsOfCode (i :: code) ≠ [] := by
  rw [wordsOfCode]
  simp [Instruction.words_ne_nil]

/-- The rendered words of a block derive the same code in the same block. -/
theorem Items.rendered {callable : String → Prop} {block : Block} {ws : List String}
    {code : Code} (h : Items callable block ws code) :
    Items callable block (wordsOfCode code) code := by
  induction h with
  | nil => exact .nil
  | item h _ ih =>
    rw [wordsOfCode]
    cases h with
    | atom h =>
      obtain ⟨written, hwritten, hatom, -⟩ := h.rendered
      rw [hwritten]
      exact .item (.atom hatom) ih
    | call htaken hif hdef hends hcall =>
      exact .item (.call htaken hif hdef hends hcall) ih
  | @branch block ns ws nonzero code _ _ ihn ih =>
    have hbranch := Items.branch ihn ih
    simpa [wordsOfCode, Instruction.words, elseWords] using hbranch
  | @branchElse block ns zs ws nonzero zero code _ _ _ ihn ihz ih =>
    cases zero with
    | nil =>
      -- the second branch was empty, and its `ELS` is not written
      have hbranch := Items.branch ihn ih
      simpa [wordsOfCode, Instruction.words, elseWords] using hbranch
    | cons i zero =>
      have hbranch := Items.branchElse ihn ihz ih
      have helse := elseWords_of_ne_nil (wordsOfCode_cons_ne_nil i zero)
      rw [wordsOfCode, Instruction.words, helse]
      simpa using hbranch

/-- A line is a derivation of the words that its code is written in. -/
theorem Line.rendered {functions final : Dictionary} {ws : List String} {code : Code}
    (h : Line functions ws code final) : Line functions (wordsOfCode code) code final := by
  induction h with
  | nil => exact .nil
  | atom h _ ih =>
    obtain ⟨written, hwritten, hatom, -⟩ := h.rendered
    rw [wordsOfCode, hwritten]
    exact .atom hatom ih
  | call htaken hdef hcall _ ih =>
    rw [wordsOfCode]
    exact .call htaken hdef hcall ih
  | define hbody _ ih =>
    have hdefine := Line.define hbody.rendered ih
    simpa [wordsOfCode, Instruction.words] using hdefine

/-- The words of blocks are words. -/
theorem isWord_of_mem {word : String} (h : word ∈ ["DEF", "END", "IF", "ELS", "FI"]) :
    Token.IsWord word := by
  simp only [List.mem_cons, List.not_mem_nil, or_false] at h
  rcases h with rfl | rfl | rfl | rfl | rfl <;> decide

/-- An item is written in words if it was read from a word. -/
theorem Item.isWord_words {callable : String → Prop} {block : Block} {word : String}
    {i : Instruction} (h : Item callable block word i) (hword : Token.IsWord word) :
    ∀ w ∈ i.words, Token.IsWord w := by
  cases h with
  | atom h =>
    obtain ⟨written, hwritten, -, hisWord⟩ := h.rendered
    rw [hwritten]
    exact List.forall_mem_singleton.2 hisWord
  | call => exact List.forall_mem_singleton.2 hword

/-- A second branch is written in words if its code is. -/
theorem isWord_elseWords {ws : List String} (h : ∀ w ∈ ws, Token.IsWord w) :
    ∀ w ∈ elseWords ws, Token.IsWord w := by
  cases ws with
  | nil => simp [elseWords]
  | cons word ws => exact List.forall_mem_cons.2 ⟨isWord_of_mem (by simp), h⟩

/-- A conditional is written in words if its branches are. -/
theorem isWord_words_branch {nonzero zero : Code} (hn : ∀ w ∈ wordsOfCode nonzero, Token.IsWord w)
    (hz : ∀ w ∈ wordsOfCode zero, Token.IsWord w) :
    ∀ w ∈ (Instruction.branch nonzero zero).words, Token.IsWord w := by
  rw [Instruction.words]
  refine List.forall_mem_cons.2 ⟨isWord_of_mem (by simp), ?_⟩
  refine List.forall_mem_append.2 ⟨hn, ?_⟩
  refine List.forall_mem_append.2 ⟨isWord_elseWords hz, ?_⟩
  exact List.forall_mem_singleton.2 (isWord_of_mem (by simp))

/-- Rendering keeps to words: what it does not bring in itself was a word of the block. -/
theorem Items.isWord_wordsOfCode {callable : String → Prop} {block : Block} {ws : List String}
    {code : Code} (h : Items callable block ws code) (hws : ∀ w ∈ ws, Token.IsWord w) :
    ∀ w ∈ wordsOfCode code, Token.IsWord w := by
  induction h with
  | nil => simp [wordsOfCode]
  | item h _ ih =>
    obtain ⟨hword, hws⟩ := List.forall_mem_cons.1 hws
    rw [wordsOfCode]
    exact List.forall_mem_append.2 ⟨h.isWord_words hword, ih hws⟩
  | branch _ _ ihn ih =>
    obtain ⟨hns, hws⟩ := List.forall_mem_append.1 (List.forall_mem_cons.1 hws).2
    have hempty : ∀ w ∈ wordsOfCode [], Token.IsWord w := by simp [wordsOfCode]
    have hbranch := isWord_words_branch (ihn hns) hempty
    rw [wordsOfCode]
    exact List.forall_mem_append.2 ⟨hbranch, ih (List.forall_mem_cons.1 hws).2⟩
  | branchElse _ _ _ ihn ihz ih =>
    obtain ⟨hns, hws⟩ := List.forall_mem_append.1 (List.forall_mem_cons.1 hws).2
    obtain ⟨hzs, hws⟩ := List.forall_mem_append.1 (List.forall_mem_cons.1 hws).2
    have hbranch := isWord_words_branch (ihn hns) (ihz hzs)
    rw [wordsOfCode]
    exact List.forall_mem_append.2 ⟨hbranch, ih (List.forall_mem_cons.1 hws).2⟩

/-- A line that was read from words is written in words. -/
theorem Line.isWord_wordsOfCode {functions final : Dictionary} {ws : List String} {code : Code}
    (h : Line functions ws code final) (hws : ∀ w ∈ ws, Token.IsWord w) :
    ∀ w ∈ wordsOfCode code, Token.IsWord w := by
  induction h with
  | nil => simp [wordsOfCode]
  | atom h _ ih =>
    obtain ⟨written, hwritten, -, hisWord⟩ := h.rendered
    rw [wordsOfCode, hwritten]
    exact List.forall_mem_cons.2 ⟨hisWord, ih (List.forall_mem_cons.1 hws).2⟩
  | call _ _ _ _ ih =>
    obtain ⟨hword, hws⟩ := List.forall_mem_cons.1 hws
    rw [wordsOfCode]
    exact List.forall_mem_cons.2 ⟨hword, ih hws⟩
  | define hbody _ ih =>
    obtain ⟨hname, hws⟩ := List.forall_mem_cons.1 (List.forall_mem_cons.1 hws).2
    obtain ⟨hbs, hws⟩ := List.forall_mem_append.1 hws
    rw [wordsOfCode, Instruction.words]
    refine List.forall_mem_append.2 ⟨?_, ih (List.forall_mem_cons.1 hws).2⟩
    refine List.forall_mem_cons.2 ⟨isWord_of_mem (by simp), ?_⟩
    refine List.forall_mem_cons.2 ⟨hname, ?_⟩
    refine List.forall_mem_append.2 ⟨hbody.isWord_wordsOfCode hbs, ?_⟩
    exact List.forall_mem_singleton.2 (isWord_of_mem (by simp))

end Grammar

namespace Reader

open Grammar Instruction

/-- The line that code is rendered to has the words of the code. -/
theorem words_renderLine {functions final : Dictionary} {line : String} {code : Code}
    (h : Line functions (Token.words line) code final) :
    Token.words (renderLine code) = wordsOfCode code :=
  Token.words_intercalate (h.isWord_wordsOfCode fun _ hw => Token.isWord_of_mem_words hw)

/-- **Rendered code reads back.** If a reader in any state reads a line as some code, then every
reader with the functions that it had before the line reads the rendered code as the same code,
and has the same functions afterwards. -/
theorem readLine_renderLine {r after other : Reader} {line : String} {code : Code}
    (hread : r.readLine line = (after, .ok code)) (hother : other.functions = r.functions) :
    (other.readLine (renderLine code)).2 = .ok code ∧
      (other.readLine (renderLine code)).1.functions = after.functions := by
  have hfirst : (r.readLine line).2 = .ok code ∧ (r.readLine line).1.functions = after.functions := by
    rw [hread]
    exact ⟨rfl, rfl⟩
  have hline : Line r.functions (Token.words line) code after.functions :=
    readTokens_eq_ok_iff.1 (readLine_ok_iff_readTokens.1 hfirst)
  have hrendered : Line other.functions (Token.words (renderLine code)) code after.functions := by
    rw [words_renderLine hline, hother]
    exact hline.rendered
  exact readLine_ok_iff_readTokens.2 (readTokens_eq_ok_iff.2 hrendered)

/-- Block words that are names as well, two literals that are not canonical, and an `ELS` that is
not kept. -/
theorem readLine_renderLine_blockWords :
    let r : Reader := (({} : Reader).readLine "DEF ELS 7 END").1
    let line := "DEF END IF 007 ELS ELS FI IF -0 ELS FI END END"
    let body : Code := [.branch [.number 7] [.call "ELS"], .branch [.number 0] []]
    let code : Code := [.define "END" body, .call "END"]
    let after : Reader := { functions := r.functions.insert "END" body, linesRead := 2 }
    r.readLine line = (after, .ok code) ∧
      renderLine code = "DEF END IF 7 ELS ELS FI IF 0 FI END END" ∧
      (r.readLine (renderLine code)).2 = .ok code ∧
      (r.readLine (renderLine code)).1.functions = after.functions :=
  ⟨by cbv, by cbv,
    @readLine_renderLine _ _ _ "DEF END IF 007 ELS ELS FI IF -0 ELS FI END END" _ (by cbv) rfl⟩

end Reader

end StackLang
