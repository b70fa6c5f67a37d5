import StackLang.Proofs.Definitions
import StackLang.Proofs.RoundTrip
import Mathlib

/-!
# Reading with more functions

A reader looks for functions by their names and never looks into their bodies. What may be called
with some functions may be called with more of them, and a name is the last thing a word is taken
for, so new functions give a meaning only to words that had none: what is a line stays a line, and
with the same code, `Line.mono`. Rendered code is a line for the reader that read it, hence a reader
that knows less reads it as the same code if it reads it at all.
-/

set_option autoImplicit false

namespace StackLang

namespace Grammar

section Items

variable {callable other : String → Prop} {block : Block} {word : String} {i : Instruction}
  {ws : List String} {code : Code}

/-- What is an item stays one if more names can be called. -/
theorem Item.mono (h : Item callable block word i) (hmono : ∀ name, callable name → other name) :
    Item other block word i := by
  cases h with
  | atom h => exact .atom h
  | call htaken hif hdef hends hcall => exact .call htaken hif hdef hends (hmono word hcall)

/-- The items of a block stay what they are if more may be called. -/
theorem Items.mono (h : Items callable block ws code)
    (hmono : ∀ name, callable name → other name) : Items other block ws code := by
  induction h with
  | nil => exact .nil
  | item h _ ih => exact .item (h.mono hmono) ih
  | branch _ _ ihn ih => exact .branch ihn ih
  | branchElse _ _ _ ihn ihz ih => exact .branchElse ihn ihz ih

end Items

/-- A name that can be called can be called with more functions. -/
theorem Callable.mono {small large : Dictionary} (h : large.Covers small) {name word : String}
    (hword : Callable small name word) : Callable large name word :=
  hword.imp_right (h word)

/-- A line is a line with more functions, too. Its code is the same, and its definitions are put into
the larger dictionary. -/
theorem Line.mono {small large final : Dictionary} {ws : List String} {code : Code}
    (h : Line small ws code final) (hcovers : large.Covers small) :
    Line large ws code (large.insertAll (definitionsOf code)) := by
  induction h generalizing large with
  | nil => exact .nil
  | atom hi _ ih =>
    have hrest := ih hcovers
    rw [definitionsOf, List.filterMap_cons_none hi.definition?_eq]
    exact .atom hi hrest
  | call htaken hdef hcall _ ih => exact .call htaken hdef (hcovers _ hcall) (ih hcovers)
  | define hbody _ ih =>
    have hlarger := hbody.mono fun _ => Callable.mono hcovers
    exact .define hlarger (ih (hcovers.insert _ _ _))

end Grammar

namespace Reader

open Grammar Instruction

/-- **More functions change no reading.** What a reader reads as some code is read as the same code
by every reader that knows functions of the same names, and maybe others, whatever their bodies are;
and both of them put the definitions of this code into the dictionary that they had. So a reader
that knows less, such as a new one, reads rendered code as this code or finds a fault in it. -/
theorem readLine_of_covers {small large after : Reader}
    (hcovers : large.functions.Covers small.functions) {line : String} {code : Code}
    (hread : small.readLine line = (after, .ok code)) :
    after.functions = small.functions.insertAll (definitionsOf code) ∧
      large.readLine line =
        ({ functions := large.functions.insertAll (definitionsOf code),
           linesRead := large.linesRead + 1 }, .ok code) ∧
      ∀ fresh : Reader, small.functions.Covers fresh.functions → ∀ reread,
        (fresh.readLine (renderLine code)).2 = .ok reread → reread = code := by
  have hline := line_of_readLine hread
  refine ⟨hline.eq_insertAll, readLine_of_line (hline.mono hcovers), ?_⟩
  intro fresh hfresh reread hreread
  -- the reader that knows more reads the rendered code both as `reread` and as `code`
  have hknown := (line_of_readLine (Prod.ext rfl hreread)).mono hfresh
  have hrendered := hline.rendered
  rw [← words_renderLine hline] at hrendered
  have hresult := (readLine_of_line hknown).symm.trans (readLine_of_line hrendered)
  exact Except.ok.inj (congrArg Prod.snd hresult)

/-- A larger reader with another body for the function that is called, and with functions that are
named like block words; and a new reader that reads the rendered code of a line, which calls nothing
but what it defines. -/
theorem readLine_of_covers_blockWords :
    let small : Reader := (({} : Reader).readLine "DEF F 1 END").1
    let large : Reader := (({} : Reader).readLine "DEF F 2 OUT END DEF ELS 3 END DEF END F END").1
    let calling : Code := [.define "G" [.branch [] [.call "F"]], .number 7, .call "G"]
    let closed : Code := [.define "G" [.dup, .branch [] [.number 0], .call "G"], .call "G"]
    large.functions.Covers small.functions ∧
      (small.readLine "DEF G IF ELS F FI END 007 G").2 = .ok calling ∧
      (large.readLine "DEF G IF ELS F FI END 007 G").2 = .ok calling ∧
      (small.readLine "DEF G DUP IF ELS -0 FI G END G").2 = .ok closed ∧
      ∃ reread, (({} : Reader).readLine (renderLine closed)).2 = .ok reread ∧ reread = closed := by
  intro small large calling closed
  have hsmall : small.functions = Dictionary.empty.insert "F" [.number 1] := by cbv
  have hlarge : large.functions.contains "F" = true := by cbv
  have hcovers : large.functions.Covers small.functions := by
    intro name hname
    obtain rfl : name = "F" := by simpa [hsmall] using hname
    exact hlarge
  have hcalling : (small.readLine "DEF G IF ELS F FI END 007 G").2 = .ok calling := by cbv
  have hclosed : (small.readLine "DEF G DUP IF ELS -0 FI G END G").2 = .ok closed := by cbv
  have hagain : (({} : Reader).readLine (renderLine closed)).2 = .ok closed := by cbv
  obtain ⟨-, hlarger, -⟩ := readLine_of_covers hcovers (Prod.ext rfl hcalling)
  obtain ⟨-, -, hfresh⟩ := readLine_of_covers hcovers (Prod.ext rfl hclosed)
  exact ⟨hcovers, hcalling, congrArg Prod.snd hlarger, hclosed, _, hagain,
    hfresh {} (Dictionary.covers_empty _) _ hagain⟩

end Reader

end StackLang
