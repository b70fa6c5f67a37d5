import StackLang.Proofs.Grammar.Atom

/-!
# The grammar of the language

Which sequences of words are lines, and which code they stand for. A word is read by its place:
`END` is an item everywhere but directly in a body, `FI` is none inside a conditional, and
`ELS` is one after the first `ELS` of a conditional; as items they are calls, if a function
has that name. A line also changes the dictionary: each of its definitions is there for the
rest of the line.

Both relations are closed under juxtaposition, `Items.append` and `Line.append`, which is how
a reader that takes one word after the other derives them.
-/

set_option autoImplicit false

namespace StackLang.Grammar

/-- A place for items inside a definition: directly in the body, or in one of the branches of a
conditional. -/
inductive Block where
  | body
  | nonzero
  | zero
deriving DecidableEq

/-- The words that end a block, and so are no items of it. -/
def Block.ends : Block → List String
  | .body => ["END"]
  | .nonzero => ["ELS", "FI"]
  | .zero => ["FI"]

/-- What may be called in the definition of `name`. -/
def Callable (functions : Dictionary) (name word : String) : Prop :=
  word = name ∨ functions.contains word

/-- An item of one word. -/
inductive Item (callable : String → Prop) (block : Block) (word : String) : Instruction → Prop
  | atom {i : Instruction} (h : Atom word i) : Item callable block word i
  | call (htaken : ¬ Taken word) (hif : word ≠ "IF") (hdef : word ≠ "DEF")
      (hends : word ∉ block.ends) (hcall : callable word) : Item callable block word (.call word)

/-- The items of a block. -/
inductive Items (callable : String → Prop) : Block → List String → Code → Prop
  | nil {block : Block} : Items callable block [] []
  | item {block : Block} {word : String} {i : Instruction} {ws : List String} {code : Code}
      (h : Item callable block word i) (rest : Items callable block ws code) :
      Items callable block (word :: ws) (i :: code)
  /-- `IF` and `FI` with one branch between them. -/
  | branch {block : Block} {ns ws : List String} {nonzero code : Code}
      (hn : Items callable .nonzero ns nonzero) (rest : Items callable block ws code) :
      Items callable block ("IF" :: (ns ++ "FI" :: ws)) (.branch nonzero [] :: code)
  /-- `IF`, `ELS` and `FI` with two branches between them. -/
  | branchElse {block : Block} {ns zs ws : List String} {nonzero zero code : Code}
      (hn : Items callable .nonzero ns nonzero) (hz : Items callable .zero zs zero)
      (rest : Items callable block ws code) :
      Items callable block ("IF" :: (ns ++ "ELS" :: (zs ++ "FI" :: ws)))
        (.branch nonzero zero :: code)

/-- A line read with the functions of a dictionary, its code, and the dictionary after it. -/
inductive Line : Dictionary → List String → Code → Dictionary → Prop
  | nil {functions : Dictionary} : Line functions [] [] functions
  | atom {functions final : Dictionary} {word : String} {i : Instruction} {ws : List String}
      {code : Code} (h : Atom word i) (rest : Line functions ws code final) :
      Line functions (word :: ws) (i :: code) final
  | call {functions final : Dictionary} {word : String} {ws : List String} {code : Code}
      (htaken : ¬ Taken word) (hdef : word ≠ "DEF") (hcall : functions.contains word)
      (rest : Line functions ws code final) :
      Line functions (word :: ws) (.call word :: code) final
  | define {functions final : Dictionary} {name : String} {bs ws : List String} {body code : Code}
      (hbody : Items (Callable functions name) .body bs body)
      (rest : Line (functions.insert name body) ws code final) :
      Line functions ("DEF" :: name :: (bs ++ "END" :: ws)) (.define name body :: code) final

/-- Items after items are items. -/
theorem Items.append {callable : String → Prop} {block : Block} {ws vs : List String}
    {code tail : Code} (h : Items callable block ws code) (ht : Items callable block vs tail) :
    Items callable block (ws ++ vs) (code ++ tail) := by
  induction h with
  | nil => exact ht
  | item h _ ih => exact .item h (ih ht)
  | branch hn _ _ ih =>
    have hjoin := Items.branch hn (ih ht)
    simpa only [List.cons_append, List.append_assoc] using hjoin
  | branchElse hn hz _ _ _ ih =>
    have hjoin := Items.branchElse hn hz (ih ht)
    simpa only [List.cons_append, List.append_assoc] using hjoin

/-- A line after a line is a line, if it starts from the functions that the first one has left. -/
theorem Line.append {functions middle final : Dictionary} {ws vs : List String}
    {code tail : Code} (h : Line functions ws code middle) (ht : Line middle vs tail final) :
    Line functions (ws ++ vs) (code ++ tail) final := by
  induction h with
  | nil => exact ht
  | atom h _ ih => exact .atom h (ih ht)
  | call htaken hdef hcall _ ih => exact .call htaken hdef hcall (ih ht)
  | define hbody _ ih =>
    have hjoin := Line.define hbody (ih ht)
    simpa only [List.cons_append, List.append_assoc] using hjoin

end StackLang.Grammar
