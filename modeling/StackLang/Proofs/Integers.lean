import StackLang.Proofs.Diagnostics
import StackLang.Proofs.Output
import StackLang.Proofs.Prefixes
import Mathlib

/-!
# Integers are exact or refused

Three readers of integers meet their rules. A token that is read as an item is a number exactly if it
is a literal of a stack value, whatever the number of its digits, and it is refused as a number
exactly if it is a literal of any other value: `decodesLiteral`. Both follow from what the reader
does with a word whose meaning does not depend on its place (`LineState.step_of_plain?`), and from
what it does not do with any other (`step_ne_put_number`, `step_ne_invalidNumber`). The count of a
program and the variables of the environment are counters, within the bounds of their types:
`decodesCount` and `decodesSettings`.
-/

set_option autoImplicit false

namespace StackLang

open Grammar Text

/-- The integers that a stack value can be. -/
def FitsCell (z : Int) : Prop := -2 ^ 31 ≤ z ∧ z ≤ 2 ^ 31 - 1

/-- What a token must be to be read as a number, or refused as one. -/
structure DecodesLiteral (t : Token) (reads : Int32 → Prop) (refuses : Token → Prop) : Prop where
  /-- It is a number exactly if it is a literal of a stack value, and then it is this value. -/
  accepted (z : Int) : (∃ v : Int32, v.toInt = z ∧ reads v) ↔
    Literal t.text.toList z ∧ FitsCell z
  /-- It is refused as a number, and no other token is, exactly if it is a literal of another
  value. -/
  refused (u : Token) : refuses u ↔ u = t ∧ ∃ z, Literal t.text.toList z ∧ ¬ FitsCell z

section Tokens

variable {t u : Token} {v : Int32} {z : Int}

/-- Every stack value fits. -/
theorem fitsCell_toInt (v : Int32) : FitsCell v.toInt :=
  ⟨Int32.minValue_le_toInt v, Int32.toInt_le v⟩

/-- What fits is a stack value. -/
theorem FitsCell.exists_toInt (h : FitsCell z) : ∃ v : Int32, v.toInt = z :=
  ⟨.ofInt z, Int32.toInt_ofInt_of_le h.1 (Int.lt_add_one_of_le h.2)⟩

/-- No opcode is a number. -/
theorem not_opcode_number (word : String) (v : Int32) : ¬ Opcode word (.number v) := by
  intro h
  generalize hi : Instruction.number v = i at h
  cases h <;> simp at hi

/-- A word is a number by itself exactly if it is a literal of its value. -/
theorem plain?_eq_number_iff :
    t.plain? = some (.ok (.number v)) ↔ Literal t.text.toList v.toInt := by
  rw [plain?_eq_ok_iff]
  refine ⟨fun h => ?_, .number⟩
  cases h with
  | number h => exact h
  | opcode h => exact absurd h (not_opcode_number _ v)

/-- A word is refused as a number exactly if it is a literal of no stack value. -/
theorem plain?_eq_invalidNumber_iff :
    t.plain? = some (.error (.invalidNumber u)) ↔
      u = t ∧ ∃ z, Literal t.text.toList z ∧ ¬ FitsCell z := by
  unfold Token.plain?
  simp only [literal_iff]
  cases readLiteral? t.text.toList with
  | none => simp
  | some value =>
    by_cases hfits : FitsCell value
    · have hrange : Int32.minValue.toInt ≤ value ∧ value ≤ Int32.maxValue.toInt := hfits
      simp only [if_pos hrange, Option.some.injEq, exists_eq_left', hfits, not_true_eq_false,
        and_false]
      simp
    · have hrange : ¬ (Int32.minValue.toInt ≤ value ∧ value ≤ Int32.maxValue.toInt) := hfits
      simp only [if_neg hrange, Option.some.injEq, Except.error.injEq,
        SyntaxFault.invalidNumber.injEq, exists_eq_left', hfits, not_false_eq_true, and_true]
      exact eq_comm

/-- What a reader reads and refuses meets the rule if it reads and refuses what a word means by
itself. -/
theorem decodesLiteral_of_iff {reads : Int32 → Prop} {refuses : Token → Prop}
    (hreads : ∀ v, reads v ↔ t.plain? = some (.ok (.number v)))
    (hrefuses : ∀ u, refuses u ↔ t.plain? = some (.error (.invalidNumber u))) :
    DecodesLiteral t reads refuses where
  accepted z := by
    constructor
    · rintro ⟨v, rfl, hv⟩
      exact ⟨plain?_eq_number_iff.1 ((hreads v).1 hv), fitsCell_toInt v⟩
    · rintro ⟨hliteral, hfits⟩
      obtain ⟨v, rfl⟩ := hfits.exists_toInt
      exact ⟨v, rfl, (hreads v).2 (plain?_eq_number_iff.2 hliteral)⟩
  refused u := (hrefuses u).trans plain?_eq_invalidNumber_iff

end Tokens

namespace OpenDefinition

variable {functions : Dictionary} {d : OpenDefinition} {t u : Token} {i j : Instruction}

/-- An open definition shows which instruction was added to it. -/
theorem add_injective (h : d.add i = d.add j) : i = j := by
  unfold add OpenConditional.add at h
  split at h
  · simpa using h
  · split at h
    · simpa using h
    · simpa using h

/-- A word is refused as a number only for what it means by itself. -/
theorem readItem_ne_invalidNumber (h : t.plain? = none) :
    d.readItem functions t ≠ .error (.invalidNumber u) := by
  unfold readItem
  simp only [h]
  split_ifs <;> simp

/-- Whatever place a word is read in, it is refused as a number only for what it means by itself. -/
theorem step_ne_invalidNumber (h : t.plain? = none) :
    d.step functions t ≠ .error (.invalidNumber u) := by
  unfold step
  split
  · exact readItem_ne_invalidNumber h
  · split_ifs
    · simp
    · simp
    · exact readItem_ne_invalidNumber h

end OpenDefinition

namespace LineState

variable {s : LineState} {t u : Token} {i j : Instruction}

/-- The next word is an item or ends a block, and not the name of a function that is defined. -/
def ReadsItems (s : LineState) : Prop := ∀ column, s.place ≠ .name column

/-- Adds a finished instruction to what is being read. -/
def put (s : LineState) (i : Instruction) : LineState :=
  match s.place with
  | .topLevel | .name _ => s.add i
  | .definition d => { s with place := .definition (d.add i) }

/-- What is being read shows which instruction was added to it. -/
theorem put_injective (h : s.put i = s.put j) : i = j := by
  unfold put at h
  split at h
  · simpa [add] using h
  · simpa [add] using h
  · exact OpenDefinition.add_injective (by simpa using h)

/-- A word that means the same everywhere is read for what it means. -/
theorem step_of_plain? (hs : s.ReadsItems) {read : Except SyntaxFault Instruction}
    (h : t.plain? = some read) : s.step t = read.map s.put := by
  cases hplace : s.place with
  | topLevel =>
    unfold step readItem
    cases read <;> simp [hplace, h, put, Except.map]
  | name column => exact absurd hplace (hs column)
  | definition d =>
    have hends : t.text ∉ d.block.ends := by
      intro hmem
      rw [plain?_eq_none_iff.2 (not_taken_of_mem_ends hmem)] at h
      simp at h
    rw [step_eq_map_readItem hplace hends]
    unfold OpenDefinition.readItem
    cases read <;> simp [h, hplace, put, Except.map]

/-- No other word is refused as a number. -/
theorem step_ne_invalidNumber (h : t.plain? = none) :
    s.step t ≠ .error (.invalidNumber u) := by
  unfold step
  split
  · unfold readItem
    simp only [h]
    split_ifs <;> simp
  · simp
  · rename_i d hplace
    split_ifs
    · simp
    · cases hstep : d.step s.functions t with
      | ok next => simp [Except.map]
      | error fault =>
        have hfault := @OpenDefinition.step_ne_invalidNumber s.functions d t u h
        rw [hstep] at hfault
        simpa [Except.map] using hfault

/-- And no other word adds a number. -/
theorem step_ne_put_number (hs : s.ReadsItems) (h : t.plain? = none) (v : Int32) :
    s.step t ≠ .ok (s.put (.number v)) := by
  intro hstep
  have hatom {i : Instruction} (hi : Atom t.text i) : False := by
    simp [plain?_eq_ok_iff.2 hi] at h
  -- what is open stays as deep as it is when a number is added
  have hdepth {d next : OpenDefinition} (hplace : s.place = .definition d)
      (hnext : { s with place := .definition next } = s.put (.number v)) :
      next = d.add (.number v) := by simpa [put, hplace] using hnext
  generalize hnext : s.put (.number v) = next at hstep
  cases step_eq_ok_iff.1 hstep with
  | atom _ hi => exact hatom hi
  | call hplace =>
    have hput : s.add (.call t.text) = s.put (.call t.text) := by simp [put, hplace]
    rw [hput] at hnext
    exact absurd (put_injective hnext) (by simp)
  | define hplace => simp [put, hplace, add] at hnext
  | name hplace => exact hs _ hplace
  | @item d i hplace hitem =>
    obtain rfl := OpenDefinition.add_injective (hdepth hplace hnext.symm)
    cases hitem with
    | atom hi => exact hatom hi
  | @enter d hplace =>
    have hlength := congrArg (·.conditionals.length) (hdepth hplace hnext.symm)
    simp [OpenDefinition.enter, OpenDefinition.length_conditionals_add] at hlength
  | @switch d c cs hplace _ hc hzero =>
    have hsame := hdepth hplace hnext.symm
    simp [OpenDefinition.add, hc, OpenConditional.add, hzero, OpenConditional.switch] at hsame
  | @leave d c cs hplace _ hc =>
    have hlength := congrArg (·.conditionals.length) (hdepth hplace hnext.symm)
    simp [OpenDefinition.length_conditionals_add, hc] at hlength
  | close hplace => simp [put, hplace, close] at hnext

/-- A number is added exactly for a word that means it by itself. -/
theorem step_eq_put_number_iff (hs : s.ReadsItems) {v : Int32} :
    s.step t = .ok (s.put (.number v)) ↔ t.plain? = some (.ok (.number v)) := by
  refine ⟨fun h => ?_, step_of_plain? hs⟩
  cases hplain : t.plain? with
  | none => exact absurd h (step_ne_put_number hs hplain v)
  | some read =>
    rw [step_of_plain? hs hplain] at h
    cases read with
    | error fault => simp [Except.map] at h
    | ok i =>
      obtain rfl := put_injective (Except.ok.inj h)
      rfl

/-- A word is refused as a number exactly if it is refused by itself. -/
theorem step_eq_invalidNumber_iff (hs : s.ReadsItems) :
    s.step t = .error (.invalidNumber u) ↔ t.plain? = some (.error (.invalidNumber u)) := by
  refine ⟨fun h => ?_, step_of_plain? hs⟩
  cases hplain : t.plain? with
  | none => exact absurd h (step_ne_invalidNumber hplain)
  | some read =>
    rw [step_of_plain? hs hplain] at h
    cases read with
    | error fault =>
      obtain rfl : fault = .invalidNumber u := by simpa [Except.map] using h
      rfl
    | ok i => simp [Except.map] at h

end LineState

namespace Session

open Token (StartsWith)

/-- What the first word of a program must be to be read as its count. -/
structure DecodesCount (program rest : List (List UInt8)) (word : String) : Prop where
  /-- It is the count exactly if it is a counter of 64 bits. -/
  accepted (n : Nat) : readCount program = .ok (n, rest) ↔ Counter word.toList n ∧ n < 2 ^ 64
  refused : readCount program = .error (.invalidCount word) ↔
    ∀ n, Counter word.toList n → ¬ n < 2 ^ 64

/-- The first word that is not blank is read by the rule for counts. -/
theorem decodesCount {blanks rest : List (List UInt8)} {line : List UInt8} {text word : String}
    (hblanks : ∀ l ∈ blanks, IsBlank l) (hline : decode? line = some text)
    (hword : StartsWith text word) : DecodesCount (blanks ++ line :: rest) rest word := by
  have hread := readCount_blanks_append hblanks (line :: rest)
  rw [readCount_word hline hword] at hread
  have hcounter (n : Nat) := @readCounter_eq_ok_iff UInt64.size n (by decide) word.toList
  have hsize : UInt64.size = 2 ^ 64 := rfl
  simp only [hsize] at hcounter hread
  refine ⟨fun n => ?_, ?_⟩
  · rw [hread, ← hcounter]
    cases readCounter (2 ^ 64) word.toList <;> simp [Except.map, Except.mapError]
  · simp only [hread, ← not_and, ← hcounter]
    cases readCounter (2 ^ 64) word.toList <;> simp [Except.map, Except.mapError]

end Session

namespace Text

/-- Reading a counter from some digit on refuses nothing for being empty. -/
theorem readCounterFrom_ne_empty (size n : Nat) (cs : List Char) :
    readCounterFrom size n cs ≠ .error .empty := by
  induction cs generalizing n with
  | nil => simp [readCounterFrom]
  | cons c cs ih =>
    unfold readCounterFrom
    simp only
    split_ifs
    · exact ih _
    · simp
    · simp

/-- Only the empty text is refused for being empty. -/
theorem readCounter_eq_empty_iff {size : Nat} {cs : List Char} :
    readCounter size cs = .error .empty ↔ cs = [] := by
  unfold readCounter
  split
  · simp
  · simp
  · simp [readCounterFrom_ne_empty]
  · rename_i hne _ _
    exact iff_of_false (readCounterFrom_ne_empty size 0 cs) hne

end Text

namespace CommandLine

namespace Settings

/-- A variable gives the number that it holds, if this is a counter below a size. -/
def Gives (size : Nat) (value : Option String) (n : Nat) : Prop :=
  ∃ word, value = some word ∧ Counter word.toList n ∧ n < size

/-- A variable that gives a number, or counts as not set. -/
def Sound (size : Nat) (value : Option String) : Prop :=
  ∀ word, value = some word → word = "" ∨ ∃ n, Gives size value n

/-- A variable is warned of unless it is sound. -/
theorem readVariable_silent_iff {size : Nat} (hsize : 0 < size) {key : String}
    {value : Option String} : (readVariable size key value).2 = [] ↔ Sound size value := by
  have hgives (n : Nat) := @readVariable_eq_some_iff size n hsize key value
  unfold Sound Gives
  simp only [← hgives]
  cases value with
  | none => simp [readVariable]
  | some word =>
    have hempty := @readCounter_eq_empty_iff size word.toList
    rw [String.toList_eq_nil_iff] at hempty
    cases hread : readCounter size word.toList with
    | ok n => simp [readVariable, hread]
    | error fault =>
      rw [hread, Except.error.injEq] at hempty
      cases fault <;> simp [readVariable, hread, ← hempty]

end Settings

open Settings (Gives Sound)

/-- What the variables of an environment must hold to be accepted. -/
structure DecodesSettings (environment : String → Option String) (settings : Settings)
    (warnings : List String) : Prop where
  /-- The verbosity is the number of 8 bits that its variable gives. -/
  verbosity (n : Nat) (h : Gives (2 ^ 8) (environment verbosityVariable) n) :
    settings.verbosity.toNat = n
  /-- It is zero without one. -/
  quiet (h : ∀ n, ¬ Gives (2 ^ 8) (environment verbosityVariable) n) : settings.verbosity = 0
  /-- The limit of open calls is the number of 64 bits that its variable gives, if it does. -/
  maxDepth (n : Nat) : settings.maxDepth.map UInt64.toNat = some n ↔
    Gives (2 ^ 64) (environment maxDepthVariable) n
  /-- A variable that is refused is warned of. -/
  warned : warnings = [] ↔ Sound (2 ^ 8) (environment verbosityVariable) ∧
    Sound (2 ^ 64) (environment maxDepthVariable)

/-- The variables of every environment are read by the rule for settings. -/
theorem decodesSettings (environment : String → Option String) :
    DecodesSettings environment (Settings.ofEnvironment environment).1
      (Settings.ofEnvironment environment).2 := by
  let verbosity := Settings.readVariable UInt8.size verbosityVariable
    (environment verbosityVariable)
  let depth := Settings.readVariable UInt64.size maxDepthVariable (environment maxDepthVariable)
  have hverbosity (n : Nat) :
      verbosity.1 = some n ↔ Gives (2 ^ 8) (environment verbosityVariable) n :=
    readVariable_eq_some_iff (by decide)
  have hdepth (n : Nat) : depth.1 = some n ↔ Gives (2 ^ 64) (environment maxDepthVariable) n :=
    readVariable_eq_some_iff (by decide)
  have hsettings : (Settings.ofEnvironment environment).1 =
      { verbosity := .ofNat (verbosity.1.getD 0), maxDepth := depth.1.map .ofNat } := rfl
  have hwarnings : (Settings.ofEnvironment environment).2 = verbosity.2 ++ depth.2 := rfl
  rw [hsettings, hwarnings]
  refine ⟨fun n h => ?_, fun h => ?_, fun n => ?_, ?_⟩
  · have hvalue := (hverbosity n).2 h
    obtain ⟨-, -, -, hfits⟩ := h
    simp only [hvalue, Option.getD_some]
    exact UInt8.toNat_ofNat_of_lt' hfits
  · have hnone : verbosity.1 = none :=
      Option.eq_none_iff_forall_ne_some.2 fun n hn => h n ((hverbosity n).1 hn)
    simp only [hnone, Option.getD_none]
    rfl
  · rw [← hdepth]
    cases hvalue : depth.1 with
    | none => simp
    | some m =>
      obtain ⟨-, -, -, hfits⟩ := (hdepth m).1 hvalue
      rw [Option.map_some, Option.map_some, UInt64.toNat_ofNat_of_lt' hfits]
  · rw [List.append_eq_nil_iff]
    exact and_congr (Settings.readVariable_silent_iff (by decide))
      (Settings.readVariable_silent_iff (by decide))

end CommandLine

open CommandLine Session
open Token (StartsWith)

/-- **Integers are exact or refused.** A token is read as a number exactly if it is a literal of a
32-bit value, with this value, and refused as a number exactly if it is a literal of any other one;
so it is wherever an item is read. The first word of a program is its count exactly if it is a
counter of 64 bits, and the variables of the environment are accepted exactly if they are counters of
8 and 64 bits; each has its exact value. -/
theorem integers_exact_or_refused :
    (∀ t : Token, DecodesLiteral t (fun v => t.plain? = some (.ok (.number v)))
      fun u => t.plain? = some (.error (.invalidNumber u))) ∧
    (∀ s : LineState, s.ReadsItems → ∀ t : Token,
      DecodesLiteral t (fun v => s.step t = .ok (s.put (.number v)))
        fun u => s.step t = .error (.invalidNumber u)) ∧
    (∀ (blanks rest : List (List UInt8)) (line : List UInt8) (text word : String),
      (∀ l ∈ blanks, IsBlank l) → decode? line = some text → StartsWith text word →
      DecodesCount (blanks ++ line :: rest) rest word) ∧
    ∀ environment, DecodesSettings environment (Settings.ofEnvironment environment).1
      (Settings.ofEnvironment environment).2 := by
  refine ⟨fun t => ?_, fun s hs t => ?_, fun _ _ _ _ _ => decodesCount, decodesSettings⟩
  · exact decodesLiteral_of_iff (fun _ => .rfl) fun _ => .rfl
  · exact decodesLiteral_of_iff (fun _ => LineState.step_eq_put_number_iff hs) fun _ =>
      LineState.step_eq_invalidNumber_iff hs

/-- The bounds of the types, and values right behind them; leading zeros, and a sign of the wrong
kind. -/
theorem integers_exact_or_refused_bounds :
    let s : LineState :=
      { functions := .empty
        place := .definition { column := 1, name := "F", conditionals := [{ column := 7 }] } }
    let least : Token := ⟨"-0002147483648", 10⟩
    let large : Token := ⟨"2147483648", 10⟩
    let program := [bytes "\t", bytes " +0018446744073709551615 9", bytes "1"]
    let environment := fun key => if key = verbosityVariable then some "256" else some "+0255"
    let settings := (Settings.ofEnvironment environment).1
    s.ReadsItems ∧ s.step least = .ok (s.put (.number (-2147483648))) ∧
    s.step large = .error (.invalidNumber large) ∧
    (∀ v, s.step ⟨"+5", 10⟩ ≠ .ok (s.put (.number v))) ∧
    readCount program = .ok (18446744073709551615, [bytes "1"]) ∧
    settings.verbosity = 0 ∧ settings.maxDepth.map UInt64.toNat = some 255 := by
  intro s least large program environment settings
  obtain ⟨-, hliterals, hcounts, hsettings⟩ := integers_exact_or_refused
  have hs : s.ReadsItems := by
    intro column
    simp [s]
  refine ⟨hs, ?_, ?_, ?_, ?_, ?_, ?_⟩
  · have hliteral : Literal least.text.toList (-2147483648) := literal_iff.2 (by cbv)
    obtain ⟨v, hv, hstep⟩ := ((hliterals s hs least).accepted _).2 ⟨hliteral, by decide, by decide⟩
    obtain rfl : v = -2147483648 := Int32.toInt_inj.1 hv
    exact hstep
  · have hliteral : Literal large.text.toList 2147483648 := literal_iff.2 (by cbv)
    exact ((hliterals s hs large).refused large).2
      ⟨rfl, _, hliteral, fun h => absurd h.2 (by decide)⟩
  · intro v hstep
    obtain ⟨hliteral, -⟩ := ((hliterals s hs ⟨"+5", 10⟩).accepted v.toInt).1 ⟨v, rfl, hstep⟩
    have hnone : readLiteral? "+5".toList = none := by cbv
    rw [literal_iff, hnone] at hliteral
    simp at hliteral
  · have hblanks : ∀ l ∈ [bytes "\t"], IsBlank l := by
      refine List.forall_mem_singleton.2 ⟨"\t", decode?_eq_some_iff.2 rfl, ?_⟩
      exact Token.words_eq_nil_iff.1 (by cbv)
    have hword : StartsWith " +0018446744073709551615 9" "+0018446744073709551615" :=
      Token.head?_words_eq_some_iff.1 (by cbv)
    have hcounter : readCounter UInt64.size "+0018446744073709551615".toList =
        .ok 18446744073709551615 := by cbv
    exact ((hcounts _ [bytes "1"] _ _ _ hblanks (decode?_eq_some_iff.2 rfl) hword).accepted _).2
      ((readCounter_eq_ok_iff (by decide) _).1 hcounter)
  · have hset : environment verbosityVariable = some "256" := if_pos rfl
    have hlarge : readCounter (2 ^ 8) "256".toList = .error .tooLarge := by cbv
    refine (hsettings environment).quiet ?_
    rintro n ⟨word, hword, hgives⟩
    obtain rfl := Option.some.inj (hset.symm.trans hword)
    have hok := (readCounter_eq_ok_iff (by decide) _).2 hgives
    rw [hlarge] at hok
    simp at hok
  · have hset : environment maxDepthVariable = some "+0255" := if_neg (by decide)
    have hcounter : readCounter (2 ^ 64) "+0255".toList = .ok 255 := by cbv
    exact ((hsettings environment).maxDepth 255).2
      ⟨"+0255", hset, (readCounter_eq_ok_iff (by decide) _).1 hcounter⟩

end StackLang
