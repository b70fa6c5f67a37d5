import StackLang.Proofs.RoundTrip

/-!
# Which code lines stand for

Not every tree of instructions can be read from a line. A call needs a name that is one word and
means nothing else where it stands, a function must be known where it is called, conditionals
stand inside definitions and definitions do not. `WellFormed` says this about code alone, without
a line or a reader, for readers that know the functions of given names. It is exactly what can be
read: a derivation of the grammar yields well-formed code, `Line.wellFormed`, and well-formed
code has words that derive it, `exists_line_of_wellFormed`.
-/

set_option autoImplicit false

namespace StackLang

open Grammar Token

/-- A word that is read as a call in some place, if it names a function: neither a literal, of any
size, nor an opcode, nor `DEF`. -/
structure IsCallName (name : String) : Prop where
  isWord : IsWord name
  not_taken : ¬ Taken name
  ne_def : name ≠ "DEF"

mutual
/-- Whether an instruction can stand in a block, where functions of known names may be called. -/
def Instruction.Fits (known : String → Prop) (block : Block) : Instruction → Prop
  | .call name => IsCallName name ∧ name ≠ "IF" ∧ name ∉ block.ends ∧ known name
  | .define _ _ => False
  | .branch nonzero zero => CodeFits known .nonzero nonzero ∧ CodeFits known .zero zero
  | _ => True
/-- Whether all instructions of a sequence can stand in a block. -/
def CodeFits (known : String → Prop) (block : Block) : Code → Prop
  | [] => True
  | i :: is => i.Fits known block ∧ CodeFits known block is
end

/-- Code that can be the code of a line, where functions of known names may be called. A
definition makes its name known, in its own body and to the code after it. -/
def WellFormed (known : String → Prop) : Code → Prop
  | [] => True
  | .call name :: rest => IsCallName name ∧ known name ∧ WellFormed known rest
  | .define name body :: rest =>
    IsWord name ∧ CodeFits (fun word => word = name ∨ known word) .body body ∧
      WellFormed (fun word => word = name ∨ known word) rest
  | .branch _ _ :: _ => False
  | _ :: rest => WellFormed known rest

section Decidable

instance (word : String) : Decidable (Taken word) :=
  decidable_of_iff ((⟨word, 1⟩ : Token).plain? ≠ none) (by rw [ne_eq, plain?_eq_none_iff, not_not])

instance (name : String) : Decidable (IsCallName name) :=
  decidable_of_iff (IsWord name ∧ ¬ Taken name ∧ name ≠ "DEF")
    ⟨fun ⟨isWord, not_taken, ne_def⟩ => ⟨isWord, not_taken, ne_def⟩,
      fun ⟨isWord, not_taken, ne_def⟩ => ⟨isWord, not_taken, ne_def⟩⟩

mutual
def decidableFits (known : String → Prop) [DecidablePred known] (block : Block) :
    (i : Instruction) → Decidable (i.Fits known block)
  | .call name =>
    inferInstanceAs (Decidable (IsCallName name ∧ name ≠ "IF" ∧ name ∉ block.ends ∧ known name))
  | .define _ _ => .isFalse id
  | .branch nonzero zero =>
    have := decidableCodeFits known .nonzero nonzero
    have := decidableCodeFits known .zero zero
    inferInstanceAs (Decidable (CodeFits known .nonzero nonzero ∧ CodeFits known .zero zero))
  | .number _ | .binary _ | .unary _ | .out | .pop | .dup | .swap | .rot | .over => .isTrue trivial
def decidableCodeFits (known : String → Prop) [DecidablePred known] (block : Block) :
    (code : Code) → Decidable (CodeFits known block code)
  | [] => .isTrue trivial
  | i :: is =>
    have := decidableFits known block i
    have := decidableCodeFits known block is
    inferInstanceAs (Decidable (i.Fits known block ∧ CodeFits known block is))
end

def decidableWellFormed (known : String → Prop) [DecidablePred known] :
    (code : Code) → Decidable (WellFormed known code)
  | [] => .isTrue trivial
  | .call name :: rest =>
    have := decidableWellFormed known rest
    inferInstanceAs (Decidable (IsCallName name ∧ known name ∧ WellFormed known rest))
  | .define name body :: rest =>
    have := decidableCodeFits (fun word => word = name ∨ known word) .body body
    have := decidableWellFormed (fun word => word = name ∨ known word) rest
    inferInstanceAs (Decidable (IsWord name ∧ CodeFits (fun word => word = name ∨ known word)
      .body body ∧ WellFormed (fun word => word = name ∨ known word) rest))
  | .branch _ _ :: _ => .isFalse id
  | .number _ :: rest | .binary _ :: rest | .unary _ :: rest | .out :: rest | .pop :: rest
  | .dup :: rest | .swap :: rest | .rot :: rest | .over :: rest => decidableWellFormed known rest

instance (known : String → Prop) [DecidablePred known] (code : Code) :
    Decidable (WellFormed known code) := decidableWellFormed known code

end Decidable

section Reading

variable {callable known : String → Prop} {block : Block} {ws : List String} {code : Code}

/-- An instruction has one fixed meaning, or is made of a name or of other instructions. -/
theorem Grammar.atom_or_compound (i : Instruction) :
    (∃ word, Atom word i) ∨ (∃ name, i = .call name) ∨ (∃ name body, i = .define name body) ∨
      ∃ nonzero zero, i = .branch nonzero zero := by
  cases i with
  | number v => exact .inl ⟨_, .number (literal_intText v)⟩
  | binary op => exact .inl ⟨_, .opcode (.binary op)⟩
  | unary op => exact .inl ⟨_, .opcode (.unary op)⟩
  | out => exact .inl ⟨_, .opcode .out⟩
  | pop => exact .inl ⟨_, .opcode .pop⟩
  | dup => exact .inl ⟨_, .opcode .dup⟩
  | swap => exact .inl ⟨_, .opcode .swap⟩
  | rot => exact .inl ⟨_, .opcode .rot⟩
  | «over» => exact .inl ⟨_, .opcode .over⟩
  | call name => exact .inr (.inl ⟨name, rfl⟩)
  | define name body => exact .inr (.inr (.inl ⟨name, body, rfl⟩))
  | branch nonzero zero => exact .inr (.inr (.inr ⟨nonzero, zero, rfl⟩))

/-- An instruction of one word fits everywhere. -/
theorem Grammar.Atom.fits {word : String} {i : Instruction} (h : Atom word i)
    (known : String → Prop) (block : Block) : i.Fits known block := by
  cases h with
  | number => trivial
  | opcode h => cases h <;> trivial

/-- The items of a block fit it. -/
theorem Grammar.Items.codeFits (h : Items callable block ws code) (hws : ∀ w ∈ ws, IsWord w) :
    CodeFits callable block code := by
  induction h with
  | nil => trivial
  | item hi _ ih =>
    obtain ⟨hword, hrest⟩ := List.forall_mem_cons.1 hws
    refine ⟨?_, ih hrest⟩
    cases hi with
    | atom hi => exact hi.fits _ _
    | call htaken hif hdef hends hcall => exact ⟨⟨hword, htaken, hdef⟩, hif, hends, hcall⟩
  | branch _ _ ihn ih =>
    obtain ⟨hns, hrest⟩ := List.forall_mem_append.1 (List.forall_mem_cons.1 hws).2
    exact ⟨⟨ihn hns, trivial⟩, ih (List.forall_mem_cons.1 hrest).2⟩
  | branchElse _ _ _ ihn ihz ih =>
    obtain ⟨hns, hzero⟩ := List.forall_mem_append.1 (List.forall_mem_cons.1 hws).2
    obtain ⟨hzs, hrest⟩ := List.forall_mem_append.1 (List.forall_mem_cons.1 hzero).2
    exact ⟨⟨ihn hns, ihz hzs⟩, ih (List.forall_mem_cons.1 hrest).2⟩

/-- An instruction of one fixed meaning is well formed wherever it stands. -/
theorem Grammar.Atom.wellFormed_cons_iff {word : String} {i : Instruction} (h : Atom word i) :
    WellFormed known (i :: code) ↔ WellFormed known code := by
  cases h with
  | number => exact Iff.rfl
  | opcode h => cases h <;> exact Iff.rfl

/-- A completed definition makes its name known. -/
theorem contains_insert_eq (functions : Dictionary) (name : String) (body : Code) :
    (fun word => ((functions.insert name body).contains word : Prop)) =
      fun word => word = name ∨ functions.contains word := by
  funext word
  simp

/-- The code of a line is well formed. -/
theorem Grammar.Line.wellFormed {functions final : Dictionary} (h : Line functions ws code final)
    (hws : ∀ w ∈ ws, IsWord w) : WellFormed (functions.contains ·) code := by
  induction h with
  | nil => trivial
  | atom hi _ ih => exact hi.wellFormed_cons_iff.2 (ih (List.forall_mem_cons.1 hws).2)
  | call htaken hdef hcall _ ih =>
    obtain ⟨hword, hrest⟩ := List.forall_mem_cons.1 hws
    exact ⟨⟨hword, htaken, hdef⟩, hcall, ih hrest⟩
  | define hbody _ ih =>
    obtain ⟨hname, hwords⟩ := List.forall_mem_cons.1 (List.forall_mem_cons.1 hws).2
    obtain ⟨hbs, hrest⟩ := List.forall_mem_append.1 hwords
    have hafter := ih (List.forall_mem_cons.1 hrest).2
    rw [contains_insert_eq] at hafter
    exact ⟨hname, hbody.codeFits hbs, hafter⟩

end Reading

section Writing

variable {known : String → Prop} {block : Block}

/-- Words that derive code in a block. -/
def Written (known : String → Prop) (block : Block) (code : Code) : Prop :=
  ∃ ws : List String, (∀ w ∈ ws, IsWord w) ∧ Items known block ws code

/-- No code is written in no words. -/
theorem written_nil : Written known block [] :=
  ⟨[], by simp, .nil⟩

/-- An instruction before code is written in front of it. -/
theorem Written.cons {i : Instruction} {code : Code} (h : Written known block [i])
    (hrest : Written known block code) : Written known block (i :: code) := by
  obtain ⟨ws, hws, hitem⟩ := h
  obtain ⟨vs, hvs, hitems⟩ := hrest
  exact ⟨ws ++ vs, List.forall_mem_append.2 ⟨hws, hvs⟩, hitem.append hitems⟩

/-- An instruction of one word is written in it. -/
theorem written_of_atom {word : String} {i : Instruction} (h : Atom word i) :
    Written known block [i] := by
  obtain ⟨written, -, hatom, hword⟩ := h.rendered
  exact ⟨[written], List.forall_mem_singleton.2 hword, .item (.atom hatom) .nil⟩

/-- A conditional is written if its branches are. -/
theorem written_branch {nonzero zero : Code} (hn : Written known .nonzero nonzero)
    (hz : Written known .zero zero) : Written known block [.branch nonzero zero] := by
  obtain ⟨ns, hns, hnonzero⟩ := hn
  obtain ⟨zs, hzs, hzero⟩ := hz
  refine ⟨"IF" :: (ns ++ "ELS" :: (zs ++ ["FI"])), ?_, .branchElse hnonzero hzero .nil⟩
  have hfi : ∀ w ∈ zs ++ ["FI"], IsWord w :=
    List.forall_mem_append.2 ⟨hzs, List.forall_mem_singleton.2 (isWord_of_mem (by simp))⟩
  have hels : ∀ w ∈ "ELS" :: (zs ++ ["FI"]), IsWord w :=
    List.forall_mem_cons.2 ⟨isWord_of_mem (by simp), hfi⟩
  exact List.forall_mem_cons.2 ⟨isWord_of_mem (by simp), List.forall_mem_append.2 ⟨hns, hels⟩⟩

mutual
/-- What fits a block can be written in it. -/
theorem written_of_fits {known : String → Prop} {block : Block} {i : Instruction}
    (h : i.Fits known block) : Written known block [i] := by
  rcases atom_or_compound i with ⟨word, hatom⟩ | ⟨name, rfl⟩ | ⟨name, body, rfl⟩ |
    ⟨nonzero, zero, rfl⟩
  · exact written_of_atom hatom
  · obtain ⟨hname, hif, hends, hknown⟩ := h
    exact ⟨[name], List.forall_mem_singleton.2 hname.isWord,
      .item (.call hname.not_taken hif hname.ne_def hends hknown) .nil⟩
  · exact h.elim
  · exact written_branch (written_of_codeFits h.1) (written_of_codeFits h.2)
/-- Code that fits a block is written in it. -/
theorem written_of_codeFits {known : String → Prop} {block : Block} {code : Code}
    (h : CodeFits known block code) : Written known block code := by
  match code with
  | [] => exact written_nil
  | i :: code => exact (written_of_fits h.1).cons (written_of_codeFits h.2)
end

/-- Well-formed code can be written on a line. -/
theorem exists_line_of_wellFormed {functions : Dictionary} {code : Code}
    (h : WellFormed (functions.contains ·) code) :
    ∃ ws final, (∀ w ∈ ws, IsWord w) ∧ Line functions ws code final := by
  induction code generalizing functions with
  | nil => exact ⟨[], functions, by simp, .nil⟩
  | cons i code ih =>
    rcases atom_or_compound i with ⟨word, hatom⟩ | ⟨name, rfl⟩ | ⟨name, body, rfl⟩ |
      ⟨nonzero, zero, rfl⟩
    · obtain ⟨ws, final, hws, hline⟩ := ih (hatom.wellFormed_cons_iff.1 h)
      obtain ⟨written, -, hwritten, hword⟩ := hatom.rendered
      exact ⟨written :: ws, final, List.forall_mem_cons.2 ⟨hword, hws⟩, .atom hwritten hline⟩
    · obtain ⟨hname, hknown, hrest⟩ := h
      obtain ⟨ws, final, hws, hline⟩ := ih hrest
      exact ⟨name :: ws, final, List.forall_mem_cons.2 ⟨hname.isWord, hws⟩,
        .call hname.not_taken hname.ne_def hknown hline⟩
    · obtain ⟨hname, hbody, hrest⟩ := h
      obtain ⟨bs, hbs, hitems⟩ := written_of_codeFits hbody
      rw [← contains_insert_eq functions name body] at hrest
      obtain ⟨ws, final, hws, hline⟩ := ih hrest
      refine ⟨"DEF" :: name :: (bs ++ "END" :: ws), final, ?_, .define hitems hline⟩
      have hend : ∀ w ∈ "END" :: ws, IsWord w :=
        List.forall_mem_cons.2 ⟨isWord_of_mem (by simp), hws⟩
      refine List.forall_mem_cons.2 ⟨isWord_of_mem (by simp), ?_⟩
      exact List.forall_mem_cons.2 ⟨hname, List.forall_mem_append.2 ⟨hbs, hend⟩⟩
    · exact h.elim

end Writing

namespace Reader

/-- **What can be read.** A reader reads some line as given code exactly if the code is well formed,
the names of the functions that the reader knows being those that may be called. -/
theorem exists_readLine_iff_wellFormed (r : Reader) (code : Code) :
    (∃ line after, r.readLine line = (after, .ok code)) ↔
      WellFormed (r.functions.contains ·) code := by
  constructor
  · rintro ⟨line, after, hread⟩
    exact (line_of_readLine hread).wellFormed fun _ hw => isWord_of_mem_words hw
  · intro h
    obtain ⟨ws, final, hws, hline⟩ := exists_line_of_wellFormed h
    rw [← words_intercalate hws] at hline
    exact ⟨_, _, readLine_of_line hline⟩

end Reader

/-- `ELS` can be called in a branch only after the `ELS` of the conditional, `FI` not at all; in the
body itself both can. -/
example :
    let body (nonzero zero : Code) : Code := [.branch nonzero zero, .call "ELS", .call "FI"]
    let known (name : String) : Prop := name ∈ ["ELS", "FI"]
    WellFormed known [.define "F" (body [.call "F"] [.call "ELS"]), .call "F"] ∧
      ¬ WellFormed known [.define "F" (body [.call "ELS"] [])] ∧
      ¬ WellFormed known [.define "F" (body [] [.call "FI"])] := by decide

end StackLang
