import StackLang.Proofs.Definitions
import StackLang.Proofs.Histories
import StackLang.Proofs.Prefixes
import Mathlib

/-!
# What a line leaves behind

A definition is put into the dictionary when its `END` is read, whatever comes after it. So a line
with a fault has changed the dictionary, by the definitions that it had completed when the fault was
found. They are those of the longest first part of the line that can be read by itself: what stands
between this part and the fault belongs to a definition that is not complete, and reading inside of
one changes nothing, `Step.completes_or_keeps`. Nothing of a line that cannot be read is run.
-/

set_option autoImplicit false

namespace StackLang

namespace LineState

variable {s next : LineState} {t : Token} {ts : List Token}

/-- A token that does not lead to top level leaves the dictionary alone. -/
theorem Step.completes_or_keeps (h : Step s t next) :
    next.place = .topLevel ∨ next.functions = s.functions := by
  cases h with
  | atom hs _ => exact .inl hs
  | call hs _ _ _ => exact .inl hs
  | close _ _ _ => exact .inl rfl
  | _ => exact .inr rfl

/-- The last token of a run is read in the state after the others. -/
theorem exists_step_of_feed_concat (h : s.feed (ts ++ [t]) = (next, none)) :
    ∃ middle, s.feed ts = (middle, none) ∧ Step middle t next := by
  rcases hfeed : s.feed ts with ⟨middle, _ | fault⟩
  · rw [feed_append hfeed, feed] at h
    split at h
    · rename_i after hstep
      obtain rfl : after = next := congrArg Prod.fst h
      exact ⟨middle, rfl, step_eq_ok_iff.1 hstep⟩
    · simp at h
  · rw [feed_append_of_fault hfeed] at h
    simp at h

/-- The tokens of a run have a longest first part after which the run is at top level, and the
dictionary does not change after this part. -/
theorem exists_longest_topLevel (hs : s.place = .topLevel) (h : s.feed ts = (next, none)) :
    ∃ front rest middle, ts = front ++ rest ∧ s.feed front = (middle, none) ∧
      middle.place = .topLevel ∧ next.functions = middle.functions ∧
      ∀ us, us <+: ts → (s.feed us).1.place = .topLevel → us <+: front := by
  induction ts using List.reverseRecOn generalizing next with
  | nil =>
    obtain ⟨rfl, -⟩ := Prod.mk.inj h
    exact ⟨[], [], s, rfl, rfl, hs, rfl, fun us hus _ => hus⟩
  | append_singleton ts t ih =>
    obtain ⟨before, hbefore, hstep⟩ := exists_step_of_feed_concat h
    by_cases hplace : next.place = .topLevel
    · exact ⟨ts ++ [t], [], next, by simp, h, hplace, rfl, fun us hus _ => hus⟩
    · -- the token belongs to a definition that stays open
      have hfunctions := hstep.completes_or_keeps.resolve_left hplace
      obtain ⟨front, rest, middle, rfl, hfront, hmiddle, hkept, hlongest⟩ := ih hbefore
      refine ⟨front, rest ++ [t], middle, by simp, hfront, hmiddle, hfunctions.trans hkept,
        fun us hus htop => ?_⟩
      rcases List.prefix_concat_iff.1 hus with rfl | hus
      · rw [h] at htop
        exact absurd htop hplace
      · exact hlongest us hus htop

end LineState

namespace Reader

variable {functions left : Dictionary} {tokens ts : List Token} {fault : SyntaxFault} {code : Code}

/-- Tokens that can be read lead to top level. -/
theorem place_of_readTokens (h : (readTokens functions ts).2 = .ok code) :
    (LineState.feed { functions } ts).1.place = .topLevel := by
  unfold readTokens at h
  rcases hfeed : LineState.feed { functions } ts with ⟨state, _ | fault⟩
  · simp only [hfeed] at h
    cases hend : state.endFault? with
    | none => exact LineState.endFault?_eq_none_iff.1 hend
    | some fault => simp [hend] at h
  · simp [hfeed] at h

/-- How a line breaks off. Its tokens are a first part that can be read, those that were accepted
after it without completing anything, and what starts with the token at fault. -/
structure BreaksOff (functions : Dictionary) (tokens : List Token) (fault : SyntaxFault)
    (front opened rest : List Token) (code : Code) : Prop where
  parts : tokens = front ++ (opened ++ rest)
  /-- The rest starts with the token at fault. It is empty if the end of the line is at fault. -/
  head_rest : rest.head? = fault.token?
  /-- The first part is read as some code. -/
  read : (readTokens functions front).2 = .ok code
  /-- It is the longest part that can be read: no item that stands at top level is completed after
  it. -/
  longest (ts : List Token) (hts : ts <+: tokens) (other : Code)
    (h : (readTokens functions ts).2 = .ok other) : ts <+: front

/-- The tokens in front of the fault are accepted one after the other, and a part that can be read
lies in front of it. -/
theorem exists_accepted (h : readTokens functions tokens = (left, .error fault)) :
    ∃ accepted rest state, tokens = accepted ++ rest ∧ rest.head? = fault.token? ∧
      LineState.feed { functions } accepted = (state, none) ∧ state.functions = left ∧
      ∀ ts, ts <+: tokens → ∀ code, (readTokens functions ts).2 = .ok code → ts <+: accepted := by
  rcases hfeed : LineState.feed { functions } tokens with ⟨state, _ | found⟩
  · -- all tokens are accepted, and the end of the line is at fault
    have hend := LineState.atEnd_of_endFault? (endFault?_of_readTokens hfeed (congrArg Prod.snd h))
    have hleft : state.functions = left := by
      simp only [readTokens, hfeed] at h
      split at h <;> exact congrArg Prod.fst h
    exact ⟨tokens, [], state, by simp, (SyntaxFault.token?_of_atEnd hend).symm, hfeed, hleft,
      fun ts hts _ _ => hts⟩
  · rw [readTokens_of_fault hfeed] at h
    obtain ⟨hleft, hfault⟩ := Prod.mk.inj h
    obtain rfl := Except.error.inj hfault
    obtain ⟨accepted, t, rest, rfl, haccepted, hstep⟩ := LineState.exists_step_error hfeed
    refine ⟨accepted, t :: rest, state, rfl, (LineState.token?_of_step hstep).symm, haccepted,
      hleft, fun ts hts code hread => ?_⟩
    rcases List.prefix_or_prefix_of_prefix hts (List.prefix_append accepted _) with hts' | ⟨us, rfl⟩
    · exact hts'
    · cases us with
      | nil => simp
      | cons u us =>
        -- a longer part has the token at fault in it
        obtain ⟨rfl, -⟩ : u = t ∧ us <+: rest := by
          simpa [List.prefix_append_right_inj, List.cons_prefix_cons] using hts
        have hlonger : LineState.feed { functions } (accepted ++ u :: us) = (state, some found) := by
          rw [LineState.feed_append haccepted, LineState.feed, hstep]
        rw [readTokens_of_fault hlonger] at hread
        simp at hread

/-- The reader of a faulty line has read its tokens up to the fault. -/
theorem readTokens_of_readLine {r after : Reader} {line : String} {e : SyntaxError}
    (h : r.readLine line = (after, .error e)) :
    readTokens r.functions (Token.scan line) = (after.functions, .error e.fault) := by
  refine Prod.ext ?_ (readTokens_of_readLine_error (congrArg Prod.snd h))
  exact congrArg (·.1.functions) h

/-- A line with a fault breaks off, and leaves the dictionary with the definitions of the part that
can be read. -/
theorem exists_breaksOff (h : readTokens functions tokens = (left, .error fault)) :
    ∃ front opened rest code, BreaksOff functions tokens fault front opened rest code ∧
      left = functions.insertAll (definitionsOf code) := by
  obtain ⟨accepted, rest, state, rfl, hrest, hfeed, rfl, hwithin⟩ := exists_accepted h
  obtain ⟨front, opened, middle, rfl, hfront, hplace, hfunctions, hlongest⟩ :=
    LineState.exists_longest_topLevel rfl hfeed
  have hread := readTokens_of_topLevel hfront hplace
  refine ⟨front, opened, rest, middle.code.reverse, ⟨by simp, hrest, congrArg Prod.snd hread, ?_⟩, ?_⟩
  · intro ts hts other hother
    exact hlongest ts (hwithin ts hts other hother) (place_of_readTokens hother)
  · rw [hfunctions]
    exact (line_of_readTokens hread).eq_insertAll

end Reader

namespace Session

open Reader (BreaksOff)

variable {σ : Type}

/-- **What a line leaves behind.** A line that can be read puts the definitions of its code into the
dictionary, in their order and with their bodies, whatever comes of its run. A line that cannot be
read puts in those that it has completed in front of the fault, which are the definitions of the
longest first part that can be read; every other body is an old one. It leaves the machine as it
is: the stack, the output, the counts and what the observer has seen. No line takes a name out of
the dictionary. -/
theorem functions_runLine (host : Host σ) (s : Session σ) (line : String) :
    let functions := s.reader.functions
    let after := (s.runLine host line).1
    (∀ reader code, s.reader.readLine line = (reader, .ok code) →
      after.reader.functions = functions.insertAll (definitionsOf code)) ∧
    (∀ reader e, s.reader.readLine line = (reader, .error e) → after.machine = s.machine ∧
      ∃ front opened rest code,
        BreaksOff functions (Token.scan line) e.fault front opened rest code ∧
        after.reader.functions = functions.insertAll (definitionsOf code) ∧
        ∀ name body, after.reader.functions.find? name = some body →
          functions.find? name = some body ∨ (name, body) ∈ definitionsOf code) ∧
    after.reader.functions.Covers functions := by
  intro functions after
  have hafter : after.reader = (s.reader.readLine line).1 := reader_runLine host s line
  refine ⟨fun reader code hread => ?_, fun reader e hread => ?_, ?_⟩
  · rw [hafter, hread]
    exact (Reader.line_of_readLine hread).eq_insertAll
  · obtain ⟨front, opened, rest, code, hbreaks, hleft⟩ :=
      Reader.exists_breaksOff (Reader.readTokens_of_readLine hread)
    have hfunctions : after.reader.functions = functions.insertAll (definitionsOf code) := by
      rw [hafter, hread, hleft]
    refine ⟨congrArg (·.1.machine) (runLine_of_fault hread), front, opened, rest, code, hbreaks,
      hfunctions, fun name body hfind => ?_⟩
    rw [hfunctions] at hfind
    exact Dictionary.find?_insertAll_or_mem hfind
  · rw [hafter, Reader.functions_readLine]
    exact Dictionary.covers_insertAll functions _

/-- A line whose fault stands inside a conditional of a function that is being defined again, after
another definition is complete; and a line that can be read, and fails when it is run. -/
theorem functions_runLine_redefined :
    let host : Host Unit := { limits := {}, observe := .blind }
    let s : Session Unit := ((start .empty {} ()).runLine host "DEF F 1 END 5").1
    let functions := s.reader.functions
    let faulty := "DEF G F END 7 DEF F 2 IF G X FI END"
    let failing := "DEF F 3 END POP POP"
    (s.reader.readLine faulty).2 = .error ⟨2, .unknownToken ⟨"X", 28⟩⟩ ∧
      (s.runLine host faulty).1.machine = s.machine ∧
      (∃ front opened rest code,
        BreaksOff functions (Token.scan faulty) (.unknownToken ⟨"X", 28⟩) front opened rest code ∧
        (s.runLine host faulty).1.reader.functions = functions.insertAll (definitionsOf code)) ∧
      (s.runLine host failing).2 =
        .error (.running 2 (.instructionFailed .pop 0 4 .emptyStack)) ∧
      (s.runLine host failing).1.reader.functions = functions.insertAll [("F", [.number 3])] := by
  intro host s functions faulty failing
  have hfault : (s.reader.readLine faulty).2 = .error ⟨2, .unknownToken ⟨"X", 28⟩⟩ := by
    simp only [s, host, faulty]
    cbv
  have hread : (s.reader.readLine failing).2 = .ok [.define "F" [.number 3], .pop, .pop] := by
    simp only [s, host, failing]
    cbv
  have hran : (s.runLine host failing).2 =
      .error (.running 2 (.instructionFailed .pop 0 4 .emptyStack)) := by
    simp only [s, host, failing]
    cbv
  obtain ⟨-, hleft, -⟩ := functions_runLine host s faulty
  obtain ⟨hdefined, -, -⟩ := functions_runLine host s failing
  obtain ⟨hmachine, front, opened, rest, code, hbreaks, hfunctions, -⟩ :=
    hleft _ _ (Prod.ext rfl hfault)
  exact ⟨hfault, hmachine, ⟨front, opened, rest, code, hbreaks, hfunctions⟩, hran,
    hdefined _ _ (Prod.ext rfl hread)⟩

end Session

end StackLang
