import StackLang.Proofs.Columns
import StackLang.Proofs.ProgramText
import Mathlib.Data.List.Forall2

/-!
# Line ends

A line may end at a line feed, or at a carriage return and a line feed. With a carriage return
before every line feed the lines of a stream are those it had, except that a line whose own carriage
return was taken for part of its end keeps it, `lines_withReturns`. A carriage return at the end of
a line is blank and takes no part in UTF-8 sequences, so the line has the same tokens in the same
columns. A session sees nothing else of a line,
`runProgram_withReturns`.
-/

set_option autoImplicit false

namespace StackLang

namespace Text

/-- A stream with a carriage return before every line feed. -/
def withReturns (stream : List UInt8) : List UInt8 :=
  stream.flatMap fun b => if b = lineFeed then [carriageReturn, lineFeed] else [b]

/-- Bytes without a line feed get no carriage return. -/
theorem withReturns_of_not_mem {line : List UInt8} (h : lineFeed ∉ line) :
    withReturns line = line := by
  induction line with
  | nil => rfl
  | cons b line ih =>
    have hb : b ≠ lineFeed := (List.ne_of_not_mem_cons h).symm
    have hrest := ih (List.not_mem_of_not_mem_cons h)
    rw [withReturns] at hrest ⊢
    rw [List.flatMap_cons, if_neg hb, hrest, List.singleton_append]

/-- A line gets its carriage return in front of its line feed. -/
theorem withReturns_line {line : List UInt8} (h : lineFeed ∉ line) (stream : List UInt8) :
    withReturns (line ++ lineFeed :: stream) =
      line ++ [carriageReturn] ++ lineFeed :: withReturns stream := by
  have hline := withReturns_of_not_mem h
  rw [withReturns] at hline ⊢
  rw [List.flatMap_append, hline, List.flatMap_cons, if_pos rfl, withReturns, List.append_assoc]
  rfl

/-- A carriage return that has been added at the end of a line is dropped again. -/
theorem chomp_append_return (line : List UInt8) : chomp (line ++ [carriageReturn]) = line := by
  rw [chomp, List.getLast?_concat, if_pos rfl, List.dropLast_concat]

/-- A line loses nothing but a carriage return. -/
theorem eq_chomp_or_eq_append (line : List UInt8) :
    line = chomp line ∨ line = chomp line ++ [carriageReturn] := by
  rcases List.eq_nil_or_concat line with rfl | ⟨front, b, rfl⟩
  · exact .inl rfl
  · rw [List.concat_eq_append]
    by_cases hb : b = carriageReturn
    · rw [hb, chomp_append_return]
      exact .inr rfl
    · rw [chomp, List.getLast?_concat, if_neg (fun h => hb (Option.some.inj h))]
      exact .inl rfl

/-- A byte that can come first in a UTF-8 sequence ends only the sequence that is this byte. -/
theorem eq_nil_of_utf8EncodeChar {c : Char} {front : List UInt8} {b : UInt8}
    (hfirst : b.IsUTF8FirstByte) (h : String.utf8EncodeChar c = front ++ [b]) : front = [] := by
  have hlength : front.length < (String.utf8EncodeChar c).length := by
    rw [h, List.length_append, List.length_singleton]
    omega
  have hlast : (String.utf8EncodeChar c)[front.length] = b := by simp [h]
  rw [← hlast, UInt8.isUTF8FirstByte_getElem_utf8EncodeChar] at hfirst
  exact List.length_eq_zero_iff.1 hfirst

/-- The bytes of a text with one more character are those of the text and those of the character. -/
theorem bytes_append_singleton (front : String) (c : Char) :
    (front ++ String.singleton c).toByteArray.data.toList =
      front.toByteArray.data.toList ++ String.utf8EncodeChar c := by
  rw [String.toByteArray_append, ByteArray.data_append, Array.toList_append,
    String.toByteArray_singleton, List.utf8Encode_singleton, List.toList_data_toByteArray]

/-- A carriage return can be taken away from the end of a text. -/
theorem exists_decode?_of_append_return {line : List UInt8} {text : String}
    (h : decode? (line ++ [carriageReturn]) = some text) : ∃ front, decode? line = some front := by
  have hbytes := decode?_eq_some_iff.1 h
  rcases List.eq_nil_or_concat text.toList with hempty | ⟨cs, c, htext⟩
  · obtain rfl := String.toList_eq_nil_iff.1 hempty
    simp at hbytes
  · have hsplit : text = String.ofList cs ++ String.singleton c := by
      rw [← String.toList_inj, htext, List.concat_eq_append, String.toList_append,
        String.toList_ofList, String.toList_singleton]
    rw [hsplit, bytes_append_singleton] at hbytes
    refine ⟨String.ofList cs, decode?_eq_some_iff.2 ?_⟩
    rcases List.eq_nil_or_concat (String.utf8EncodeChar c) with hnone | ⟨first, b, hencoded⟩
    · have hpos := c.utf8Size_pos
      rw [← String.length_utf8EncodeChar, hnone] at hpos
      simp at hpos
    · rw [List.concat_eq_append] at hencoded
      rw [hencoded, ← List.append_assoc] at hbytes
      obtain ⟨hline, hb⟩ := List.append_inj' hbytes rfl
      obtain rfl := List.singleton_inj.1 hb
      -- the carriage return is all of the last character
      rw [eq_nil_of_utf8EncodeChar (by decide) hencoded, List.append_nil] at hline
      exact hline

/-- A carriage return at the end of a line is a character of its own. -/
theorem decode?_append_return (line : List UInt8) :
    decode? (line ++ [carriageReturn]) = (decode? line).map (· ++ "\r") := by
  cases hline : decode? line with
  | some text =>
    have hreturn : "\r".toByteArray.data.toList = [carriageReturn] := by decide
    rw [Option.map_some, decode?_eq_some_iff, String.toByteArray_append, ByteArray.data_append,
      Array.toList_append, decode?_eq_some_iff.1 hline, hreturn]
  | none =>
    rw [Option.map_none, Option.eq_none_iff_forall_ne_some]
    intro text hlong
    obtain ⟨front, hfront⟩ := exists_decode?_of_append_return hlong
    simp [hline] at hfront

/-- Two lines that hold the same tokens in the same columns, or no text both. -/
def SameTokens (line other : List UInt8) : Prop :=
  (decode? line).map Token.scan = (decode? other).map Token.scan

/-- Lines with the same tokens both hold no text, or both hold texts with these tokens. -/
theorem SameTokens.cases {line other : List UInt8} (h : SameTokens line other) :
    (decode? line = none ∧ decode? other = none) ∨
      ∃ text text', decode? line = some text ∧ decode? other = some text' ∧
        Token.scan text = Token.scan text' := by
  unfold SameTokens at h
  cases hline : decode? line with
  | none =>
    cases hother : decode? other with
    | none => exact .inl ⟨rfl, rfl⟩
    | some text' => simp [hline, hother] at h
  | some text =>
    cases hother : decode? other with
    | none => simp [hline, hother] at h
    | some text' => exact .inr ⟨text, text', rfl, rfl, by simpa [hline, hother] using h⟩

/-- A carriage return at the end of a line is blank, so the tokens stay the same. -/
theorem sameTokens_append_return (line : List UInt8) :
    SameTokens line (line ++ [carriageReturn]) := by
  have hreturn : isBlank '\r' := by decide
  have hscan (text : String) : Token.scan (text ++ "\r") = Token.scan text := by
    have hend := Token.scan_append_blank hreturn text ""
    rw [String.append_empty, String.toList_empty, Token.scanFrom_nil, List.append_nil] at hend
    exact hend
  rw [SameTokens, decode?_append_return, Option.map_map]
  exact congrArg (Option.map · (decode? line)) (funext fun text => (hscan text).symm)

/-- Carriage returns before the line feeds leave every line its tokens. -/
theorem lines_withReturns (stream : List UInt8) :
    List.Forall₂ SameTokens (lines stream) (lines (withReturns stream)) := by
  induction stream using line_induction with
  | unended line hline =>
    rw [withReturns_of_not_mem hline]
    exact List.forall₂_same.2 fun _ _ => rfl
  | line line stream hline ih =>
    have hlonger : lineFeed ∉ line ++ [carriageReturn] := by
      rw [List.mem_append, List.mem_singleton, not_or]
      exact ⟨hline, by decide⟩
    rw [withReturns_line hline, lines_line hline, lines_line hlonger, chomp_append_return]
    refine .cons ?_ ih
    rcases eq_chomp_or_eq_append line with h | h
    · rw [← h]
      rfl
    · have hsame := sameTokens_append_return (chomp line)
      rwa [← h] at hsame

end Text

namespace Session

open Text (SameTokens decode? lines lines_withReturns withReturns)

variable {σ : Type} {ls others : List (List UInt8)}

/-- A session sees the tokens of a line, and nothing else of it. -/
theorem runLine_congr (host : Host σ) (s : Session σ) {line other : String}
    (h : Token.scan line = Token.scan other) : s.runLine host line = s.runLine host other := by
  simp only [runLine, Reader.readLine, h]

/-- Lines with the same tokens have the same count, and the same tokens after it. -/
theorem readCount_of_sameTokens (h : List.Forall₂ SameTokens ls others) :
    (∃ e, readCount ls = .error e ∧ readCount others = .error e) ∨
      ∃ count rest rest', readCount ls = .ok (count, rest) ∧ readCount others = .ok (count, rest') ∧
        List.Forall₂ SameTokens rest rest' := by
  induction h with
  | nil => exact .inl ⟨_, rfl, rfl⟩
  | @cons line other rest rest' hline hrest ih =>
    rw [readCount, readCount]
    rcases hline.cases with ⟨hnone, hnone'⟩ | ⟨text, text', htext, htext', hscan⟩
    · rw [hnone, hnone']
      exact .inl ⟨_, rfl, rfl⟩
    · have hwords : Token.words text = Token.words text' := by
        rw [Token.words, Token.words, hscan]
      simp only [htext, htext', hwords]
      cases Token.words text' with
      | nil => exact ih
      | cons word more =>
        cases hcount : Text.readCounter UInt64.size word.toList with
        | error fault => exact .inl ⟨.invalidCount word, by simp [hcount], by simp [hcount]⟩
        | ok count => exact .inr ⟨count, rest, rest', by simp [hcount], by simp [hcount], hrest⟩

/-- Lines with the same tokens run the same. -/
theorem runLines_of_sameTokens (host : Host σ) (h : List.Forall₂ SameTokens ls others)
    (expected read : Nat) (s : Session σ) :
    s.runLines host expected read ls = s.runLines host expected read others := by
  induction h generalizing read s with
  | nil => rfl
  | cons hline _ ih =>
    rw [runLines, runLines]
    rcases hline.cases with ⟨hnone, hnone'⟩ | ⟨text, text', htext, htext', hscan⟩
    · rw [hnone, hnone']
    · simp only [htext, htext', runLine_congr host s hscan, ih]

/-- The way in which lines end makes no difference to a program. -/
theorem runProgram_withReturns (host : Host σ) (s : Session σ) (input : List UInt8) :
    s.runProgram host (withReturns input) = s.runProgram host input := by
  have hlines := lines_withReturns input
  have hcounted : s.runCounted host (withReturns input) = s.runCounted host input := by
    rw [runCounted, runCounted]
    rcases readCount_of_sameTokens hlines with
      ⟨e, herror, herror'⟩ | ⟨count, rest, rest', hok, hok', hrest⟩
    · rw [herror, herror']
    · simp only [hok, hok', runLines_of_sameTokens host hrest]
  rw [runProgram, runProgram, hcounted]

end Session

end StackLang
