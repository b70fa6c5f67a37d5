import StackLang.Proofs.Runs

/-!
# What programs write

All that a program writes are lines with the decimal text of a value each, so its output is ASCII,
and a character of it is a byte: `isAscii_run`, `length_bytes`, `bytes_take`. Where a write does not
fit, a part of a line is written, which is ASCII as well. A sink with room for everything keeps it,
`room_perform`.
-/

set_option autoImplicit false

namespace StackLang

namespace Text

/-- The bytes of a text. -/
def bytes (text : String) : List UInt8 := text.toByteArray.data.toList

/-- The bytes of a text after a text are those of both. -/
theorem bytes_append (text more : String) : bytes (text ++ more) = bytes text ++ bytes more := by
  rw [bytes, String.toByteArray_append, ByteArray.data_append, Array.toList_append]
  rfl

/-- Listing the bytes of an array starts from any of them. -/
theorem toList_loop (array : ByteArray) (i : Nat) (listed : List UInt8) :
    ByteArray.toList.loop array i listed = listed.reverse ++ array.data.toList.drop i := by
  fun_induction ByteArray.toList.loop array i listed with
  | case1 i listed h ih =>
    have hi : i < array.data.toList.length := by simpa using h
    rw [ih, List.drop_eq_getElem_cons hi]
    simp [ByteArray.get!, getElem!_pos, h]
  | case2 i listed h =>
    have hi : array.data.toList.length ≤ i := by simpa using h
    rw [List.drop_eq_nil_of_le hi, List.append_nil]

/-- The bytes of a text are those of its encoding. -/
theorem toList_toUTF8 (text : String) : text.toUTF8.toList = bytes text := by
  rw [ByteArray.toList, toList_loop]
  rfl

/-- Whether all characters are ASCII. -/
def IsAscii (cs : List Char) : Prop := ∀ c ∈ cs, c.toNat < 128

section Ascii

variable {cs more : List Char}

/-- ASCII text after ASCII text is ASCII text. -/
theorem IsAscii.append (h : IsAscii cs) (h' : IsAscii more) : IsAscii (cs ++ more) := by
  intro c hmem
  rcases List.mem_append.1 hmem with hmem | hmem
  · exact h c hmem
  · exact h' c hmem

/-- A first part of ASCII text is ASCII text. -/
theorem IsAscii.of_isPrefix (h : IsAscii more) (hpart : cs <+: more) : IsAscii cs :=
  fun c hmem => h c (hpart.subset hmem)

/-- ASCII characters have one byte each. -/
theorem bytes_of_isAscii {text : String} (h : IsAscii text.toList) :
    bytes text = text.toList.map fun c => c.val.toUInt8 := by
  have hsingle : ∀ c ∈ text.toList, String.utf8EncodeChar c = [c.val.toUInt8] := by
    intro c hmem
    refine String.utf8EncodeChar_eq_singleton (Char.utf8Size_eq_one_iff.2 ?_)
    have hlow := h c hmem
    rw [UInt32.le_iff_toNat_le]
    exact Nat.le_of_lt_succ hlow
  have hencode : text.toByteArray = text.toList.utf8Encode := by
    rw [← String.toByteArray_ofList, String.ofList_toList]
  rw [bytes, hencode, List.utf8Encode, List.toList_data_toByteArray, List.map_eq_flatMap,
    List.flatMap_def, List.flatMap_def, List.map_congr_left hsingle]

/-- ASCII text has as many bytes as characters. -/
theorem length_bytes {text : String} (h : IsAscii text.toList) :
    (bytes text).length = text.length := by
  rw [bytes_of_isAscii h, List.length_map, String.length_toList]

/-- The first characters are the first bytes. -/
theorem bytes_take {text : String} (h : IsAscii text.toList) (n : Nat) :
    bytes (String.ofList (text.toList.take n)) = (bytes text).take n := by
  have htake : IsAscii (String.ofList (text.toList.take n)).toList := by
    rw [String.toList_ofList]
    exact h.of_isPrefix (List.take_prefix n _)
  rw [bytes_of_isAscii htake, bytes_of_isAscii h, String.toList_ofList, List.map_take]

end Ascii

/-- Digits and the minus sign are ASCII, and so is the line feed. -/
theorem isAscii_line (z : Int) : IsAscii (intText z ++ "\n").toList := by
  rw [String.toList_append, intText, String.toList_ofList]
  refine .append ?_ (by simp [IsAscii])
  intro c hmem
  rcases isDigit_or_eq_of_mem_intDigits hmem with hdigit | rfl
  · have hrange : 48 ≤ c.toNat ∧ c.toNat ≤ 57 := by
      simpa [Char.isDigit, UInt32.le_iff_toNat_le] using hdigit
    omega
  · decide

/-- A line has one line feed. -/
theorem count_newline_line (z : Int) : (intText z ++ "\n").toList.count '\n' = 1 := by
  have hdigits : '\n' ∉ intDigits z := by
    intro hmem
    rcases isDigit_or_eq_of_mem_intDigits hmem with hdigit | hminus
    · exact absurd hdigit (by decide)
    · exact absurd hminus (by decide)
  rw [String.toList_append, intText, String.toList_ofList, List.count_append,
    List.count_eq_zero.2 hdigits]
  rfl

end Text

/-- A write adds a first part of what is written. -/
theorem Sink.exists_write (s : Sink) (text : String) :
    ∃ part, part <+: text.toList ∧ (s.write text).1.text.toList = s.text.toList ++ part := by
  unfold write
  split
  · exact ⟨text.toList, List.prefix_rfl, by simp⟩
  · rename_i room _
    split
    · exact ⟨text.toList, List.prefix_rfl, by simp⟩
    · exact ⟨text.toList.take room, List.take_prefix room _, by simp⟩

namespace Machine

open Text (IsAscii)

variable {σ : Type} {m : Machine σ}

/-- **Output is ASCII**, whatever a run ends in and whatever room there is. -/
theorem isAscii_run (host : Host σ) (functions : Dictionary) (code : Code)
    (h : IsAscii m.sink.text.toList) :
    IsAscii (m.run host functions code).1.sink.text.toList := by
  refine sink_run_keeps (P := fun sink => IsAscii sink.text.toList) ?_ host functions m code h
  intro sink v hsink
  obtain ⟨part, hpart, hwrite⟩ := sink.exists_write (Text.intText v.toInt ++ "\n")
  rw [hwrite]
  exact hsink.append ((Text.isAscii_line v.toInt).of_isPrefix hpart)

/-- With room for everything a step leaves room for everything. -/
theorem room_perform (hroom : m.sink.room = none) (host : Host σ) (functions : Dictionary)
    (i : Instruction) : (m.perform host functions i).1.sink.room = none := by
  refine sink_perform_keeps (P := fun sink => sink.room = none) ?_ host functions m i hroom
  intro sink v hsink
  rw [Sink.write_of_room_none hsink]
  exact hsink

end Machine

end StackLang
