import ScriptSyntax.Proofs.Carets

/-! The line of a byte offset, by the newlines among the bytes of the source. Any offset has one,
also inside a character or past the end. -/
namespace ScriptSyntax
open Text

namespace Text
variable {c : Char} {text line : List Char}

def newlineByte : UInt8 := 10

/-- Characters in UTF-8. -/
def encode (text : List Char) : List UInt8 := text.flatMap String.utf8EncodeChar

/-- The bytes of a text. -/
def bytes (text : String) : List UInt8 := text.toUTF8.data.toList

theorem bytes_ofList (text : List Char) : bytes (String.ofList text) = encode text := by
  rw [bytes, String.toUTF8, String.toByteArray_ofList, List.utf8Encode,
    List.toList_data_toByteArray, encode]

theorem bytes_eq (source : String) : bytes source = encode source.toList := by
  rw [← bytes_ofList, String.ofList_toList]

theorem encode_append (a b : List Char) : encode (a ++ b) = encode a ++ encode b :=
  List.flatMap_append

theorem encode_newline : encode ['\n'] = [newlineByte] := by decide

theorem length_encode (text : List Char) : (encode text).length = byteCount text := by
  induction text with
  | nil => rfl
  | cons c text ih =>
    rw [encode, List.flatMap_cons, List.length_append, String.length_utf8EncodeChar, byteCount_cons,
      ← ih, encode]

/-- A newline is no part of another character. -/
theorem eq_newline_of_mem_encode (h : newlineByte ∈ String.utf8EncodeChar c) : c = '\n' := by
  have hbyte {n : Nat} (hn : newlineByte = UInt8.ofNat n) : n % 256 = 10 := by
    simpa [newlineByte] using (congrArg UInt8.toNat hn).symm
  have hval : c.val.toNat = 10 := by
    rw [String.utf8EncodeChar] at h
    split_ifs at h <;> simp only [List.mem_cons, List.not_mem_nil, or_false] at h
    · have hmod := hbyte h
      omega
    -- The bytes of a longer character are 128 at least.
    · rcases h with h | h <;> have hmod := hbyte h <;> omega
    · rcases h with h | h | h <;> have hmod := hbyte h <;> omega
    · rcases h with h | h | h | h <;> have hmod := hbyte h <;> omega
  exact Char.toNat_inj.1 hval

theorem newlineByte_notMem_encode (h : '\n' ∉ text) : newlineByte ∉ encode text := by
  intro hmem
  obtain ⟨c, hc, hbyte⟩ := List.mem_flatMap.1 hmem
  exact h (eq_newline_of_mem_encode hbyte ▸ hc)

/-- An offset into some bytes: the lines before, what stands before and behind the offset on its own
line, with the newline that ends the line if there is any, and the lines after. -/
structure LineBytes (bytes : List UInt8) (offset : Nat) (past left right rest : List UInt8) :
    Prop where
  bytes : bytes = past ++ left ++ right ++ rest
  offset : (past ++ left).length = offset
  begins : past = [] ∨ past.getLast? = some newlineByte
  left : newlineByte ∉ left
  ends : newlineByte ∉ right ∧ rest = [] ∨
    ∃ line, newlineByte ∉ line ∧ right = line ++ [newlineByte]

variable {bytes past left right rest : List UInt8} {offset : Nat}

theorem LineBytes.take (h : LineBytes bytes offset past left right rest) :
    bytes.take offset = past ++ left := by
  rw [h.bytes, ← h.offset, List.append_assoc, List.take_left]

/-- The same place with another line in front. -/
theorem LineBytes.behind (h : LineBytes bytes offset past left right rest) (line : List UInt8) :
    LineBytes (line ++ newlineByte :: bytes) (line.length + 1 + offset)
      (line ++ newlineByte :: past) left right rest where
  bytes := by simp [h.bytes]
  offset := by
    rw [← h.offset]
    simp only [List.length_append, List.length_cons]
    omega
  begins := by
    refine .inr ?_
    rcases h.begins with rfl | hpast
    · simp
    · simp [List.getLast?_cons, hpast]
  left := h.left
  ends := h.ends

/-- A line that no other one follows. -/
theorem lineBytes_last {line : List UInt8} (h : newlineByte ∉ line)
    (hoffset : offset ≤ line.length) :
    LineBytes line offset [] (line.take offset) (line.drop offset) [] where
  bytes := by simp
  offset := by rw [List.nil_append, List.length_take, Nat.min_eq_left hoffset]
  begins := .inl rfl
  left := fun hmem => h (List.mem_of_mem_take hmem)
  ends := .inl ⟨fun hmem => h (List.mem_of_mem_drop hmem), rfl⟩

theorem lineBytes_first {line : List UInt8} (h : newlineByte ∉ line)
    (hoffset : offset ≤ line.length) (rest : List UInt8) :
    LineBytes (line ++ newlineByte :: rest) offset [] (line.take offset)
      (line.drop offset ++ [newlineByte]) rest where
  bytes := by
    rw [List.nil_append, ← List.append_assoc, List.take_append_drop, List.append_assoc,
      List.singleton_append]
  offset := by rw [List.nil_append, List.length_take, Nat.min_eq_left hoffset]
  begins := .inl rfl
  left := fun hmem => h (List.mem_of_mem_take hmem)
  ends := .inr ⟨_, fun hmem => h (List.mem_of_mem_drop hmem), rfl⟩

end Text

variable {line : List Char} {number offset : Nat}

theorem search_first (h : '\n' ∉ line) (hlt : offset < byteCount (line ++ ['\n']))
    (text : List Char) :
    LinePoint.search number offset (splitLines (line ++ '\n' :: text)) =
      ⟨number, String.ofList (line ++ ['\n']), offset⟩ := by
  obtain ⟨next, lines, hlines⟩ := List.exists_cons_of_ne_nil (splitLines_ne_nil text)
  rw [splitLines_line h, hlines, LinePoint.search, if_pos hlt]

/-- A line that a text begins with, as its bytes. -/
theorem encode_line (line text : List Char) :
    encode (line ++ '\n' :: text) = encode line ++ newlineByte :: encode text := by
  rw [← List.singleton_append, encode_append, encode_append, encode_newline, List.singleton_append]

/-- The point that is searched for, by the bytes around the offset. -/
theorem search_bytes (text : List Char) (number offset : Nat) :
    ∃ past left right rest line,
      LineBytes (encode text) (min offset (byteCount text)) past left right rest ∧
      LinePoint.search number offset (splitLines text) =
        ⟨number + past.count newlineByte, String.ofList line, left.length⟩ ∧
      encode line = left ++ right := by
  induction hn : text.length using Nat.strong_induction_on generalizing text number offset with
  | _ n ih =>
    by_cases hmem : '\n' ∈ text
    · obtain ⟨line, text', rfl, hline⟩ := List.eq_append_cons_of_mem hmem
      have hfree := newlineByte_notMem_encode hline
      have hsize : byteCount (line ++ ['\n']) = (encode line).length + 1 := by
        rw [length_encode, byteCount_append]
        rfl
      have htotal : byteCount (line ++ '\n' :: text') =
          (encode line).length + 1 + byteCount text' := by
        rw [← hsize, ← byteCount_append, List.append_assoc, List.singleton_append]
      rw [encode_line, htotal]
      by_cases hlt : offset < byteCount (line ++ ['\n'])
      · have hle : offset ≤ (encode line).length := by omega
        rw [Nat.min_eq_left (by omega)]
        refine ⟨[], _, _, _, line ++ ['\n'], lineBytes_first hfree hle (encode text'), ?_, ?_⟩
        · rw [search_first hline hlt, List.length_take, Nat.min_eq_left hle]
          rfl
        · rw [encode_append, encode_newline, ← List.append_assoc, List.take_append_drop]
      · obtain ⟨offset', rfl⟩ := Nat.exists_eq_add_of_le (Nat.not_lt.1 hlt)
        have hshorter : text'.length < n := by
          rw [← hn, List.length_append, List.length_cons]
          omega
        obtain ⟨past, left, right, rest, line', hplace, hsearch, hline'⟩ :=
          ih _ hshorter text' (number + 1) offset' rfl
        rw [hsize, Nat.add_min_add_left, ← hsize]
        refine ⟨_, _, _, _, line', hsize ▸ hplace.behind (encode line), ?_, hline'⟩
        rw [search_behind hline, hsearch, List.count_append, List.count_eq_zero_of_not_mem hfree,
          List.count_cons_self, Nat.zero_add, Nat.add_assoc, Nat.add_comm 1]
    · have hle : min offset (byteCount text) ≤ (encode text).length := by
        rw [length_encode]
        exact Nat.min_le_right _ _
      refine ⟨[], _, _, _, text, lineBytes_last (newlineByte_notMem_encode hmem) hle, ?_, ?_⟩
      · rw [splitLines_of_not_mem hmem, LinePoint.search, List.length_take, Nat.min_eq_left hle]
        rfl
      · exact (List.take_append_drop _ _).symm

/-- The line of an offset is found from the bytes: its number counts the newlines before the offset,
the column is how far the offset stands behind the last of them, and the text goes on up to the next
one. An offset past the end is taken for the end. -/
theorem lineAt_bytes (source : String) (position : UInt32) :
    let offset := min position.toNat source.utf8ByteSize
    let point := lineAt source position
    ∃ past left right rest, LineBytes (bytes source) offset past left right rest ∧
      point.number = 1 + ((bytes source).take offset).count newlineByte ∧
      point.column = offset - past.length ∧ bytes point.text = left ++ right := by
  intro offset point
  obtain ⟨past, left, right, rest, line, hplace, hsearch, hline⟩ :=
    search_bytes source.toList 1 position.toNat
  rw [byteCount_toList, ← bytes_eq] at hplace
  have hpoint : point = ⟨1 + past.count newlineByte, String.ofList line, left.length⟩ := hsearch
  refine ⟨past, left, right, rest, hplace, ?_, ?_, ?_⟩
  · rw [hpoint, hplace.take, List.count_append, List.count_eq_zero_of_not_mem hplace.left,
      Nat.add_zero]
  · have hoffset : offset = (past ++ left).length := hplace.offset.symm
    rw [hpoint, hoffset, List.length_append, Nat.add_sub_cancel_left]
  · rw [hpoint, bytes_ofList, hline]

/-- An offset inside a character. -/
example : lineAt "a\nhé" 4 = ⟨2, "hé", 2⟩ := by decide +kernel

end ScriptSyntax
