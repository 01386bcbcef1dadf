/-! Byte offsets in a text that is stored as UTF-8. -/
namespace ScriptSyntax.Text

/-- The number of bytes that a text takes. -/
def byteCount : List Char → Nat
  | [] => 0
  | c :: text => c.utf8Size + byteCount text

@[simp] theorem byteCount_nil : byteCount [] = 0 := rfl

@[simp] theorem byteCount_cons (c : Char) (text : List Char) :
    byteCount (c :: text) = c.utf8Size + byteCount text := rfl

@[simp] theorem byteCount_append (a b : List Char) :
    byteCount (a ++ b) = byteCount a + byteCount b := by
  induction a with
  | nil => simp
  | cons c a ih => simp [ih, Nat.add_assoc]

theorem byteCount_eq_zero_iff {text : List Char} : byteCount text = 0 ↔ text = [] := by
  cases text with
  | nil => simp
  | cons c text =>
    have hpos := c.utf8Size_pos
    rw [byteCount_cons]
    exact ⟨fun h => by omega, nofun⟩

theorem length_le_byteCount (text : List Char) : text.length ≤ byteCount text := by
  induction text with
  | nil => exact Nat.le_refl 0
  | cons c text ih =>
    have hpos := c.utf8Size_pos
    rw [List.length_cons, byteCount_cons]
    omega

/-- A text of characters that take a byte each. -/
theorem byteCount_of_single {text : List Char} (h : ∀ c ∈ text, c.utf8Size = 1) :
    byteCount text = text.length := by
  induction text with
  | nil => rfl
  | cons c text ih =>
    obtain ⟨hc, htext⟩ := List.forall_mem_cons.1 h
    rw [byteCount_cons, hc, ih htext, List.length_cons, Nat.add_comm]

theorem utf8ByteSize_ofList (text : List Char) :
    (String.ofList text).utf8ByteSize = byteCount text := by
  rw [← String.size_toByteArray, String.toByteArray_ofList]
  induction text with
  | nil => rfl
  | cons c text ih =>
    rw [List.utf8Encode_cons, ByteArray.size_append, ih, byteCount_cons]
    simp [List.utf8Encode]

/-- A text cut at a byte offset. There is no cut inside a character or past the end. -/
def cutAt? : Nat → List Char → Option (List Char × List Char)
  | 0, text => some ([], text)
  | _ + 1, [] => none
  | n + 1, c :: text =>
    if c.utf8Size ≤ n + 1 then
      (cutAt? (n + 1 - c.utf8Size) text).map fun (before, after) => (c :: before, after)
    else none

theorem cutAt?_byteCount (before after : List Char) :
    cutAt? (byteCount before) (before ++ after) = some (before, after) := by
  induction before with
  | nil => exact cutAt?.eq_1 after
  | cons c before ih =>
    have hpos := c.utf8Size_pos
    obtain ⟨n, hn⟩ : ∃ n, c.utf8Size + byteCount before = n + 1 :=
      ⟨c.utf8Size + byteCount before - 1, by omega⟩
    have hrest : n + 1 - c.utf8Size = byteCount before := by omega
    rw [byteCount_cons, hn, List.cons_append, cutAt?, if_pos (by omega), hrest, ih]
    rfl

theorem cutAt?_eq_some {n : Nat} {text before after : List Char}
    (h : cutAt? n text = some (before, after)) : text = before ++ after ∧ byteCount before = n := by
  fun_induction cutAt? n text generalizing before with
  | case1 text =>
    obtain ⟨rfl, rfl⟩ := Prod.mk.inj (Option.some.inj h)
    exact ⟨rfl, rfl⟩
  | case2 | case4 => cases h
  | case3 n c text hle ih =>
    obtain ⟨⟨head, rest⟩, hcut, heq⟩ := Option.map_eq_some_iff.1 h
    obtain ⟨rfl, rfl⟩ := Prod.mk.inj heq
    obtain ⟨rfl, hcount⟩ := ih hcut
    exact ⟨rfl, by rw [byteCount_cons, hcount]; omega⟩

end ScriptSyntax.Text
