import Mathlib.Data.List.TakeWhile
import ScriptSyntax.Text.Quoted

/-! Quoted texts. Where one begins another text, it can be told where it ends and what it quotes. -/
namespace ScriptSyntax

/-- Two texts that begin with runs, with what ends the runs behind them, begin with the same run. -/
theorem run_append_inj {α : Type} {p : α → Bool} {xs ys us vs : List α} (hxs : ∀ x ∈ xs, p x = true)
    (hys : ∀ y ∈ ys, p y = true) (hus : ∀ u ∈ us.head?, p u = false)
    (hvs : ∀ v ∈ vs.head?, p v = false) (h : xs ++ us = ys ++ vs) : xs = ys ∧ us = vs := by
  have hrun {zs ws : List α} (hzs : ∀ z ∈ zs, p z = true) (hws : ∀ w ∈ ws.head?, p w = false) :
      (zs ++ ws).takeWhile p = zs := by
    rw [List.takeWhile_append_of_pos hzs]
    cases ws with
    | nil => rw [List.takeWhile_nil, List.append_nil]
    | cons w ws =>
      rw [List.takeWhile_cons_of_neg (by simp [hws w rfl]), List.append_nil]
  have hsame : xs = ys := by rw [← hrun hxs hus, h, hrun hys hvs]
  subst hsame
  exact ⟨rfl, List.append_cancel_left h⟩

/-! Hexadecimal digits. -/

private theorem digitChar_inj : ∀ m < 16, ∀ n < 16, Nat.digitChar m = Nat.digitChar n → m = n := by
  decide

theorem toDigits_hex_inj {m n : Nat} (h : Nat.toDigits 16 m = Nat.toDigits 16 n) : m = n := by
  have hlast (k : Nat) : Nat.toDigits 16 k =
      (if k < 16 then [] else Nat.toDigits 16 (k / 16)) ++ [Nat.digitChar (k % 16)] := by
    rw [Nat.toDigits_eq_if (by decide)]
    split
    · next hk => rw [Nat.mod_eq_of_lt hk, List.nil_append]
    · rfl
  induction m using Nat.strong_induction_on generalizing n with
  | _ m ih =>
    rw [hlast m, hlast n] at h
    obtain ⟨hinit, hdigit⟩ := List.append_inj' h rfl
    have hmod := digitChar_inj _ (Nat.mod_lt m (by decide)) _ (Nat.mod_lt n (by decide))
      (List.singleton_inj.1 hdigit)
    by_cases hm : m < 16 <;> by_cases hn : n < 16
    · omega
    · rw [if_pos hm, if_neg hn] at hinit
      exact absurd hinit.symm Nat.toDigits_ne_nil
    · rw [if_neg hm, if_pos hn] at hinit
      exact absurd hinit Nat.toDigits_ne_nil
    · rw [if_neg hm, if_neg hn] at hinit
      have hdiv := ih (m / 16) (by omega) hinit
      omega

theorem toDigits_hex_digitChar {n : Nat} {c : Char} (h : c ∈ Nat.toDigits 16 n) :
    ∃ k, c = Nat.digitChar k := by
  induction n using Nat.strong_induction_on with
  | _ n ih =>
    rw [Nat.toDigits_eq_if (by decide)] at h
    split at h
    · exact ⟨n, List.mem_singleton.1 h⟩
    · rcases List.mem_append.1 h with h | h
      · exact ih (n / 16) (by omega) h
      · exact ⟨_, List.mem_singleton.1 h⟩

namespace Text
variable {c d : Char} {cs ds us vs xs ys quotes : List Char}

/-- What the letter after a backslash stands for. A `u` stands for nothing alone. -/
def meaning? : Char → Option Char
  | '0' => some '\x00'
  | 't' => some '\t'
  | 'r' => some '\r'
  | 'n' => some '\n'
  | '\\' => some '\\'
  | '"' => some '"'
  | _ => none

/-- The marks that texts are quoted with. -/
def quotationMarks : List Char := ['"', '\'']

/-- What a character after a backslash stands for where some marks are escaped. -/
def meaningIn? (quotes : List Char) (l : Char) : Option Char :=
  if l ∈ quotes then some l else meaning? l

/-- The forms that a character takes where some marks are escaped. -/
inductive Escape (quotes : List Char) (c : Char) : List Char → Prop
  | plain (hslash : c ≠ '\\') (hquote : c ∉ quotes) : Escape quotes c [c]
  | letter {l : Char} (hl : meaningIn? quotes l = some c) : Escape quotes c ['\\', l]
  | codePoint : Escape quotes c (codePointEscape c)

/-- The forms of the characters of a text one after the other. -/
inductive Escapes (quotes : List Char) : List Char → List Char → Prop
  | nil : Escapes quotes [] []
  | cons {c : Char} {cs xs ys : List Char} (hc : Escape quotes c xs)
    (hcs : Escapes quotes cs ys) : Escapes quotes (c :: cs) (xs ++ ys)

theorem meaning?_of_shortEscape? {l : Char} (h : shortEscape? c = some l) :
    meaning? l = some c := by
  unfold shortEscape? at h
  split at h <;> cases h <;> rfl

theorem codePointEscape_append_inj (h : codePointEscape c ++ us = codePointEscape d ++ vs) :
    c = d ∧ us = vs := by
  have hdigits (e : Char) : ∀ x ∈ Nat.toDigits 16 e.toNat, (x != '\x7d') = true := by
    intro x hx
    obtain ⟨k, rfl⟩ := toDigits_hex_digitChar hx
    exact bne_iff_ne.2 (Nat.digitChar_ne '\x7d' rfl)
  simp only [codePointEscape, List.append_assoc] at h
  obtain ⟨hsame, hrest⟩ := run_append_inj (hdigits c) (hdigits d) (by simp) (by simp)
    (List.append_cancel_left h)
  exact ⟨Char.toNat_inj.1 (toDigits_hex_inj hsame), (List.cons.inj hrest).2⟩

section
variable (hquotes : quotes ⊆ quotationMarks)
include hquotes

/-- What is no mark has its usual meaning after a backslash, also where marks are escaped. -/
theorem meaningIn?_of_notMem {l : Char} (hl : l ∉ quotationMarks) :
    meaningIn? quotes l = meaning? l := if_neg fun hmem => hl (hquotes hmem)

theorem escapeChar_escape (marks : Bool) (c : Char) :
    Escape quotes c (escapeChar quotes marks c) := by
  rw [escapeChar]
  split
  · next l h =>
    have hl : l ∉ quotationMarks := by
      unfold shortEscape? at h
      split at h <;> cases h <;> decide
    exact .letter ((meaningIn?_of_notMem hquotes hl).trans (meaning?_of_shortEscape? h))
  · next h =>
    have hslash : c ≠ '\\' := by
      rintro rfl
      cases h
    split
    · next hquote => exact .letter (if_pos hquote)
    · next hquote =>
      split
      · exact .codePoint
      · exact .plain hslash hquote

theorem flatMap_escapes (marks : Bool) (cs : List Char) :
    Escapes quotes cs (cs.flatMap (escapeChar quotes marks)) := by
  induction cs with
  | nil => exact .nil
  | cons c cs ih => exact .cons (escapeChar_escape hquotes marks c) ih

/-- No form of a character begins with a mark that is escaped. -/
theorem Escape.exists_cons (h : Escape quotes c xs) : ∃ y ys, xs = y :: ys ∧ y ∉ quotes := by
  have hslash : '\\' ∉ quotes := fun hmem => absurd (hquotes hmem) (by decide)
  cases h with
  | plain _ hquote => exact ⟨_, _, rfl, hquote⟩
  | letter | codePoint => exact ⟨_, _, rfl, hslash⟩

/-- An escaped character can be told from what follows. -/
theorem Escape.append_inj (hc : Escape quotes c xs) (hd : Escape quotes d ys)
    (h : xs ++ us = ys ++ vs) : c = d ∧ us = vs := by
  have hu : meaningIn? quotes 'u' = none := meaningIn?_of_notMem hquotes (by decide)
  cases hc with
  | plain hslash hquote =>
    cases hd with
    | plain => exact List.cons.inj h
    | letter => exact absurd (List.cons.inj h).1 hslash
    | codePoint => exact absurd (List.cons.inj h).1 hslash
  | letter hl =>
    cases hd with
    | plain hslash => exact absurd (List.cons.inj h).1.symm hslash
    | letter hl' =>
      obtain ⟨hsame, hrest⟩ := List.cons.inj (List.cons.inj h).2
      rw [hsame, hl'] at hl
      exact ⟨(Option.some.inj hl).symm, hrest⟩
    | codePoint =>
      obtain rfl := (List.cons.inj (List.cons.inj h).2).1
      exact nomatch hu.symm.trans hl
  | codePoint =>
    cases hd with
    | plain hslash => exact absurd (List.cons.inj h).1.symm hslash
    | letter hl =>
      obtain rfl := (List.cons.inj (List.cons.inj h).2).1
      exact nomatch hu.symm.trans hl
    | codePoint => exact codePointEscape_append_inj h

/-- An escaped text can be told from what follows, if this begins with a mark. -/
theorem Escapes.append_inj (hcs : Escapes quotes cs xs) (hds : Escapes quotes ds ys)
    (hus : ∀ u ∈ us.head?, u ∈ quotes) (hvs : ∀ v ∈ vs.head?, v ∈ quotes)
    (h : xs ++ us = ys ++ vs) : cs = ds ∧ us = vs := by
  induction hcs generalizing ds ys with
  | nil =>
    cases hds with
    | nil => exact ⟨rfl, h⟩
    | cons hd =>
      obtain ⟨y, ys, rfl, hy⟩ := hd.exists_cons hquotes
      rw [List.nil_append] at h
      exact absurd (hus y (by rw [h]; rfl)) hy
  | cons hc _ ih =>
    rw [List.append_assoc] at h
    cases hds with
    | nil =>
      obtain ⟨y, ys, rfl, hy⟩ := hc.exists_cons hquotes
      rw [List.nil_append] at h
      exact absurd (hvs y (by rw [← h]; rfl)) hy
    | cons hd hds =>
      rw [List.append_assoc] at h
      obtain ⟨rfl, hrest⟩ := hc.append_inj hquotes hd h
      obtain ⟨rfl, hend⟩ := ih hds hrest
      exact ⟨rfl, hend⟩

/-- Newlines are escaped. -/
theorem newline_notMem_escapeChar (marks : Bool) (c : Char) :
    '\n' ∉ escapeChar quotes marks c := by
  have hform {cs : List Char} (h : Escape quotes c cs) (hc : c ≠ '\n') : '\n' ∉ cs := by
    cases h with
    | plain => simpa using Ne.symm hc
    | letter hl =>
      have hline : meaningIn? quotes '\n' = none := meaningIn?_of_notMem hquotes (by decide)
      rintro (_ | ⟨_, _ | ⟨_, hnil⟩⟩)
      · exact nomatch hline.symm.trans hl
      · cases hnil
    | codePoint =>
      have hdigits : '\n' ∉ Nat.toDigits 16 c.toNat := by
        intro hmem
        obtain ⟨k, hk⟩ := toDigits_hex_digitChar hmem
        exact Nat.digitChar_ne '\n' rfl hk.symm
      simp [codePointEscape, hdigits]
  rcases eq_or_ne c '\n' with rfl | hc
  · simp [escapeChar, shortEscape?]
  · exact hform (escapeChar_escape hquotes marks c) hc

end

/-! Texts in quotation marks. -/

theorem toList_quoted (text : String) : (quoted text).toList =
    '"' :: (text.toList.flatMap (escapeChar ['"'] true) ++ ['"']) :=
  String.toList_ofList

theorem newline_notMem_quoted (text : String) : '\n' ∉ (quoted text).toList := by
  rw [toList_quoted]
  simp [newline_notMem_escapeChar (show ['"'] ⊆ quotationMarks by decide)]

/-- A quoted text can be told from what follows. -/
theorem quoted_append_inj {a b : String}
    (h : (quoted a).toList ++ us = (quoted b).toList ++ vs) : a = b ∧ us = vs := by
  have hquotes : ['"'] ⊆ quotationMarks := by decide
  rw [toList_quoted, toList_quoted, List.cons_append, List.cons_append, List.append_assoc,
    List.append_assoc] at h
  obtain ⟨hsame, hrest⟩ := (flatMap_escapes hquotes true _).append_inj hquotes
    (flatMap_escapes hquotes true _) (by simp) (by simp) (List.cons.inj h).2
  exact ⟨String.toList_inj.1 hsame, (List.cons.inj hrest).2⟩

/-! Texts without quotation marks around them. -/

theorem escaped_escapes (text : String) :
    Escapes quotationMarks text.toList (escaped text).toList := by
  rw [escaped]
  cases text.toList with
  | nil => exact .nil
  | cons c cs =>
    rw [String.toList_ofList]
    exact .cons (escapeChar_escape (List.Subset.refl _) true c)
      (flatMap_escapes (List.Subset.refl _) false cs)

theorem escaped_injective : Function.Injective escaped := by
  intro a b h
  have hlists : (escaped a).toList ++ [] = (escaped b).toList ++ [] := by rw [h]
  exact String.toList_inj.1 ((escaped_escapes a).append_inj (List.Subset.refl _)
    (escaped_escapes b) (by simp) (by simp) hlists).1

theorem newline_notMem_escaped (text : String) : '\n' ∉ (escaped text).toList := by
  rw [escaped]
  cases text.toList with
  | nil => exact List.not_mem_nil
  | cons c cs =>
    rw [String.toList_ofList]
    simp [newline_notMem_escapeChar (show ['"', '\''] ⊆ quotationMarks by decide)]

end Text
end ScriptSyntax
