import ScriptSyntax.Proofs.Lexemes

/-! Which of its matches an expression prefers. A matcher that backtracks tries them in a fixed
order and takes the first one; for the patterns of the lexer, that is what they read. -/
namespace ScriptSyntax

namespace Regex
variable {test : Char → Bool} {c : Char} {a s t : List Char} {r r' : Regex}

/-- What the matches at the beginning of a text leave of it, in the order in which they are tried: a
left alternative before the right one, and a repetition as often as possible, each time over some
text. -/
def rests : Regex → List Char → List (List Char)
  | one _, [] => []
  | one test, c :: s => if test c then [s] else []
  | empty, s => [s]
  | seq r r', s => (r.rests s).flatMap fun t => r'.rests t
  | either r r', s => r.rests s ++ r'.rests s
  | many r, s =>
    ((r.rests s).flatMap fun t => if t.length < s.length then (many r).rests t else []) ++ [s]
termination_by r s => (r, s.length)

/-- What the preferred match leaves. -/
def rest? (r : Regex) (s : List Char) : Option (List Char) := (r.rests s).head?

/-- The preferred match. -/
def find? (r : Regex) (s : List Char) : Option (List Char) :=
  (r.rest? s).map fun t => s.take (s.length - t.length)

/-! All matches are tried, and nothing else. -/

private theorem mem_rests_many (ih : ∀ {s t}, t ∈ r.rests s ↔ ∃ a, r.Matches a ∧ s = a ++ t) :
    t ∈ (many r).rests s ↔ ∃ a, (many r).Matches a ∧ s = a ++ t := by
  constructor
  · intro h
    induction hn : s.length using Nat.strong_induction_on generalizing s with
    | _ n ihn =>
      rw [rests, List.mem_append, List.mem_flatMap, List.mem_singleton] at h
      rcases h with ⟨u, hu, h⟩ | rfl
      · split at h
        · next hlt =>
          obtain ⟨a, ha, rfl⟩ := ih.1 hu
          obtain ⟨_, ⟨items, hitems, rfl⟩, rfl⟩ := ihn u.length (hn ▸ hlt) h rfl
          exact ⟨_, ⟨a :: items, List.forall_mem_cons.2 ⟨ha, hitems⟩, rfl⟩, by simp⟩
        · cases h
      · exact ⟨[], ⟨[], nofun, rfl⟩, rfl⟩
  · rintro ⟨_, ⟨items, hitems, rfl⟩, rfl⟩
    induction items with
    | nil =>
      rw [rests]
      exact List.mem_append_right _ (List.mem_singleton_self _)
    | cons i items ihi =>
      obtain ⟨hi, hitems⟩ := List.forall_mem_cons.1 hitems
      have hrest := ihi hitems
      rw [List.flatten_cons, List.append_assoc]
      -- a repetition over no text adds nothing, so it can be left out
      rcases eq_or_ne i [] with rfl | hne
      · exact hrest
      · have hpos := List.length_pos_iff.2 hne
        rw [rests, List.mem_append]
        refine .inl (List.mem_flatMap.2 ⟨items.flatten ++ t, ih.2 ⟨i, hi, rfl⟩, ?_⟩)
        have hless : (items.flatten ++ t).length < (i ++ (items.flatten ++ t)).length := by
          simp only [List.length_append]
          omega
        rwa [if_pos hless]

theorem mem_rests : t ∈ r.rests s ↔ ∃ a, r.Matches a ∧ s = a ++ t := by
  induction r generalizing s t with
  | one test =>
    cases s with
    | nil =>
      constructor
      · rw [rests]
        exact nofun
      · rintro ⟨_, ⟨d, hd, rfl⟩, heq⟩
        cases heq
    | cons c s =>
      rw [rests]
      constructor
      · intro h
        split at h
        · next hc =>
          obtain rfl := List.mem_singleton.1 h
          exact ⟨[c], ⟨c, hc, rfl⟩, rfl⟩
        · cases h
      · rintro ⟨_, ⟨d, hd, rfl⟩, heq⟩
        obtain ⟨rfl, rfl⟩ := List.cons.inj heq
        rw [if_pos hd]
        exact List.mem_singleton_self _
  | empty =>
    rw [rests, List.mem_singleton]
    simp [Matches, eq_comm]
  | seq r r' ih ih' =>
    rw [rests, List.mem_flatMap]
    constructor
    · rintro ⟨u, hu, ht⟩
      obtain ⟨a, ha, rfl⟩ := ih.1 hu
      obtain ⟨b, hb, rfl⟩ := ih'.1 ht
      exact ⟨a ++ b, ⟨a, b, ha, hb, rfl⟩, (List.append_assoc _ _ _).symm⟩
    · rintro ⟨_, ⟨a, b, ha, hb, rfl⟩, rfl⟩
      exact ⟨b ++ t, ih.2 ⟨a, ha, List.append_assoc _ _ _⟩, ih'.2 ⟨b, hb, rfl⟩⟩
  | either r r' ih ih' =>
    rw [rests, List.mem_append, ih, ih', ← exists_or]
    simp only [Matches, or_and_right]
  | many r ih => exact mem_rests_many ih

/-- Where there is a match, one is found. -/
theorem find?_eq_none_iff : r.find? s = none ↔ ∀ a, a <+: s → ¬ r.Matches a := by
  rw [find?, Option.map_eq_none_iff, rest?, List.head?_eq_none_iff, List.eq_nil_iff_forall_not_mem]
  constructor
  · rintro h a ⟨t, rfl⟩ ha
    exact h t (mem_rests.2 ⟨a, ha, rfl⟩)
  · rintro h t ht
    obtain ⟨a, ha, rfl⟩ := mem_rests.1 ht
    exact h a (List.prefix_append _ _) ha

/-! The preferred match of a construct by those of its parts. -/

theorem rest?_one_cons (test : Char → Bool) (c : Char) (s : List Char) :
    (one test).rest? (c :: s) = if test c then some s else none := by
  rw [rest?, rests]
  split <;> rfl

theorem rest?_empty (s : List Char) : empty.rest? s = some s := by
  rw [rest?, rests]
  rfl

theorem rest?_seq (r r' : Regex) (s : List Char) :
    (seq r r').rest? s = (r.rests s).findSome? r'.rest? := by
  rw [rest?, rests, List.head?_flatMap]
  rfl

theorem rest?_either (r r' : Regex) (s : List Char) :
    (either r r').rest? s = (r.rest? s).or (r'.rest? s) := by
  rw [rest?, rests, List.head?_append]
  rfl

/-- A part that is there or not is taken if it is there. -/
theorem rest?_maybe (r : Regex) (s : List Char) :
    (maybe r).rest? s = some ((r.rest? s).getD s) := by
  rw [maybe, rest?_either, rest?_empty]
  cases r.rest? s <;> rfl

theorem rest?_one_seq (test : Char → Bool) (r : Regex) (c : Char) (s : List Char) :
    (seq (one test) r).rest? (c :: s) = if test c then r.rest? s else none := by
  rw [rest?_seq, rests]
  split <;> simp

theorem rest?_one_seq_nil (test : Char → Bool) (r : Regex) :
    (seq (one test) r).rest? [] = none := by
  rw [rest?_seq, rests]
  rfl

/-- Where the second part always matches, the first one never has to be tried again. -/
theorem rest?_seq_of_total (h : ∀ t, (r'.rest? t).isSome = true) (s : List Char) :
    (seq r r').rest? s = (r.rest? s).bind r'.rest? := by
  rw [rest?_seq, rest?]
  cases r.rests s with
  | nil => rfl
  | cons t ts =>
    obtain ⟨u, hu⟩ := Option.isSome_iff_exists.1 (h t)
    rw [List.findSome?_cons, hu]
    exact hu.symm

theorem rests_many_one (test : Char → Bool) (c : Char) (s : List Char) :
    (many (one test)).rests (c :: s) =
      (if test c then (many (one test)).rests s else []) ++ [c :: s] := by
  rw [rests, rests]
  split <;> simp

/-- A repetition takes the whole run. -/
theorem rest?_many_one (test : Char → Bool) (s : List Char) :
    (many (one test)).rest? s = some (s.dropWhile test) := by
  induction s with
  | nil =>
    rw [rest?, rests, rests]
    rfl
  | cons c s ih =>
    rw [rest?, rests_many_one, List.head?_append]
    by_cases hc : test c = true
    · rw [if_pos hc, List.dropWhile_cons_of_pos hc]
      exact (congrArg (Option.or · _) ih).trans rfl
    · rw [if_neg hc, List.dropWhile_cons_of_neg hc]
      rfl

theorem rest?_many1_one (test : Char → Bool) (s : List Char) : (many1 (one test)).rest? s =
    if s.takeWhile test = [] then none else some (s.dropWhile test) := by
  cases s with
  | nil => exact rest?_one_seq_nil _ _
  | cons c s =>
    rw [many1, rest?_one_seq, rest?_many_one]
    by_cases hc : test c = true
    · simp [hc]
    · simp [hc]

theorem rest?_literal (text s : List Char) : (literal text).rest? s =
    if text <+: s then some (s.drop text.length) else none := by
  induction text generalizing s with
  | nil =>
    rw [literal, List.foldr_nil, rest?_empty, if_pos List.nil_prefix]
    rfl
  | cons c text ih =>
    rw [literal, List.foldr_cons, ← literal.eq_1]
    cases s with
    | nil =>
      rw [char, rest?_one_seq_nil]
      simp
    | cons d s =>
      rw [char, rest?_one_seq, ih]
      by_cases hd : d = c
      · subst hd
        simp [List.cons_prefix_cons]
      · simp [List.cons_prefix_cons, hd, Ne.symm hd]

/-- With something behind it a repetition ends where it can go no further, or sooner if only then
the rest matches. -/
theorem rest?_many_seq (r r' : Regex) (s : List Char) : (seq (many r) r').rest? s =
    ((r.rests s).findSome? fun t =>
      if t.length < s.length then (seq (many r) r').rest? t else none).or (r'.rest? s) := by
  rw [rest?, rests, rests, List.flatMap_append, List.head?_append, List.flatMap_assoc,
    List.head?_flatMap, List.flatMap_singleton]
  congr 2
  funext t
  split
  · rw [rest?, rests]
  · rfl

end Regex

open Regex

namespace StringLiteral

/-- The items of a literal and the quote behind them. -/
private def body : Regex := .seq (.many stringItem) (.char '"')

private theorem body_item {s t : List Char} (h : stringItem.rests s = [t])
    (hlt : t.length < s.length) (hquote : (char '"').rest? s = none) :
    body.rest? s = body.rest? t := by
  rw [body, rest?_many_seq, h, hquote, List.findSome?_singleton, if_pos hlt, Option.or_none]

private theorem body_stop {s : List Char} (h : stringItem.rests s = []) :
    body.rest? s = (char '"').rest? s := by
  rw [body, rest?_many_seq, h, List.findSome?_nil, Option.none_or]

private theorem rest?_quote {c : Char} (h : c ≠ '"') (s : List Char) :
    (char '"').rest? (c :: s) = none := by
  rw [char, rest?_one_cons, if_neg (by simpa using h)]

private theorem body_eq (s : List Char) :
    body.rest? s = (tail? s).map fun t => s.drop t.length := by
  fun_induction tail? s with
  | case1 rest =>
    rw [body_stop (by simp [stringItem, rests, char]), char, rest?_one_cons]
    rfl
  | case2 | case4 | case5 =>
    rw [body_stop (by simp [stringItem, rests, char]), rest?_quote (by decide)]
    rfl
  | case3 c rest hline ih =>
    have hitem : stringItem.rests ('\\' :: c :: rest) = [rest] := by
      simp [stringItem, rests, char, hline]
    rw [body_item hitem (by rw [List.length_cons, List.length_cons]; omega)
      (rest?_quote (by decide) _), ih, Option.map_map]
    rfl
  | case6 c rest hquote hslash hlast hline ih =>
    have hitem : stringItem.rests (c :: rest) = [rest] := by
      have hs := ne_slash hslash hlast
      have hq : c ≠ '"' := hquote
      have hl : c ≠ '\n' := hline
      simp [stringItem, rests, char, hs, hq, hl]
    rw [body_item hitem (Nat.lt_succ_self _) (rest?_quote hquote _), ih, Option.map_map]
    rfl
  | case7 =>
    rw [body_stop (by simp [stringItem, rests, char]), char, rest?, rests]
    rfl

/-- A literal ends with the first quote that no backslash stands before. -/
theorem rest?_string (s : List Char) : Pattern.string.regex.rest? s =
    (Pattern.readString? s).map fun piece => s.drop piece.length := by
  cases s with
  | nil => exact rest?_one_seq_nil _ _
  | cons c s =>
    rw [Pattern.regex, char, rest?_one_seq]
    by_cases hc : c = '"'
    · subst hc
      rw [if_pos (decide_eq_true rfl), Pattern.readString?, Option.map_map]
      exact body_eq s
    · rw [if_neg (by simpa using hc), Pattern.readString?_none hc]
      rfl

end StringLiteral

namespace Pattern
variable {p : Pattern} {text piece : List Char}

private theorem drop_takeWhile (test : Char → Bool) (s : List Char) :
    s.drop (s.takeWhile test).length = s.dropWhile test := by
  have h := @List.drop_left _ (s.takeWhile test) (s.dropWhile test)
  rwa [List.takeWhile_append_dropWhile] at h

private theorem rest?_fraction (s : List Char) :
    (maybe (.seq (.char '.') (.many1 (.one Char.isDigit)))).rest? s =
      some (s.drop (fractionPart s).length) := by
  rw [rest?_maybe, char]
  cases s with
  | nil =>
    rw [rest?_one_seq_nil]
    rfl
  | cons c s =>
    rw [rest?_one_seq, rest?_many1_one]
    by_cases hc : c = '.'
    · subst hc
      rw [if_pos (decide_eq_true rfl)]
      by_cases hs : s.takeWhile Char.isDigit = []
      · simp [fractionPart, hs]
      · rw [if_neg hs, fractionPart_eq hs, List.length_cons, List.drop_succ_cons, drop_takeWhile]
        rfl
    · rw [if_neg (by simpa using hc), fractionPart_none hc]
      rfl

/-- What a pattern reads is the preferred match of its expression. -/
theorem rest?_regex (hp : p ∈ all) (text : List Char) :
    p.regex.rest? text = (p.read? text).map fun piece => text.drop piece.length := by
  cases p with
  | word =>
    cases text with
    | nil => exact rest?_one_seq_nil _ _
    | cons c text =>
      rw [regex, rest?_one_seq, rest?_many_one, read?, readWord?]
      split
      · simp [drop_takeWhile]
      · rfl
  | number =>
    rw [regex, rest?_seq_of_total fun t => by rw [rest?_fraction]; rfl]
    rw [rest?_many1_one, read?]
    by_cases hdigits : text.takeWhile Char.isDigit = []
    · rw [if_pos hdigits, readNumber?, hdigits]
      rfl
    · rw [if_neg hdigits, readNumber?_eq hdigits, Option.bind_some, rest?_fraction, Option.map_some,
        List.length_append, ← List.drop_drop, drop_takeWhile]
  | blanks =>
    rw [regex, rest?_many1_one, read?]
    by_cases hblanks : text.takeWhile isBlank = []
    · rw [if_pos hblanks, readBlanks?, hblanks]
      rfl
    · rw [if_neg hblanks, readBlanks?_eq hblanks, Option.map_some, drop_takeWhile]
  | newLine =>
    cases text with
    | nil =>
      rw [regex, char, rest?, rests]
      rfl
    | cons c text =>
      rw [regex, char, rest?_one_cons, read?]
      by_cases hc : c = '\n'
      · subst hc
        rfl
      · rw [if_neg (by simpa using hc), readNewLine?_none hc]
        rfl
  | string => exact StringLiteral.rest?_string text
  | comment =>
    rw [regex, char, read?]
    rcases text with _ | ⟨c, _ | ⟨d, text⟩⟩
    · exact rest?_one_seq_nil _ _
    · rw [rest?_one_seq, rest?_one_seq_nil, ite_self, readComment?_none (by simp)]
      rfl
    · have hnone (h : ¬(c = '/' ∧ d = '/')) : readComment? (c :: d :: text) = none :=
        readComment?_none fun ds heq =>
          h ⟨(List.cons.inj heq).1, (List.cons.inj (List.cons.inj heq).2).1⟩
      rw [rest?_one_seq, rest?_one_seq, rest?_many_one]
      by_cases hc : c = '/'
      · by_cases hd : d = '/'
        · subst hc hd
          simp [readComment?, drop_takeWhile]
        · rw [hnone fun h => hd h.2]
          simp [hd]
      · rw [hnone fun h => hc h.1]
        simp [hc]
  | symbol s =>
    have hs : s ≠ [] := Lexeme.symbols_ne_nil s (by simpa [all] using hp)
    rw [regex, rest?_literal, read?, readSymbol?]
    by_cases hpre : s <+: text
    · rw [if_pos hpre, if_pos ⟨hs, hpre⟩]
      rfl
    · rw [if_neg hpre, if_neg fun h => hpre h.2]
      rfl

/-- The lexer's own reading is matching by preference. -/
theorem find?_regex (hp : p ∈ all) (text : List Char) : p.regex.find? text = p.read? text := by
  rw [find?, rest?_regex hp, Option.map_map]
  cases hread : p.read? text with
  | none => rfl
  | some piece =>
    obtain ⟨-, rest, rfl⟩ := read?_isPrefix hread
    simp

end Pattern
end ScriptSyntax
