import Mathlib.Data.List.Chain
import ScriptSyntax.Proofs.LayingOut

/-! The layout of any text, whether or not its parentheses and quotation marks are closed. No break
is followed by a space that was in the text, so the text can be had back, and each break is followed
by a space, so the lines of one text are told from the next text. No block is opened in what has
been laid out, so there is nothing left to break in it. -/
namespace ScriptSyntax
namespace Layout
variable {quoted : Bool} {depth depth' : Int32} {blocks : List Int32}
  {text out cs rest : List Char} {c : Char}

/-! How the scanner goes through a text. -/

theorem spread_other (hquote : c ≠ '"') (hopen : c ≠ '(') (hclose : c ≠ ')') (hspace : c ≠ ' ')
    (rest : List Char) :
    spread false depth blocks (c :: rest) = c :: spread false depth blocks rest := by
  rw [spread.eq_def]
  dsimp only
  rw [if_neg Bool.false_ne_true]
  split
  · exact absurd rfl hquote
  · exact absurd rfl hopen
  · exact absurd rfl hclose
  · exact absurd rfl hspace
  · rfl

/-- A space is kept where no entry is expected. -/
theorem spread_kept (hquote : c ≠ '"') (hopen : c ≠ '(') (hclose : c ≠ ')')
    (hspace : c = ' ' → blocks.head? ≠ some depth) (rest : List Char) :
    spread false depth blocks (c :: rest) = c :: spread false depth blocks rest := by
  by_cases hc : c = ' '
  · subst hc
    rw [spread_space, if_neg (hspace rfl), List.singleton_append]
  · exact spread_other hquote hopen hclose hc rest

/-- Induction on what is left of a text, with a case for each step of the scanner. -/
@[elab_as_elim]
theorem spread_induction {motive : Bool → Int32 → List Int32 → List Char → Prop}
    (done : ∀ quoted depth blocks, motive quoted depth blocks [])
    (escape : ∀ depth blocks d rest, motive true depth blocks rest →
      motive true depth blocks ('\\' :: d :: rest))
    (trailing : ∀ depth blocks, motive true depth blocks ['\\'])
    (unquote : ∀ depth blocks rest, motive false depth blocks rest →
      motive true depth blocks ('"' :: rest))
    (inside : ∀ depth blocks c rest, c ≠ '\\' → c ≠ '"' → motive true depth blocks rest →
      motive true depth blocks (c :: rest))
    (quote : ∀ depth blocks rest, motive true depth blocks rest →
      motive false depth blocks ('"' :: rest))
    (opening : ∀ depth blocks rest,
      motive false (depth + 1) (if blockHead <+: rest then (depth + 1) :: blocks else blocks) rest →
      motive false depth blocks ('(' :: rest))
    (closing : ∀ depth blocks rest,
      motive false (depth - 1) (if blocks.head? = some depth then blocks.tail else blocks) rest →
      motive false depth blocks (')' :: rest))
    (space : ∀ depth blocks rest, motive false depth blocks rest →
      motive false depth blocks (' ' :: rest))
    (other : ∀ depth blocks c rest, c ≠ '"' → c ≠ '(' → c ≠ ')' → c ≠ ' ' →
      motive false depth blocks rest → motive false depth blocks (c :: rest))
    (quoted : Bool) (depth : Int32) (blocks : List Int32) (text : List Char) :
    motive quoted depth blocks text := by
  induction quoted, depth, blocks, text using spread.induct with
  | case1 quoted depth blocks => exact done quoted depth blocks
  | case2 depth blocks d rest ih => exact escape depth blocks d rest ih
  | case3 depth blocks rest ih => exact unquote depth blocks rest ih
  | case4 depth blocks c rest hpair hquote ih =>
    by_cases hslash : c = '\\'
    · obtain rfl : rest = [] := by
        cases rest with
        | nil => rfl
        | cons d rest => exact (hpair d rest hslash rfl).elim
      subst hslash
      exact trailing depth blocks
    · exact inside depth blocks c rest hslash hquote ih
  | case5 quoted depth blocks rest hquoted ih =>
    obtain rfl := Bool.eq_false_iff.2 hquoted
    exact quote depth blocks rest ih
  | case6 quoted depth blocks rest hquoted _ ih =>
    obtain rfl := Bool.eq_false_iff.2 hquoted
    exact opening depth blocks rest ih
  | case7 quoted depth blocks rest hquoted _ ih =>
    obtain rfl := Bool.eq_false_iff.2 hquoted
    exact closing depth blocks rest ih
  | case8 quoted depth blocks rest hquoted ih =>
    obtain rfl := Bool.eq_false_iff.2 hquoted
    exact space depth blocks rest ih
  | case9 quoted depth blocks rest hquoted c hquote hopen hclose hspace ih =>
    obtain rfl := Bool.eq_false_iff.2 hquoted
    exact other depth blocks c rest hquote hopen hclose hspace ih

/-! Nothing is lost. -/

/-- A text with a single space for the end of each line and all spaces behind it. That the text is
`indented` says that a line ended before it, with spaces at most since then. -/
def joined (indented : Bool) : List Char → List Char
  | [] => []
  | c :: cs =>
    if c = '\n' then ' ' :: joined true cs
    else if c = ' ' ∧ indented then joined true cs
    else c :: joined false cs

theorem joined_cons {indented : Bool} (hline : c ≠ '\n') (hkept : c ≠ ' ' ∨ indented = false) :
    joined indented (c :: cs) = c :: joined false cs := by
  have hstays : ¬(c = ' ' ∧ indented = true) := by
    rintro ⟨rfl, rfl⟩
    simp at hkept
  rw [joined, if_neg hline, if_neg hstays]

theorem joined_lineBreak (indented : Bool) (levels : Nat) :
    joined indented (lineBreak levels ++ cs) = ' ' :: joined true cs := by
  have hspaces (n : Nat) : joined true (List.replicate n ' ' ++ cs) = joined true cs := by
    induction n with
    | zero => rfl
    | succ n ih =>
      rw [List.replicate_succ, List.cons_append, joined, if_neg (by decide), if_pos ⟨rfl, rfl⟩, ih]
  rw [lineBreak, List.cons_append, joined, if_pos rfl, hspaces]

/-- What is not a space stands first before and after the lines are put together. -/
theorem exists_of_joined_cons (h : joined false out = c :: cs) (hc : c ≠ ' ') :
    ∃ rest, out = c :: rest := by
  cases out with
  | nil => cases h
  | cons d rest =>
    by_cases hline : d = '\n'
    · rw [joined, if_pos hline] at h
      exact absurd (List.cons.inj h).1.symm hc
    · rw [joined_cons hline (.inr rfl)] at h
      exact ⟨rest, congrArg (· :: rest) (List.cons.inj h).1⟩

/-- Put together again, what a text without newlines is broken into is the text. Where a break has
just been written, one more space of the text would have been broken, too. -/
theorem joined_spread (indented : Bool) (hline : '\n' ∉ text)
    (hindented : indented = true → quoted = false ∧ blocks.head? = some depth) :
    joined indented (spread quoted depth blocks text) = text := by
  induction quoted, depth, blocks, text using spread_induction generalizing indented with
  | done => rfl
  | escape depth blocks d rest ih =>
    obtain ⟨-, hd, hrest⟩ : '\n' ≠ '\\' ∧ '\n' ≠ d ∧ '\n' ∉ rest := by simpa using hline
    rw [spread_escape, joined_cons (by decide) (.inl (by decide)), joined_cons hd.symm (.inr rfl),
      ih false hrest nofun]
  | trailing => rfl
  | unquote depth blocks rest ih =>
    rw [spread_unquote, joined_cons (by decide) (.inl (by decide)),
      ih false (mt (List.mem_cons_of_mem _) hline) nofun]
  | inside depth blocks c rest hslash hquote ih =>
    obtain ⟨hc, hrest⟩ := List.ne_and_not_mem_of_not_mem_cons hline
    have hwhole : indented = false :=
      Bool.eq_false_iff.2 fun h => absurd (hindented h).1 (by decide)
    rw [spread_inside hslash hquote, joined_cons hc.symm (.inr hwhole), ih false hrest nofun]
  | quote depth blocks rest ih =>
    rw [spread_quote, joined_cons (by decide) (.inl (by decide)),
      ih false (mt (List.mem_cons_of_mem _) hline) nofun]
  | opening depth blocks rest ih =>
    rw [spread_open, joined_cons (by decide) (.inl (by decide)),
      ih false (mt (List.mem_cons_of_mem _) hline) nofun]
  | closing depth blocks rest ih =>
    rw [spread_close, joined_cons (by decide) (.inl (by decide)),
      ih false (mt (List.mem_cons_of_mem _) hline) nofun]
  | space depth blocks rest ih =>
    have hrest : '\n' ∉ rest := mt (List.mem_cons_of_mem _) hline
    rw [spread_space]
    split
    · next hhead => rw [joined_lineBreak, ih true hrest fun _ => ⟨rfl, hhead⟩]
    · next hhead =>
      have hwhole : indented = false := Bool.eq_false_iff.2 fun h => hhead (hindented h).2
      rw [List.singleton_append, joined_cons (by decide) (.inr hwhole), ih false hrest nofun]
  | other depth blocks c rest hquote hopen hclose hspace ih =>
    obtain ⟨hc, hrest⟩ := List.ne_and_not_mem_of_not_mem_cons hline
    rw [spread_other hquote hopen hclose hspace, joined_cons hc.symm (.inl hspace),
      ih false hrest nofun]

/-! Lines. -/

/-- Whether a character and the next one belong together when a text is cut before each of its lines
that does not begin with a space. -/
def together (c next : Char) : Bool := c ≠ '\n' || next = ' '

/-- No line but the first one begins with something else than a space. -/
def Indented (text : List Char) : Prop := text.IsChain fun c next => together c next = true

theorem Indented.cons (h : Indented cs) (hc : c ≠ '\n') : Indented (c :: cs) :=
  List.isChain_cons.2 ⟨fun next _ => by rw [together, decide_eq_true hc, Bool.true_or], h⟩

theorem Indented.lineBreak {levels : Nat} (h : Indented cs) (hlevels : 0 < levels) :
    Indented (lineBreak levels ++ cs) := by
  have hspaces (n : Nat) : Indented (List.replicate n ' ' ++ cs) := by
    induction n with
    | zero => exact h
    | succ n ih => exact ih.cons (by decide)
  obtain ⟨n, hn⟩ : ∃ n, 2 * levels = n + 1 := ⟨2 * levels - 1, by omega⟩
  rw [Layout.lineBreak, hn]
  refine List.isChain_cons.2 ⟨fun next hnext => ?_, hspaces (n + 1)⟩
  obtain rfl : ' ' = next := Option.some.inj hnext
  rfl

/-- A line break is written in a block only, and a block has its level. -/
theorem indented_spread (hline : '\n' ∉ text) :
    Indented (spread quoted depth blocks text ++ ['\n']) := by
  have hslash : '\\' ≠ '\n' := by decide
  have hend : Indented ['\n'] := List.isChain_singleton _
  induction quoted, depth, blocks, text using spread_induction with
  | done => exact hend
  | escape depth blocks d rest ih =>
    obtain ⟨-, hd, hrest⟩ : '\n' ≠ '\\' ∧ '\n' ≠ d ∧ '\n' ∉ rest := by simpa using hline
    exact ((ih hrest).cons hd.symm).cons hslash
  | trailing => exact hend.cons hslash
  | unquote _ _ _ ih | quote _ _ _ ih | opening _ _ _ ih | closing _ _ _ ih =>
    exact (ih (mt (List.mem_cons_of_mem _) hline)).cons (by decide)
  | inside depth blocks c rest hslash hquote ih =>
    obtain ⟨hc, hrest⟩ := List.ne_and_not_mem_of_not_mem_cons hline
    rw [spread_inside hslash hquote]
    exact (ih hrest).cons hc.symm
  | space depth blocks rest ih =>
    have hnext := ih (mt (List.mem_cons_of_mem _) hline)
    rw [spread_space, List.append_assoc]
    split
    · next hhead =>
      obtain ⟨ds, rfl⟩ := List.head?_eq_some_iff.1 hhead
      exact hnext.lineBreak ds.length.succ_pos
    · exact hnext.cons (by decide)
  | other depth blocks c rest hquote hopen hclose hspace ih =>
    obtain ⟨hc, hrest⟩ := List.ne_and_not_mem_of_not_mem_cons hline
    rw [spread_other hquote hopen hclose hspace]
    exact (ih hrest).cons hc.symm

/-! Nothing is left to break. -/

/-- Outside every block a line break is left alone. -/
theorem spread_lineBreak (levels : Nat) (rest : List Char) :
    spread false depth [] (lineBreak levels ++ rest) =
      lineBreak levels ++ spread false depth [] rest := by
  have hspaces (n : Nat) : spread false depth [] (List.replicate n ' ' ++ rest) =
      List.replicate n ' ' ++ spread false depth [] rest := by
    induction n with
    | zero => rfl
    | succ n ih =>
      rw [List.replicate_succ, List.cons_append, spread_space, ih]
      rfl
  rw [lineBreak, List.cons_append,
    spread_other (by decide) (by decide) (by decide) (by decide), hspaces, List.cons_append]

/-- A character of a word, or a space, in front of what was written stood in front of the text. -/
theorem exists_of_spread_cons (h : spread false depth blocks text = c :: out)
    (hc : isPlain c = true ∨ c = ' ') :
    ∃ rest, text = c :: rest ∧ spread false depth blocks rest = out := by
  cases text with
  | nil => cases h
  | cons d rest =>
    by_cases hmark : d = '"' ∨ d = '(' ∨ d = ')'
    · -- these are written as they are, and the character is none of them
      obtain ⟨es, hes⟩ : ∃ es, spread false depth blocks (d :: rest) = d :: es := by
        rcases hmark with rfl | rfl | rfl
        · exact ⟨_, spread_quote rest⟩
        · exact ⟨_, spread_open rest⟩
        · exact ⟨_, spread_close rest⟩
      obtain rfl : d = c := (List.cons.inj (hes.symm.trans h)).1
      rcases hmark with rfl | rfl | rfl <;> simp [isPlain] at hc
    obtain ⟨hquote, hopen, hclose⟩ : d ≠ '"' ∧ d ≠ '(' ∧ d ≠ ')' := by simpa using hmark
    have hspace : d = ' ' → blocks.head? ≠ some depth := by
      -- a broken space is written as a newline
      rintro rfl hhead
      rw [spread_space, if_pos hhead] at h
      obtain rfl : '\n' = c := (List.cons.inj h).1
      simp [isPlain] at hc
    rw [spread_kept hquote hopen hclose hspace] at h
    obtain ⟨rfl, hout⟩ := List.cons.inj h
    exact ⟨rest, rfl, hout⟩

theorem isPrefix_of_isPrefix_spread (hcs : ∀ c ∈ cs, isPlain c = true ∨ c = ' ')
    (h : cs <+: spread false depth blocks text) : cs <+: text := by
  induction cs generalizing text with
  | nil => exact List.nil_prefix
  | cons c cs ih =>
    obtain ⟨hc, hrest⟩ := List.forall_mem_cons.1 hcs
    obtain ⟨out, hout⟩ := h
    obtain ⟨rest, rfl, htail⟩ := exists_of_spread_cons hout.symm hc
    have hmore : cs <+: spread false depth blocks rest := by
      rw [htail]
      exact List.prefix_append cs out
    exact List.cons_prefix_cons.2 ⟨rfl, ih hrest hmore⟩

/-- The head of a block with entries is not written: where one is read, the space is broken. -/
theorem not_blockHead_isPrefix_spread (depth : Int32) (blocks : List Int32) (rest : List Char) :
    ¬blockHead <+: spread false depth (if blockHead <+: rest then depth :: blocks else blocks)
      rest := by
  intro h
  have hhead : ∀ c ∈ blockHead, isPlain c = true ∨ c = ' ' := by simp [blockHead, isPlain]
  have hrest : blockHead <+: rest := isPrefix_of_isPrefix_spread hhead h
  obtain ⟨more, rfl⟩ := hrest
  have hwritten : spread false depth (depth :: blocks) (blockHead ++ more) =
      ['b', 'l', 'o', 'c', 'k'] ++ (lineBreak (depth :: blocks).length ++
        spread false depth (depth :: blocks) more) := by
    have hname : blockHead ++ more = ['b', 'l', 'o', 'c', 'k'] ++ ' ' :: more := rfl
    rw [hname, spread_word (List.all_eq_true.1 rfl), spread_space, if_pos List.head?_cons]
  rw [if_pos (List.prefix_append blockHead more), hwritten] at h
  simp [blockHead, lineBreak] at h

/-- What has been laid out stays as it is. -/
theorem spread_spread (depth' : Int32) :
    spread quoted depth' [] (spread quoted depth blocks text) =
      spread quoted depth blocks text := by
  induction quoted, depth, blocks, text using spread_induction generalizing depth' with
  | done => rfl
  | escape depth blocks d rest ih => rw [spread_escape, spread_escape, ih]
  | trailing => rfl
  | unquote depth blocks rest ih => rw [spread_unquote, spread_unquote, ih]
  | inside depth blocks c rest hslash hquote ih =>
    rw [spread_inside hslash hquote, spread_inside hslash hquote, ih]
  | quote depth blocks rest ih => rw [spread_quote, spread_quote, ih]
  | opening depth blocks rest ih =>
    have hhead := not_blockHead_isPrefix_spread (depth + 1) blocks rest
    rw [spread_open, spread_open, if_neg hhead, ih]
  | closing depth blocks rest ih =>
    rw [spread_close, spread_close, List.head?_nil, if_neg (Option.some_ne_none _).symm, ih]
  | space depth blocks rest ih =>
    rw [spread_space]
    split
    · rw [spread_lineBreak, ih]
    · rw [List.singleton_append, spread_space, List.head?_nil,
        if_neg (Option.some_ne_none _).symm, ih, List.singleton_append]
  | other depth blocks c rest hquote hopen hclose hspace ih =>
    rw [spread_other hquote hopen hclose hspace, spread_other hquote hopen hclose hspace, ih]

end Layout

/-- Whatever the text, it is laid out at once: a second layout changes nothing. -/
theorem layout_idempotent (text : String) : layout (layout text) = layout text := by
  rw [layout, layout, String.toList_ofList, Layout.spread_spread]

end ScriptSyntax
