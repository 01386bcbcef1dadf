import ScriptSyntax.Proofs.LayoutLaws

/-! A scan that lays a text out as it goes. It counts the levels of indentation apart from the open
blocks, and it opens a block no sooner than its head has been written. Neither makes a difference:
there are as many levels as open blocks at any time, and what is written is the layout. The depths
wrap around, so they are compared with the depths as they are counted without an end. -/
namespace ScriptSyntax
namespace Layout

/-- The head of a block without the space behind it. -/
def blockStart : List Char := ['(', 'b', 'l', 'o', 'c', 'k']

/-- What a scan knows: the text that it has written, the levels of indentation, by how many the open
parentheses exceed the closed ones, the depths of the open blocks with entries, the innermost first,
and whether it is in a string literal. Both depths have 32 bits. What they were without wrapping
around is kept beside them, and no round depends on it. -/
structure Scan where
  written : List Char
  indent : Nat
  depth : Int32
  blocks : List Int32
  quoted : Bool
  exactDepth : Int
  exactBlocks : List Int

namespace Scan

def start : Scan := ⟨[], 0, 0, [], false, 0, []⟩

def write (s : Scan) (text : List Char) : Scan := { s with written := s.written ++ text }

/-- The depth is that of the innermost block, so that a space stands before an entry. -/
def AtEntry (s : Scan) : Prop := s.blocks.head? = some s.depth

/-- With the next character a block has been named that has an entry. -/
def Names (s : Scan) (c : Char) (rest : List Char) : Prop :=
  blockStart <:+ s.written ++ [c] ∧ rest.head? = some ' '

/-- One round: the scan and the text that is left to it, before and after. To leave a block takes a
level of indentation that can be given up. -/
inductive Step : Scan → List Char → Scan → List Char → Prop
  | escape {s : Scan} {d : Char} {rest : List Char} (hquoted : s.quoted = true) :
    Step s ('\\' :: d :: rest) (s.write ['\\', d]) rest
  | trailing {s : Scan} (hquoted : s.quoted = true) : Step s ['\\'] (s.write ['\\']) []
  | unquote {s : Scan} {rest : List Char} (hquoted : s.quoted = true) :
    Step s ('"' :: rest) { s.write ['"'] with quoted := false } rest
  | inside {s : Scan} {c : Char} {rest : List Char} (hquoted : s.quoted = true)
    (hslash : c ≠ '\\') (hquote : c ≠ '"') : Step s (c :: rest) (s.write [c]) rest
  | quote {s : Scan} {rest : List Char} (hquoted : s.quoted = false) :
    Step s ('"' :: rest) { s.write ['"'] with quoted := true } rest
  | opening {s : Scan} {rest : List Char} (hquoted : s.quoted = false) :
    Step s ('(' :: rest)
      { s.write ['('] with depth := s.depth + 1, exactDepth := s.exactDepth + 1 } rest
  | leaving {s : Scan} {levels : Nat} {rest : List Char} (hquoted : s.quoted = false)
    (hentry : s.AtEntry) (hindent : s.indent = levels + 1) :
    Step s (')' :: rest)
      { s.write [')'] with
        indent := levels
        depth := s.depth - 1
        blocks := s.blocks.tail
        exactDepth := s.exactDepth - 1
        exactBlocks := s.exactBlocks.tail } rest
  | closing {s : Scan} {rest : List Char} (hquoted : s.quoted = false) (hentry : ¬s.AtEntry) :
    Step s (')' :: rest)
      { s.write [')'] with depth := s.depth - 1, exactDepth := s.exactDepth - 1 } rest
  | breaking {s : Scan} {rest : List Char} (hquoted : s.quoted = false) (hentry : s.AtEntry) :
    Step s (' ' :: rest) (s.write (lineBreak s.indent)) rest
  | entering {s : Scan} {c : Char} {rest : List Char} (hquoted : s.quoted = false)
    (hnames : s.Names c rest) :
    Step s (c :: rest)
      { s.write [c] with
        indent := s.indent + 1
        blocks := s.depth :: s.blocks
        exactBlocks := s.exactDepth :: s.exactBlocks } rest
  | other {s : Scan} {c : Char} {rest : List Char} (hquoted : s.quoted = false) (hquote : c ≠ '"')
    (hopen : c ≠ '(') (hclose : c ≠ ')') (hspace : c = ' ' → ¬s.AtEntry)
    (hnames : ¬s.Names c rest) : Step s (c :: rest) (s.write [c]) rest

/-- The scans that a text leads to, each with the text that is left to it. -/
inductive Reaches (text : List Char) : Scan → List Char → Prop
  | start : Reaches text .start text
  | step {s t : Scan} {rest more : List Char} (h : Reaches text s rest)
    (hstep : Step s rest t more) : Reaches text t more

/-! The head of a block, as far as it has been written. -/

/-- The last `n` characters that were written are the first ones of the head of a block, and some of
its name is still missing. -/
structure Naming (s : Scan) (n : Nat) : Prop where
  unquoted : s.quoted = false
  pos : 0 < n
  lt : n < 6
  written : blockStart.take n <:+ s.written

variable {s t : Scan} {n : Nat} {c : Char} {text rest more : List Char}

theorem append_singleton_suffix {as bs : List Char} {a b : Char} :
    as ++ [a] <:+ bs ++ [b] ↔ a = b ∧ as <:+ bs := by
  rw [← List.reverse_prefix, List.reverse_concat, List.reverse_concat, List.cons_prefix_cons,
    List.reverse_prefix]

theorem take_blockStart (hn : n < 6) :
    ∃ c, blockStart[n]? = some c ∧ blockStart.take (n + 1) = blockStart.take n ++ [c] :=
  ⟨_, List.getElem?_eq_getElem hn, List.take_succ_eq_append_getElem hn⟩

/-- The character that was written last. -/
theorem Naming.last (h : s.Naming (n + 1)) (hwritten : s.written = text ++ [c]) :
    blockStart[n]? = some c ∧ blockStart.take n <:+ text := by
  obtain ⟨d, hd, htake⟩ := take_blockStart (Nat.lt_of_succ_lt h.lt)
  have hsuffix := h.written
  rw [hwritten, htake, append_singleton_suffix] at hsuffix
  obtain ⟨rfl, htext⟩ := hsuffix
  exact ⟨hd, htext⟩

/-- Behind other characters no block is being named. -/
theorem not_naming (hwritten : s.written = text ++ [c]) (hc : c ∉ blockStart.take 5) :
    ¬s.Naming n := by
  intro h
  cases n with
  | zero => exact absurd h.pos (by decide)
  | succ n =>
    have htake := List.getElem?_take_of_lt (l := blockStart) (Nat.lt_of_succ_lt_succ h.lt)
    exact hc (List.mem_of_getElem? (htake.trans (h.last hwritten).1))

/-- In a string literal no block is being named. -/
theorem not_naming_of_quoted (hquoted : s.quoted = true) : ¬s.Naming n := by
  intro h
  rw [h.unquoted] at hquoted
  exact Bool.false_ne_true hquoted

theorem lineBreak_last (levels : Nat) :
    ∃ text c, lineBreak levels = text ++ [c] ∧ c ∉ blockStart.take 5 := by
  cases levels with
  | zero => exact ⟨[], '\n', rfl, by decide⟩
  | succ n =>
    refine ⟨'\n' :: List.replicate (2 * n + 1) ' ', ' ', ?_, by decide⟩
    rw [lineBreak, List.cons_append, ← List.replicate_succ', Nat.mul_add]

/-- One more character of the head, which is the first one or comes after others. -/
theorem naming_write (h : (s.write [c]).Naming (n + 1)) :
    blockStart[n]? = some c ∧ (n = 0 ∨ s.Naming n) := by
  obtain ⟨hc, hsuffix⟩ := h.last rfl
  refine ⟨hc, n.eq_zero_or_pos.imp_right fun hpos => ?_⟩
  exact ⟨h.unquoted, hpos, Nat.lt_of_succ_lt h.lt, hsuffix⟩

theorem Naming.write (h : s.Naming n) (hn : n < 5) (hc : blockStart[n]? = some c) :
    (s.write [c]).Naming (n + 1) := by
  refine ⟨h.unquoted, n.succ_pos, Nat.succ_lt_succ hn, ?_⟩
  obtain ⟨d, hd, htake⟩ := take_blockStart h.lt
  rw [htake, Scan.write, append_singleton_suffix]
  exact ⟨Option.some.inj (hd.symm.trans hc), h.written⟩

/-- A block is entered with the last character of its name. -/
theorem names_iff (hquoted : s.quoted = false) :
    s.Names c rest ↔ s.Naming 5 ∧ c = 'k' ∧ rest.head? = some ' ' := by
  have hlast : blockStart <:+ s.written ++ [c] ↔ c = 'k' ∧ blockStart.take 5 <:+ s.written := by
    rw [← eq_comm (a := 'k'), ← append_singleton_suffix]
    rfl
  rw [Names, hlast]
  constructor
  · rintro ⟨⟨hc, hwritten⟩, hspace⟩
    exact ⟨⟨hquoted, by decide, by decide, hwritten⟩, hc, hspace⟩
  · rintro ⟨hnaming, hc, hspace⟩
    exact ⟨⟨hc, hnaming.written⟩, hspace⟩

/-! What holds of a scan at any time. -/

/-- There are as many levels as open blocks. An inner block is deeper than the blocks around it, and
none is deeper than the scan is, or as deep before it is entered. All this is so of the depths that
do not wrap around, and the others agree with them. -/
structure Sound (s : Scan) : Prop where
  indent_eq : s.indent = s.blocks.length
  depth_eq : s.depth = Int32.ofInt s.exactDepth
  blocks_eq : s.blocks = s.exactBlocks.map Int32.ofInt
  increasing : s.exactBlocks.Pairwise (· > ·)
  inside : ∀ d ∈ s.exactBlocks, d ≤ s.exactDepth
  unnamed : ∀ n, s.Naming n → s.exactDepth ∉ s.exactBlocks

theorem sound_start : start.Sound :=
  ⟨rfl, rfl, rfl, List.Pairwise.nil, nofun, fun _ _ => List.not_mem_nil⟩

/-- Where the innermost block is not as deep as the scan, no block is. -/
theorem Sound.lt_depth (h : s.Sound) (hentry : ¬s.AtEntry) :
    ∀ d ∈ s.exactBlocks, d < s.exactDepth := by
  have hinside := h.inside
  have hincreasing := h.increasing
  rw [AtEntry, h.depth_eq, h.blocks_eq] at hentry
  cases hblocks : s.exactBlocks with
  | nil => nofun
  | cons d ds =>
    rw [hblocks] at hinside hincreasing hentry
    have hd : d < s.exactDepth := by
      apply lt_of_le_of_ne (hinside d List.mem_cons_self)
      rintro rfl
      exact hentry rfl
    refine List.forall_mem_cons.2 ⟨hd, fun e he => ?_⟩
    exact lt_trans (List.rel_of_pairwise_cons hincreasing he) hd

/-- The blocks around the innermost one are not as deep as the scan. -/
theorem Sound.tail_lt_depth (h : s.Sound) : ∀ d ∈ s.exactBlocks.tail, d < s.exactDepth := by
  have hinside := h.inside
  have hincreasing := h.increasing
  cases hblocks : s.exactBlocks with
  | nil => nofun
  | cons d ds =>
    rw [hblocks] at hinside hincreasing
    exact fun e he => lt_of_lt_of_le (List.rel_of_pairwise_cons hincreasing he)
      (hinside d List.mem_cons_self)

theorem Sound.step (h : s.Sound) (hstep : Step s rest t more) : t.Sound := by
  have hup : s.depth + 1 = Int32.ofInt (s.exactDepth + 1) := by
    rw [h.depth_eq, Int32.ofInt_add]
    rfl
  have hdown : s.depth - 1 = Int32.ofInt (s.exactDepth - 1) := by
    rw [h.depth_eq, Int32.ofInt_sub]
    rfl
  cases hstep with
  | escape hquoted | trailing hquoted | inside hquoted =>
    exact ⟨h.indent_eq, h.depth_eq, h.blocks_eq, h.increasing, h.inside,
      fun _ hn => absurd hn (not_naming_of_quoted hquoted)⟩
  | quote =>
    exact ⟨h.indent_eq, h.depth_eq, h.blocks_eq, h.increasing, h.inside,
      fun _ hn => absurd hn (not_naming_of_quoted rfl)⟩
  | unquote =>
    exact ⟨h.indent_eq, h.depth_eq, h.blocks_eq, h.increasing, h.inside,
      fun _ hn => absurd hn (not_naming rfl (by decide))⟩
  | opening =>
    have hlt : ∀ d ∈ s.exactBlocks, d < s.exactDepth + 1 :=
      fun d hd => Int.lt_add_one_of_le (h.inside d hd)
    exact ⟨h.indent_eq, hup, h.blocks_eq, h.increasing, fun d hd => le_of_lt (hlt d hd),
      fun _ _ hmem => lt_irrefl _ (hlt _ hmem)⟩
  | @leaving levels _ _ hentry hindent =>
    have hlevels : levels = s.blocks.tail.length := by
      rw [List.length_tail, ← h.indent_eq, hindent, Nat.add_sub_cancel]
    have hblocks : s.blocks.tail = s.exactBlocks.tail.map Int32.ofInt := by
      rw [h.blocks_eq, List.map_tail]
    exact ⟨hlevels, hdown, hblocks, h.increasing.tail,
      fun d hd => Int.le_sub_one_of_lt (h.tail_lt_depth d hd),
      fun _ hn => absurd hn (not_naming rfl (by decide))⟩
  | closing _ hentry =>
    exact ⟨h.indent_eq, hdown, h.blocks_eq, h.increasing,
      fun d hd => Int.le_sub_one_of_lt (h.lt_depth hentry d hd),
      fun _ hn => absurd hn (not_naming rfl (by decide))⟩
  | breaking =>
    obtain ⟨text, c, hlast, hc⟩ := lineBreak_last s.indent
    have hwritten : (s.write (lineBreak s.indent)).written = s.written ++ text ++ [c] := by
      rw [write, hlast, List.append_assoc]
    exact ⟨h.indent_eq, h.depth_eq, h.blocks_eq, h.increasing, h.inside,
      fun _ hn => absurd hn (not_naming hwritten hc)⟩
  | entering hquoted hnames =>
    obtain ⟨hnaming, rfl, -⟩ := (names_iff hquoted).1 hnames
    -- the depth has been new since the parenthesis
    have hlt : ∀ d ∈ s.exactBlocks, d < s.exactDepth := fun d hd =>
      lt_of_le_of_ne (h.inside d hd) fun heq => h.unnamed 5 hnaming (heq ▸ hd)
    exact ⟨congrArg (· + 1) h.indent_eq, h.depth_eq, congrArg₂ List.cons h.depth_eq h.blocks_eq,
      List.pairwise_cons.2 ⟨hlt, h.increasing⟩, List.forall_mem_cons.2 ⟨le_refl _, h.inside⟩,
      fun _ hn => absurd hn (not_naming rfl (by decide))⟩
  | other _ _ hopen =>
    refine ⟨h.indent_eq, h.depth_eq, h.blocks_eq, h.increasing, h.inside, fun n hn => ?_⟩
    cases n with
    | zero => exact absurd hn.pos (by decide)
    | succ n =>
      rcases naming_write hn with ⟨hc, rfl | hn⟩
      · exact absurd (Option.some.inj hc).symm hopen
      · exact h.unnamed n hn

/-- A block has been named in part, and the rest of its head is there. -/
def Pending (s : Scan) (rest : List Char) : Prop :=
  ∃ n, s.Naming (n + 1) ∧ blockHead.drop n <+: rest

/-- What a scan is to write in the end: what it has written, and the layout of what is left. A block
that has been named in part is open there from its parenthesis on. -/
inductive Writes (s : Scan) (rest : List Char) : List Char → Prop
  | named (h : s.Pending rest) :
    Writes s rest (s.written ++ spread s.quoted s.depth (s.depth :: s.blocks) rest)
  | plain (h : ¬s.Pending rest) :
    Writes s rest (s.written ++ spread s.quoted s.depth s.blocks rest)

theorem Pending.unquoted (h : s.Pending rest) : s.quoted = false := by
  obtain ⟨n, hnaming, -⟩ := h
  exact hnaming.unquoted

theorem drop_blockHead (hn : n < 5) :
    ∃ c, blockStart[n + 1]? = some c ∧ blockHead.drop n = c :: blockHead.drop (n + 1) := by
  have hsame : ∀ n < 5, blockStart[n + 1]? = blockHead[n]? := by decide
  have hlength : n < blockHead.length := Nat.lt_succ_of_lt hn
  exact ⟨_, (hsame n hn).trans (List.getElem?_eq_getElem hlength),
    List.drop_eq_getElem_cons hlength⟩

/-- The next character goes on with the name. -/
theorem Pending.next (h : s.Pending (c :: rest)) : c ∈ blockStart.tail := by
  obtain ⟨n, hnaming, hhead⟩ := h
  obtain ⟨d, hd, hdrop⟩ := drop_blockHead (Nat.lt_of_succ_lt_succ hnaming.lt)
  rw [hdrop, List.cons_prefix_cons] at hhead
  obtain ⟨rfl, -⟩ := hhead
  exact List.mem_of_getElem? (List.getElem?_tail.trans hd)

/-- No head goes on behind other characters. -/
theorem not_pending (hwritten : s.written = text ++ [c]) (hc : c ∉ blockStart.take 5) :
    ¬s.Pending rest :=
  fun ⟨_, hnaming, _⟩ => not_naming hwritten hc hnaming

theorem not_pending_of_quoted (hquoted : s.quoted = true) : ¬s.Pending rest := by
  intro h
  rw [h.unquoted] at hquoted
  exact Bool.false_ne_true hquoted

/-- After a parenthesis the head is all there, or it is none. -/
theorem pending_opening (hquoted : s.quoted = false) (hwritten : s.written = text ++ ['(']) :
    s.Pending rest ↔ blockHead <+: rest := by
  constructor
  · rintro ⟨n, hnaming, hhead⟩
    have hfirst : ∀ n < 6, blockStart[n]? = some '(' → n = 0 := by decide
    obtain rfl := hfirst n (Nat.lt_of_succ_lt hnaming.lt) (hnaming.last hwritten).1
    exact hhead
  · intro hhead
    refine ⟨0, ⟨hquoted, by decide, by decide, ?_⟩, hhead⟩
    rw [hwritten]
    exact List.suffix_append text ['(']

/-- A character that does not complete the name leaves it as it was: the name goes on, or there is
none. -/
theorem pending_write (hquoted : s.quoted = false) (hopen : c ≠ '(') (hnames : ¬s.Names c rest) :
    (s.write [c]).Pending rest ↔ s.Pending (c :: rest) := by
  constructor
  · rintro ⟨n, hnaming, hhead⟩
    rcases naming_write hnaming with ⟨hc, rfl | hbefore⟩
    · exact absurd (Option.some.inj hc).symm hopen
    · obtain ⟨m, rfl⟩ : ∃ m, n = m + 1 := Nat.exists_eq_add_one.2 hbefore.pos
      refine ⟨m, hbefore, ?_⟩
      obtain ⟨d, hd, hdrop⟩ := drop_blockHead (Nat.lt_of_succ_lt_succ hbefore.lt)
      rw [hdrop, List.cons_prefix_cons]
      exact ⟨Option.some.inj (hd.symm.trans hc), hhead⟩
  · rintro ⟨n, hnaming, hhead⟩
    have hn : n < 5 := Nat.lt_of_succ_lt_succ hnaming.lt
    obtain ⟨d, hd, hdrop⟩ := drop_blockHead hn
    rw [hdrop, List.cons_prefix_cons] at hhead
    obtain ⟨rfl, hmore⟩ := hhead
    by_cases hlast : n = 4
    · subst hlast
      -- the last letter and the space behind it would have named the block
      obtain ⟨more, rfl⟩ := hmore
      exact absurd ((names_iff hquoted).2 ⟨hnaming, (Option.some.inj hd).symm, rfl⟩) hnames
    · exact ⟨n + 1, hnaming.write (by omega) hd, hmore⟩

/-- Where no block is being named, a scan keeps to the layout if it writes in a round what the
layout begins with. -/
theorem Writes.step_plain {out piece : List Char} (h : Writes s rest out) (hs : ¬s.Pending rest)
    (ht : ¬t.Pending more) (hwritten : t.written = s.written ++ piece)
    (hspread : spread s.quoted s.depth s.blocks rest =
      piece ++ spread t.quoted t.depth t.blocks more) : Writes t more out := by
  cases h with
  | named hpending => exact absurd hpending hs
  | plain =>
    rw [hspread, ← List.append_assoc, ← hwritten]
    exact .plain ht

theorem Writes.step {out : List Char} (h : Writes s rest out) (hsound : s.Sound)
    (hstep : Step s rest t more) : Writes t more out := by
  cases hstep with
  | escape hquoted =>
    refine h.step_plain (not_pending_of_quoted hquoted) (not_pending_of_quoted hquoted) rfl ?_
    simp only [write, hquoted, spread_escape, List.cons_append, List.nil_append]
  | trailing hquoted =>
    refine h.step_plain (not_pending_of_quoted hquoted) (not_pending_of_quoted hquoted) rfl ?_
    rw [hquoted]
    rfl
  | unquote hquoted =>
    refine h.step_plain (not_pending_of_quoted hquoted) (not_pending rfl (by decide)) rfl ?_
    rw [hquoted, spread_unquote]
    rfl
  | inside hquoted hslash hquote =>
    refine h.step_plain (not_pending_of_quoted hquoted) (not_pending_of_quoted hquoted) rfl ?_
    simp only [write, hquoted, spread_inside hslash hquote, List.cons_append, List.nil_append]
  | quote hquoted =>
    refine h.step_plain (mt Pending.next (by decide)) (not_pending_of_quoted rfl) rfl ?_
    rw [hquoted, spread_quote]
    rfl
  | opening hquoted =>
    have hpending : ¬s.Pending ('(' :: more) := mt Pending.next (by decide)
    cases h with
    | named h => exact absurd h hpending
    | plain =>
      have hopens : Pending
          { s.write ['('] with depth := s.depth + 1, exactDepth := s.exactDepth + 1 } more ↔
            blockHead <+: more := pending_opening hquoted rfl
      rw [hquoted, spread_open, List.append_cons, ← hquoted]
      split
      · next hhead => exact .named (hopens.2 hhead)
      · next hhead => exact .plain (mt hopens.1 hhead)
  | leaving hquoted hentry =>
    refine h.step_plain (mt Pending.next (by decide)) (not_pending rfl (by decide)) rfl ?_
    rw [AtEntry] at hentry
    simp only [write, hquoted, spread_close, if_pos hentry, List.cons_append, List.nil_append]
  | closing hquoted hentry =>
    refine h.step_plain (mt Pending.next (by decide)) (not_pending rfl (by decide)) rfl ?_
    rw [AtEntry] at hentry
    simp only [write, hquoted, spread_close, if_neg hentry, List.cons_append, List.nil_append]
  | breaking hquoted hentry =>
    obtain ⟨text, c, hlast, hc⟩ := lineBreak_last s.indent
    have hwritten : (s.write (lineBreak s.indent)).written = s.written ++ text ++ [c] := by
      rw [write, hlast, List.append_assoc]
    refine h.step_plain (mt Pending.next (by decide)) (not_pending hwritten hc) rfl ?_
    rw [AtEntry] at hentry
    simp only [write, hquoted, spread_space, if_pos hentry, hsound.indent_eq]
  | entering hquoted hnames =>
    obtain ⟨hnaming, rfl, hspace⟩ := (names_iff hquoted).1 hnames
    have hpending : s.Pending ('k' :: more) := by
      obtain ⟨rest, rfl⟩ := List.head?_eq_some_iff.1 hspace
      exact ⟨4, hnaming, rest, rfl⟩
    cases h with
    | named =>
      rw [hquoted, spread_plain rfl, List.append_cons, ← hquoted]
      refine .plain ?_
      exact not_pending rfl (by decide)
    | plain h => exact absurd hpending h
  | @other c _ hquoted hquote hopen hclose hspace hnames =>
    have hpending : (s.write [c]).Pending more ↔ s.Pending (c :: more) :=
      pending_write hquoted hopen hnames
    cases h with
    | named h =>
      have hword : c ≠ ' ' := by
        rintro rfl
        exact absurd h.next (by decide)
      rw [hquoted, spread_kept hquote hopen hclose fun hc => absurd hc hword, List.append_cons,
        ← hquoted]
      exact .named (hpending.2 h)
    | plain h =>
      rw [hquoted, spread_kept hquote hopen hclose hspace, List.append_cons, ← hquoted]
      exact .plain (mt hpending.1 h)

theorem Reaches.sound (h : Reaches text s rest) : s.Sound := by
  induction h with
  | start => exact sound_start
  | step _ hstep ih => exact ih.step hstep

end Scan
end Layout

end ScriptSyntax
