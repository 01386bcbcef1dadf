import ScriptSyntax.Layout
import ScriptSyntax.Proofs.Heights

/-! The layout of a tree, and that the scanner of its text finds it: it breaks before each entry of
a block and nowhere else. -/
namespace ScriptSyntax

/-! The text of a tree with gaps to choose. -/

mutual
/-- The text of an expression with a gap before each entry of a block, by the number of blocks that
the entry is in. -/
def Expr.laidOut (gap : Nat → String) (levels : Nat) : Expr → String
  | .number value _ => value.display
  | .string value _ => Text.quoted value
  | .name value _ => value
  | .unassigned _ => "<unassigned>"
  | .binary operator left right _ =>
    parenthesized [operator, left.laidOut gap levels, right.laidOut gap levels]
  | .prefixed operator operand _ => parenthesized [operator, operand.laidOut gap levels]
  | .assignment operator target value _ =>
    parenthesized [operator, target.laidOut gap levels, value.laidOut gap levels]
  | .call callee arguments _ =>
    parenthesized ("call" :: callee.laidOut gap levels :: laidOutExprs gap levels arguments)
  | .member object property _ => parenthesized [".", object.laidOut gap levels, property]
  | .closure name signature body _ =>
    parenthesized (["closure", name.getD "<anonymous>"] ++ signature.render ++
      [body.laidOut gap levels])
def laidOutExprs (gap : Nat → String) (levels : Nat) : List Expr → List String
  | [] => []
  | e :: es => e.laidOut gap levels :: laidOutExprs gap levels es
def Statement.laidOut (gap : Nat → String) (levels : Nat) : Statement → String
  | .expression value _ => value.laidOut gap levels
  | .block body => body.laidOut gap levels
  | .conditional condition thenBody elseBody _ =>
    parenthesized (["if", condition.laidOut gap levels, thenBody.laidOut gap levels] ++
      laidOutElse gap levels elseBody)
  | .result value _ => parenthesized ["return", value.laidOut gap levels]
  | .loop iterable names body _ =>
    parenthesized ["for", iterable.laidOut gap levels, "[" ++ spaced names ++ "]",
      body.laidOut gap levels]
  | .declaration changes name type value _ =>
    parenthesized [if changes then "var" else "let", name, type.render, value.laidOut gap levels]
  | .function name signature body _ =>
    parenthesized (["function", name] ++ signature.render ++ [body.laidOut gap levels])
  | .classDefinition name superclass body _ =>
    parenthesized ["class", renderClassName name superclass, body.laidOut gap levels]
def laidOutElse (gap : Nat → String) (levels : Nat) : Option Block → List String
  | none => []
  | some body => [body.laidOut gap levels]
def laidOutEntries (gap : Nat → String) (levels : Nat) : List Statement → String
  | [] => ""
  | s :: ss => gap levels ++ s.laidOut gap levels ++ laidOutEntries gap levels ss
/-- The entries of a block are one block further in. -/
def Block.laidOut (gap : Nat → String) (levels : Nat) : Block → String
  | ⟨statements, _⟩ => "(block" ++ laidOutEntries gap (levels + 1) statements ++ ")"
end

/-! The same for the parts of a text. -/

mutual
def Shape.laidOut (gap : Nat → List Char) (levels : Nat) : Shape → List Char
  | .word text => text.toList
  | .quoted text => (Text.quoted text).toList
  | .names xs => '[' :: ((spaced xs).toList ++ [']'])
  | .node _ [] => ['(', ')']
  | .node false (first :: rest) =>
    '(' :: (first.laidOut gap levels ++ laidOutRest gap [' '] levels rest)
  | .node true (first :: rest) =>
    '(' :: (first.laidOut gap (levels + 1) ++ laidOutRest gap (gap (levels + 1)) (levels + 1) rest)
/-- The rest of a list, with a separator before each item. -/
def laidOutRest (gap : Nat → List Char) (separator : List Char) (levels : Nat) :
    List Shape → List Char
  | [] => [')']
  | s :: ss => separator ++ (s.laidOut gap levels ++ laidOutRest gap separator levels ss)
end

namespace Layout
variable {depth : Int32} {blocks : List Int32} {cs rest : List Char} {c : Char} {m n : Nat}

/-! Steps of the scanner. -/

theorem spread_inside (hslash : c ≠ '\\') (hquote : c ≠ '"') (rest : List Char) :
    spread true depth blocks (c :: rest) = c :: spread true depth blocks rest := by
  rw [spread.eq_def]
  dsimp only
  rw [if_pos rfl]
  split
  · next h => exact absurd rfl hslash
  · next h => exact absurd rfl hquote
  · next h => rfl

theorem spread_escape (l : Char) (rest : List Char) :
    spread true depth blocks ('\\' :: l :: rest) = '\\' :: l :: spread true depth blocks rest :=
  rfl

theorem spread_unquote (rest : List Char) :
    spread true depth blocks ('"' :: rest) = '"' :: spread false depth blocks rest :=
  rfl

theorem spread_quote (rest : List Char) :
    spread false depth blocks ('"' :: rest) = '"' :: spread true depth blocks rest :=
  rfl

theorem spread_open (rest : List Char) : spread false depth blocks ('(' :: rest) =
    '(' :: spread false (depth + 1) (if blockHead <+: rest then (depth + 1) :: blocks else blocks)
      rest :=
  rfl

theorem spread_close (rest : List Char) : spread false depth blocks (')' :: rest) =
    ')' :: spread false (depth - 1) (if blocks.head? = some depth then blocks.tail else blocks)
      rest :=
  rfl

theorem spread_space (rest : List Char) : spread false depth blocks (' ' :: rest) =
    (if blocks.head? = some depth then lineBreak blocks.length else [' ']) ++
      spread false depth blocks rest :=
  rfl

theorem spread_plain (hc : isPlain c = true) (rest : List Char) :
    spread false depth blocks (c :: rest) = c :: spread false depth blocks rest := by
  rw [spread.eq_def]
  dsimp only
  rw [if_neg Bool.false_ne_true]
  split
  · cases hc
  · cases hc
  · cases hc
  · cases hc
  · rfl

theorem spread_word (h : ∀ c ∈ cs, isPlain c = true) (rest : List Char) :
    spread false depth blocks (cs ++ rest) = cs ++ spread false depth blocks rest := by
  induction cs with
  | nil => rfl
  | cons c cs ih =>
    obtain ⟨hc, hcs⟩ := List.forall_mem_cons.1 h
    rw [List.cons_append, spread_plain hc, ih hcs, List.cons_append]

/-- Names are left together where no entry of a block is expected. -/
theorem spread_names {xs : List String} (h : ∀ x ∈ xs, isName x = true)
    (hdepth : blocks.head? ≠ some depth) (rest : List Char) :
    spread false depth blocks ((spaced xs).toList ++ rest) =
      (spaced xs).toList ++ spread false depth blocks rest := by
  have hword {x : String} (hx : isName x = true) : ∀ c ∈ x.toList, isPlain c = true :=
    fun c hc => isPlain_of_isWordPart (isWordPart_of_isName hx c hc)
  have hrest {xs : List String} (h : ∀ x ∈ xs, isName x = true) :
      spread false depth blocks ((xs.flatMap fun x => ' ' :: x.toList) ++ rest) =
        (xs.flatMap fun x => ' ' :: x.toList) ++ spread false depth blocks rest := by
    induction xs with
    | nil => rfl
    | cons x xs ih =>
      obtain ⟨hx, hxs⟩ := List.forall_mem_cons.1 h
      rw [List.flatMap_cons, List.append_assoc, List.cons_append, spread_space, if_neg hdepth,
        spread_word (hword hx), ih hxs]
      simp
  cases xs with
  | nil => rfl
  | cons x xs =>
    obtain ⟨hx, hxs⟩ := List.forall_mem_cons.1 h
    rw [spaced_cons, List.append_assoc, spread_word (hword hx), hrest hxs, List.append_assoc]

theorem spread_escaped (h : Text.Escape ['"'] c cs) (rest : List Char) :
    spread true depth blocks (cs ++ rest) = cs ++ spread true depth blocks rest := by
  cases h with
  | plain hslash hquote => exact spread_inside hslash (mt List.mem_singleton.2 hquote) rest
  | letter => exact spread_escape _ rest
  | codePoint =>
    have hdigits {ds : List Char} (hds : ∀ d ∈ ds, ∃ k, d = Nat.digitChar k) (rest : List Char) :
        spread true depth blocks (ds ++ rest) = ds ++ spread true depth blocks rest := by
      induction ds with
      | nil => rfl
      | cons d ds ih =>
        obtain ⟨⟨k, rfl⟩, hdigits⟩ := List.forall_mem_cons.1 hds
        rw [List.cons_append, spread_inside (Nat.digitChar_ne _ rfl) (Nat.digitChar_ne _ rfl),
          ih hdigits, List.cons_append]
    rw [Text.codePointEscape, List.append_assoc, List.append_assoc, List.cons_append,
      List.cons_append, spread_escape, List.singleton_append, spread_inside (by decide) (by decide),
      hdigits fun _ => toDigits_hex_digitChar, List.singleton_append,
      spread_inside (by decide) (by decide)]
    simp

/-- Whatever a text holds, it is left alone in quotation marks. -/
theorem spread_quoted (text : String) (rest : List Char) :
    spread false depth blocks ((Text.quoted text).toList ++ rest) =
      (Text.quoted text).toList ++ spread false depth blocks rest := by
  have hescaped (cs : List Char) :
      spread true depth blocks (cs.flatMap (Text.escapeChar ['"'] true) ++ '"' :: rest) =
        cs.flatMap (Text.escapeChar ['"'] true) ++ '"' :: spread false depth blocks rest := by
    induction cs with
    | nil => exact spread_unquote rest
    | cons c cs ih =>
      rw [List.flatMap_cons, List.append_assoc,
        spread_escaped (Text.escapeChar_escape (by decide) true c), ih, List.append_assoc]
  rw [Text.toList_quoted, List.cons_append, List.append_assoc, spread_quote,
    List.singleton_append, hescaped]
  simp

/-! Parts. -/

/-- The innermost block is not as deep as any of so many lists in each other. -/
def Apart (blocks : List Int32) (depth : Int32) (n : Nat) : Prop :=
  ∀ k, 0 < k → k ≤ n → blocks.head? ≠ some (depth + Int32.ofNat k)

theorem apart_nil : Apart [] depth n := fun _ _ _ => (Option.some_ne_none _).symm

theorem Apart.mono (h : Apart blocks depth n) (hle : m ≤ n) : Apart blocks depth m :=
  fun k hpos hk => h k hpos (hk.trans hle)

theorem Apart.head (h : Apart blocks depth (n + 1)) : blocks.head? ≠ some (depth + 1) :=
  h 1 Nat.one_pos (Nat.le_add_left 1 n)

theorem Apart.inside (h : Apart blocks depth (n + 1)) : Apart blocks (depth + 1) n := by
  intro k _ hk
  have hdepth : depth + 1 + Int32.ofNat k = depth + Int32.ofNat (k + 1) := by
    rw [Int32.ofNat_add, Int32.add_assoc, Int32.add_comm 1]
    rfl
  rw [hdepth]
  exact h (k + 1) k.succ_pos (Nat.succ_le_succ hk)

/-- Depths of 32 bits come round again, but not before that many lists are in each other. -/
theorem apart_cons (hn : n ≤ maxOffset) : Apart (depth :: blocks) depth n := by
  intro k hpos hk heq
  have hzero := congrArg Int32.toInt (Int32.left_eq_add.1 (Option.some.inj heq))
  rw [Int32.toInt_ofNat'] at hzero
  have hturn := Nat.le_of_dvd hpos (Int.natCast_dvd_natCast.1 (Int.dvd_of_bmod_eq_zero hzero))
  exact absurd (hturn.trans (hk.trans hn)) (by decide)

/-- The scanner lays a part out as the part of a tree, unless it comes to the depth of a block that
is open already. It would take names for entries where these are expected. -/
def Spreads (s : Shape) : Prop := ∀ (depth : Int32) (blocks : List Int32) (rest : List Char),
  Apart blocks depth s.height → (blocks.head? = some depth → ∀ xs, s ≠ .names xs) →
  spread false depth blocks (s.text ++ rest) =
    s.laidOut lineBreak blocks.length ++ spread false depth blocks rest

/-- The head of a block with entries is found in its text, and nowhere else. -/
theorem blockHead_isPrefix {s : Shape} (hs : s.Sound) (ss : List Shape) (rest : List Char) :
    blockHead <+: s.text ++ (Shape.closing ss ++ rest) ↔ s = .word "block" ∧ ss ≠ [] := by
  have hblock : (Shape.word "block").Sound := .word (by decide)
  constructor
  · rintro ⟨more, hmore⟩
    have htext : (Shape.word "block").text ++ ' ' :: more =
        s.text ++ (Shape.closing ss ++ rest) := by
      rw [Shape.text_word, ← hmore]
      rfl
    have hended : Ended (' ' :: more) := by
      intro c hc
      obtain rfl := Option.some.inj hc
      rfl
    obtain ⟨rfl, hclosing⟩ := hblock.distinct hs hended (Shape.ended_closing ss rest) htext
    refine ⟨rfl, ?_⟩
    rintro rfl
    cases hclosing
  · rintro ⟨rfl, hne⟩
    obtain ⟨t, ts, rfl⟩ := List.exists_cons_of_ne_nil hne
    exact ⟨t.text ++ (Shape.closing ts ++ rest), by rw [Shape.closing_cons_append]; rfl⟩

/-- The rest of a list. At the depth of the innermost block its items are entries. -/
theorem spread_closing {ss : List Shape} (h : ∀ s ∈ ss, Spreads s)
    (hapart : Apart blocks depth (heights ss))
    (hnames : blocks.head? = some depth → ∀ xs, .names xs ∉ ss) (rest : List Char) :
    spread false depth blocks (Shape.closing ss ++ rest) =
      laidOutRest lineBreak (if blocks.head? = some depth then lineBreak blocks.length else [' '])
          blocks.length ss ++
        spread false (depth - 1) (if blocks.head? = some depth then blocks.tail else blocks)
          rest := by
  induction ss with
  | nil =>
    rw [Shape.closing_nil_append, spread_close, laidOutRest]
    rfl
  | cons s ss ih =>
    obtain ⟨hs, hss⟩ := List.forall_mem_cons.1 h
    have hentry : blocks.head? = some depth → ∀ xs, s ≠ .names xs := by
      rintro hhead xs rfl
      exact hnames hhead xs List.mem_cons_self
    have hentries : blocks.head? = some depth → ∀ xs, .names xs ∉ ss :=
      fun hhead xs hxs => hnames hhead xs (List.mem_cons_of_mem _ hxs)
    have hfirst := hapart.mono (Nat.le_max_left _ _)
    have hothers := hapart.mono (Nat.le_max_right _ _)
    rw [Shape.closing_cons_append, spread_space, hs depth blocks _ hfirst hentry,
      ih hss hothers hentries, laidOutRest]
    simp only [List.append_assoc]

theorem spreads_node {broken : Bool} {items : List Shape} (hbroken : broken = headsBlock items)
    (hentries : broken = true → ∀ xs, .names xs ∉ items) (hitems : ∀ s ∈ items, s.Sound)
    (hheight : heights items ≤ maxOffset) (h : ∀ s ∈ items, Spreads s) :
    Spreads (.node broken items) := by
  intro depth blocks rest hapart _
  have hhead := hapart.head
  have hinside := hapart.inside
  cases items with
  | nil =>
    rw [Shape.text_node_nil_append, spread_open, if_neg (by simp [blockHead]), spread_close,
      if_neg hhead, Int32.add_sub_cancel, Shape.laidOut]
    rfl
  | cons s ss =>
    obtain ⟨hs, hss⟩ := List.forall_mem_cons.1 h
    have hfirst : s.height ≤ heights (s :: ss) := Nat.le_max_left _ _
    have hothers : heights ss ≤ heights (s :: ss) := Nat.le_max_right _ _
    rw [Shape.text_node_cons_append, spread_open]
    have hblock := blockHead_isPrefix (hitems s List.mem_cons_self) ss rest
    -- the scanner enters a block where its head has an entry behind it
    by_cases hentered : s = .word "block" ∧ ss ≠ []
    · obtain ⟨rfl, hne⟩ := hentered
      obtain rfl : broken = true := hbroken
      -- inside, the depth is that of the new innermost block, which is left only in the end
      have hopen {n : Nat} (hn : n ≤ heights (.word "block" :: ss)) :
          Apart ((depth + 1) :: blocks) (depth + 1) n := apart_cons (hn.trans hheight)
      have hrest : ∀ xs, .names xs ∉ ss :=
        fun xs hxs => hentries rfl xs (List.mem_cons_of_mem _ hxs)
      have hbroken : (Shape.node true (.word "block" :: ss)).laidOut lineBreak blocks.length =
          '(' :: ((Shape.word "block").laidOut lineBreak (blocks.length + 1) ++
            laidOutRest lineBreak (lineBreak (blocks.length + 1)) (blocks.length + 1) ss) := by
        simp only [Shape.laidOut]
      rw [if_pos (hblock.2 ⟨rfl, hne⟩), hs _ _ _ (hopen hfirst) (fun _ _ => nofun),
        spread_closing hss (hopen hothers) (fun _ => hrest), if_pos List.head?_cons,
        if_pos List.head?_cons, Int32.add_sub_cancel, hbroken]
      simp only [List.length_cons, List.tail_cons, List.cons_append, List.append_assoc]
    · have hflat : (Shape.node broken (s :: ss)).laidOut lineBreak blocks.length = '(' ::
          (s.laidOut lineBreak blocks.length ++ laidOutRest lineBreak [' '] blocks.length ss) := by
        cases broken with
        | false => rw [Shape.laidOut]
        | true =>
          -- a block without entries: its head is all there is to lay out
          obtain rfl : s = .word "block" := by
            cases s with
            | word text => rw [of_decide_eq_true hbroken.symm]
            | _ => cases hbroken
          obtain rfl : ss = [] := by
            by_contra hne
            exact hentered ⟨rfl, hne⟩
          simp only [Shape.laidOut, laidOutRest]
      rw [if_neg (mt hblock.1 hentered),
        hs _ _ _ (hinside.mono hfirst) (fun heq => absurd heq hhead),
        spread_closing hss (hinside.mono hothers) (fun heq => absurd heq hhead), if_neg hhead,
        if_neg hhead, Int32.add_sub_cancel, hflat]
      simp only [List.cons_append, List.append_assoc]

theorem spreads_of_sound {s : Shape} (h : s.Sound) (hheight : s.height ≤ maxOffset) :
    Spreads s := by
  induction h with
  | word h =>
    intro depth blocks rest _ _
    rw [Shape.text_word, Shape.laidOut]
    obtain ⟨_, _, hcs, -, hword⟩ := isWord_iff.1 h
    exact spread_word (hcs ▸ hword) rest
  | quoted text =>
    intro depth blocks rest _ _
    rw [Shape.text_quoted, Shape.laidOut]
    exact spread_quoted text rest
  | @names xs h =>
    intro depth blocks rest _ hhead
    have hdepth : blocks.head? ≠ some depth := fun heq => hhead heq xs rfl
    rw [List.all_eq_true] at h
    rw [Shape.text_names_append, Shape.laidOut, spread_plain rfl, spread_names h hdepth,
      spread_plain rfl]
    simp
  | node hbroken hentries hitems ih =>
    have hitemsHeight := Nat.le_of_succ_le hheight
    exact spreads_node hbroken hentries hitems hitemsHeight fun s hs =>
      ih s hs ((height_le_heights hs).trans hitemsHeight)

end Layout
/-! Trees. -/

theorem laidOutRest_eq (chars : Nat → List Char) (separator : List Char) (levels : Nat)
    (ss : List Shape) : laidOutRest chars separator levels ss =
      (ss.flatMap fun s => separator ++ s.laidOut chars levels) ++ [')'] := by
  induction ss with
  | nil => rfl
  | cons s ss ih => rw [laidOutRest, ih, List.flatMap_cons, List.append_assoc, List.append_assoc]

mutual
/-- With a space for every gap a part is laid out as it is rendered. -/
theorem Shape.laidOut_space : (s : Shape) → (levels : Nat) →
    s.laidOut (fun _ => [' ']) levels = s.text
  | .word _, _ => by rw [Shape.laidOut, Shape.text_word]
  | .quoted _, _ => by rw [Shape.laidOut, Shape.text_quoted]
  | .names xs, _ => by
    rw [Shape.laidOut, ← List.append_nil (Shape.names xs).text, Shape.text_names_append]
  | .node broken [], _ => by
    rw [Shape.laidOut, ← List.append_nil (Shape.node broken []).text, Shape.text_node_nil_append]
  | .node false (s :: ss), levels => by
    rw [Shape.laidOut, s.laidOut_space, laidOutRest_space ss,
      ← List.append_nil (Shape.node false (s :: ss)).text, Shape.text_node_cons_append,
      List.append_nil]
  | .node true (s :: ss), levels => by
    rw [Shape.laidOut, s.laidOut_space, laidOutRest_space ss,
      ← List.append_nil (Shape.node true (s :: ss)).text, Shape.text_node_cons_append,
      List.append_nil]
theorem laidOutRest_space : (ss : List Shape) → (levels : Nat) →
    laidOutRest (fun _ => [' ']) [' '] levels ss = Shape.closing ss
  | [], _ => rfl
  | s :: ss, levels => by
    rw [laidOutRest, s.laidOut_space, laidOutRest_space ss,
      ← List.append_nil (Shape.closing (s :: ss)), Shape.closing_cons_append, List.append_nil]
    rfl
end

/-- A list that is no block, from its items. -/
theorem toList_parenthesized {texts : List String} {items : List Shape} {chars : Nat → List Char}
    {levels : Nat} (h : texts.map String.toList = items.map (Shape.laidOut chars levels)) :
    (parenthesized texts).toList = (Shape.node false items).laidOut chars levels := by
  rw [parenthesized, String.toList_append, String.toList_append]
  cases texts with
  | nil =>
    obtain rfl := List.map_eq_nil_iff.1 h.symm
    rw [Shape.laidOut]
    rfl
  | cons text texts =>
    cases items with
    | nil => cases h
    | cons s ss =>
      obtain ⟨hhead, hrest⟩ := List.cons.inj h
      have hflat : (texts.flatMap fun text => ' ' :: text.toList) =
          ss.flatMap fun s => ' ' :: s.laidOut chars levels := by
        have hspaced := congrArg (List.flatMap (' ' :: ·)) hrest
        rwa [List.flatMap_map, List.flatMap_map] at hspaced
      rw [spaced_cons, Shape.laidOut, laidOutRest_eq, hhead, hflat]
      simp

section
variable {gap : Nat → String}

/-- The gaps as lists of characters. -/
abbrev gapChars (gap : Nat → String) : Nat → List Char := fun levels => (gap levels).toList

theorem laidOut_signature (s : Signature) (levels : Nat) {text : String} {body : Shape}
    (h : text.toList = body.laidOut (gapChars gap) levels) :
    (s.render ++ [text]).map String.toList =
      (s.shapes ++ [body]).map (Shape.laidOut (gapChars gap) levels) := by
  have hparameters : (parenthesized (s.parameters.map Parameter.render)).toList =
      (Shape.node false (s.parameters.map Parameter.shape)).laidOut (gapChars gap) levels :=
    toList_parenthesized (by simp [Parameter.shape, Shape.laidOut, Function.comp_def])
  simp [Signature.render, Signature.shapes, hparameters, h, Shape.laidOut]

mutual
theorem Expr.toList_laidOut : (e : Expr) → (levels : Nat) →
    (e.laidOut gap levels).toList = e.shape.laidOut (gapChars gap) levels
  | .number .., _ | .string .., _ | .name .., _ | .unassigned .., _ => by
    rw [Expr.laidOut, Expr.shape, Shape.laidOut]
  | .binary _ left right _, levels => by
    rw [Expr.laidOut, Expr.shape]
    exact toList_parenthesized
      (by simp [Shape.laidOut, left.toList_laidOut levels, right.toList_laidOut levels])
  | .prefixed _ operand _, levels => by
    rw [Expr.laidOut, Expr.shape]
    exact toList_parenthesized (by simp [Shape.laidOut, operand.toList_laidOut levels])
  | .assignment _ target value _, levels => by
    rw [Expr.laidOut, Expr.shape]
    exact toList_parenthesized
      (by simp [Shape.laidOut, target.toList_laidOut levels, value.toList_laidOut levels])
  | .call callee arguments _, levels => by
    rw [Expr.laidOut, Expr.shape]
    exact toList_parenthesized (by simp [Shape.laidOut, callee.toList_laidOut levels,
      toList_laidOutExprs arguments levels])
  | .member object _ _, levels => by
    rw [Expr.laidOut, Expr.shape]
    exact toList_parenthesized (by simp [Shape.laidOut, object.toList_laidOut levels])
  | .closure _ signature body _, levels => by
    have hbody := laidOut_signature signature levels (body.toList_laidOut levels)
    rw [Expr.laidOut, Expr.shape]
    exact toList_parenthesized (by simpa [Shape.laidOut] using hbody)
theorem toList_laidOutExprs : (es : List Expr) → (levels : Nat) →
    (laidOutExprs gap levels es).map String.toList =
      (exprShapes es).map (Shape.laidOut (gapChars gap) levels)
  | [], _ => rfl
  | e :: es, levels => by
    rw [laidOutExprs, exprShapes, List.map_cons, List.map_cons, e.toList_laidOut levels,
      toList_laidOutExprs es levels]
theorem Statement.toList_laidOut : (s : Statement) → (levels : Nat) →
    (s.laidOut gap levels).toList = s.shape.laidOut (gapChars gap) levels
  | .expression value _, levels => by
    rw [Statement.laidOut, Statement.shape, value.toList_laidOut levels]
  | .block body, levels => by
    rw [Statement.laidOut, Statement.shape, body.toList_laidOut levels]
  | .conditional condition thenBody elseBody _, levels => by
    rw [Statement.laidOut, Statement.shape]
    exact toList_parenthesized (by simp [Shape.laidOut, condition.toList_laidOut levels,
      thenBody.toList_laidOut levels, toList_laidOutElse elseBody levels])
  | .result value _, levels => by
    rw [Statement.laidOut, Statement.shape]
    exact toList_parenthesized (by simp [Shape.laidOut, value.toList_laidOut levels])
  | .loop iterable _ body _, levels => by
    rw [Statement.laidOut, Statement.shape]
    exact toList_parenthesized (by simp [Shape.laidOut, iterable.toList_laidOut levels,
      body.toList_laidOut levels])
  | .declaration _ _ _ value _, levels => by
    rw [Statement.laidOut, Statement.shape]
    exact toList_parenthesized (by simp [Shape.laidOut, value.toList_laidOut levels])
  | .function _ signature body _, levels => by
    have hbody := laidOut_signature signature levels (body.toList_laidOut levels)
    rw [Statement.laidOut, Statement.shape]
    exact toList_parenthesized (by simpa [Shape.laidOut] using hbody)
  | .classDefinition _ _ body _, levels => by
    rw [Statement.laidOut, Statement.shape]
    exact toList_parenthesized (by simp [Shape.laidOut, body.toList_laidOut levels])
theorem toList_laidOutElse : (body : Option Block) → (levels : Nat) →
    (laidOutElse gap levels body).map String.toList =
      (elseShapes body).map (Shape.laidOut (gapChars gap) levels)
  | none, _ => rfl
  | some body, levels => by
    rw [laidOutElse, elseShapes, List.map_singleton, List.map_singleton,
      body.toList_laidOut levels]
theorem toList_laidOutEntries : (ss : List Statement) → (levels : Nat) →
    (laidOutEntries gap levels ss).toList ++ [')'] =
      laidOutRest (gapChars gap) (gap levels).toList levels (statementShapes ss)
  | [], _ => rfl
  | s :: ss, levels => by
    rw [laidOutEntries, String.toList_append, String.toList_append, s.toList_laidOut levels,
      List.append_assoc, toList_laidOutEntries ss levels, List.append_assoc, statementShapes,
      laidOutRest]
theorem Block.toList_laidOut : (b : Block) → (levels : Nat) →
    (b.laidOut gap levels).toList = b.shape.laidOut (gapChars gap) levels
  | ⟨statements, _⟩, levels => by
    have hentries := toList_laidOutEntries statements (levels + 1)
    have hclose : ")".toList = [')'] := rfl
    rw [Block.laidOut, Block.shape, String.toList_append, String.toList_append, List.append_assoc,
      hclose, hentries]
    simp only [Shape.laidOut]
    rfl
end

end

/-- The end of a line and the indentation of an entry that is in so many blocks. -/
def entryBreak (levels : Nat) : String := String.ofList (Layout.lineBreak levels)

/-- The layout of a statement of a program breaks its text before the entries of blocks, each on a
line that is indented by two spaces for every block around it. Otherwise it leaves the text alone,
for with spaces in these places it is the rendered text. -/
theorem layout_statements {source : String} {origin : Option String} {name : String} {b : Block}
    (h : Accepted source origin name b) : ∀ s ∈ b.statements,
      layout s.render = s.laidOut entryBreak 0 ∧ s.render = s.laidOut (fun _ => " ") 0 := by
  have hheight := h.height_le
  obtain ⟨tokens, stop, htokens, hparse⟩ := h
  have hformed := parse_statements_wellFormed htokens hparse
  rw [wellFormedStatements_eq, List.all_eq_true] at hformed
  intro s hs
  have htext : s.shape.text = s.render.toList := congrArg String.toList s.render_shape
  have hgaps : gapChars entryBreak = Layout.lineBreak := funext fun _ => String.toList_ofList
  constructor
  · have hspread := Layout.spreads_of_sound (s.sound (hformed s hs)) (hheight s hs) 0 [] []
      Layout.apart_nil (by simp)
    rw [layout, ← String.toList_inj, String.toList_ofList, s.toList_laidOut, hgaps, ← htext]
    rw [List.append_nil] at hspread
    rw [hspread]
    exact List.append_nil _
  · have hspaces : gapChars (fun _ => " ") = fun _ => [' '] := by
      have hspace : " ".toList = [' '] := rfl
      exact funext fun _ => hspace
    rw [← String.toList_inj, s.toList_laidOut, hspaces, s.shape.laidOut_space, htext]

/-- The head of a block in a string is no head of a block. -/
theorem layout_statements_string : ∃ b, Accepted "if a \x7b f(\"(block b\") \x7d" none "shell" b ∧
    b.statements.map (fun s => layout s.render) = ["(if a (block\n  (call f \"(block b\")))"] ∧
    ∀ s ∈ b.statements, layout s.render = s.laidOut entryBreak 0 ∧
      s.render = s.laidOut (fun _ => " ") 0 := by
  have hcheck : isProgram "if a \x7b f(\"(block b\") \x7d" none "shell" (fun b =>
      b.statements.map (fun s => layout s.render) =
        ["(if a (block\n  (call f \"(block b\")))"]) = true := by decide +kernel
  obtain ⟨b, h, htext⟩ := exists_of_isProgram hcheck
  exact ⟨b, h, of_decide_eq_true htext, layout_statements h⟩

end ScriptSyntax
