import ScriptSyntax.Token
import ScriptSyntax.Tree

/-! Tokens as words without a place, and layouts: the ways in which the words of the parts of a
construct are put together, with lines that may end in between. -/
namespace ScriptSyntax

/-- A token as the grammar sees it: without its place, and without a text where its kind has one. -/
inductive Terminal where
  | endOfInput
  | newLine
  | number (text : String)
  | string (value : String)
  | symbol (text : String)
  | name (text : String)
  | keyword (word : Keyword)
  deriving DecidableEq, Repr

def Token.terminal (t : Token) : Terminal :=
  match t.kind with
  | .endOfInput => .endOfInput
  | .newLine => .newLine
  | .number => .number t.text
  | .string => .string t.text
  | .symbol => .symbol t.text
  | .name => .name t.text
  | .keyword word => .keyword word

variable {ws vs : List Terminal} {pieces : List (List Terminal)}

/-- Any number of ends of lines. -/
def EmptyLines (ws : List Terminal) : Prop := ∀ w ∈ ws, w = .newLine

theorem emptyLines_nil : EmptyLines [] := by simp [EmptyLines]

theorem EmptyLines.newLine (h : EmptyLines ws) : EmptyLines (.newLine :: ws) :=
  List.forall_mem_cons.2 ⟨rfl, h⟩

theorem EmptyLines.append (h : EmptyLines ws) (h' : EmptyLines vs) : EmptyLines (ws ++ vs) :=
  List.forall_mem_append.2 ⟨h, h'⟩

theorem EmptyLines.headD {P : Terminal → Prop} {w : Terminal} (h : EmptyLines ws)
    (hline : P .newLine) (hvs : P (vs.headD w)) : P ((ws ++ vs).headD w) := by
  cases ws with
  | nil => exact hvs
  | cons u ws =>
    rw [h u List.mem_cons_self]
    exact hline

/-! Layouts: how the pieces of a construct are put together. -/

/-- Pieces with commas between them. Lines may end after each piece and after each comma, and a
comma may stand after the last piece. -/
inductive Listed : List (List Terminal) → List Terminal → Prop
  | nil : Listed [] []
  | last (ws : List Terminal) {nl : List Terminal} : EmptyLines nl → Listed [ws] (ws ++ nl)
  | cons (ws : List Terminal) {nl nl' vs : List Terminal} {pieces : List (List Terminal)} :
    EmptyLines nl → EmptyLines nl' → Listed pieces vs →
      Listed (ws :: pieces) (ws ++ (nl ++ .symbol "," :: (nl' ++ vs)))

/-- A list of pieces in parentheses. -/
inductive Parenthesized (pieces : List (List Terminal)) : List Terminal → Prop
  | intro {nl ws : List Terminal} : EmptyLines nl → Listed pieces ws →
    Parenthesized pieces (.symbol "(" :: (nl ++ (ws ++ [.symbol ")"])))

/-- At least one piece, with ends of lines between every two. -/
inductive Lined : List (List Terminal) → List Terminal → Prop
  | one (ws : List Terminal) : Lined [ws] ws
  | cons (ws : List Terminal) {nl vs : List Terminal} {pieces : List (List Terminal)} :
    EmptyLines nl → nl ≠ [] → Lined pieces vs → Lined (ws :: pieces) (ws ++ (nl ++ vs))

/-- Pieces on lines of their own, with empty lines anywhere. -/
inductive OnLines : List (List Terminal) → List Terminal → Prop
  | none {nl : List Terminal} : EmptyLines nl → OnLines [] nl
  | some {nl ws nl' : List Terminal} {pieces : List (List Terminal)} :
    EmptyLines nl → Lined pieces ws → EmptyLines nl' → OnLines pieces (nl ++ (ws ++ nl'))

/-- Statements between which nothing has to stand. A statement and what follows it up to the end of
the construct have to fit together. -/
inductive Loosely (fits : Statement → List Terminal → Prop) :
    List (Statement × List Terminal) → List Terminal → Prop
  | nil {nl : List Terminal} : EmptyLines nl → Loosely fits [] nl
  | cons (ws : List Terminal) {nl vs : List Terminal} {s : Statement}
    {items : List (Statement × List Terminal)} :
    EmptyLines nl → fits s vs → Loosely fits items vs →
      Loosely fits ((s, ws) :: items) (nl ++ (ws ++ vs))

theorem OnLines.newLine (h : OnLines pieces ws) : OnLines pieces (.newLine :: ws) := by
  cases h with
  | none hnl => exact .none hnl.newLine
  | some hnl hws hnl' => exact .some hnl.newLine hws hnl'

theorem OnLines.behind {nl : List Terminal} (hnl : EmptyLines nl) (h : OnLines pieces ws) :
    OnLines pieces (nl ++ ws) := by
  induction nl with
  | nil => exact h
  | cons w nl ih =>
    obtain ⟨hw, hnl⟩ := List.forall_mem_cons.1 hnl
    rw [hw]
    exact (ih hnl).newLine

theorem OnLines.last (ws : List Terminal) : OnLines [ws] ws := by
  have h := OnLines.some emptyLines_nil (.one ws) emptyLines_nil
  simpa using h

theorem OnLines.cons (ws : List Terminal) (h : OnLines pieces vs) :
    OnLines (ws :: pieces) (ws ++ .newLine :: vs) := by
  cases h with
  | none hnl =>
    have h := OnLines.some emptyLines_nil (.one ws) hnl.newLine
    simpa using h
  | some hnl hvs hnl' =>
    have hlined := Lined.cons ws hnl.newLine (List.cons_ne_nil _ _) hvs
    have h := OnLines.some emptyLines_nil hlined hnl'
    simpa using h

/-! The words of a piece stand together in the whole. -/
section Infix
variable {piece : List Terminal}

theorem Listed.isInfix (h : Listed pieces ws) (hp : piece ∈ pieces) : piece <:+: ws := by
  induction h with
  | nil => cases hp
  | last _ _ =>
    rw [List.mem_singleton.1 hp]
    exact (List.prefix_append _ _).isInfix
  | cons us _ _ _ ih =>
    rcases List.mem_cons.1 hp with rfl | hp
    · exact (List.prefix_append _ _).isInfix
    · refine (ih hp).trans (List.IsSuffix.isInfix ?_)
      rw [← List.cons_append, ← List.append_assoc, ← List.append_assoc]
      exact List.suffix_append _ _

theorem Parenthesized.isInfix (h : Parenthesized pieces ws) (hp : piece ∈ pieces) :
    piece <:+: ws := by
  cases h with
  | @intro nl us _ hus =>
    refine (hus.isInfix hp).trans ⟨.symbol "(" :: nl, [.symbol ")"], ?_⟩
    rw [List.cons_append, List.cons_append, List.append_assoc]

theorem Lined.isInfix (h : Lined pieces ws) (hp : piece ∈ pieces) : piece <:+: ws := by
  induction h with
  | one us =>
    obtain rfl := List.mem_singleton.1 hp
    exact List.infix_rfl
  | cons us _ _ _ ih =>
    rcases List.mem_cons.1 hp with rfl | hp
    · exact (List.prefix_append _ _).isInfix
    · refine (ih hp).trans (List.IsSuffix.isInfix ?_)
      rw [← List.append_assoc]
      exact List.suffix_append _ _

theorem OnLines.isInfix (h : OnLines pieces ws) (hp : piece ∈ pieces) : piece <:+: ws := by
  cases h with
  | none _ => cases hp
  | @some nl us nl' _ _ hus _ =>
    refine (hus.isInfix hp).trans ⟨nl, nl', ?_⟩
    rw [List.append_assoc]

theorem Loosely.isInfix {fits : Statement → List Terminal → Prop}
    {items : List (Statement × List Terminal)} (h : Loosely fits items ws)
    {i : Statement × List Terminal} (hi : i ∈ items) : i.2 <:+: ws := by
  induction h with
  | nil _ => cases hi
  | @cons us nl vs _ _ _ _ _ ih =>
    rcases List.mem_cons.1 hi with rfl | hi
    · exact ⟨nl, vs, List.append_assoc _ _ _⟩
    · refine (ih hi).trans (List.IsSuffix.isInfix ?_)
      rw [← List.append_assoc]
      exact List.suffix_append _ _

end Infix

/-! Items: pieces of a layout with the values that they spell. -/

/-- Words that fall into pieces of a layout, each of which spells a value of a list. -/
def Items {α : Type} (spells : List Terminal → α → Prop)
    (layout : List (List Terminal) → List Terminal → Prop) (ws : List Terminal)
    (values : List α) : Prop :=
  ∃ items : List (α × List Terminal), values = items.map (·.1) ∧ (∀ i ∈ items, spells i.2 i.1) ∧
    layout (items.map (·.2)) ws

section Items
variable {α : Type} {spells : List Terminal → α → Prop}
  {layout layout' : List (List Terminal) → List Terminal → Prop} {values : List α}

theorem Items.nil (h : layout [] ws) : Items spells layout ws [] :=
  ⟨[], rfl, by simp, h⟩

theorem Items.one {a : α} {us : List Terminal} (ha : spells us a) (h : layout [us] ws) :
    Items spells layout ws [a] :=
  ⟨[(a, us)], rfl, by simpa using ha, h⟩

theorem Items.cons {a : α} {us : List Terminal} (ha : spells us a)
    (h : Items spells layout vs values)
    (hws : ∀ pieces, layout pieces vs → layout' (us :: pieces) ws) :
    Items spells layout' ws (a :: values) := by
  obtain ⟨items, rfl, hitems, hvs⟩ := h
  exact ⟨(a, us) :: items, rfl, List.forall_mem_cons.2 ⟨ha, hitems⟩, hws _ hvs⟩

theorem Items.mono (h : Items spells layout ws values)
    (hws : ∀ pieces, layout pieces ws → layout' pieces vs) : Items spells layout' vs values := by
  obtain ⟨items, rfl, hitems, hlayout⟩ := h
  exact ⟨items, rfl, hitems, hws _ hlayout⟩

/-- Items on lines row by row: an empty row, one with an item, or an item that the last row ends
with. -/
@[elab_as_elim]
theorem Items.lines_induction {motive : List Terminal → List α → Prop} (nil : motive [] [])
    (newLine : ∀ ws values, motive ws values → motive (.newLine :: ws) values)
    (last : ∀ us a, spells us a → motive us [a])
    (row : ∀ us a ws values, spells us a → motive ws values →
      motive (us ++ .newLine :: ws) (a :: values))
    (h : Items spells OnLines ws values) : motive ws values := by
  have lines {nl us : List Terminal} {vals : List α} (hnl : EmptyLines nl) (hus : motive us vals) :
      motive (nl ++ us) vals := by
    induction nl with
    | nil => exact hus
    | cons w nl ih =>
      obtain ⟨hw, hnl⟩ := List.forall_mem_cons.1 hnl
      rw [hw]
      exact newLine _ _ (ih hnl)
  obtain ⟨items, rfl, hitems, hws⟩ := h
  generalize hpieces : items.map (·.2) = pieces at hws
  cases hws with
  | none hnl =>
    rw [List.map_eq_nil_iff] at hpieces
    subst hpieces
    simpa using lines hnl nil
  | @some nl us nl' _ hnl hus hnl' =>
    apply lines hnl
    clear hnl
    induction hus generalizing items with
    | one us =>
      obtain ⟨⟨a, _⟩, rest, rfl, rfl, hrest⟩ := List.map_eq_cons_iff.1 hpieces
      rw [List.map_eq_nil_iff] at hrest
      subst hrest
      have ha := hitems _ List.mem_cons_self
      cases nl' with
      | nil => simpa using last _ _ ha
      | cons w nl' =>
        obtain ⟨hw, hnl'⟩ := List.forall_mem_cons.1 hnl'
        rw [hw]
        exact row _ _ _ _ ha (by simpa using lines hnl' nil)
    | @cons us nl vs pieces hnl hne _ ih =>
      obtain ⟨⟨a, _⟩, rest, rfl, rfl, hrest⟩ := List.map_eq_cons_iff.1 hpieces
      obtain ⟨ha, hitems⟩ := List.forall_mem_cons.1 hitems
      have hvs := ih rest hitems hrest
      cases nl with
      | nil => exact absurd rfl hne
      | cons w nl =>
        obtain ⟨hw, hnl⟩ := List.forall_mem_cons.1 hnl
        rw [hw]
        have hrow := row _ _ _ _ ha (lines hnl hvs)
        simpa using hrow

/-- Items of a list with commas one by one. -/
@[elab_as_elim]
theorem Items.listed_induction {motive : List Terminal → List α → Prop} (nil : motive [] [])
    (last : ∀ us a nl, spells us a → EmptyLines nl → motive (us ++ nl) [a])
    (cons : ∀ us a nl nl' ws values, spells us a → EmptyLines nl → EmptyLines nl' →
      Items spells Listed ws values → motive ws values →
        motive (us ++ (nl ++ .symbol "," :: (nl' ++ ws))) (a :: values))
    (h : Items spells Listed ws values) : motive ws values := by
  obtain ⟨items, rfl, hitems, hws⟩ := h
  generalize hpieces : items.map (·.2) = pieces at hws
  induction hws generalizing items with
  | nil =>
    rw [List.map_eq_nil_iff] at hpieces
    subst hpieces
    exact nil
  | last _ hnl =>
    obtain ⟨⟨a, _⟩, rest, rfl, rfl, hrest⟩ := List.map_eq_cons_iff.1 hpieces
    rw [List.map_eq_nil_iff] at hrest
    subst hrest
    exact last _ _ _ (hitems _ List.mem_cons_self) hnl
  | cons _ hnl hnl' hvs ih =>
    obtain ⟨⟨a, _⟩, rest, rfl, rfl, rfl⟩ := List.map_eq_cons_iff.1 hpieces
    obtain ⟨ha, hitems⟩ := List.forall_mem_cons.1 hitems
    exact cons _ _ _ _ _ _ ha hnl hnl' ⟨rest, rfl, hitems, hvs⟩ (ih rest hitems rfl)

end Items

/-! What words in a layout begin with. -/
section Layouts
variable {P : Terminal → Prop}

theorem Lined.begins (h : Lined pieces ws)
    (hp : ∀ piece ∈ pieces, ∃ w us, piece = w :: us ∧ P w) : ∃ w us, ws = w :: us ∧ P w := by
  cases h with
  | one => exact hp ws (by simp)
  | cons _ _ _ _ =>
    obtain ⟨w, us, rfl, hw⟩ := hp _ List.mem_cons_self
    exact ⟨w, _, List.cons_append, hw⟩

theorem OnLines.begins (h : OnLines pieces ws)
    (hp : ∀ piece ∈ pieces, ∃ w us, piece = w :: us ∧ P w) :
    (ws = [] ∧ pieces = []) ∨ ∃ w us, ws = w :: us ∧ (w = .newLine ∨ P w) := by
  cases h with
  | none hnl =>
    cases ws with
    | nil => exact .inl ⟨rfl, rfl⟩
    | cons w us => exact .inr ⟨w, us, rfl, .inl (hnl w List.mem_cons_self)⟩
  | @some nl us _ _ hnl hus _ =>
    cases nl with
    | nil =>
      obtain ⟨w, us, rfl, hw⟩ := hus.begins hp
      exact .inr ⟨w, _, rfl, .inr hw⟩
    | cons w nl => exact .inr ⟨w, _, rfl, .inl (hnl w List.mem_cons_self)⟩

end Layouts

end ScriptSyntax
