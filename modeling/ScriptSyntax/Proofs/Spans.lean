import ScriptSyntax.Proofs.Forward
import ScriptSyntax.Proofs.Joining
import ScriptSyntax.Proofs.Nodes
import ScriptSyntax.Proofs.Tiling

/-! Where the nodes of a tree are. While the tokens are read, the spans of the nodes read so far lie
one behind the other up to the last token read; a construct takes the latest of them together. -/
namespace ScriptSyntax
open Parse

variable {tokens ts : List Token} {c d : Cursor} {before mid ss between : List Span}
  {first last : Span}

/-! Tokens in a row. -/

/-- The spans of tokens lie one behind the other. -/
def InRow (tokens : List Token) : Prop := ∃ size, Along 0 (tokens.map Token.span) size

namespace Cursor

theorem tokens_around (c : Cursor) :
    ∃ rest, c.tokens = c.consumed.reverse ++ c.current :: rest := by
  obtain ⟨consumed, upcoming, finish, _, rfl⟩ := c
  cases upcoming with
  | nil => exact ⟨[], by simp [tokens, current]⟩
  | cons t rest => exact ⟨rest ++ [finish.token], by simp [tokens, current]⟩

theorem lastEnd_next (h : c.current.kind ≠ .endOfInput) : c.next.lastEnd = c.current.span.stop := by
  rw [lastEnd, (upcoming_of_current h).2.1]

/-- What was consumed last is a token, whose end is the last one. -/
theorem lastEnd_mem (h : c.consumed ≠ []) : ∃ t ∈ c.tokens, c.lastEnd = t.span.stop := by
  rw [lastEnd, tokens]
  cases hc : c.consumed with
  | nil => exact absurd hc h
  | cons t rest => exact ⟨t, by simp, rfl⟩

theorem lastEnd_le_current (h : InRow c.tokens) :
    c.lastEnd.offset.toNat ≤ c.current.span.start.offset.toNat ∧
      c.current.span.start.offset.toNat ≤ c.current.span.stop.offset.toNat := by
  obtain ⟨size, h⟩ := h
  obtain ⟨rest, htokens⟩ := c.tokens_around
  rw [htokens, List.map_append, List.map_cons, Along.append_iff] at h
  obtain ⟨mid, hconsumed, hmid, hcur, -⟩ := h
  refine ⟨?_, hcur⟩
  rw [lastEnd]
  cases hc : c.consumed with
  | nil => exact Nat.le_refl _
  | cons t rest =>
    rw [hc, List.reverse_cons, List.map_append, Along.append_iff] at hconsumed
    obtain ⟨-, -, -, -, ht⟩ := hconsumed
    exact Nat.le_trans ht hmid

theorem Passes.lastEnd_le (h : c.Passes ts d) (hrow : InRow c.tokens) :
    c.lastEnd.offset.toNat ≤ d.lastEnd.offset.toNat := by
  induction ts generalizing c with
  | nil =>
    obtain rfl : c = d := h
    exact Nat.le_refl _
  | cons t ts ih =>
    obtain ⟨rfl, hk, h⟩ := h
    obtain ⟨hstart, hstop⟩ := lastEnd_le_current hrow
    have hrest := ih h (by rwa [c.tokens_next])
    rw [lastEnd_next hk] at hrest
    exact hstart.trans (hstop.trans hrest)

theorem Passes.consumed_ne (h : c.Passes ts d) (hc : c.consumed ≠ []) : d.consumed ≠ [] := by
  rw [h.lists.2.1]
  exact List.append_ne_nil_of_right_ne_nil _ hc

end Cursor

/-! Nodes read from tokens. -/

/-- A span from where a token begins to where a token ends. -/
def Span.OnTokens (tokens : List Token) (s : Span) : Prop :=
  (∃ t ∈ tokens, s.start = t.span.start) ∧ ∃ t ∈ tokens, s.stop = t.span.stop

namespace Node

/-- A node begins and ends with tokens. Where nothing is assigned, there is no text behind a
token. -/
def Placed (tokens : List Token) : Node → Prop
  | expr (.unassigned span) => ∃ t ∈ tokens, span = t.span.stop.empty
  | n => n.span.OnTokens tokens

/-- Where a node is, and where the nodes right below it are. -/
structure Laid (tokens : List Token) (n : Node) : Prop where
  placed : n.Placed tokens
  along : Along n.span.start.offset.toNat (n.children.map span) n.span.stop.offset.toNat

/-- A node that some tokens give, with all nodes below it. Every statement among them is read from
the tokens as it stands. -/
inductive ReadFrom (tokens : List Token) : Node → Prop where
  | mk {n : Node} (laid : n.Laid tokens)
      (read : ∀ s, n = statement s → ∃ c d : Cursor, c.tokens = tokens ∧
        Grammar.script.statement c = .done s d)
      (children : ∀ c ∈ n.children, ReadFrom tokens c) : ReadFrom tokens n

/-- A node of which the nodes below are read from tokens. -/
def Formed (tokens : List Token) (n : Node) : Prop :=
  n.Laid tokens ∧ ∀ c ∈ n.children, ReadFrom tokens c

variable {n m : Node}

theorem ReadFrom.laid (h : n.ReadFrom tokens) : n.Laid tokens := by
  obtain ⟨h, -, -⟩ := h
  exact h

theorem ReadFrom.within (h : n.ReadFrom tokens) (hm : m.Within n) : m.ReadFrom tokens := by
  induction hm with
  | refl => exact h
  | child hc _ ih =>
    obtain ⟨-, -, hchildren⟩ := h
    exact ih (hchildren _ hc)

theorem ReadFrom.formed (h : n.ReadFrom tokens) : n.Formed tokens := by
  obtain ⟨hlaid, -, hchildren⟩ := h
  exact ⟨hlaid, hchildren⟩

theorem Formed.readFrom (h : n.Formed tokens) (hn : ∀ s, n ≠ statement s) : n.ReadFrom tokens :=
  ⟨h.1, fun s hs => absurd hs (hn s), h.2⟩

/-- A node that is made of one other node. -/
theorem ReadFrom.formed_around (h : m.ReadFrom tokens) (hspan : n.span = m.span)
    (hchildren : n.children = [m]) (hplaced : n.Placed tokens) : n.Formed tokens := by
  have hle := h.laid.along.le
  refine ⟨⟨hplaced, ?_⟩, fun c hc => ?_⟩
  · rw [hspan, hchildren]
    exact ⟨Nat.le_refl _, hle, Nat.le_refl _⟩
  · rw [hchildren] at hc
    rwa [List.mem_singleton.1 hc]

theorem ReadFrom.named {e : Expr} (h : (expr e).ReadFrom tokens) (name : String) :
    (expr (e.named name)).ReadFrom tokens := by
  obtain ⟨⟨hplaced, halong⟩, -, hchildren⟩ := h
  refine ⟨⟨?_, ?_⟩, fun _ hs => by simp at hs, ?_⟩
  · cases e <;> exact hplaced
  · rwa [children_named, span, Expr.span_named]
  · rwa [children_named]

theorem placed_of_onTokens (h : n.span.OnTokens tokens) (hn : ∀ s, n ≠ expr (.unassigned s)) :
    n.Placed tokens := by
  rw [Placed.eq_def]
  split
  · next s => exact absurd rfl (hn s)
  · exact h

/-- A node that takes the nodes below it together with what is read around them. -/
theorem formed_of_along (first last : Span) (between : List Span) (hspan : n.span = first.to last)
    (hplaced : n.Placed tokens)
    (hbelow : List.Sublist (n.children.map span) (first :: (between ++ [last])))
    (h : Along first.start.offset.toNat (first :: (between ++ [last])) last.stop.offset.toNat)
    (hchildren : ∀ c ∈ n.children, ReadFrom tokens c) : n.Formed tokens := by
  refine ⟨⟨hplaced, ?_⟩, hchildren⟩
  rw [hspan]
  exact h.sublist hbelow

end Node

/-! What parsers add to the spans behind a cursor. -/

/-- A cursor in a row of tokens, behind some spans. -/
structure Cursor.Behind (tokens : List Token) (spans : List Span) (c : Cursor) : Prop where
  tokens_eq : c.tokens = tokens
  row : InRow tokens
  along : Along 0 spans c.lastEnd.offset.toNat
  moved : spans ≠ [] → c.consumed ≠ []

theorem Cursor.Behind.leads (h : c.Behind tokens before) (hd : c.LeadsTo d) :
    d.Behind tokens before := by
  obtain ⟨ts, hts⟩ := hd
  have hle := hts.lastEnd_le (h.tokens_eq ▸ h.row)
  exact ⟨hts.tokens.trans h.tokens_eq, h.row, h.along.mono (Nat.le_refl _) hle,
    fun hne => hts.consumed_ne (h.moved hne)⟩

theorem Cursor.Behind.next (h : c.Behind tokens before) (hc : c.current.kind ≠ .endOfInput) :
    c.next.Behind tokens (before ++ [c.current.span]) := by
  obtain ⟨hstart, hstop⟩ := c.lastEnd_le_current (h.tokens_eq ▸ h.row)
  refine ⟨c.tokens_next.trans h.tokens_eq, h.row, ?_, fun _ => ?_⟩
  · rw [lastEnd_next hc]
    exact Along.append_iff.2 ⟨_, h.along, hstart, hstop, Nat.le_refl _⟩
  · rw [(upcoming_of_current hc).2.1]
    exact List.cons_ne_nil _ _

namespace Parse
variable {α β : Type} {p : Parse α} {after : α → List Span} {good : α → Prop}
  {after' : β → List Span} {good' : β → Prop}

/-- From behind some spans a parser comes to stand behind others, with a value as it should be. -/
def LaysAt (tokens : List Token) (before : List Span) (after : α → List Span) (good : α → Prop)
    (c : Cursor) (p : Parse α) : Prop :=
  ∀ a d, c.Behind tokens before → p c = .done a d → d.Behind tokens (after a) ∧ good a

def Lays (tokens : List Token) (before : List Span) (after : α → List Span) (good : α → Prop)
    (p : Parse α) : Prop :=
  ∀ c, LaysAt tokens before after good c p

theorem LaysAt.congr {p' : Parse α} (hp : LaysAt tokens before after good c p) (h : p' c = p c) :
    LaysAt tokens before after good c p' := by
  rw [LaysAt] at hp ⊢
  rwa [h]

theorem LaysAt.bind {f : α → Parse β} (hp : LaysAt tokens before after good c p)
    (hf : ∀ a, good a → Lays tokens (after a) after' good' (f a)) :
    LaysAt tokens before after' good' c (p >>= f) := by
  intro b e hc hb
  cases hpc : p c with
  | done a d =>
    obtain ⟨hd, ha⟩ := hp a d hc hpc
    rw [bind_done f hpc] at hb
    exact hf a ha d b e hd hb
  | failed err stop =>
    rw [bind_failed f hpc] at hb
    cases hb
  | endless =>
    rw [bind_endless f hpc] at hb
    cases hb

theorem Lays.bind {f : α → Parse β} (hp : Lays tokens before after good p)
    (hf : ∀ a, good a → Lays tokens (after a) after' good' (f a)) :
    Lays tokens before after' good' (p >>= f) := fun c => (hp c).bind hf

/-- The value that a test of the current token decides about. -/
theorem LaysAt.current {f : Token → Parse β}
    (h : LaysAt tokens before after' good' c (f c.current)) :
    LaysAt tokens before after' good' c (Parse.current >>= f) := h

theorem lays_pure {a : α} (hspans : after a = before) (ha : good a) :
    Lays tokens before after good (pure a) := by
  intro c b d hc hb
  obtain ⟨rfl, rfl⟩ := Outcome.done.inj hb
  exact ⟨hspans ▸ hc, ha⟩

/-- Taking the latest spans together. -/
theorem lays_enclose {a : α} (hb : before = ss ++ first :: (between ++ [last]))
    (hafter : after a = ss ++ [first.to last])
    (ha : Along first.start.offset.toNat (first :: (between ++ [last])) last.stop.offset.toNat →
      good a) : Lays tokens before after good (pure a) := by
  intro c b d hc hb'
  obtain ⟨rfl, rfl⟩ := Outcome.done.inj hb'
  obtain ⟨htokens, hrow, halong, hmoved⟩ := hc
  rw [hb] at halong hmoved
  obtain ⟨hspans, htaken⟩ := halong.enclose
  exact ⟨⟨htokens, hrow, hafter ▸ hspans, fun _ => hmoved (by simp)⟩, ha htaken⟩

/-- What moves forward without giving a node. -/
theorem lays_forward (hp : p.Forward) : Lays tokens before (fun _ => before) (fun _ => True) p := by
  intro c a d hc ha
  exact ⟨hc.leads (hp c d (by rw [ha]; rfl)), trivial⟩

theorem lays_complain (k : Complaint) : Lays tokens before after good (complain k) := by
  intro c a d hc ha
  cases ha

theorem laysAt_advance (hc : c.current.kind ≠ .endOfInput) :
    LaysAt tokens before (fun t => before ++ [t.span]) (fun t => t = c.current ∧ t ∈ tokens ∧
      t.span.start.offset.toNat ≤ t.span.stop.offset.toNat) c advance := by
  intro t d hbehind ht
  obtain ⟨rfl, rfl⟩ := Outcome.done.inj ht
  obtain ⟨-, hle⟩ := c.lastEnd_le_current (hbehind.tokens_eq ▸ hbehind.row)
  exact ⟨hbehind.next hc, rfl, hbehind.tokens_eq ▸ c.current_mem, hle⟩

theorem lays_expectSymbol (text : String) :
    Lays tokens before (fun t => before ++ [t.span]) (fun t => t ∈ tokens) (expectSymbol text) := by
  intro c t d hbehind ht
  rw [expectSymbol, expect] at ht
  have ht' : (if c.current.isSymbol text = true then advance else complain _) c = .done t d := ht
  split at ht'
  · next hsymbol =>
    obtain ⟨hd, -, hmem, -⟩ := laysAt_advance (by simp [kind_of_isSymbol hsymbol]) t d hbehind ht'
    exact ⟨hd, hmem⟩
  · cases ht'

/-- Behind some text the last end is one of a token. -/
theorem lays_lastEnd (hne : before ≠ []) :
    Lays tokens before (fun p => before ++ [p.empty])
      (fun p => ∃ t ∈ tokens, p = t.span.stop) lastEnd := by
  intro c p d hc hp
  obtain ⟨rfl, rfl⟩ := Outcome.done.inj hp
  refine ⟨⟨hc.tokens_eq, hc.row, ?_, fun _ => hc.moved hne⟩, ?_⟩
  · exact Along.append_iff.2 ⟨_, hc.along, Nat.le_refl _, Nat.le_refl _, Nat.le_refl _⟩
  · rw [← hc.tokens_eq]
    exact c.lastEnd_mem (hc.moved hne)

/-- Rounds that each take one more node to the latest one. -/
theorem lays_iterate {span : α → Span} {round : α → Parse (ForInStep α)}
    (h : ∀ a, good a → Lays tokens (ss ++ [span a]) (fun step => ss ++ [span step.value])
      (fun step => good step.value) (round a)) {a : α} (ha : good a) :
    Lays tokens (ss ++ [span a]) (fun b => ss ++ [span b]) good (iterate round a) := by
  intro c
  induction hn : c.remaining using Nat.strong_induction_on generalizing a c with
  | _ n ih =>
    intro b e hc hb
    cases hr : round a c with
    | done step d =>
      obtain ⟨hd, hstep⟩ := h a ha c step d hc hr
      rw [iterate, hr] at hb
      cases step with
      | done a' =>
        obtain ⟨rfl, rfl⟩ := Outcome.done.inj hb
        exact ⟨hd, hstep⟩
      | yield a' =>
        by_cases hlt : d.remaining < c.remaining
        · simp only [hlt, if_true] at hb
          exact ih d.remaining (by omega) hstep d rfl b e hd hb
        · simp only [hlt, if_false] at hb
          cases hb
    | failed err stop =>
      rw [iterate, hr] at hb
      cases hb
    | endless =>
      rw [iterate, hr] at hb
      cases hb

/-- Rounds that each give nodes behind those before. -/
theorem lays_collect {span : α → Span} {round : Parse (ForInStep (List α))}
    (h : ∀ before, Lays tokens before (fun step => before ++ step.value.map span)
      (fun step => ∀ a ∈ step.value, good a) round) (before : List Span) :
    Lays tokens before (fun as => before ++ as.map span) (fun as => ∀ a ∈ as, good a)
      (collect round) := by
  intro c
  induction hn : c.remaining using Nat.strong_induction_on generalizing before c with
  | _ n ih =>
    intro as e hc has
    cases hr : round c with
    | done step d =>
      obtain ⟨hd, hstep⟩ := h before c step d hc hr
      cases step with
      | done items =>
        rw [collect_of_done hr] at has
        obtain ⟨rfl, rfl⟩ := Outcome.done.inj has
        exact ⟨hd, hstep⟩
      | yield items =>
        by_cases hlt : d.remaining < c.remaining
        · rw [collect_of_yield hr hlt] at has
          cases hmore : collect round d with
          | done more e' =>
            rw [hmore] at has
            obtain ⟨rfl, rfl⟩ := Outcome.done.inj has
            obtain ⟨he, hgood⟩ := ih d.remaining (by omega) _ d rfl more e' hd hmore
            refine ⟨?_, fun a ha => (List.mem_append.1 ha).elim (hstep a) (hgood a)⟩
            change e'.Behind tokens (before ++ items.map span ++ more.map span) at he
            rwa [List.append_assoc, ← List.map_append] at he
          | failed | endless =>
            rw [hmore] at has
            cases has
        · rw [collect, hr] at has
          simp only [hlt, if_false] at has
          cases has
    | failed err stop =>
      rw [collect_of_failed hr] at has
      cases has
    | endless =>
      rw [collect, hr] at has
      cases has

/-- A round that gives nothing. -/
theorem lays_none {span : α → Span} {step : ForInStep (List α)} (h : step.value = []) :
    Lays tokens before (fun step => before ++ step.value.map span)
      (fun step => ∀ a ∈ step.value, good a) (pure step) :=
  lays_pure (by simp [h]) (by simp [h])

/-- A round that gives the latest node. -/
theorem lays_one {span : α → Span} {step : ForInStep (List α)} {a : α} (h : step.value = [a])
    (ha : good a) :
    Lays tokens (before ++ [span a]) (fun step => before ++ step.value.map span)
      (fun step => ∀ a ∈ step.value, good a) (pure step) :=
  lays_pure (by simp [h]) (by simpa [h] using ha)

theorem lays_commaSeparated {span : α → Span} {item : Parse α}
    (h : ∀ before, Lays tokens before (fun a => before ++ [span a]) good item)
    (before : List Span) :
    Lays tokens before (fun as => before ++ as.map span) (fun as => ∀ a ∈ as, good a)
      (commaSeparated item) := by
  refine lays_collect (fun before => ?_) before
  refine (lays_forward (forward_atSymbol _)).bind fun b _ => ?_
  cases b with
  | true => exact lays_none rfl
  | false =>
    refine (h before).bind fun a ha => (lays_forward (forward_skip _)).bind fun _ _ =>
      (lays_forward (forward_acceptSymbol _)).bind fun b _ => ?_
    cases b with
    | true =>
      exact (lays_forward (forward_skip _)).bind fun _ _ => lays_one rfl ha
    | false => exact lays_one rfl ha

end Parse

/-! The constructs. -/

/-- An expression that is read from tokens, and not one that stands for no value. -/
def Expr.ReadFrom (tokens : List Token) (e : Expr) : Prop :=
  e.span.OnTokens tokens ∧ (Node.expr e).ReadFrom tokens

/-- Readers whose nodes lie behind what was read before. -/
structure Readers.Lays (tokens : List Token) (r : Readers) : Prop where
  forward : r.Forward
  expr : ∀ before power,
    Parse.Lays tokens before (fun e => before ++ [e.span]) (Expr.ReadFrom tokens) (r.expr power)
  statement : ∀ before, Parse.Lays tokens before (fun s => before ++ [s.span])
    (fun s => (Node.statement s).ReadFrom tokens) r.statement

/-- An expression that takes the nodes below it together. -/
theorem Expr.readFrom_of_along {e : Expr} (first last : Span) (between : List Span)
    (hspan : (Node.expr e).span = first.to last)
    (hfirst : ∃ t ∈ tokens, first.start = t.span.start)
    (hlast : ∃ t ∈ tokens, last.stop = t.span.stop) (hassigned : ∀ s, e ≠ .unassigned s)
    (hbelow : List.Sublist ((Node.expr e).children.map Node.span) (first :: (between ++ [last])))
    (hchildren : ∀ c ∈ (Node.expr e).children, c.ReadFrom tokens)
    (h : Along first.start.offset.toNat (first :: (between ++ [last])) last.stop.offset.toNat) :
    e.ReadFrom tokens := by
  have hon : (Node.expr e).span.OnTokens tokens := by
    rw [hspan]
    exact ⟨hfirst, hlast⟩
  have hplaced : (Node.expr e).Placed tokens :=
    Node.placed_of_onTokens hon fun s hs => hassigned s (Node.expr.inj hs)
  exact ⟨hon, (Node.formed_of_along first last between hspan hplaced hbelow h hchildren).readFrom
    fun _ => by simp⟩

namespace Readers.Lays
variable {r : Readers} (h : r.Lays tokens)
include h

theorem blockRound (before : List Span) : Parse.Lays tokens before
    (fun step => before ++ step.value.map Statement.span)
    (fun step => ∀ s ∈ step.value, (Node.statement s).ReadFrom tokens) r.blockRound := by
  intro c
  refine LaysAt.current ?_
  split
  · exact lays_complain _ c
  split
  · exact (lays_forward forward_advance).bind (fun _ _ => lays_none rfl) c
  split
  · exact (lays_forward forward_advance).bind (fun _ _ => lays_none rfl) c
  refine (h.statement before).bind (fun s hs => ?_) c
  refine (lays_forward (forward_acceptKind _)).bind fun b _ => ?_
  cases b with
  | true => exact lays_one rfl hs
  | false =>
    refine (lays_forward (forward_atSymbol _)).bind fun b _ => ?_
    cases b with
    | true => exact lays_one rfl hs
    | false => exact lays_complain _

theorem loopRound (before : List Span) : Parse.Lays tokens before
    (fun step => before ++ step.value.map Statement.span)
    (fun step => ∀ s ∈ step.value, (Node.statement s).ReadFrom tokens) r.loopRound := by
  refine (lays_forward (forward_skip _)).bind fun _ _ =>
    (lays_forward (forward_atSymbol _)).bind fun b _ => ?_
  cases b with
  | true => exact lays_none rfl
  | false =>
    refine (lays_forward forward_atToken).bind fun b _ => ?_
    cases b with
    | true =>
      exact (h.statement before).bind fun s hs => lays_one rfl hs
    | false => exact lays_none rfl

omit h in
/-- A block that begins with a brace and takes its statements together. -/
theorem blockOf {opening : Token} {ss : List Statement} {stop : Position}
    (hopening : opening ∈ tokens) (hss : ∀ s ∈ ss, (Node.statement s).ReadFrom tokens)
    (hstop : ∃ t ∈ tokens, stop = t.span.stop)
    (hrow : Along opening.span.start.offset.toNat
      (opening.span :: (ss.map Statement.span ++ [stop.empty])) stop.offset.toNat) :
    (Node.block ⟨ss, opening.span.start, stop⟩).ReadFrom tokens := by
  have hplaced : (Node.block ⟨ss, opening.span.start, stop⟩).Placed tokens :=
    Node.placed_of_onTokens ⟨⟨opening, hopening, rfl⟩, hstop⟩ fun _ => by simp
  refine (Node.formed_of_along opening.span stop.empty _ rfl hplaced ?_ hrow ?_).readFrom
    fun _ => by simp
  · rw [Node.children, List.map_map]
    exact (List.sublist_append_left _ _).cons _
  · intro c hc
    obtain ⟨s, hs, rfl⟩ := List.mem_map.1 hc
    exact hss s hs

theorem block (before : List Span) : Parse.Lays tokens before (fun b => before ++ [b.span])
    (fun b => (Node.block b).ReadFrom tokens) r.block :=
  (lays_expectSymbol _).bind fun opening hopening =>
    (lays_collect h.blockRound _).bind fun ss hss =>
      (lays_lastEnd (by simp)).bind fun stop hstop =>
        lays_enclose (by simp) rfl (blockOf hopening hss hstop)

end Readers.Lays

/-- A literal takes just its token. -/
theorem literal (before : List Span) (hc : c.current.kind ≠ .endOfInput) :
    LaysAt tokens before (fun e => before ++ [e.span]) (Expr.ReadFrom tokens) c Parse.literal := by
  have hleaf : ∀ e : Expr, e.span = c.current.span → (∀ s, e ≠ .unassigned s) →
      (Node.expr e).children = [] → LaysAt tokens before (fun e => before ++ [e.span])
        (Expr.ReadFrom tokens) c (advance >>= fun _ => pure e) := by
    refine fun e hspan hassigned hchildren => (laysAt_advance hc).bind ?_
    rintro t ⟨rfl, hmem, hle⟩
    have hon : (Node.expr e).span.OnTokens tokens := by
      rw [Node.span, hspan]
      exact ⟨⟨_, hmem, rfl⟩, _, hmem, rfl⟩
    refine lays_pure (by rw [hspan]) ⟨hon, ⟨⟨?_, ?_⟩, fun _ hs => by simp at hs, ?_⟩⟩
    · exact Node.placed_of_onTokens hon fun s hs => hassigned s (Node.expr.inj hs)
    · rw [hchildren, Node.span, hspan]
      exact hle
    · rw [hchildren]
      exact fun _ hmem => absurd hmem List.not_mem_nil
  refine LaysAt.current ?_
  cases c.current.kind with
  | number =>
    dsimp only
    cases Double.ofText? c.current.text with
    | some value => exact hleaf _ rfl (by simp) rfl
    | none => exact fun _ _ _ ha => by cases ha
  | name | string => exact hleaf _ rfl (by simp) rfl
  | symbol | keyword _ | newLine | endOfInput => exact lays_complain _ c

namespace Readers.Lays
variable {r : Readers} (h : r.Lays tokens)
include h

theorem exprStart (start : ExprStart) (before : List Span) (hc : c.current.kind ≠ .endOfInput) :
    LaysAt tokens before (fun e => before ++ [e.span]) (Expr.ReadFrom tokens) c (start.read r) := by
  cases start with
  | literal => exact literal before hc
  | prefixed =>
    refine (laysAt_advance hc).bind fun operator ⟨_, hmem, _⟩ =>
      (h.expr _ _).bind fun operand hoperand => ?_
    exact lays_enclose (by simp) rfl <|
      Expr.readFrom_of_along operator.span operand.span [] rfl ⟨operator, hmem, rfl⟩ hoperand.1.2
        (by simp) (List.sublist_cons_self _ _) (by simpa [Node.children] using hoperand.2)
  | grouping =>
    refine (lays_forward forward_advanceLine c).bind fun _ _ => (h.expr _ _).bind fun e he =>
      (lays_forward (forward_skip _)).bind fun _ _ =>
        (lays_forward (forward_expectSymbol _)).bind fun _ _ => ?_
    exact lays_pure rfl he
  | closure =>
    refine (laysAt_advance hc).bind fun opening ⟨_, hmem, _⟩ =>
      (lays_forward h.forward.signature).bind fun signature _ => (h.block _).bind fun body hbody =>
        (lays_lastEnd (by simp)).bind fun stop hstop => ?_
    exact lays_enclose (by simp) rfl <|
      Expr.readFrom_of_along opening.span stop.empty [body.span] rfl ⟨opening, hmem, rfl⟩ hstop
        (by simp) ((List.sublist_append_left _ _).cons _) (by simpa [Node.children] using hbody)

/-- A tail takes together what stands before it and its own parts. -/
theorem exprTail (tail : ExprTail) {left : Expr} (hleft : left.ReadFrom tokens)
    (power : BindingPower) (before : List Span) :
    Parse.Lays tokens (before ++ [left.span]) (fun e => before ++ [e.span]) (Expr.ReadFrom tokens)
      (tail.read r left power) := by
  cases tail with
  | assignment | binary =>
    refine (lays_forward forward_advanceLine).bind fun operator _ =>
      (h.expr _ _).bind fun right hright => ?_
    exact lays_enclose (by simp) rfl <|
      Expr.readFrom_of_along left.span right.span [] rfl hleft.1.1 hright.1.2 (by simp)
        (List.Sublist.refl _) (by simpa [Node.children] using ⟨hleft.2, hright.2⟩)
  | call =>
    refine (lays_forward forward_advanceLine).bind fun _ _ =>
      (lays_commaSeparated (fun before => h.expr before _) _).bind fun arguments harguments =>
        (lays_forward (forward_expectSymbol _)).bind fun _ _ =>
          (lays_lastEnd (by simp)).bind fun stop hstop => ?_
    refine lays_enclose (by simp) rfl <|
      Expr.readFrom_of_along left.span stop.empty (arguments.map Expr.span) rfl hleft.1.1 hstop
        (by simp) ?_ ?_
    · rw [Node.children, List.map_cons, List.map_map]
      exact (List.sublist_append_left _ _).cons_cons _
    · exact List.forall_mem_cons.2 ⟨hleft.2, List.forall_mem_map.2 fun e he => (harguments e he).2⟩
  | member =>
    refine (lays_forward forward_advance).bind fun _ _ =>
      (lays_forward (forward_expectName _)).bind fun property _ =>
        (lays_lastEnd (by simp)).bind fun stop hstop => ?_
    exact lays_enclose (by simp) rfl <|
      Expr.readFrom_of_along left.span stop.empty [] rfl hleft.1.1 hstop (by simp)
        (List.sublist_append_left _ _) (by simpa [Node.children] using hleft.2)

/-- Where nothing is assigned, the value is the end of what was read. -/
theorem initializer (name : String) (hne : before ≠ []) :
    Parse.Lays tokens before (fun e => before ++ [e.span])
      (fun e => (Node.expr e).ReadFrom tokens) (r.initializer name) := by
  refine (lays_forward (forward_atSymbol _)).bind fun b _ => ?_
  cases b with
  | true =>
    exact (lays_forward forward_advanceLine).bind fun _ _ => (h.expr _ _).bind fun value hvalue =>
      lays_pure (by rw [Expr.span_named]) (hvalue.2.named name)
  | false =>
    refine (lays_lastEnd hne).bind fun stop ⟨t, ht, hstop⟩ => lays_pure rfl ?_
    exact ⟨⟨⟨t, ht, congrArg Position.empty hstop⟩, Nat.le_refl _⟩, fun _ hs => by simp at hs,
      fun _ hmem => absurd hmem List.not_mem_nil⟩

theorem elseBlock (before : List Span) :
    Parse.Lays tokens before (fun o => before ++ o.toList.map Block.span)
      (fun o => ∀ b ∈ o.toList, (Node.block b).ReadFrom tokens) r.elseBlock := by
  refine (lays_forward (forward_acceptKeyword _)).bind fun b _ => ?_
  cases b with
  | true => exact (h.block before).bind fun body hbody => lays_pure rfl (by simpa using hbody)
  | false => exact lays_pure (List.append_nil _) (by simp)

omit h in
/-- A statement that takes together its first token, its parts and what closes it. -/
theorem formed_of_along {s : Statement} {opening : Token} {stop : Position} (between : List Span)
    (hspan : s.span = ⟨opening.span.start, stop⟩) (hopening : opening ∈ tokens)
    (hstop : ∃ t ∈ tokens, stop = t.span.stop)
    (hbelow : (Node.statement s).children.map Node.span = between)
    (hchildren : ∀ c ∈ (Node.statement s).children, c.ReadFrom tokens)
    (h : Along opening.span.start.offset.toNat (opening.span :: (between ++ [stop.empty]))
      stop.offset.toNat) : (Node.statement s).Formed tokens := by
  have hon : s.span.OnTokens tokens := by
    rw [hspan]
    exact ⟨⟨opening, hopening, rfl⟩, hstop⟩
  refine Node.formed_of_along opening.span stop.empty between hspan
    (Node.placed_of_onTokens hon fun _ => by simp) ?_ h hchildren
  rw [hbelow]
  exact (List.sublist_append_left _ _).cons _

theorem statementForm (form : StatementForm) (before : List Span)
    (hc : c.current.kind ≠ .endOfInput) :
    LaysAt tokens before (fun s => before ++ [s.span]) (fun s => (Node.statement s).Formed tokens) c
      (form.read r) := by
  cases form with
  | any => exact fun s d hbehind hs => (h.statement before c s d hbehind hs).imp_right (·.formed)
  | block =>
    refine (h.block before c).bind fun body hbody => lays_pure rfl ?_
    exact hbody.formed_around rfl rfl hbody.laid.placed
  | declaration =>
    refine (laysAt_advance hc).bind fun opening ⟨_, hmem, _⟩ =>
      (lays_forward (forward_expectName _)).bind fun name _ =>
        (lays_forward (h.forward.typeAfter _)).bind fun type _ =>
          (h.initializer name (by simp)).bind fun value hvalue =>
            (lays_lastEnd (by simp)).bind fun stop hstop => ?_
    exact lays_enclose (by simp) rfl <|
      formed_of_along [value.span] rfl hmem hstop rfl (by simpa [Node.children] using hvalue)
  | conditional =>
    refine (laysAt_advance hc).bind fun opening ⟨_, hmem, _⟩ =>
      (h.expr _ _).bind fun condition hcondition => (h.block _).bind fun thenBody hthen =>
        (h.elseBlock _).bind fun elseBody helse =>
          (lays_lastEnd (by simp)).bind fun stop hstop => ?_
    refine lays_enclose (by simp) rfl <|
      formed_of_along (condition.span :: thenBody.span :: elseBody.toList.map Block.span) rfl hmem
        hstop ?_ ?_
    · rw [Node.children, List.map_cons, List.map_cons, List.map_map]
      rfl
    · exact List.forall_mem_cons.2 ⟨hcondition.2, List.forall_mem_cons.2
        ⟨hthen, List.forall_mem_map.2 helse⟩⟩
  | result =>
    refine (laysAt_advance hc).bind fun opening ⟨_, hmem, _⟩ =>
      (h.expr _ _).bind fun value hvalue => (lays_lastEnd (by simp)).bind fun stop hstop => ?_
    exact lays_enclose (by simp) rfl <|
      formed_of_along [value.span] rfl hmem hstop rfl (by simpa [Node.children] using hvalue.2)
  | loop =>
    refine (laysAt_advance hc).bind fun opening ⟨_, hmem, _⟩ =>
      (h.expr _ _).bind fun iterable hiterable =>
        (lays_expectSymbol _).bind fun brace hbrace =>
          (lays_forward (forward_skip _)).bind fun _ _ =>
            (lays_forward (Readers.Transports.loopVariables).forward).bind fun names _ =>
              (lays_collect h.loopRound _).bind fun ss hss =>
                (lays_forward (forward_expectSymbol _)).bind fun _ _ =>
                  (lays_lastEnd (by simp)).bind fun stop hstop => ?_
    -- What closes the loop closes its body, too, so the body is taken together first.
    have hbody : Parse.Lays tokens (before ++ [opening.span] ++ [iterable.span] ++ [brace.span] ++
        ss.map Statement.span ++ [stop.empty])
        (fun body => before ++ [opening.span] ++ [iterable.span] ++ [body.span])
        (fun body => (Node.block body).ReadFrom tokens) (pure ⟨ss, brace.span.start, stop⟩) :=
      lays_enclose (by simp) rfl (blockOf hbrace hss hstop)
    have hloop : ∀ body, (Node.block body).ReadFrom tokens →
        Parse.Lays tokens (before ++ [opening.span] ++ [iterable.span] ++ [body.span])
          (fun s => before ++ [s.span]) (fun s => (Node.statement s).Formed tokens)
          (pure (Statement.loop iterable names body ⟨opening.span.start, body.span.stop⟩)) := by
      intro body hread
      have hon : (Span.mk opening.span.start body.span.stop).OnTokens tokens :=
        ⟨⟨opening, hmem, rfl⟩, hread.laid.placed.2⟩
      refine lays_enclose (by simp) rfl fun hrow => Node.formed_of_along opening.span body.span
        [iterable.span] rfl (Node.placed_of_onTokens hon fun _ => by simp) ?_ hrow ?_
      · exact List.sublist_cons_self _ _
      · simpa [Node.children] using ⟨hiterable.2, hread⟩
    exact hbody.bind hloop
  | function =>
    refine (laysAt_advance hc).bind fun opening ⟨_, hmem, _⟩ =>
      (lays_forward (forward_expectName _)).bind fun name _ =>
        (lays_forward h.forward.signature).bind fun signature _ =>
          (h.block _).bind fun body hbody =>
            (lays_lastEnd (by simp)).bind fun stop hstop => ?_
    exact lays_enclose (by simp) rfl <|
      formed_of_along [body.span] rfl hmem hstop rfl (by simpa [Node.children] using hbody)
  | classDefinition =>
    refine (laysAt_advance hc).bind fun opening ⟨_, hmem, _⟩ =>
      (lays_forward (forward_expectName _)).bind fun name _ =>
        (lays_forward (Readers.Transports.superclass).forward).bind fun superclass _ =>
          (h.block _).bind fun body hbody => (lays_lastEnd (by simp)).bind fun stop hstop => ?_
    exact lays_enclose (by simp) rfl <|
      formed_of_along [body.span] rfl hmem hstop rfl (by simpa [Node.children] using hbody)

end Readers.Lays

namespace Grammar
variable {r : Readers}

theorem lays_exprRound (h : r.Lays tokens) (power : BindingPower) {left : Expr}
    (hleft : left.ReadFrom tokens) (before : List Span) :
    Parse.Lays tokens (before ++ [left.span]) (fun step => before ++ [step.value.span])
      (fun step => step.value.ReadFrom tokens) (script.exprRound r power left) := by
  intro c
  refine LaysAt.current ?_
  dsimp only
  split
  · cases script.tails.get? c.current.key with
    | none => exact lays_complain _ c
    | some tail =>
      exact (h.exprTail tail hleft _ before c).bind fun e he => lays_pure rfl he
  · refine lays_pure ?_ ?_ c
    · rfl
    · exact hleft

theorem lays_exprOver (h : r.Lays tokens) (power : BindingPower) (before : List Span) :
    Parse.Lays tokens before (fun e => before ++ [e.span]) (Expr.ReadFrom tokens)
      (script.exprOver r power) := by
  intro c
  refine LaysAt.current ?_
  cases hstart : script.starts.get? c.current.key with
  | none => exact lays_complain _ c
  | some start =>
    exact (h.exprStart start before (script_start hstart)).bind fun e he =>
      lays_iterate (fun left hleft => lays_exprRound h power hleft before) he

theorem lays_statementOver (h : r.Lays tokens) (before : List Span) :
    Parse.Lays tokens before (fun s => before ++ [s.span])
      (fun s => (Node.statement s).Formed tokens) (script.statementOver r) := by
  intro c
  refine LaysAt.current ?_
  cases hrule : script.rules.find? (·.test c.current) with
  | none =>
    exact (h.expr _ _ c).bind fun e he => lays_pure rfl (he.2.formed_around rfl rfl he.1)
  | some rule => exact h.statementForm rule.form before (script_rule hrule).1

/-- A check in front of a parser only takes values away. -/
theorem lays_checked {α : Type} {p : Parse α} {before : List Span} {after : α → List Span}
    {good : α → Prop} (passed : Cursor → Prop) [DecidablePred passed]
    (h : ∀ c, passed c → LaysAt tokens before after good c p) :
    Parse.Lays tokens before after good fun c => if passed c then p c else .endless := by
  intro c
  by_cases hc : passed c
  · exact (h c hc).congr (if_pos hc)
  · intro a d _ ha
    have hnone : (if passed c then p c else .endless) = .endless := if_neg hc
    exact absurd (hnone.symm.trans ha) (by simp)

theorem checked_forward (exprs statements : Cursor → Prop) [DecidablePred exprs]
    [DecidablePred statements] : (checked exprs statements).Forward where
  typeExpr := script.readers_forward.typeExpr
  expr power := forward_checked _ fun c _ => script.readers_forward.expr power c
  statement := forward_checked _ fun c _ => script.readers_forward.statement c

/-- The step is from the constructs that have fewer tokens left to the one at hand. -/
private theorem lays_below (n : Nat) : ∀ c : Cursor, c.remaining < n →
    (∀ before power, LaysAt tokens before (fun e => before ++ [e.span]) (Expr.ReadFrom tokens) c
      (script.expr power)) ∧
    ∀ before, LaysAt tokens before (fun s => before ++ [s.span])
      (fun s => (Node.statement s).ReadFrom tokens) c script.statement := by
  induction n with
  | zero => exact fun _ hc => absurd hc (Nat.not_lt_zero _)
  | succ n ih =>
    have hexpr : ∀ c : Cursor, c.remaining < n + 1 → ∀ before power, LaysAt tokens before
        (fun e => before ++ [e.span]) (Expr.ReadFrom tokens) c (script.expr power) := by
      intro c hc before power
      have hr : (checked (·.remaining < c.remaining) (·.remaining < c.remaining)).Lays tokens :=
        ⟨checked_forward _ _,
          fun before power => lays_checked _ fun d hd => (ih d (by omega)).1 before power,
          fun before => lays_checked _ fun d hd => (ih d (by omega)).2 before⟩
      exact (lays_exprOver hr power before c).congr (Grammar.expr.eq_1 _ _ _)
    refine fun c hc => ⟨hexpr c hc, fun before s d hbehind hs => ?_⟩
    have hr : (checked (·.remaining ≤ c.remaining) (·.remaining < c.remaining)).Lays tokens :=
      ⟨checked_forward _ _,
        fun before power => lays_checked _ fun d hd => hexpr d (by omega) before power,
        fun before => lays_checked _ fun d hd => (ih d (by omega)).2 before⟩
    obtain ⟨hd, hlaid, hchildren⟩ := ((lays_statementOver hr before c).congr
      (Grammar.statement.eq_1 _ _)) s d hbehind hs
    refine ⟨hd, hlaid, ?_, hchildren⟩
    rintro _ ⟨⟩
    exact ⟨c, d, hbehind.tokens_eq, hs⟩

theorem readers_lays : script.readers.Lays tokens where
  forward := script.readers_forward
  expr before power c := (lays_below (c.remaining + 1) c (Nat.lt_succ_self _)).1 before power
  statement before c := (lays_below (c.remaining + 1) c (Nat.lt_succ_self _)).2 before

theorem lays_programRound (before : List Span) : Parse.Lays tokens before
    (fun step => before ++ step.value.map Statement.span)
    (fun step => ∀ s ∈ step.value, (Node.statement s).ReadFrom tokens) script.programRound := by
  refine (lays_forward (forward_skip _)).bind fun _ _ =>
    (lays_forward forward_atToken).bind fun b _ => ?_
  cases b with
  | false => exact lays_none rfl
  | true =>
    refine (readers_lays.statement before).bind fun s hs =>
      (lays_forward forward_atToken).bind fun b _ => ?_
    cases b with
    | false => exact lays_one rfl hs
    | true =>
      refine (lays_forward (forward_acceptKind _)).bind fun b _ => ?_
      cases b with
      | true => exact lays_one rfl hs
      | false => exact lays_complain _

end Grammar

/-! Programs. -/

theorem Cursor.behind_start (hrow : InRow tokens) (file : String)
    (hlast : tokens.getLast?.map (·.kind) = some .endOfInput) :
    (Cursor.start tokens file).Behind tokens [] where
  tokens_eq := (Cursor.start_tokens tokens file).2 hlast
  row := hrow
  along := Nat.zero_le _
  moved := fun h => absurd rfl h

/-- The statements of a program are read from its tokens, one behind the other up to its end. -/
theorem parse_lays {file : String} {program : Block} {stop : Cursor} (hrow : InRow tokens)
    (hlast : tokens.getLast?.map (·.kind) = some .endOfInput)
    (h : parse tokens file = .done program stop) :
    program.span = ⟨⟨0, file⟩, stop.lastEnd⟩ ∧ stop.tokens = tokens ∧
      Along 0 (program.statements.map Statement.span) stop.lastEnd.offset.toNat ∧
      ∀ s ∈ program.statements, (Node.statement s).ReadFrom tokens := by
  obtain ⟨hstatements, hspan⟩ := parse_done_iff.1 h
  obtain ⟨hstop, hread⟩ := lays_collect Grammar.lays_programRound [] _ _ _
    (Cursor.behind_start hrow file hlast) hstatements
  exact ⟨hspan, hstop.tokens_eq, hstop.along, hread⟩

/-! Sources. -/

theorem Tiles.along {file : String} {read text : List Char} (h : Tiles file read text ts) :
    Along (Text.byteCount read) (ts.map Token.span) (Text.byteCount (read ++ text)) := by
  induction h with
  | @last read gap t _ hspan _ =>
    simp only [List.map_cons, List.map_nil, Along, hspan.start, hspan.stop, Text.byteCount_append,
      Text.byteCount_nil]
    omega
  | @token read gap piece rest t ts _ hspan _ _ _ _ ih =>
    simp only [List.append_assoc] at ih ⊢
    rw [List.map_cons, Along, hspan.start, hspan.stop]
    simp only [Text.byteCount_append] at ih ⊢
    exact ⟨by omega, by omega, ih.mono (by omega) (Nat.le_refl _)⟩

theorem tokens_along {source : String} {origin : Option String}
    (h : tokenize source origin = .ok tokens) :
    Along 0 (tokens.map Token.span) source.utf8ByteSize := by
  obtain ⟨hsize, ls, hreads, rfl⟩ := reads_of_tokenize h
  rw [← byteCount_toList] at hsize ⊢
  exact (@tiles_of_reads _ [] _ _ hreads hsize).along

/-- The last token, and no other one, ends the input. It is empty. -/
theorem tokens_closed {source : String} {origin : Option String}
    (h : tokenize source origin = .ok tokens) :
    ∃ before p, tokens = before ++ [.endAt p] ∧ ∀ t ∈ before, t.kind ≠ .endOfInput := by
  obtain ⟨before, last, rfl, -, hbefore⟩ := scan_tokens (scan_of_tokenize h)
  obtain ⟨-, ls, -, htokens⟩ := reads_of_tokenize h
  obtain ⟨-, hlast⟩ := List.append_inj' htokens rfl
  exact ⟨before, _, by rw [hlast], fun t ht => (hbefore t ht).2⟩

/-- The spans of a node and of the nodes right below it, in a source of some size. -/
structure Node.Nested (size : Nat) (n : Node) : Prop where
  ordered : n.span.start.offset ≤ n.span.stop.offset
  bounded : n.span.stop.offset.toNat ≤ size
  inside : ∀ c ∈ n.children, n.span.start.offset ≤ c.span.start.offset ∧
    c.span.stop.offset ≤ n.span.stop.offset
  apart : n.children.Pairwise fun c c' => c.span.stop.offset ≤ c'.span.start.offset

theorem Node.nested_of_along {size : Nat} {n : Node} (hsize : n.span.stop.offset.toNat ≤ size)
    (h : Along n.span.start.offset.toNat (n.children.map span) n.span.stop.offset.toNat) :
    n.Nested size where
  ordered := UInt32.le_iff_toNat_le.2 h.le
  bounded := hsize
  inside c hc := by
    obtain ⟨hstart, -, hstop⟩ := h.mem (List.mem_map_of_mem hc)
    exact ⟨UInt32.le_iff_toNat_le.2 hstart, UInt32.le_iff_toNat_le.2 hstop⟩
  apart := (List.pairwise_map.1 h.pairwise).imp UInt32.le_iff_toNat_le.2

/-- A node that is placed at tokens ends where a token ends. -/
theorem Node.Placed.stop {n : Node} (h : n.Placed tokens) :
    ∃ t ∈ tokens, n.span.stop = t.span.stop := by
  rw [Placed.eq_def] at h
  split at h
  · obtain ⟨t, ht, rfl⟩ := h
    exact ⟨t, ht, rfl⟩
  · exact h.2

/-- Spans are nested and ordered. The span of a program begins with its source and ends with a
token. Every node lies in the source, around the nodes below it, which lie one behind the other in
their order. Nodes begin and end with tokens; a value that is not assigned is empty, behind a
token. -/
theorem spans_nested {source : String} {origin : Option String} {name : String} {program : Block}
    (h : Accepted source origin name program) :
    ∃ tokens, tokenize source origin = .ok tokens ∧ program.span.start = ⟨0, name⟩ ∧
      (∃ t ∈ tokens, program.span.stop = t.span.stop) ∧
      (∀ n : Node, n.Within (.block program) → n.Nested source.utf8ByteSize) ∧
      ∀ s ∈ program.statements, ∀ n : Node, n.Within (.statement s) → n.Placed tokens := by
  obtain ⟨tokens, stop, htokens, hparse⟩ := h
  have halong := tokens_along htokens
  have hsize : ∀ t ∈ tokens, t.span.stop.offset.toNat ≤ source.utf8ByteSize :=
    fun t ht => (halong.mem (List.mem_map_of_mem ht)).2.2
  obtain ⟨before, p, rfl, hbefore⟩ := tokens_closed htokens
  obtain ⟨hspan, hstop, hrow, hread⟩ := parse_lays ⟨_, halong⟩ (by simp [Token.endAt]) hparse
  have hend : ∃ t ∈ before ++ [.endAt p], program.span.stop = t.span.stop := by
    rw [hspan]
    by_cases hc : stop.consumed = []
    · -- Nothing was consumed, so the end of the input is the first token.
      have hcur := stop.current_mem
      rw [hstop, List.mem_append, List.mem_singleton] at hcur
      have hkind := (Grammar.collect_programRound_join (parse_done_iff.1 hparse).1).1
      have hlast := hcur.resolve_left fun hmem => hbefore _ hmem hkind
      refine ⟨.endAt p, by simp, ?_⟩
      rw [Cursor.lastEnd, hc]
      simp only [hlast]
      rfl
    · rw [← hstop]
      exact stop.lastEnd_mem hc
  refine ⟨_, htokens, by rw [hspan], hend, ?_, ?_⟩
  · rintro n (_ | ⟨hc, hn⟩)
    · obtain ⟨t, ht, hstop⟩ := hend
      refine Node.nested_of_along (hstop ▸ hsize t ht) ?_
      rw [Node.span, Node.children, List.map_map, hspan]
      exact hrow
    · obtain ⟨s, hs, rfl⟩ := List.mem_map.1 hc
      have hlaid := ((hread s hs).within hn).laid
      obtain ⟨t, ht, hstop⟩ := hlaid.placed.stop
      exact Node.nested_of_along (hstop ▸ hsize t ht) hlaid.along
  · exact fun s hs n hn => ((hread s hs).within hn).laid.placed

/-- A declaration without a value, and a condition in parentheses. -/
theorem spans_nested_conditional :
    ∃ program tokens, Accepted "let x\nif (a + b) { f(a, b) }" none "shell" program ∧
      tokenize "let x\nif (a + b) { f(a, b) }" none = .ok tokens ∧
      program.statements.length = 2 ∧ (Node.block program).Nested 28 ∧
      ∀ s ∈ program.statements, (Node.statement s).Placed tokens := by
  have hcheck : isProgram "let x\nif (a + b) { f(a, b) }" none "shell"
      (·.statements.length = 2) = true := by decide +kernel
  obtain ⟨program, h, hlength⟩ := exists_of_isProgram hcheck
  obtain ⟨tokens, htokens, -, -, hnested, hplaced⟩ := spans_nested h
  exact ⟨program, tokens, h, htokens, of_decide_eq_true hlength, hnested _ (.refl _),
    fun s hs => hplaced s hs _ (.refl _)⟩

end ScriptSyntax
