import ScriptSyntax.Proofs.Lookahead

/-! What a parser has read to its end does not depend on the token behind it: where this is replaced
by the end of a line, of a block or of the input, the same value is read. -/
namespace ScriptSyntax

/-- A token that no construct goes on with. -/
def Token.Closes (t : Token) : Prop :=
  t.kind = .newLine ∨ t.kind = .endOfInput ∨ t.isSymbol "\x7d" = true

namespace Token
variable {t : Token}

theorem Closes.kind (h : t.Closes) : t.kind = .newLine ∨ t.kind = .endOfInput ∨ t.kind = .symbol :=
  h.imp_right (Or.imp_right Parse.kind_of_isSymbol)

theorem Closes.isSymbol (h : t.Closes) {text : String} (htext : text ≠ "\x7d") :
    t.isSymbol text = false := by
  rcases h with h | h | h
  · simp [Token.isSymbol, h]
  · simp [Token.isSymbol, h]
  · simp only [Token.isSymbol, Bool.and_eq_true, decide_eq_true_eq] at h
    simp [Token.isSymbol, h, htext.symm]

theorem Closes.isKeyword (h : t.Closes) (word : Keyword) : t.isKeyword word = false := by
  rcases h.kind with h | h | h <;> simp [Token.isKeyword, h]

theorem Closes.key (h : t.Closes) : t.key ∈ ["<newline>", "<eof>", "\x7d"] := by
  rcases h with h | h | h
  · simp [Token.key, h]
  · simp [Token.key, h]
  · simp only [Token.isSymbol, Bool.and_eq_true, decide_eq_true_eq] at h
    simp [Token.key, h]

end Token

variable {f : Position → Position} {c c₁ c₂ d d₂ : Cursor} {ts us : List Token}

/-- As `Cursor.Beside`, but behind the way the second cursor may as well show a token that closes.
-/
structure Cursor.Near (f : Position → Position) (c : Cursor) (ts : List Token)
    (c₂ d d₂ : Cursor) : Prop where
  passes : c.Passes ts c₂
  passes' : d.Passes (ts.map (Token.relocate f)) d₂
  latest : d.consumed.head? = c.consumed.head?.map (Token.relocate f)
  current : d₂.current = c₂.current.relocate f ∨ d₂.current.Closes ∧ c₂.consumed ≠ []

namespace Cursor.Near

theorem lastEnd (h : c.Near f [] c₂ d d₂) : d.lastEnd = f c.lastEnd := by
  obtain ⟨hts, hts', hl, hcur⟩ := h
  rcases hcur with hcur | ⟨-, hne⟩
  · exact Cursor.Beside.lastEnd ⟨hts, hts', hl, hcur⟩
  · obtain rfl : c = c₂ := hts
    obtain ⟨t, before, hc⟩ := List.exists_cons_of_ne_nil hne
    rw [hc, List.head?_cons, Option.map_some, List.head?_eq_some_iff] at hl
    obtain ⟨before', hd⟩ := hl
    rw [Cursor.lastEnd, Cursor.lastEnd, hc, hd]
    rfl

/-- Where a second part of the way consumes something, the token between the parts is the same. -/
theorem split (hts : c.Passes ts c₁) (hus : c₁.Passes us c₂) (h : c.Near f (ts ++ us) c₂ d d₂) :
    ∃ d₁, c.Near f ts c₁ d d₁ ∧ c₁.Near f us c₂ d₁ d₂ ∧ (us ≠ [] → c.Beside f ts c₁ d d₁) := by
  obtain ⟨-, hway, hl, hcur⟩ := h
  rw [List.map_append] at hway
  obtain ⟨d₁, hd, hd'⟩ := Cursor.passes_append.1 hway
  have hl' := hts.latest hd fun _ => hl
  cases us with
  | nil =>
    obtain rfl : c₁ = c₂ := hus
    obtain rfl : d₁ = d₂ := hd'
    exact ⟨d₁, ⟨hts, hd, hl, hcur⟩, ⟨.refl c₁, .refl d₁, hl', hcur⟩, fun hne => absurd rfl hne⟩
  | cons u us =>
    have hfirst : d₁.current = c₁.current.relocate f := by rw [hus.1, hd'.1]
    exact ⟨d₁, ⟨hts, hd, hl, .inl hfirst⟩, ⟨hus, hd', hl', hcur⟩, fun _ => ⟨hts, hd, hl, hfirst⟩⟩

end Cursor.Near

namespace Parse
variable {α β γ δ : Type} {g : α → β} {h : γ → δ} {least : Nat} {p : Parse α} {q : Parse β}

/-- What the first parser reads at a cursor, the second one reads with a moved result from every
cursor near it. At least so many tokens are consumed. -/
def SettlesAt (f : Position → Position) (g : α → β) (least : Nat) (c : Cursor) (p : Parse α)
    (q : Parse β) : Prop :=
  ∀ a c₂, p c = .done a c₂ → ∃ ts, least ≤ ts.length ∧ c.Passes ts c₂ ∧
    ∀ d d₂, c.Near f ts c₂ d d₂ → q d = .done (g a) d₂

def Settles (f : Position → Position) (g : α → β) (least : Nat) (p : Parse α) (q : Parse β) :
    Prop :=
  ∀ c, SettlesAt f g least c p q

theorem SettlesAt.congr {p' : Parse α} (hp : SettlesAt f g least c p q) (h : p' c = p c) :
    SettlesAt f g least c p' q := by
  rw [SettlesAt] at hp ⊢
  rwa [h]

theorem SettlesAt.weaken (hp : SettlesAt f g least c p q) : SettlesAt f g 0 c p q := by
  intro a c₂ hc
  obtain ⟨ts, -, hts, hq⟩ := hp a c₂ hc
  exact ⟨ts, Nat.zero_le _, hts, hq⟩

theorem Settles.weaken (hp : Settles f g least p q) : Settles f g 0 p q := fun c => (hp c).weaken

theorem SettlesAt.bind {k : α → Parse γ} {k' : β → Parse δ} (hp : SettlesAt f g least c p q)
    (hk : ∀ a, Settles f h 0 (k a) (k' (g a))) :
    SettlesAt f h least c (p >>= k) (q >>= k') := by
  intro b c₂ hc₂
  cases hpc : p c with
  | done a c₁ =>
    obtain ⟨ts, hleast, hts, hq⟩ := hp a c₁ hpc
    rw [bind_done k hpc] at hc₂
    obtain ⟨us, -, hus, hq'⟩ := hk a c₁ b c₂ hc₂
    refine ⟨ts ++ us, by rw [List.length_append]; omega, hts.append hus, fun d d₂ hd => ?_⟩
    obtain ⟨d₁, hd₁, hd₂, -⟩ := hd.split hts hus
    rw [bind_done k' (hq d d₁ hd₁)]
    exact hq' d₁ d₂ hd₂
  | failed e c₁ =>
    rw [bind_failed k hpc] at hc₂
    cases hc₂
  | endless =>
    rw [bind_endless k hpc] at hc₂
    cases hc₂

theorem Settles.bind {k : α → Parse γ} {k' : β → Parse δ} (hp : Settles f g least p q)
    (hk : ∀ a, Settles f h 0 (k a) (k' (g a))) : Settles f h least (p >>= k) (q >>= k') :=
  fun c => (hp c).bind hk

/-- In front of a parser that consumes something, the token at the end is the same anyway. -/
theorem Transports.settles {k : α → Parse γ} {k' : β → Parse δ} (hp : Transports f g p q)
    (hk : ∀ a, Settles f h 1 (k a) (k' (g a))) : Settles f h 1 (p >>= k) (q >>= k') := by
  intro c b c₂ hc₂
  cases hpc : p c with
  | done a c₁ =>
    obtain ⟨ts, hts, hq⟩ := hp c c₁ (by rw [hpc]; rfl)
    rw [hpc] at hq
    rw [bind_done k hpc] at hc₂
    obtain ⟨us, hleast, hus, hq'⟩ := hk a c₁ b c₂ hc₂
    refine ⟨ts ++ us, by rw [List.length_append]; omega, hts.append hus, fun d d₂ hd => ?_⟩
    obtain ⟨d₁, -, hd₂, hbeside⟩ := hd.split hts hus
    rw [bind_done k' (hq d d₁ (hbeside (List.ne_nil_of_length_pos hleast)))]
    exact hq' d₁ d₂ hd₂
  | failed e c₁ =>
    rw [bind_failed k hpc] at hc₂
    cases hc₂
  | endless =>
    rw [bind_endless k hpc] at hc₂
    cases hc₂

theorem settlesAt_next {a : α} (hc : p c = .done a c.next) (hne : c.current.kind ≠ .endOfInput)
    (hq : ∀ d, d.current = c.current.relocate f → q d = .done (g a) d.next) :
    SettlesAt f g 1 c p q := by
  intro b c₂ hc₂
  obtain ⟨rfl, rfl⟩ := Outcome.done.inj (hc.symm.trans hc₂)
  refine ⟨[c.current], Nat.le_refl _, .next hne, fun d d₂ hd => ?_⟩
  obtain ⟨hfirst, -, rfl⟩ := hd.passes'
  exact hq d hfirst

theorem settlesAt_stay {a : α} (hc : p c = .done a c)
    (hq : ∀ d, d.current = c.current.relocate f ∨ d.current.Closes → d.lastEnd = f c.lastEnd →
      q d = .done (g a) d) : SettlesAt f g 0 c p q := by
  intro b c₂ hc₂
  obtain ⟨rfl, rfl⟩ := Outcome.done.inj (hc.symm.trans hc₂)
  refine ⟨[], Nat.le_refl _, .refl c, fun d d₂ hd => ?_⟩
  obtain rfl : d = d₂ := hd.passes'
  exact hq d (hd.current.imp_right (·.1)) hd.lastEnd

theorem settles_refuse (cause : Token → Cause) {q : Parse β} :
    Settles f g least (refuse cause) q := by
  intro c a c₂ hc₂
  cases hc₂

theorem settles_complain (k : Complaint) {q : Parse β} : Settles f g least (complain k) q :=
  settles_refuse _

theorem settles_pure {a : α} {b : β} (hab : g a = b) : Settles f g 0 (pure a) (pure b) :=
  fun _ => settlesAt_stay rfl fun _ _ _ => hab ▸ rfl

theorem settles_lastEnd : Settles f f 0 lastEnd lastEnd :=
  fun _ => settlesAt_stay rfl fun d _ hd => by rw [lastEnd, hd]

theorem settlesAt_current {k : Token → Parse α} {k' : Token → Parse β}
    (h : SettlesAt f g 1 c (k c.current) (k' (c.current.relocate f))) :
    SettlesAt f g 1 c (current >>= k) (current >>= k') := by
  intro a c₂ hc₂
  obtain ⟨ts, hleast, hts, hq⟩ := h a c₂ hc₂
  refine ⟨ts, hleast, hts, fun d d₂ hd => ?_⟩
  obtain ⟨t, ts, rfl⟩ := List.exists_cons_of_length_pos hleast
  have hfirst : d.current = c.current.relocate f := by rw [hts.1, hd.passes'.1]
  rw [current_bind, hfirst]
  exact hq d d₂ hd

theorem settles_current {k : Token → Parse α} {k' : Token → Parse β}
    (h : ∀ t, Settles f g 1 (k t) (k' (t.relocate f))) :
    Settles f g 1 (current >>= k) (current >>= k') :=
  fun c => settlesAt_current (h c.current c)

theorem settlesAt_atSymbol {k : Bool → Parse α} {k' : Bool → Parse β} {text : String}
    (hc : c.current.isSymbol text = true) (h : SettlesAt f g 1 c (k true) (k' true)) :
    SettlesAt f g 1 c (atSymbol text >>= k) (atSymbol text >>= k') := by
  rw [← hc] at h
  have hcurrent : SettlesAt f g 1 c (current >>= fun t => k (t.isSymbol text))
      (current >>= fun t => k' (t.isSymbol text)) := settlesAt_current h
  exact hcurrent

theorem settles_expect {test : Token → Bool} (ht : ∀ t, test (t.relocate f) = test t)
    (hend : ∀ t, test t = true → t.kind ≠ .endOfInput) (k : Complaint) :
    Settles f (Token.relocate f) 1 (expect test k) (expect test k) := by
  refine fun c => settlesAt_current ?_
  rw [ht]
  split
  · next hpass => exact settlesAt_next rfl (hend _ hpass) fun d hd => by rw [advance, hd]
  · exact settles_complain k c

theorem settles_expectSymbol (text : String) :
    Settles f (Token.relocate f) 1 (expectSymbol text) (expectSymbol text) :=
  settles_expect (fun _ => rfl) (fun _ ht => by simp [kind_of_isSymbol ht]) _

theorem settles_expectName (role : NameRole) :
    Settles f id 1 (expectName role) (expectName role) :=
  (settles_expect (fun _ => rfl) (fun _ ht => by simp [of_decide_eq_true ht]) _).bind
    fun _ => settles_pure rfl

theorem settles_accept {test : Token → Bool} (ht : ∀ t, test (t.relocate f) = test t)
    (hclose : ∀ t : Token, t.Closes → test t = false) :
    Settles f id 0 (accept test) (accept test) := by
  intro c
  by_cases hpass : test c.current = true
  · have hne : c.current.kind ≠ .endOfInput := fun hend => by
      rw [hclose _ (.inr (.inl hend))] at hpass
      cases hpass
    refine (settlesAt_next (a := true) (by rw [accept, current_bind, if_pos hpass]; rfl) hne
      fun d hd => ?_).weaken
    rw [accept, current_bind, hd, if_pos (by rwa [ht])]
    rfl
  · refine settlesAt_stay (a := false) (by rw [accept, current_bind, if_neg hpass]; rfl)
      fun d hd _ => ?_
    have hpass' : test d.current = false := by
      rcases hd with hd | hd
      · rw [hd, ht]
        simpa using hpass
      · exact hclose _ hd
    rw [accept, current_bind, hpass']
    rfl

theorem settles_acceptSymbol {text : String} (htext : text ≠ "\x7d") :
    Settles f id 0 (acceptSymbol text) (acceptSymbol text) :=
  settles_accept (fun _ => rfl) fun _ ht => ht.isSymbol htext

theorem settles_acceptKeyword (word : Keyword) :
    Settles f id 0 (acceptKeyword word) (acceptKeyword word) :=
  settles_accept (fun _ => rfl) fun _ ht => ht.isKeyword word

theorem settles_iterate {round : α → Parse (ForInStep α)} {round' : β → Parse (ForInStep β)}
    (hr : ∀ a, Settles f (mapStep g) 0 (round a) (round' (g a))) (a : α) :
    Settles f g 0 (iterate round a) (iterate round' (g a)) := by
  intro c
  induction hm : c.remaining using Nat.strong_induction_on generalizing a c with
  | _ m ih =>
    intro b c₂ hc₂
    rw [iterate] at hc₂
    split at hc₂
    · next b' c₁ hrc =>
      obtain ⟨rfl, rfl⟩ := Outcome.done.inj hc₂
      obtain ⟨ts, hleast, hts, hq⟩ := hr a c _ _ hrc
      refine ⟨ts, hleast, hts, fun d d₂ hd => ?_⟩
      rw [iterate, hq d d₂ hd]
      rfl
    · next b' c₁ hrc =>
      split at hc₂
      · next hlt =>
        obtain ⟨ts, -, hts, hq⟩ := hr a c _ _ hrc
        obtain ⟨us, -, hus, hq'⟩ := ih c₁.remaining (by omega) b' c₁ rfl b c₂ hc₂
        refine ⟨ts ++ us, Nat.zero_le _, hts.append hus, fun d d₂ hd => ?_⟩
        obtain ⟨d₁, hd₁, hd₂, -⟩ := hd.split hts hus
        rw [iterate, hq d d₁ hd₁, ← hq' d₁ d₂ hd₂]
        exact if_pos (hts.remaining_lt hd₁.passes' hlt)
      · cases hc₂
    · cases hc₂
    · cases hc₂

/-- Items up to one that consumes something. -/
theorem settles_collect {round : Parse (ForInStep (List α))}
    {round' : Parse (ForInStep (List β))}
    (hr : Transports f (mapStep (List.map g)) round round')
    (hd : ∀ c items c₂, round c = .done (.done items) c₂ →
      SettlesAt f (mapStep (List.map g)) 1 c round round') :
    Settles f (List.map g) 1 (collect round) (collect round') := by
  intro c
  induction hm : c.remaining using Nat.strong_induction_on generalizing c with
  | _ m ih =>
    intro items c₂ hc₂
    rw [collect] at hc₂
    split at hc₂
    · next items' c₁ hrc =>
      obtain ⟨rfl, rfl⟩ := Outcome.done.inj hc₂
      obtain ⟨ts, hleast, hts, hq⟩ := hd c _ _ hrc _ _ hrc
      refine ⟨ts, hleast, hts, fun d d₂ hd => ?_⟩
      rw [collect, hq d d₂ hd]
      rfl
    · next items' c₁ hrc =>
      split at hc₂
      · next hlt =>
        split at hc₂
        · next more c₃ hmore =>
          obtain ⟨rfl, rfl⟩ := Outcome.done.inj hc₂
          obtain ⟨ts, hts, hq⟩ := hr c c₁ (by rw [hrc]; rfl)
          obtain ⟨us, hleast, hus, hq'⟩ := ih c₁.remaining (by omega) c₁ rfl more c₃ hmore
          refine ⟨ts ++ us, by rw [List.length_append]; omega, hts.append hus, fun d d₂ hd => ?_⟩
          obtain ⟨d₁, -, hd₂, hbeside⟩ := hd.split hts hus
          have hd₁ := hbeside (List.ne_nil_of_length_pos hleast)
          rw [collect, hq d d₁ hd₁, hrc]
          simp only [Outcome.transport, mapStep, hts.remaining_lt hd₁.passes' hlt, if_true,
            hq' d₁ d₂ hd₂,
            List.map_append]
        · next hother => exact absurd hc₂ (hother _ _)
      · cases hc₂
    · cases hc₂
    · cases hc₂

end Parse
open Parse

/-- Readers that in addition give what is read to its end the same value whatever closes it. -/
structure Readers.Settles (f : Position → Position) (r r' : Readers) : Prop
    extends r.Transports f r' where
  settlesType : ∀ power,
    Parse.Settles f (TypeExpr.relocate f) 1 (r.typeExpr power) (r'.typeExpr power)
  settlesExpr : ∀ power, Parse.Settles f (Expr.relocate f) 1 (r.expr power) (r'.expr power)
  settlesStatement : Parse.Settles f (Statement.relocate f) 1 r.statement r'.statement

theorem Readers.blockRound_brace (r : Readers) (hc : c.current.isSymbol "\x7d" = true) :
    r.blockRound c = .done (.done []) c.next := by
  have hend : c.current.kind ≠ .endOfInput := by simp [kind_of_isSymbol hc]
  rw [blockRound, current_bind, if_neg hend, if_pos hc]
  rfl

namespace Readers.Settles
variable {r r' : Readers} (h : r.Settles f r')
include h

theorem typeAfter {symbol : String} (hs : symbol ≠ "\x7d") :
    Parse.Settles f (TypeExpr.relocate f) 0 (r.typeAfter symbol) (r'.typeAfter symbol) := by
  refine (settles_acceptSymbol hs).bind fun b => ?_
  cases b with
  | true => exact (h.settlesType _).weaken
  | false => exact settles_pure rfl

omit h in
/-- A block ends with its own brace. -/
theorem blockRound_last {items : List Statement} (hc : r.blockRound c = .done (.done items) c₂) :
    SettlesAt f (mapStep (List.map (Statement.relocate f))) 1 c r.blockRound r'.blockRound := by
  by_cases hbrace : c.current.isSymbol "\x7d" = true
  · have hend : c.current.kind ≠ .endOfInput := by simp [kind_of_isSymbol hbrace]
    exact settlesAt_next (blockRound_brace r hbrace) hend fun d hd =>
      blockRound_brace r' (hd ▸ hbrace)
  · rw [blockRound, current_bind, if_neg hbrace] at hc
    split at hc
    · cases hc
    split at hc
    · cases hc
    · rw [bind_apply] at hc
      cases hs : r.statement c with
      | done s c₁ =>
        rw [hs] at hc
        simp only [acceptKind, accept_bind] at hc
        split at hc
        · cases hc
        · rw [if_neg (by simp), atSymbol_bind] at hc
          split at hc <;> cases hc
      | failed | endless =>
        rw [hs] at hc
        cases hc

theorem block : Parse.Settles f (Block.relocate f) 1 r.block r'.block :=
  (settles_expectSymbol _).bind fun _ =>
    (settles_collect h.toTransports.blockRound fun _ _ _ hc => blockRound_last hc).weaken.bind
      fun _ => settles_lastEnd.bind fun _ => settles_pure (by
        rw [Block.relocate, relocateStatements_eq_map]
        rfl)

theorem exprStart (start : ExprStart) :
    Parse.Settles f (Expr.relocate f) 1 (start.read r) (start.read r') := by
  cases start with
  | literal =>
    refine fun c => settlesAt_current ?_
    simp only [Token.kind_relocate, Token.text_relocate]
    cases hkind : c.current.kind with
    | number =>
      dsimp only
      cases Double.ofText? c.current.text with
      | some _ => exact settlesAt_next rfl (by simp [hkind]) fun _ _ => rfl
      | none => exact settles_refuse _ c
    | name => exact settlesAt_next rfl (by simp [hkind]) fun _ _ => rfl
    | string => exact settlesAt_next rfl (by simp [hkind]) fun _ _ => rfl
    | symbol => exact settles_complain _ c
    | keyword _ => exact settles_complain _ c
    | newLine => exact settles_complain _ c
    | endOfInput => exact settles_complain _ c
  | prefixed =>
    exact transports_advance.settles fun _ => (h.settlesExpr _).bind fun _ => settles_pure (by
      rw [Expr.relocate, Expr.span_relocate]
      rfl)
  | grouping =>
    exact transports_advanceLine.settles fun _ => (h.expr _).settles fun _ =>
      (transports_skip _).settles fun _ => (settles_expectSymbol _).bind fun _ => settles_pure rfl
  | closure =>
    exact transports_advance.settles fun _ => h.signature.settles fun _ => h.block.bind fun _ =>
      settles_lastEnd.bind fun _ => settles_pure rfl

theorem exprTail (tail : ExprTail) (left : Expr) (power : BindingPower) :
    Parse.Settles f (Expr.relocate f) 1 (tail.read r left power)
      (tail.read r' (left.relocate f) power) := by
  cases tail with
  | assignment =>
    exact transports_advanceLine.settles fun _ => (h.settlesExpr _).bind fun _ => settles_pure (by
      rw [Expr.relocate, Expr.span_relocate, Expr.span_relocate]
      rfl)
  | binary =>
    exact transports_advanceLine.settles fun _ => (h.settlesExpr _).bind fun _ => settles_pure (by
      rw [Expr.relocate, Expr.span_relocate, Expr.span_relocate]
      rfl)
  | call =>
    exact transports_advanceLine.settles fun _ => (transports_commaSeparated (h.expr _)).settles
      fun _ => (settles_expectSymbol _).bind fun _ => settles_lastEnd.bind fun _ =>
        settles_pure (by
          rw [Expr.relocate, Expr.span_relocate, relocateExprs_eq_map]
          rfl)
  | member =>
    exact transports_advance.settles fun _ => (settles_expectName _).bind fun _ =>
      settles_lastEnd.bind fun _ => settles_pure (by
        rw [Expr.relocate, Expr.span_relocate]
        rfl)

theorem initializer (name : String) :
    Parse.Settles f (Expr.relocate f) 0 (r.initializer name) (r'.initializer name) := by
  intro c
  cases hsign : c.current.isSymbol "=" with
  | true =>
    have hvalue : Parse.Settles f (Expr.relocate f) 1
        (advanceLine >>= fun _ => r.expr .default >>= fun e => pure (e.named name))
        (advanceLine >>= fun _ => r'.expr .default >>= fun e => pure (e.named name)) :=
      transports_advanceLine.settles fun _ => (h.settlesExpr _).bind fun _ =>
        settles_pure (Expr.named_relocate f name _)
    exact (settlesAt_atSymbol hsign (hvalue c)).weaken
  | false =>
    refine settlesAt_stay (by rw [Readers.initializer, atSymbol_bind, hsign]; rfl) fun d hd hl => ?_
    have hsign' : d.current.isSymbol "=" = false := by
      rcases hd with hd | hd
      · rw [hd]
        exact hsign
      · exact hd.isSymbol (by decide)
    rw [Readers.initializer, atSymbol_bind, hsign']
    simp only [Bool.false_eq_true, if_false, bind_apply, lastEnd, hl]
    rfl

theorem elseBlock :
    Parse.Settles f (Option.map (Block.relocate f)) 0 r.elseBlock r'.elseBlock := by
  refine (settles_acceptKeyword _).bind fun b => ?_
  cases b with
  | true => exact h.block.weaken.bind fun _ => settles_pure rfl
  | false => exact settles_pure rfl

theorem statementForm (form : StatementForm) :
    Parse.Settles f (Statement.relocate f) 1 (form.read r) (form.read r') := by
  cases form with
  | any => exact h.settlesStatement
  | block => exact h.block.bind fun _ => settles_pure rfl
  | declaration =>
    exact transports_advance.settles fun _ => (settles_expectName _).bind fun _ =>
      (h.typeAfter (by decide)).bind fun _ => (h.initializer _).bind fun _ =>
        settles_lastEnd.bind fun _ => settles_pure rfl
  | conditional =>
    exact transports_advance.settles fun _ => (h.expr _).settles fun _ => h.block.bind fun _ =>
      h.elseBlock.bind fun _ => settles_lastEnd.bind fun _ => settles_pure (by
        rw [Statement.relocate, relocateElse_eq_map]
        rfl)
  | result =>
    exact transports_advance.settles fun _ => (h.settlesExpr _).bind fun _ =>
      settles_lastEnd.bind fun _ => settles_pure rfl
  | loop =>
    exact transports_advance.settles fun _ => (h.expr _).settles fun _ =>
      (transports_expectSymbol _).settles fun _ => (transports_skip _).settles fun _ =>
        Readers.Transports.loopVariables.settles fun names =>
          (transports_collect h.loopRound).settles fun _ =>
            (settles_expectSymbol _).bind fun _ => settles_lastEnd.bind fun _ =>
              settles_pure (by
                rw [Statement.relocate, Block.relocate, relocateStatements_eq_map, List.map_id]
                rfl)
  | function =>
    exact transports_advance.settles fun _ => (transports_expectName _).settles fun _ =>
      h.signature.settles fun _ => h.block.bind fun _ => settles_lastEnd.bind fun _ =>
        settles_pure rfl
  | classDefinition =>
    exact transports_advance.settles fun _ => (transports_expectName _).settles fun _ =>
      Readers.Transports.superclass.settles fun name => h.block.bind fun _ =>
        settles_lastEnd.bind fun _ =>
          settles_pure (by rw [Statement.relocate, Option.map_id]; rfl)

end Readers.Settles

namespace Grammar
variable {r r' : Readers}

/-- No operator goes on behind a token that closes. -/
theorem script_closes {t : Token} (h : t.Closes) :
    script.powers.get? t.key = none ∧ script.typePowers.get? t.key = none := by
  have hkeys : ∀ key ∈ ["<newline>", "<eof>", "\x7d"],
      script.powers.get? key = none ∧ script.typePowers.get? key = none := by decide
  exact hkeys _ h.key

theorem settles_typeStart (start : TypeStart) :
    Settles f (TypeExpr.relocate f) 1 start.read start.read := by
  cases start with
  | name =>
    exact (settles_expect (fun _ => rfl) (fun _ ht => by simp [of_decide_eq_true ht]) _).bind
      fun _ => settles_pure rfl

theorem settles_typeTail (tail : TypeTail) (left : TypeExpr) :
    Settles f (TypeExpr.relocate f) 1 (tail.read left) (tail.read (left.relocate f)) := by
  cases tail with
  | array =>
    exact (transports_expectSymbol _).settles fun _ => (settles_expectSymbol _).bind fun _ =>
      settles_pure rfl

theorem settles_typeRound (power : BindingPower) (left : TypeExpr) :
    Settles f (mapStep (TypeExpr.relocate f)) 0 (script.typeRound power left)
      (script.typeRound power (left.relocate f)) := by
  intro c
  by_cases hc : ∃ next, script.typePowers.get? c.current.key = some next ∧ power < next
  · obtain ⟨next, hnext, hlt⟩ := hc
    refine (settlesAt_current ?_).weaken
    dsimp only
    rw [c.current.key_relocate, hnext]
    dsimp only
    rw [if_pos hlt, if_pos hlt]
    cases script.typeTails.get? c.current.key with
    | none => exact settles_complain _ c
    | some tail => exact SettlesAt.bind (settles_typeTail tail left c) fun _ => settles_pure rfl
  · have hstay : ∀ next, script.typePowers.get? c.current.key = some next → ¬ power < next :=
      fun next hnext hlt => hc ⟨next, hnext, hlt⟩
    refine settlesAt_stay (typeRound_of_not_lt hstay) fun d hd _ => typeRound_of_not_lt ?_
    rcases hd with hd | hd
    · rw [hd, c.current.key_relocate]
      exact hstay
    · rw [(script_closes hd).2]
      intro next hnext
      cases hnext

theorem settles_typeExpr (power : BindingPower) :
    Settles f (TypeExpr.relocate f) 1 (script.typeExpr power) (script.typeExpr power) := by
  refine settles_current fun t => ?_
  rw [t.key_relocate]
  cases script.typeStarts.get? t.key with
  | none => exact settles_complain _
  | some start =>
    exact (settles_typeStart start).bind fun a => settles_iterate (settles_typeRound power) a

theorem settles_exprRound (h : r.Settles f r') (power : BindingPower) (left : Expr) :
    Settles f (mapStep (Expr.relocate f)) 0 (script.exprRound r power left)
      (script.exprRound r' power (left.relocate f)) := by
  intro c
  by_cases hc : power < (script.powers.get? c.current.key).getD .default
  · refine (settlesAt_current ?_).weaken
    rw [c.current.key_relocate]
    dsimp only
    rw [if_pos hc, if_pos hc]
    cases script.tails.get? c.current.key with
    | none => exact settles_complain _ c
    | some tail => exact SettlesAt.bind (h.exprTail tail left _ c) fun _ => settles_pure rfl
  · refine settlesAt_stay (exprRound_of_not_lt hc) fun d hd _ => exprRound_of_not_lt ?_
    rcases hd with hd | hd
    · rw [hd, c.current.key_relocate]
      exact hc
    · rw [(script_closes hd).1]
      exact Nat.not_lt_zero _

theorem settles_exprOver (h : r.Settles f r') (power : BindingPower) :
    Settles f (Expr.relocate f) 1 (script.exprOver r power) (script.exprOver r' power) := by
  refine settles_current fun t => ?_
  rw [t.key_relocate]
  cases script.starts.get? t.key with
  | none => exact settles_complain _
  | some start =>
    exact (h.exprStart start).bind fun a => settles_iterate (settles_exprRound h power) a

theorem settles_statementOver (h : r.Settles f r') :
    Settles f (Statement.relocate f) 1 (script.statementOver r) (script.statementOver r') := by
  refine settles_current fun t => ?_
  rw [find_rule_relocate]
  cases script.rules.find? (·.test t) with
  | none =>
    exact (h.settlesExpr _).bind fun e => settles_pure (by
      rw [Statement.relocate, Expr.span_relocate])
  | some rule => exact h.statementForm rule.form

/-- A parser with a check in front, which has no result where the check fails. -/
theorem settles_checked {α β : Type} {g : α → β} {p : Parse α} {q : Parse β} {least : Nat}
    (passed : Cursor → Prop) [DecidablePred passed]
    (h : ∀ c, passed c → SettlesAt f g least c p q) :
    Settles f g least (fun c => if passed c then p c else .endless) q := by
  intro c
  by_cases hc : passed c
  · exact (h c hc).congr (if_pos hc)
  · intro a c₂ hc₂
    have hnone : (if passed c then p c else .endless) = .endless := if_neg hc
    cases hnone.symm.trans hc₂

/-- The step is from the constructs that have fewer tokens left to the one at hand. -/
private theorem settles_below (n : Nat) : ∀ c : Cursor, c.remaining < n →
    (∀ power, SettlesAt f (Expr.relocate f) 1 c (script.expr power) (script.expr power)) ∧
      SettlesAt f (Statement.relocate f) 1 c script.statement script.statement := by
  induction n with
  | zero => exact fun _ hc => absurd hc (Nat.not_lt_zero _)
  | succ n ih =>
    have hexpr : ∀ c : Cursor, c.remaining < n + 1 → ∀ power,
        SettlesAt f (Expr.relocate f) 1 c (script.expr power) (script.expr power) := by
      intro c hc power
      have hr : Readers.Settles f
          (checked (·.remaining < c.remaining) (·.remaining < c.remaining)) script.readers :=
        { transports_checkedReaders _ _ with
          settlesType := settles_typeExpr
          settlesExpr := fun power => settles_checked _ fun d hd => (ih d (by omega)).1 power
          settlesStatement := settles_checked _ fun d hd => (ih d (by omega)).2 }
      have hover := (settles_exprOver hr power c).congr (Grammar.expr.eq_1 _ _ _)
      rwa [← script_expr] at hover
    refine fun c hc => ⟨hexpr c hc, ?_⟩
    have hr : Readers.Settles f
        (checked (·.remaining ≤ c.remaining) (·.remaining < c.remaining)) script.readers :=
      { transports_checkedReaders _ _ with
        settlesType := settles_typeExpr
        settlesExpr := fun power => settles_checked _ fun d hd => hexpr d (by omega) power
        settlesStatement := settles_checked _ fun d hd => (ih d (by omega)).2 }
    have hover := (settles_statementOver hr c).congr (Grammar.statement.eq_1 _ _)
    rwa [← script_statement] at hover

/-- A statement that was read to its end is read alike in front of any token that closes. -/
theorem settles_statement :
    Settles f (Statement.relocate f) 1 script.statement script.statement :=
  fun c => (settles_below (c.remaining + 1) c (Nat.lt_succ_self _)).2

end Grammar
end ScriptSyntax
