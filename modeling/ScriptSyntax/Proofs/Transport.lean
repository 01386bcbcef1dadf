import ScriptSyntax.Proofs.Recursion
import ScriptSyntax.Proofs.Relocation

/-! Parsers on two lists of tokens that differ in positions only, as far as they are read. What is
not read, behind the current token at the end, may be anything. -/
namespace ScriptSyntax
variable {f : Position → Position} {c c₁ c₂ d d₂ : Cursor} {ts us : List Token}

/-- A way in two parts at moved positions has a place between them, like the way itself. -/
theorem Cursor.Passes.middle (hus : c₁.Passes us c₂)
    (h : d.Passes ((ts ++ us).map (Token.relocate f)) d₂)
    (hcur : d₂.current = c₂.current.relocate f) :
    ∃ d₁, d.Passes (ts.map (Token.relocate f)) d₁ ∧ d₁.Passes (us.map (Token.relocate f)) d₂ ∧
      d₁.current = c₁.current.relocate f := by
  rw [List.map_append] at h
  obtain ⟨d₁, hd, hd'⟩ := Cursor.passes_append.1 h
  refine ⟨d₁, hd, hd', ?_⟩
  cases us with
  | nil =>
    obtain rfl : c₁ = c₂ := hus
    obtain rfl : d₁ = d₂ := hd'
    exact hcur
  | cons u us => rw [hus.1, hd'.1]

/-- The latest token behind a way is the last one on it, if there is any. -/
theorem Cursor.Passes.latest (h : c.Passes ts c₂) (h' : d.Passes (ts.map (Token.relocate f)) d₂)
    (hl : ts = [] → d.consumed.head? = c.consumed.head?.map (Token.relocate f)) :
    d₂.consumed.head? = c₂.consumed.head?.map (Token.relocate f) := by
  rw [h.lists.2.1, h'.lists.2.1, ← List.map_reverse]
  cases hts : ts.reverse with
  | nil => exact hl (List.reverse_eq_nil_iff.1 hts)
  | cons t ts => rfl

theorem Cursor.Passes.remaining_lt (h : c.Passes ts c₂)
    (h' : d.Passes (ts.map (Token.relocate f)) d₂) (hlt : c₂.remaining < c.remaining) :
    d₂.remaining < d.remaining := by
  have hl := h.remaining
  have hl' := h'.remaining
  rw [List.length_map] at hl'
  omega

/-- While one cursor passes some tokens, another one passes them at moved positions. The two have
the latest token before and the current token afterwards in common. -/
structure Cursor.Beside (f : Position → Position) (c : Cursor) (ts : List Token)
    (c₂ d d₂ : Cursor) : Prop where
  passes : c.Passes ts c₂
  passes' : d.Passes (ts.map (Token.relocate f)) d₂
  latest : d.consumed.head? = c.consumed.head?.map (Token.relocate f)
  current : d₂.current = c₂.current.relocate f

namespace Cursor.Beside

theorem first (h : c.Beside f ts c₂ d d₂) : d.current = c.current.relocate f := by
  obtain ⟨h, h', -, hcur⟩ := h
  cases ts with
  | nil =>
    obtain rfl : c = c₂ := h
    obtain rfl : d = d₂ := h'
    exact hcur
  | cons t ts => rw [h.1, h'.1]

theorem latest' (h : c.Beside f ts c₂ d d₂) :
    d₂.consumed.head? = c₂.consumed.head?.map (Token.relocate f) :=
  h.passes.latest h.passes' fun _ => h.latest

theorem lastEnd (h : c.Beside f ts c₂ d d₂) : d.lastEnd = f c.lastEnd := by
  have hl := h.latest
  rw [Cursor.lastEnd, Cursor.lastEnd]
  cases hc : c.consumed with
  | nil =>
    rw [hc, List.head?_nil, Option.map_none, List.head?_eq_none_iff] at hl
    simp only [hl, h.first]
    rfl
  | cons t _ =>
    rw [hc, List.head?_cons, Option.map_some, List.head?_eq_some_iff] at hl
    obtain ⟨_, hd⟩ := hl
    simp only [hd]
    rfl

/-- Two cursors side by side on a way in two parts are so on both parts. -/
theorem split (hts : c.Passes ts c₁) (hus : c₁.Passes us c₂)
    (h : c.Beside f (ts ++ us) c₂ d d₂) :
    ∃ d₁, c.Beside f ts c₁ d d₁ ∧ c₁.Beside f us c₂ d₁ d₂ := by
  obtain ⟨d₁, hd, hd', hfirst⟩ := hus.middle h.passes' h.current
  have hbegin : c.Beside f ts c₁ d d₁ := ⟨hts, hd, h.latest, hfirst⟩
  exact ⟨d₁, hbegin, hus, hd', hbegin.latest', h.current⟩

end Cursor.Beside

/-- An outcome with a moved result and another cursor. -/
def Outcome.transport {α β : Type} (f : Position → Position) (g : α → β) (d : Cursor) :
    Outcome α → Outcome β
  | .done a _ => .done (g a) d
  | .failed e _ => .failed (e.relocate f) d
  | .endless => .endless

namespace Parse
variable {α β γ δ : Type} {g : α → β} {h : γ → δ} {p : Parse α} {q : Parse β}

/-- The second parser does from every cursor beside the given one what the first does from there,
with a moved result. -/
def TransportsAt (f : Position → Position) (g : α → β) (c : Cursor) (p : Parse α) (q : Parse β) :
    Prop :=
  ∀ c₂, (p c).cursor? = some c₂ →
    ∃ ts, c.Passes ts c₂ ∧ ∀ d d₂, c.Beside f ts c₂ d d₂ → q d = (p c).transport f g d₂

def Transports (f : Position → Position) (g : α → β) (p : Parse α) (q : Parse β) : Prop :=
  ∀ c, TransportsAt f g c p q

theorem TransportsAt.congr {p' : Parse α} (hp : TransportsAt f g c p q) (h : p' c = p c) :
    TransportsAt f g c p' q := by
  rw [TransportsAt] at hp ⊢
  rwa [h]

theorem TransportsAt.bind {k : α → Parse γ} {k' : β → Parse δ} (hp : TransportsAt f g c p q)
    (hk : ∀ a, Transports f h (k a) (k' (g a))) :
    TransportsAt f h c (p >>= k) (q >>= k') := by
  intro c₂ hc₂
  cases hpc : p c with
  | done a c₁ =>
    obtain ⟨ts, hts, hq⟩ := hp c₁ (by rw [hpc]; rfl)
    rw [bind_done k hpc] at hc₂ ⊢
    rw [hpc] at hq
    obtain ⟨us, hus, hq'⟩ := hk a c₁ c₂ hc₂
    refine ⟨ts ++ us, hts.append hus, fun d d₂ hd => ?_⟩
    obtain ⟨d₁, hd₁, hd₂⟩ := Cursor.Beside.split hts hus hd
    rw [bind_done k' (hq d d₁ hd₁)]
    exact hq' d₁ d₂ hd₂
  | failed e c₁ =>
    rw [bind_failed k hpc] at hc₂ ⊢
    obtain ⟨ts, hts, hq⟩ := hp c₂ (by rw [hpc]; exact hc₂)
    rw [hpc] at hq
    exact ⟨ts, hts, fun d d₂ hd => bind_failed k' (hq d d₂ hd)⟩
  | endless =>
    rw [bind_endless k hpc] at hc₂
    cases hc₂

theorem Transports.bind {k : α → Parse γ} {k' : β → Parse δ} (hp : Transports f g p q)
    (hk : ∀ a, Transports f h (k a) (k' (g a))) : Transports f h (p >>= k) (q >>= k') :=
  fun c => (hp c).bind hk

theorem transportsAt_endless (hc : p c = .endless) : TransportsAt f g c p q := by
  intro c₂ hc₂
  rw [hc] at hc₂
  cases hc₂

/-- A parser that gives a value at a cursor without failing. -/
theorem transportsAt_done {a : α} (hc : p c = .done a c₂) (hts : c.Passes ts c₂)
    (hq : ∀ d d₂, c.Beside f ts c₂ d d₂ → q d = .done (g a) d₂) : TransportsAt f g c p q := by
  intro e he
  rw [hc] at he ⊢
  obtain rfl : c₂ = e := Option.some.inj he
  exact ⟨ts, hts, hq⟩

/-- A parser that stays where it is. -/
theorem transportsAt_stay (hc : (p c).cursor? = some c)
    (hq : ∀ d, d.current = c.current.relocate f → d.lastEnd = f c.lastEnd →
      q d = (p c).transport f g d) : TransportsAt f g c p q := by
  intro e he
  obtain rfl : c = e := Option.some.inj (hc.symm.trans he)
  refine ⟨[], .refl c, fun d d₂ hd => ?_⟩
  obtain rfl : d = d₂ := hd.passes'
  exact hq d hd.first hd.lastEnd

theorem transports_pure {a : α} {b : β} (hab : g a = b) : Transports f g (pure a) (pure b) :=
  fun _ => transportsAt_stay rfl fun _ _ _ => hab ▸ rfl

theorem transports_current : Transports f (Token.relocate f) current current :=
  fun _ => transportsAt_stay rfl fun d hd _ => by rw [current, hd]; rfl

theorem transports_lastEnd : Transports f f lastEnd lastEnd :=
  fun _ => transportsAt_stay rfl fun d _ hd => by rw [lastEnd, hd]; rfl

theorem transports_refuse {cause : Token → Cause} (hcause : ∀ t, cause (t.relocate f) = cause t) :
    Transports f g (refuse cause) (refuse cause) :=
  fun _ => transportsAt_stay rfl fun d hd _ => by rw [refuse, hd, hcause]; rfl

theorem transports_complain (k : Complaint) : Transports f g (complain k) (complain k) :=
  transports_refuse fun _ => rfl

theorem transports_advance : Transports f (Token.relocate f) advance advance := by
  intro c
  by_cases hc : c.current.kind = .endOfInput
  · refine transportsAt_stay (by rw [advance, Cursor.next_of_end hc]; rfl) fun d hd _ => ?_
    have hend : d.current.kind = .endOfInput := by rw [hd]; exact hc
    rw [advance, Cursor.next_of_end hend, hd]
    rfl
  · refine transportsAt_done rfl (.next hc) fun d d₂ hd => ?_
    obtain rfl : d.next = d₂ := hd.passes'.2.2
    rw [advance, hd.first]

/-- A run is followed by a token of another kind, so passing it to there is skipping it. -/
theorem skip_of_passes {kind : TokenKind} (hk : kind ≠ .endOfInput) (hp : d.Passes us d₂)
    (hus : ∀ t ∈ us, t.kind = kind) (hcur : d₂.current.kind ≠ kind) :
    d.run kind = us ∧ d.skip kind = d₂ := by
  induction us generalizing d with
  | nil =>
    obtain rfl : d = d₂ := hp
    have hrun := d.passes_skip kind
    rw [Cursor.skip_of_ne hcur] at hrun
    have hlen := hrun.remaining
    exact ⟨List.eq_nil_of_length_eq_zero (by omega), Cursor.skip_of_ne hcur⟩
  | cons u us ih =>
    obtain ⟨rfl, -, hp⟩ := hp
    obtain ⟨hu, hus⟩ := List.forall_mem_cons.1 hus
    obtain ⟨hs, hr⟩ := Cursor.skip_next hu hk
    obtain ⟨hr', hs'⟩ := ih hp hus
    exact ⟨by rw [hr, hr'], by rw [hs, hs']⟩

theorem transports_skip (kind : TokenKind) : Transports f id (skip kind) (skip kind) := by
  intro c
  refine transportsAt_done rfl (c.passes_skip kind) fun d d₂ hd => ?_
  by_cases hk : kind = .endOfInput
  · have hrun : ∀ c : Cursor, c.run kind = [] := fun c => if_pos hk
    have hskip : d.skip kind = d₂ := by
      have hd' := hd.passes'
      have hs := d.passes_skip kind
      rw [hrun] at hd' hs
      exact hs.symm.trans hd'
    rw [skip, hskip, hrun c, hrun d]
    rfl
  · have hus : ∀ t ∈ (c.run kind).map (Token.relocate f), t.kind = kind := by
      intro t ht
      obtain ⟨u, hu, rfl⟩ := List.mem_map.1 ht
      exact Cursor.kind_of_mem_run (t := u) hu
    have hcur : d₂.current.kind ≠ kind := by
      rw [hd.current]
      exact c.current_skip_ne hk
    obtain ⟨hr, hs⟩ := skip_of_passes hk hd.passes' hus hcur
    rw [skip, hr, hs, List.length_map]
    rfl

theorem transports_advanceLine : Transports f (Token.relocate f) advanceLine advanceLine :=
  transports_advance.bind fun _ => (transports_skip _).bind fun _ => transports_pure rfl

/-! What was consumed before makes no difference to a parser that consumes a token before it looks
back. -/

/-- As `TransportsAt`, but with anything consumed before; a value comes with a consumed token. -/
def FreshAt (f : Position → Position) (g : α → β) (c : Cursor) (p : Parse α) (q : Parse β) : Prop :=
  ∀ c₂, (p c).cursor? = some c₂ →
    ∃ ts, c.Passes ts c₂ ∧ ((p c).error? = none → ts ≠ []) ∧
      ∀ d d₂, d.Passes (ts.map (Token.relocate f)) d₂ → d₂.current = c₂.current.relocate f →
        q d = (p c).transport f g d₂

theorem FreshAt.bind {k : α → Parse γ} {k' : β → Parse δ} (hp : FreshAt f g c p q)
    (hk : ∀ a, Transports f h (k a) (k' (g a))) : FreshAt f h c (p >>= k) (q >>= k') := by
  intro c₂ hc₂
  cases hpc : p c with
  | done a c₁ =>
    obtain ⟨ts, hts, hne, hq⟩ := hp c₁ (by rw [hpc]; rfl)
    rw [hpc] at hne hq
    rw [bind_done k hpc] at hc₂ ⊢
    obtain ⟨us, hus, hq'⟩ := hk a c₁ c₂ hc₂
    refine ⟨ts ++ us, hts.append hus,
      fun _ => List.append_ne_nil_of_left_ne_nil (hne rfl) us, fun d d₂ hd hcur => ?_⟩
    obtain ⟨d₁, hd₁, hd₂, hfirst⟩ := hus.middle hd hcur
    rw [bind_done k' (hq d d₁ hd₁ hfirst)]
    exact hq' d₁ d₂ ⟨hus, hd₂, hts.latest hd₁ fun hnil => absurd hnil (hne rfl), hcur⟩
  | failed e c₁ =>
    obtain ⟨ts, hts, -, hq⟩ := hp c₁ (by rw [hpc]; rfl)
    rw [hpc] at hq
    rw [bind_failed k hpc] at hc₂ ⊢
    obtain rfl : c₁ = c₂ := Option.some.inj hc₂
    exact ⟨ts, hts, fun he => absurd he (by simp [Outcome.error?]),
      fun d d₂ hd hcur => bind_failed k' (hq d d₂ hd hcur)⟩
  | endless =>
    rw [bind_endless k hpc] at hc₂
    cases hc₂

theorem freshAt_advance (hc : c.current.kind ≠ .endOfInput) :
    FreshAt f (Token.relocate f) c advance advance := by
  intro c₂ hc₂
  obtain rfl : c.next = c₂ := Option.some.inj hc₂
  refine ⟨[c.current], .next hc, by simp, fun d d₂ hd _ => ?_⟩
  obtain ⟨hfirst, -, rfl⟩ := hd
  rw [advance, hfirst]
  rfl

theorem freshAt_refuse {cause : Token → Cause} (hcause : ∀ t, cause (t.relocate f) = cause t) :
    FreshAt f g c (refuse cause) (refuse cause) := by
  intro c₂ hc₂
  obtain rfl : c = c₂ := Option.some.inj hc₂
  refine ⟨[], .refl c, fun he => absurd he (by simp [refuse, Outcome.error?]),
    fun d d₂ hd hcur => ?_⟩
  obtain rfl : d = d₂ := hd
  rw [refuse, hcur, hcause]
  rfl

theorem freshAt_current {k : Token → Parse α} {k' : Token → Parse β}
    (h : FreshAt f g c (k c.current) (k' (c.current.relocate f))) :
    FreshAt f g c (current >>= k) (current >>= k') := by
  intro c₂ hc₂
  obtain ⟨ts, hts, hne, hq⟩ := h c₂ hc₂
  refine ⟨ts, hts, hne, fun d d₂ hd hcur => ?_⟩
  have hfirst : d.current = c.current.relocate f := by
    cases ts with
    | nil =>
      obtain rfl : c = c₂ := hts
      obtain rfl : d = d₂ := hd
      exact hcur
    | cons t ts => rw [hts.1, hd.1]
  rw [current_bind, hfirst]
  exact hq d d₂ hd hcur

/-- A parser that looks back only after it has consumed a token. -/
structure Opens (f : Position → Position) (g : α → β) (p : Parse α) (q : Parse β) : Prop where
  transports : Transports f g p q
  fresh : ∀ c : Cursor, c.current.kind ≠ .endOfInput → FreshAt f g c p q

theorem Opens.bind {k : α → Parse γ} {k' : β → Parse δ} (hp : Opens f g p q)
    (hk : ∀ a, Transports f h (k a) (k' (g a))) : Opens f h (p >>= k) (q >>= k') :=
  ⟨hp.transports.bind hk, fun c hc => (hp.fresh c hc).bind hk⟩

theorem opens_advance : Opens f (Token.relocate f) advance advance :=
  ⟨transports_advance, fun _ hc => freshAt_advance hc⟩

theorem opens_advanceLine : Opens f (Token.relocate f) advanceLine advanceLine :=
  opens_advance.bind fun _ => (transports_skip _).bind fun _ => transports_pure rfl

theorem opens_refuse {cause : Token → Cause} (hcause : ∀ t, cause (t.relocate f) = cause t) :
    Opens f g (refuse cause) (refuse cause) :=
  ⟨transports_refuse hcause, fun _ _ => freshAt_refuse hcause⟩

theorem opens_complain (k : Complaint) : Opens f g (complain k) (complain k) :=
  opens_refuse fun _ => rfl

theorem opens_current {k : Token → Parse α} {k' : Token → Parse β}
    (h : ∀ t, Opens f g (k t) (k' (t.relocate f))) :
    Opens f g (current >>= k) (current >>= k') :=
  ⟨transports_current.bind fun t => (h t).transports,
    fun c hc => freshAt_current ((h c.current).fresh c hc)⟩

/-! Tests of the current token. -/

theorem transports_atSymbol (text : String) : Transports f id (atSymbol text) (atSymbol text) :=
  transports_current.bind fun _ => transports_pure rfl

theorem transports_atToken : Transports f id atToken atToken :=
  transports_current.bind fun _ => transports_pure rfl

theorem transports_accept {test : Token → Bool} (ht : ∀ t, test (t.relocate f) = test t) :
    Transports f id (accept test) (accept test) := by
  refine transports_current.bind fun t => ?_
  rw [ht]
  split
  · exact transports_advance.bind fun _ => transports_pure rfl
  · exact transports_pure rfl

theorem transports_acceptSymbol (text : String) :
    Transports f id (acceptSymbol text) (acceptSymbol text) := transports_accept fun _ => rfl

theorem transports_acceptKeyword (word : Keyword) :
    Transports f id (acceptKeyword word) (acceptKeyword word) := transports_accept fun _ => rfl

theorem transports_acceptKind (kind : TokenKind) :
    Transports f id (acceptKind kind) (acceptKind kind) := transports_accept fun _ => rfl

theorem opens_expect {test : Token → Bool} (ht : ∀ t, test (t.relocate f) = test t)
    (k : Complaint) : Opens f (Token.relocate f) (expect test k) (expect test k) := by
  refine opens_current fun t => ?_
  rw [ht]
  split
  · exact opens_advance
  · exact opens_complain k

theorem opens_expectSymbol (text : String) :
    Opens f (Token.relocate f) (expectSymbol text) (expectSymbol text) :=
  opens_expect (fun _ => rfl) _

theorem transports_expectSymbol (text : String) :
    Transports f (Token.relocate f) (expectSymbol text) (expectSymbol text) :=
  (opens_expectSymbol text).transports

theorem transports_expectName (role : NameRole) :
    Transports f id (expectName role) (expectName role) :=
  (opens_expect (fun _ => rfl) _).transports.bind fun _ => transports_pure rfl

/-- A step of a repetition with its value changed. -/
def mapStep (g : α → β) : ForInStep α → ForInStep β
  | .done a => .done (g a)
  | .yield a => .yield (g a)

theorem transports_iterate {round : α → Parse (ForInStep α)} {round' : β → Parse (ForInStep β)}
    (hr : ∀ a, Transports f (mapStep g) (round a) (round' (g a))) (a : α) :
    Transports f g (iterate round a) (iterate round' (g a)) := by
  intro c
  induction hm : c.remaining using Nat.strong_induction_on generalizing a c with
  | _ m ih =>
    intro c₂ hc₂
    cases hrc : round a c with
    | done s c₁ =>
      obtain ⟨ts, hts, hq⟩ := hr a c c₁ (by rw [hrc]; rfl)
      rw [hrc] at hq
      cases s with
      | done b =>
        rw [iterate, hrc] at hc₂ ⊢
        obtain rfl : c₁ = c₂ := Option.some.inj hc₂
        refine ⟨ts, hts, fun d d₂ hd => ?_⟩
        rw [iterate, hq d d₂ hd]
        rfl
      | yield b =>
        by_cases hlt : c₁.remaining < c.remaining
        · rw [iterate, hrc] at hc₂ ⊢
          simp only [hlt, if_true] at hc₂ ⊢
          obtain ⟨us, hus, hq'⟩ := ih c₁.remaining (by omega) b c₁ rfl c₂ hc₂
          refine ⟨ts ++ us, hts.append hus, fun d d₂ hd => ?_⟩
          obtain ⟨d₁, hd₁, hd₂⟩ := Cursor.Beside.split hts hus hd
          rw [iterate, hq d d₁ hd₁, ← hq' d₁ d₂ hd₂]
          exact if_pos (hts.remaining_lt hd₁.passes' hlt)
        · rw [iterate, hrc] at hc₂
          simp only [hlt, if_false] at hc₂
          cases hc₂
    | failed e c₁ =>
      rw [iterate, hrc] at hc₂ ⊢
      obtain ⟨ts, hts, hq⟩ := hr a c c₂ (by rw [hrc]; exact hc₂)
      rw [hrc] at hq
      refine ⟨ts, hts, fun d d₂ hd => ?_⟩
      rw [iterate, hq d d₂ hd]
      rfl
    | endless =>
      rw [iterate, hrc] at hc₂
      cases hc₂

theorem transports_collect {round : Parse (ForInStep (List α))}
    {round' : Parse (ForInStep (List β))}
    (hr : Transports f (mapStep (List.map g)) round round') :
    Transports f (List.map g) (collect round) (collect round') := by
  intro c
  induction hm : c.remaining using Nat.strong_induction_on generalizing c with
  | _ m ih =>
    intro c₂ hc₂
    cases hrc : round c with
    | done s c₁ =>
      obtain ⟨ts, hts, hq⟩ := hr c c₁ (by rw [hrc]; rfl)
      rw [hrc] at hq
      cases s with
      | done items =>
        rw [collect, hrc] at hc₂ ⊢
        obtain rfl : c₁ = c₂ := Option.some.inj hc₂
        refine ⟨ts, hts, fun d d₂ hd => ?_⟩
        rw [collect, hq d d₂ hd]
        rfl
      | yield items =>
        by_cases hlt : c₁.remaining < c.remaining
        · rw [collect, hrc] at hc₂ ⊢
          simp only [hlt, if_true] at hc₂ ⊢
          have hc₂' : (collect round c₁).cursor? = some c₂ := by
            cases hrest : collect round c₁ <;> rw [hrest] at hc₂ <;> exact hc₂
          obtain ⟨us, hus, hq'⟩ := ih c₁.remaining (by omega) c₁ rfl c₂ hc₂'
          refine ⟨ts ++ us, hts.append hus, fun d d₂ hd => ?_⟩
          obtain ⟨d₁, hd₁, hd₂⟩ := Cursor.Beside.split hts hus hd
          rw [collect, hq d d₁ hd₁]
          simp only [Outcome.transport, mapStep, hts.remaining_lt hd₁.passes' hlt, if_true,
            hq' d₁ d₂ hd₂]
          cases collect round c₁ with
          | done more _ => simp
          | failed _ _ => rfl
          | endless => rfl
        · rw [collect, hrc] at hc₂
          simp only [hlt, if_false] at hc₂
          cases hc₂
    | failed e c₁ =>
      rw [collect, hrc] at hc₂ ⊢
      obtain ⟨ts, hts, hq⟩ := hr c c₂ (by rw [hrc]; exact hc₂)
      rw [hrc] at hq
      refine ⟨ts, hts, fun d d₂ hd => ?_⟩
      rw [collect, hq d d₂ hd]
      rfl
    | endless =>
      rw [collect, hrc] at hc₂
      cases hc₂

theorem transports_commaSeparated {item : Parse α} {item' : Parse β}
    (hi : Transports f g item item') :
    Transports f (List.map g) (commaSeparated item) (commaSeparated item') := by
  refine transports_collect ((transports_atSymbol _).bind fun b => ?_)
  cases b with
  | true => exact transports_pure rfl
  | false =>
    refine hi.bind fun a => (transports_skip _).bind fun _ =>
      (transports_acceptSymbol _).bind fun b => ?_
    cases b with
    | true => exact (transports_skip _).bind fun _ => transports_pure rfl
    | false => exact transports_pure rfl

end Parse
end ScriptSyntax
