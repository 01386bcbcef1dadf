import ScriptSyntax.Proofs.Lexing
import ScriptSyntax.Proofs.Recursion

/-! Parsers against languages: what a parser has read is in the language, and where it fails, what
it has consumed can still be completed to something in the language. The completion is no longer
than what was consumed pays for. -/
namespace ScriptSyntax
open Text

variable {α β : Type} {w : Terminal} {ws us vs : List Terminal} {m n : Nat}

/-- A terminal that can be written where one is missing. -/
def Terminal.Usable (w : Terminal) : Prop := w.Lexical ∧ w.Finite

theorem usable_symbol {s : String} (h : s.toList ∈ Pattern.symbols) :
    (Terminal.symbol s).Usable := ⟨h, trivial⟩

theorem usable_keyword (word : Keyword) : (Terminal.keyword word).Usable := ⟨trivial, trivial⟩

theorem usable_newLine : Terminal.newLine.Usable := ⟨trivial, trivial⟩

theorem usable_name : (Terminal.name "x").Usable :=
  ⟨⟨by decide +kernel, by decide +kernel⟩, trivial⟩

/-- Words that can be written where some are missing, in a text of so many bytes. -/
structure Fill (n : Nat) (us : List Terminal) : Prop where
  usable : ∀ u ∈ us, u.Usable
  size : byteCount (spell us) ≤ n

namespace Fill

theorem nil (n : Nat) : Fill n [] := ⟨by simp, Nat.zero_le n⟩

theorem weaken (h : Fill m us) (hle : m ≤ n) : Fill n us := ⟨h.usable, h.size.trans hle⟩

theorem append (h : Fill m us) (h' : Fill n vs) : Fill (m + n) (us ++ vs) where
  usable := List.forall_mem_append.2 ⟨h.usable, h'.usable⟩
  size := by
    rw [spell, List.flatMap_append, byteCount_append]
    exact Nat.add_le_add h.size h'.size

theorem name : Fill 2 [.name "x"] := ⟨by simpa using usable_name, by decide⟩

/-- A symbol of a single byte, and the blank behind it. -/
theorem symbol {s : String} (hs : s.toList ∈ Pattern.symbols ∧ byteCount s.toList = 1) :
    Fill 2 [.symbol s] where
  usable := by simpa using usable_symbol hs.1
  size := by
    rw [spell, List.flatMap_singleton, Terminal.spelled, byteCount_append, hs.2]
    exact Nat.le_refl 2

end Fill

/-- How many bytes of a completion a consumed word pays for. That is enough for all that is missing
behind the first word of a construct. -/
def credit : Nat := 16

/-- A language: words with their value and the terminal that stands behind them. -/
def Language (α : Type) : Type := List Terminal → α → Terminal → Prop

variable {K K' : Language α}

/-- The rest of a language behind some words. -/
def Language.after (K : Language α) (ws : List Terminal) : Language α := fun us => K (ws ++ us)

/-- Words that can be completed within so many bytes. -/
def Language.Viable (K : Language α) (n : Nat) (ws : List Terminal) : Prop :=
  ∃ us a w, Fill n us ∧ K (ws ++ us) a w

namespace Language

theorem Viable.mono (h : K.Viable n ws) (hK : ∀ us a w, K us a w → K' us a w) :
    K'.Viable n ws := by
  obtain ⟨us, a, w, hus, ha⟩ := h
  exact ⟨us, a, w, hus, hK _ _ _ ha⟩

theorem Viable.weaken (h : K.Viable m ws) (hle : m ≤ n) : K.Viable n ws := by
  obtain ⟨us, a, w, hus, ha⟩ := h
  exact ⟨us, a, w, hus.weaken hle, ha⟩

/-- Words that are in the language need no completion. -/
theorem viable_of_mem {a : α} (h : K ws a w) : K.Viable n ws :=
  ⟨[], a, w, .nil n, by rwa [List.append_nil]⟩

theorem viable_after : (K.after ws).Viable n us ↔ K.Viable n (ws ++ us) := by
  simp only [Viable, Language.after, List.append_assoc]

/-- A word that is missing is written before what is missing behind it. -/
theorem Viable.cons (hw : Fill m [w]) (h : (K.after [w]).Viable n []) :
    K.Viable (m + n) [] := by
  obtain ⟨us, a, w', hus, ha⟩ := h
  exact ⟨[w] ++ us, a, w', hw.append hus, ha⟩

end Language

/-- An error about a token: at its beginning, and with its text. -/
def Error.Names (e : Error) (t : Token) : Prop :=
  e.position = t.span.start ∧ ((∃ k, e.cause = .refused k (some t.mention)) ∨
    (t.kind = .number ∧ e.cause = .badNumber t.text))

/-- What was consumed is in the language, or can be completed to something that is. The completion
takes no more than some bytes and what the consumed words pay for. Errors are about the current
token. -/
def Outcome.Fits (n : Nat) (c : Cursor) (K : Language α) : Outcome α → Prop
  | .done a d => ∃ ws, c.Spells ws d ∧ (∀ w ∈ ws, w.Finite) ∧ K ws a d.current.terminal
  | .failed e d => e.Names d.current ∧ ∃ ws, c.Spells ws d ∧ (∀ w ∈ ws, w.Finite) ∧
      K.Viable (n + credit * ws.length) ws
  | .endless => True

theorem Outcome.Fits.mono {o : Outcome α} {c : Cursor} (h : o.Fits n c K)
    (hK : ∀ us a w, K us a w → K' us a w) : o.Fits n c K' := by
  cases o with
  | done a d =>
    obtain ⟨ws, hws, hfin, ha⟩ := h
    exact ⟨ws, hws, hfin, hK _ _ _ ha⟩
  | failed e d =>
    obtain ⟨he, ws, hws, hfin, hv⟩ := h
    exact ⟨he, ws, hws, hfin, hv.mono hK⟩
  | endless => trivial

/-- What happens after some words were consumed. These words pay for more. -/
theorem Outcome.Fits.after {o : Outcome α} {c d : Cursor} (hws : c.Spells ws d)
    (hfin : ∀ w ∈ ws, w.Finite) (h : o.Fits m d (K.after ws))
    (hle : m ≤ n + credit * ws.length) : o.Fits n c K := by
  have hboth {us : List Terminal} (hus : ∀ w ∈ us, w.Finite) : ∀ w ∈ ws ++ us, w.Finite :=
    List.forall_mem_append.2 ⟨hfin, hus⟩
  cases o with
  | done a e =>
    obtain ⟨us, hus, hfin', ha⟩ := h
    exact ⟨ws ++ us, hws.append hus, hboth hfin', ha⟩
  | failed _ e =>
    obtain ⟨he, us, hus, hfin', hv⟩ := h
    refine ⟨he, ws ++ us, hws.append hus, hboth hfin', (Language.viable_after.1 hv).weaken ?_⟩
    rw [List.length_append, Nat.mul_add]
    omega
  | endless => trivial

namespace Parse
variable {p : Parse α} {f : α → Parse β} {G : Language β}

/-- A parser that reads a language from wherever a terminal stands. What is missing where it fails
takes no more than some bytes and what the consumed words pay for. -/
structure Reads (n : Nat) (w : Terminal) (p : Parse α) (K : Language α) : Prop where
  viable : K.Viable n []
  fits : ∀ c, c.Genuine → c.current.terminal = w → (p c).Fits n c K

theorem Reads.mono (h : Reads n w p K) (hK : ∀ us a w, K us a w → K' us a w) : Reads n w p K' :=
  ⟨h.viable.mono hK, fun c hc hw => (h.fits c hc hw).mono hK⟩

theorem Reads.weaken (h : Reads m w p K) (hle : m ≤ n) : Reads n w p K :=
  ⟨h.viable.weaken hle, fun c hc hw => .after (.refl c) (by simp) (h.fits c hc hw)
    (hle.trans (Nat.le_add_right _ _))⟩

theorem Reads.pure {a : α} (h : K [] a w) : Reads n w (pure a) K :=
  ⟨Language.viable_of_mem h, fun c _ hw => ⟨[], .refl c, by simp, by rwa [hw]⟩⟩

theorem Reads.bind (hp : Reads m w p K)
    (hf : ∀ ws a w', K ws a w' → Reads n w' (f a) (G.after ws)) : Reads (n + m) w (p >>= f) G := by
  have hviable {k : Nat} {ws : List Terminal} (h : K.Viable k ws) : G.Viable (k + n) ws := by
    obtain ⟨us, a, w', hus, ha⟩ := h
    obtain ⟨vs, b, w'', hvs, hb⟩ := (hf _ a w' ha).viable
    exact ⟨us ++ vs, b, w'', hus.append hvs, by
      rw [← List.append_assoc]
      exact hb⟩
  refine ⟨(hviable hp.viable).weaken (Nat.add_comm m n).le, fun c hc hw => ?_⟩
  have hfit := hp.fits c hc hw
  rw [bind_apply]
  cases hpc : p c with
  | done a d =>
    rw [hpc] at hfit
    obtain ⟨ws, hws, hfin, ha⟩ := hfit
    exact .after hws hfin ((hf ws a _ ha).fits d (hws.genuine hc) rfl) (by omega)
  | failed e d =>
    rw [hpc] at hfit
    obtain ⟨he, ws, hws, hfin, hv⟩ := hfit
    exact ⟨he, ws, hws, hfin, (hviable hv).weaken (by omega)⟩
  | endless => trivial

theorem Reads.map {g : α → β} (hp : Reads n w p fun ws a w' => G ws (g a) w') :
    Reads n w (p >>= fun a => Pure.pure (g a)) G :=
  (hp.bind fun ws a w' h => .pure (by rwa [Language.after, List.append_nil])).weaken
    (Nat.zero_add n).le

/-- What was read begins with the terminal that stood there, which may be taken into account. -/
theorem Reads.sharpen (hp : Reads n w p K) (hviable : K'.Viable n [])
    (hK : ∀ us a w', us.headD w' = w → K us a w' → K' us a w') : Reads n w p K' := by
  refine ⟨hviable, fun c hc hw => ?_⟩
  have hfit := hp.fits c hc hw
  cases hpc : p c with
  | done a d =>
    rw [hpc] at hfit
    obtain ⟨ws, hws, hfin, ha⟩ := hfit
    exact ⟨ws, hws, hfin, hK ws a _ (hws.headD.trans hw) ha⟩
  | failed e d =>
    rw [hpc] at hfit
    obtain ⟨he, ws, hws, hfin, us, a, w', hus, ha⟩ := hfit
    refine ⟨he, ws, hws, hfin, ?_⟩
    cases ws with
    | nil => exact hviable.weaken (Nat.le_add_right _ _)
    | cons v ws =>
      have hhead : v = w := hws.headD.trans hw
      exact ⟨us, a, w', hus, hK _ a w' hhead ha⟩
  | endless => trivial

/-- A parser with a check in front, which has no result where the check fails. -/
theorem reads_checked (passed : Cursor → Prop) [DecidablePred passed] (hviable : K.Viable n [])
    (h : ∀ c, passed c → c.Genuine → c.current.terminal = w → (p c).Fits n c K) :
    Reads n w (fun c => if passed c then p c else .endless) K := by
  refine ⟨hviable, fun c hc hw => ?_⟩
  by_cases hpass : passed c
  · rw [if_pos hpass]
    exact h c hpass hc hw
  · rw [if_neg hpass]
    trivial

/-! The elementary parsers in front of others. -/

theorem Reads.current {f : Token → Parse α} (hviable : K.Viable n [])
    (hf : ∀ t, t.Genuine → t.terminal = w → Reads n w (f t) K) : Reads n w (current >>= f) K :=
  ⟨hviable, fun c hc hw => (hf c.current hc.current hw).fits c hc hw⟩

theorem Reads.lastEnd {f : Position → Parse α} (hf : ∀ p, Reads n w (f p) K) :
    Reads n w (lastEnd >>= f) K :=
  ⟨(hf default).viable, fun c hc hw => (hf c.lastEnd).fits c hc hw⟩

theorem Reads.complain {k : Complaint} (h : K.Viable n []) : Reads n w (complain k) K :=
  ⟨h, fun c _ _ => ⟨⟨rfl, .inl ⟨k, rfl⟩⟩, [], .refl c, by simp, h⟩⟩

theorem Reads.atSymbol {s : String} {f : Bool → Parse α}
    (hf : Reads n w (f (decide (w = .symbol s))) K) : Reads n w (atSymbol s >>= f) K := by
  refine ⟨hf.viable, fun c hc hw => ?_⟩
  rw [atSymbol_bind, Token.isSymbol_eq, hw]
  exact hf.fits c hc hw

theorem Reads.atToken {f : Bool → Parse α} (hf : Reads n w (f (decide (w ≠ .endOfInput))) K) :
    Reads n w (atToken >>= f) K := by
  refine ⟨hf.viable, fun c hc hw => ?_⟩
  have hdec : decide (c.current.kind ≠ .endOfInput) = decide (w ≠ .endOfInput) := by
    rw [← hw]
    exact decide_eq_decide.2 (not_congr Token.terminal_endOfInput.symm)
  rw [atToken_bind, hdec]
  exact hf.fits c hc hw

/-- A terminal that is known is consumed, and pays for what has to follow it. -/
theorem Reads.advance {f : Token → Parse α} (hviable : K.Viable n []) (hne : w ≠ .endOfInput)
    (hfin : w.Finite) (hle : m ≤ n + credit)
    (hf : ∀ t w', t.terminal = w → Reads m w' (f t) (K.after [w])) :
    Reads n w (advance >>= f) K := by
  refine ⟨hviable, fun c hc hcur => ?_⟩
  rw [advance_bind]
  exact .after (.next hcur hne) (by simpa using hfin) ((hf _ _ hcur).fits c.next hc.next rfl) hle

theorem Reads.skip {f : Nat → Parse α}
    (hf : ∀ k nl w', EmptyLines nl → Reads n w' (f k) (K.after nl)) :
    Reads n w (skip .newLine >>= f) K := by
  refine ⟨(hf 0 [] .newLine emptyLines_nil).viable, fun c hc hw => ?_⟩
  obtain ⟨nl, hnl, hskip⟩ := c.spells_skip
  rw [skip_bind]
  refine .after hskip (fun u hu => ?_) ((hf _ nl _ hnl).fits _ (hskip.genuine hc) rfl)
    (Nat.le_add_right _ _)
  rw [hnl u hu]
  trivial

theorem Reads.advanceLine {f : Token → Parse α} (hviable : K.Viable n []) (hne : w ≠ .endOfInput)
    (hfin : w.Finite) (hle : m ≤ n + credit)
    (hf : ∀ t nl w', t.terminal = w → EmptyLines nl → Reads m w' (f t) (K.after (w :: nl))) :
    Reads n w (advanceLine >>= f) K := by
  rw [Parse.advanceLine, bind_assoc]
  refine .advance hviable hne hfin hle fun t w' ht => ?_
  rw [bind_assoc]
  exact .skip fun n nl w'' hnl => hf t nl w'' ht hnl

/-- A test that only one terminal passes, which then pays for what has to follow it. -/
theorem Reads.accept {test : Token → Bool} {v : Terminal} {f : Bool → Parse α}
    (htest : ∀ t, test t = decide (t.terminal = v)) (hne : v ≠ .endOfInput) (hfin : v.Finite)
    (hviable : K.Viable n []) (hle : m ≤ n + credit)
    (hyes : w = v → ∀ w', Reads m w' (f true) (K.after [v]))
    (hno : w ≠ v → Reads n w (f false) K) : Reads n w (accept test >>= f) K := by
  refine ⟨hviable, fun c hc hcur => ?_⟩
  rw [accept_bind, htest, hcur]
  by_cases hw : w = v
  · rw [decide_eq_true hw, if_pos rfl]
    exact .after (.next (hcur.trans hw) hne) (by simpa using hfin)
      ((hyes hw _).fits c.next hc.next rfl) hle
  · rw [decide_eq_false hw, if_neg Bool.false_ne_true]
    exact (hno hw).fits c hc hcur

theorem Reads.acceptSymbol {s : String} {f : Bool → Parse α} (hviable : K.Viable n [])
    (hle : m ≤ n + credit)
    (hyes : w = .symbol s → ∀ w', Reads m w' (f true) (K.after [.symbol s]))
    (hno : w ≠ .symbol s → Reads n w (f false) K) : Reads n w (acceptSymbol s >>= f) K :=
  .accept (fun _ => Token.isSymbol_eq s) (by simp) trivial hviable hle hyes hno

theorem Reads.acceptKeyword {word : Keyword} {f : Bool → Parse α} (hviable : K.Viable n [])
    (hle : m ≤ n + credit)
    (hyes : w = .keyword word → ∀ w', Reads m w' (f true) (K.after [.keyword word]))
    (hno : w ≠ .keyword word → Reads n w (f false) K) : Reads n w (acceptKeyword word >>= f) K :=
  .accept (fun _ => Token.isKeyword_eq word) (by simp) trivial hviable hle hyes hno

theorem Reads.acceptNewLine {f : Bool → Parse α} (hviable : K.Viable n []) (hle : m ≤ n + credit)
    (hyes : w = .newLine → ∀ w', Reads m w' (f true) (K.after [.newLine]))
    (hno : w ≠ .newLine → Reads n w (f false) K) : Reads n w (acceptKind .newLine >>= f) K :=
  .accept (fun _ => decide_eq_decide.2 Token.terminal_newLine.symm) (by simp) trivial hviable hle
    hyes hno

/-- A terminal that has to stand here, and pays for what has to follow it. -/
theorem Reads.expect {test : Token → Bool} {k : Complaint} {f : Token → Parse α}
    (hviable : K.Viable n []) (hle : m ≤ n + credit)
    (hf : ∀ t w', test t = true → t.terminal = w →
      w ≠ .endOfInput ∧ w.Finite ∧ Reads m w' (f t) (K.after [w])) :
    Reads n w (expect test k >>= f) K := by
  refine ⟨hviable, fun c hc hcur => ?_⟩
  rw [expect_bind]
  cases htest : test c.current with
  | true =>
    obtain ⟨hne, hfin, hread⟩ := hf c.current c.next.current.terminal htest hcur
    rw [if_pos rfl]
    exact .after (.next hcur hne) (by simpa using hfin) (hread.fits c.next hc.next rfl) hle
  | false =>
    rw [if_neg Bool.false_ne_true]
    exact (Reads.complain hviable).fits c hc hcur

/-- A symbol that has to stand here. Where it does not, it is what is missing. -/
theorem Reads.expectSymbol {s : String} {f : Token → Parse α}
    (hs : s.toList ∈ Pattern.symbols ∧ byteCount s.toList = 1)
    (hf : ∀ t w', t.terminal = .symbol s → Reads n w' (f t) (K.after [.symbol s])) :
    Reads (n + 2) w (expectSymbol s >>= f) K := by
  obtain ⟨t, ht⟩ := Token.exists_terminal (.symbol s)
  have hviable := Language.Viable.cons (.symbol hs) (hf t .newLine ht).viable
  refine .expect (m := n) (hviable.weaken (Nat.add_comm 2 n).le) (by omega) fun t w' htest ht => ?_
  rw [Token.isSymbol_eq, decide_eq_true_eq] at htest
  obtain rfl := ht.symm.trans htest
  exact ⟨by simp, trivial, hf t w' htest⟩

theorem Reads.expectNameToken {k : Complaint} {f : Token → Parse α}
    (hf : ∀ t x w', t.terminal = .name x → Reads n w' (f t) (K.after [.name x])) :
    Reads (n + 2) w (expectKind .name k >>= f) K := by
  obtain ⟨t, ht⟩ := Token.exists_terminal (.name "x")
  have hviable := Language.Viable.cons .name (hf t "x" .newLine ht).viable
  refine .expect (m := n) (hviable.weaken (Nat.add_comm 2 n).le) (by omega) fun t w' htest ht => ?_
  have hname : t.terminal = .name t.text :=
    Token.terminal_name.2 ⟨of_decide_eq_true htest, rfl⟩
  obtain rfl := ht.symm.trans hname
  exact ⟨by simp, trivial, hf t _ w' hname⟩

theorem Reads.expectName {role : NameRole} {f : String → Parse α}
    (hf : ∀ x w', Reads n w' (f x) (K.after [.name x])) :
    Reads (n + 2) w (expectName role >>= f) K := by
  rw [Parse.expectName, bind_assoc]
  refine .expectNameToken fun t x w' ht => ?_
  rw [← (Token.terminal_name.1 ht).2]
  exact hf _ w'

/-! Repetition. -/

/-- What a round reads that goes on from some words and a value to others, by a language for the end
and a language to go on with. -/
def stepsTo (goes ends : Language α) (ws : List Terminal) : Language (ForInStep α) :=
  fun us step w => match step with
    | .done a => ends (ws ++ us) a w
    | .yield a => goes (ws ++ us) a w

/-- The invariant of the rounds is a language of its own. -/
theorem Reads.iterate {goes : Language α} {round : α → Parse (ForInStep α)}
    (hround : ∀ ws a w, goes ws a w → Reads m w (round a) (stepsTo goes K ws))
    (hviable : ∀ ws a w, goes ws a w → K.Viable n ws) {a : α} (ha : goes ws a w) :
    Reads (m + n) w (iterate round a) (K.after ws) := by
  refine ⟨Language.viable_after.2 ?_, fun c hc hw => ?_⟩
  · rw [List.append_nil]
    exact (hviable ws a w ha).weaken (Nat.le_add_left n m)
  induction hk : c.remaining using Nat.strong_induction_on generalizing c a ws w with
  | _ k ih =>
    have hfit := (hround ws a w ha).fits c hc hw
    rw [iterate]
    cases hr : round a c with
    | done step d =>
      rw [hr] at hfit
      obtain ⟨us, hus, hfin, hstep⟩ := hfit
      cases step with
      | done b => exact ⟨us, hus, hfin, hstep⟩
      | yield b =>
        dsimp only
        split
        · next hlt =>
          refine .after hus hfin ?_ (Nat.le_add_right _ _)
          have hrest := ih d.remaining (by omega) hstep d (hus.genuine hc) rfl rfl
          exact hrest.mono fun vs b' w' h => by
            rwa [Language.after, List.append_assoc] at h
        · trivial
    | failed e d =>
      rw [hr] at hfit
      obtain ⟨he, us, hus, hfin, vs, step, w', hvs, hstep⟩ := hfit
      refine ⟨he, us, hus, hfin, Language.viable_after.2 ?_⟩
      cases step with
      | done b =>
        rw [stepsTo, ← List.append_assoc] at hstep
        exact ⟨vs, b, w', hvs.weaken (by omega), hstep⟩
      | yield b =>
        obtain ⟨vs', b', w'', hvs', hb⟩ := hviable _ _ _ hstep
        exact ⟨vs ++ vs', b', w'', (hvs.append hvs').weaken (by omega), by
          simpa [List.append_assoc] using hb⟩
    | endless => trivial

/-- What a round reads that gives some items of a list: what follows, either beginning with the
terminal behind it or being the shortest end, has to make up a list with them. -/
def collects (L : Language (List α)) (shortest : List Terminal) : Language (ForInStep (List α)) :=
  fun ws step w => match step with
    | .done items => L ws items w
    | .yield items => ∀ us more w', us = shortest ∨ us.headD w = w → L us more w' →
      L (ws ++ us) (items ++ more) w'

theorem Reads.collect {L : Language (List α)} {shortest : List Terminal} {last : List α}
    {v : Terminal} {round : Parse (ForInStep (List α))} (hlast : L shortest last v)
    (hshortest : Fill n shortest) (hround : ∀ w, Reads m w round (collects L shortest))
    (w : Terminal) : Reads (m + n) w (collect round) L := by
  have hend {k : Nat} {us : List Terminal} {items : List α} {w : Terminal} (hle : n ≤ k)
      (hstep : collects L shortest us (.yield items) w) : L.Viable k us :=
    ⟨shortest, _, v, hshortest.weaken hle, hstep shortest last v (.inl rfl) hlast⟩
  refine ⟨⟨shortest, last, v, hshortest.weaken (Nat.le_add_left n m), hlast⟩, fun c hc hw => ?_⟩
  induction hk : c.remaining using Nat.strong_induction_on generalizing c w with
  | _ k ih =>
    have hfit := (hround w).fits c hc hw
    rw [Parse.collect]
    cases hr : round c with
    | done step d =>
      rw [hr] at hfit
      obtain ⟨us, hus, hfin, hstep⟩ := hfit
      cases step with
      | done items => exact ⟨us, hus, hfin, hstep⟩
      | yield items =>
        dsimp only
        split
        · next hlt =>
          have hrest := ih d.remaining (by omega) d.current.terminal d (hus.genuine hc) rfl rfl
          cases hd : Parse.collect round d with
          | done more e =>
            rw [hd] at hrest
            obtain ⟨vs, hvs, hfin', hmore⟩ := hrest
            have hhead : vs.headD d.current.terminal = d.current.terminal := by
              cases vs with
              | nil => rfl
              | cons v vs => exact hvs.headD
            exact ⟨us ++ vs, hus.append hvs, List.forall_mem_append.2 ⟨hfin, hfin'⟩,
              hstep vs more _ (.inr hhead) hmore⟩
          | failed e stop =>
            rw [hd] at hrest
            obtain ⟨he, vs, hvs, hfin', us', more, w', hus', hmore⟩ := hrest
            have hboth := List.forall_mem_append.2 ⟨hfin, hfin'⟩
            refine ⟨he, us ++ vs, hus.append hvs, hboth, ?_⟩
            -- What fails at once may need another beginning than the terminal that stands there.
            cases vs with
            | nil =>
              rw [List.append_nil]
              exact hend (by omega) hstep
            | cons u vs =>
              have hhead : u = d.current.terminal := hvs.headD
              refine ⟨us', items ++ more, w', hus'.weaken ?_, ?_⟩
              · rw [List.length_append, Nat.mul_add]
                omega
              · rw [List.append_assoc]
                exact hstep _ more w' (.inr hhead) hmore
          | endless => trivial
        · trivial
    | failed e d =>
      rw [hr] at hfit
      obtain ⟨he, us, hus, hfin, vs, step, w', hvs, hstep⟩ := hfit
      refine ⟨he, us, hus, hfin, ?_⟩
      cases step with
      | done items => exact ⟨vs, items, w', hvs.weaken (by omega), hstep⟩
      | yield items =>
        refine ⟨vs ++ shortest, items ++ last, v, (hvs.append hshortest).weaken (by omega), ?_⟩
        rw [← List.append_assoc]
        exact hstep shortest last v (.inl rfl) hlast
    | endless => trivial

theorem Reads.commaSeparated {item : Parse α} {spells : List Terminal → α → Prop}
    (hitem : ∀ w, Reads n w item fun ws a _ => spells ws a) (w : Terminal) :
    Reads n w (commaSeparated item) fun ws values _ => Items spells Listed ws values := by
  refine .collect (v := w) (.nil .nil) (.nil 0) (fun w => .atSymbol ?_) w
  by_cases hw : w = .symbol ")"
  · rw [decide_eq_true hw]
    exact .pure (.nil .nil)
  · rw [decide_eq_false hw]
    refine ((hitem w).bind fun ws a w' ha => .skip fun _ nl w'' hnl => ?_).weaken
      (Nat.zero_add n).le
    have hone : Items spells Listed (ws ++ (nl ++ [])) [a] := .one ha (by simpa using .last ws hnl)
    refine .acceptSymbol (Language.viable_of_mem (a := .done [a]) (w := w'') hone) (Nat.zero_le _)
      (fun _ w₃ => .skip fun _ nl' w₄ hnl' => .pure ?_) (fun _ => .pure hone)
    intro us more _ _ hmore
    refine .cons ha hmore fun pieces hus => ?_
    simpa using Listed.cons ws hnl hnl' hus

end Parse
end ScriptSyntax
