import Mathlib.Data.List.Destutter
import ScriptSyntax.Proofs.StatementLists

/-! Blank lines carry no meaning. Where a line ends, it may end several times: no parser that goes
on behind the end of a line looks at how many there are. -/
namespace ScriptSyntax
open Parse
variable {α β γ δ : Type} {b b' b₁ : Bool} {c d : Cursor} {ts us : List Token} {t : Token}

/-- Tokens that are not both the end of a line. -/
def Token.Apart (t u : Token) : Prop := ¬ (t.kind = .newLine ∧ u.kind = .newLine)

instance : DecidableRel Token.Apart := fun t u =>
  inferInstanceAs (Decidable (¬ (t.kind = .newLine ∧ u.kind = .newLine)))

/-- Some tokens without their blank lines: of several ends of lines in a row the first one stays. -/
def squeeze (ts : List Token) : List Token := ts.destutter Token.Apart

theorem squeeze_plain (ht : t.kind ≠ .newLine) : squeeze (t :: ts) = t :: squeeze ts := by
  cases ts with
  | nil => rfl
  | cons u ts => exact List.destutter'_cons_pos _ fun h => ht h.1

theorem squeeze_line (ht : t.kind = .newLine) :
    squeeze (t :: ts) = t :: squeeze (ts.dropWhile (·.kind = .newLine)) := by
  induction ts with
  | nil => rfl
  | cons u ts ih =>
    by_cases hu : u.kind = .newLine
    · rw [List.dropWhile_cons_of_pos (by simpa using hu), ← ih]
      exact List.destutter'_cons_neg _ fun h => h ⟨ht, hu⟩
    · rw [List.dropWhile_cons_of_neg (by simpa using hu)]
      exact List.destutter'_cons_pos _ fun h => hu h.2

theorem head?_squeeze (ts : List Token) : (squeeze ts).head? = ts.head? := by
  cases ts with
  | nil => rfl
  | cons t ts =>
    by_cases ht : t.kind = .newLine
    · rw [squeeze_line ht, List.head?_cons, List.head?_cons]
    · rw [squeeze_plain ht, List.head?_cons, List.head?_cons]

section Insert
variable {after : List Token} {n n' : Token} (hn : n.kind = .newLine) (hn' : n'.kind = .newLine)
include hn'

theorem destutter'_line (hn : n.kind = .newLine) :
    (n' :: after).destutter' Token.Apart n = after.destutter' Token.Apart n :=
  List.destutter'_cons_neg _ fun h => h ⟨hn, hn'⟩

include hn

theorem destutter'_insert (before : List Token) (u : Token) :
    (before ++ n :: n' :: after).destutter' Token.Apart u =
      (before ++ n :: after).destutter' Token.Apart u := by
  induction before generalizing u with
  | nil =>
    rw [List.nil_append, List.nil_append]
    by_cases hu : u.kind = .newLine
    · rw [destutter'_line hn hu, destutter'_line hn' hu, destutter'_line hn hu]
    · have hapart : u.Apart n := fun h => hu h.1
      rw [List.destutter'_cons_pos _ hapart, List.destutter'_cons_pos _ hapart,
        destutter'_line hn' hn]
  | cons v before ih =>
    rw [List.cons_append, List.cons_append, List.destutter'_cons, List.destutter'_cons, ih, ih]

/-- One more end of a line behind another one is squeezed away. -/
theorem squeeze_insert (before : List Token) :
    squeeze (before ++ n :: n' :: after) = squeeze (before ++ n :: after) := by
  cases before with
  | nil => exact destutter'_line hn' hn
  | cons u before => exact destutter'_insert hn hn' before u

end Insert

/-! Cursors in front of tokens that differ in blank lines only. -/

/-- Neither the end of a line nor that of the input. -/
def Token.Plain (t : Token) : Prop := t.kind ≠ .newLine ∧ t.kind ≠ .endOfInput

theorem plain_of_isSymbol {text : String} (h : t.isSymbol text = true) : t.Plain := by
  simp [Token.Plain, kind_of_isSymbol h]

theorem plain_of_isKeyword {word : Keyword} (h : t.isKeyword word = true) : t.Plain := by
  simp [Token.Plain, kind_of_isKeyword h]

/-- Two cursors with the same tokens ahead but for blank lines. If they are tight they have consumed
the same token last, and not only the end of a line that has another place. -/
structure Cursor.Synced (tight : Bool) (c d : Cursor) : Prop where
  upcoming : squeeze c.upcoming = squeeze d.upcoming
  finish : c.finish = d.finish
  latest : tight = true → c.consumed.head? = d.consumed.head?

namespace Cursor

theorem upcoming_skip (c : Cursor) :
    (c.skip .newLine).upcoming = c.upcoming.dropWhile (·.kind = .newLine) := by
  have hrun := (c.passes_skip .newLine).lists.1
  conv_lhs at hrun =>
    rw [← List.takeWhile_append_dropWhile (p := (·.kind = .newLine)) (l := c.upcoming)]
  exact (List.append_cancel_left hrun).symm

namespace Synced

theorem loose (h : c.Synced b d) : c.Synced false d := ⟨h.upcoming, h.finish, nofun⟩

theorem of_tight (h : c.Synced true d) : c.Synced b d :=
  ⟨h.upcoming, h.finish, fun _ => h.latest rfl⟩

theorem current (h : c.Synced b d) : c.current = d.current := by
  have hhead := congrArg List.head? h.upcoming
  rw [head?_squeeze, head?_squeeze] at hhead
  rw [Cursor.current, Cursor.current, List.headD_eq_head?_getD, List.headD_eq_head?_getD, hhead,
    h.finish]

theorem lastEnd (h : c.Synced true d) : c.lastEnd = d.lastEnd := by
  have hlatest := h.latest rfl
  rw [Cursor.lastEnd, Cursor.lastEnd]
  cases hc : c.consumed with
  | nil =>
    rw [hc] at hlatest
    rw [List.head?_eq_none_iff.1 hlatest.symm, h.current]
  | cons t ts =>
    rw [hc, List.head?_cons] at hlatest
    obtain ⟨us, hd⟩ := List.head?_eq_some_iff.1 hlatest.symm
    rw [hd]

/-- A token that is no end of a line is consumed on both sides. -/
theorem next (h : c.Synced b d) (hc : c.current.Plain) : c.next.Synced b' d.next := by
  obtain ⟨hup, hconsumed, hfinish⟩ := upcoming_of_current hc.2
  obtain ⟨hup', hconsumed', hfinish'⟩ := upcoming_of_current (c := d) (h.current ▸ hc.2)
  have hsame := h.upcoming
  rw [hup, hup', ← h.current, squeeze_plain hc.1, squeeze_plain hc.1] at hsame
  refine ⟨(List.cons.inj hsame).2, by rw [hfinish, hfinish', h.finish], fun _ => ?_⟩
  rw [hconsumed, hconsumed', h.current, List.head?_cons, List.head?_cons]

/-- Behind all ends of lines nothing is left that differs. -/
theorem skip (h : c.Synced b d) : (c.skip .newLine).Synced false (d.skip .newLine) := by
  by_cases hc : c.current.kind = .newLine
  · obtain ⟨hup, -⟩ := upcoming_of_current (c := c) (by simp [hc])
    obtain ⟨hup', -⟩ := upcoming_of_current (c := d) (by simp [← h.current, hc])
    have hsame := h.upcoming
    rw [hup, hup', ← h.current, squeeze_line hc, squeeze_line hc] at hsame
    refine ⟨?_, h.finish, nofun⟩
    have hdrop (ts : List Token) : (c.current :: ts).dropWhile (·.kind = .newLine) =
        ts.dropWhile (·.kind = .newLine) := List.dropWhile_cons_of_pos (by simpa using hc)
    rw [upcoming_skip, upcoming_skip, hup, hup', ← h.current, hdrop, hdrop]
    exact (List.cons.inj hsame).2
  · rw [skip_of_ne hc, skip_of_ne (h.current ▸ hc)]
    exact h.loose

end Synced
end Cursor

/-! Parsers on both sides. -/

/-- The same result, or the same error. -/
def Outcome.Steady (tight : Bool) : Outcome α → Outcome α → Prop
  | .done a c, o => ∃ d, o = .done a d ∧ c.Synced tight d
  | .failed e _, o => ∃ d, o = .failed e d
  | .endless, _ => True

theorem Outcome.Steady.prepend {o o' : Outcome (List α)} (h : o.Steady b o') (items : List α) :
    (o.prepend items).Steady b (o'.prepend items) := by
  cases o with
  | done more c =>
    obtain ⟨d, rfl, hsync⟩ := h
    exact ⟨d, rfl, hsync⟩
  | failed e c =>
    obtain ⟨d, rfl⟩ := h
    exact ⟨d, rfl⟩
  | endless => trivial

namespace Parse
variable {p q : Parse α} {k k' : α → Parse β}

/-- From synced cursors the second parser does what the first one does, and leaves them synced. -/
def SteadyAt (b b' : Bool) (c : Cursor) (p q : Parse α) : Prop :=
  ∀ d, c.Synced b d → (p c).Steady b' (q d)

def Steady (b b' : Bool) (p q : Parse α) : Prop := ∀ c, SteadyAt b b' c p q

theorem SteadyAt.congr {p' : Parse α} (hp : SteadyAt b b' c p q) (h : p' c = p c) :
    SteadyAt b b' c p' q := fun d hd => by
  rw [h]
  exact hp d hd

/-- What holds from loose cursors on holds from tight ones on. -/
theorem SteadyAt.of_loose (hp : SteadyAt false b' c p q) : SteadyAt b b' c p q :=
  fun d hd => hp d hd.loose

theorem Steady.of_loose (hp : Steady false b' p q) : Steady b b' p q := fun c => (hp c).of_loose

theorem Steady.loosen (hp : Steady b true p q) : Steady b b' p q := fun c d hd => by
  have h := hp c d hd
  cases hc : p c with
  | done a c' =>
    rw [hc] at h
    obtain ⟨d', hd', hsync⟩ := h
    exact ⟨d', hd', hsync.of_tight⟩
  | failed e c' =>
    rw [hc] at h
    exact h
  | endless => trivial

/-- The rests have to be steady only where the first parts end. -/
theorem steady_bind (hp : (p c).Steady b₁ (q d))
    (hk : ∀ a c' d', p c = .done a c' → c'.Synced b₁ d' → (k a c').Steady b' (k' a d')) :
    ((p >>= k) c).Steady b' ((q >>= k') d) := by
  cases hc : p c with
  | done a c' =>
    rw [hc] at hp
    obtain ⟨d', hd', hsync⟩ := hp
    rw [bind_done k hc, bind_done k' hd']
    exact hk a c' d' hc hsync
  | failed e c' =>
    rw [hc] at hp
    obtain ⟨d', hd'⟩ := hp
    rw [bind_failed k hc, bind_failed k' hd']
    exact ⟨d', rfl⟩
  | endless =>
    rw [bind_endless k hc]
    trivial

theorem SteadyAt.bind (hp : SteadyAt b b₁ c p q) (hk : ∀ a, Steady b₁ b' (k a) (k' a)) :
    SteadyAt b b' c (p >>= k) (q >>= k') := fun d hd =>
  steady_bind (hp d hd) fun a c' d' _ hsync => hk a c' d' hsync

theorem Steady.bind (hp : Steady b b₁ p q) (hk : ∀ a, Steady b₁ b' (k a) (k' a)) :
    Steady b b' (p >>= k) (q >>= k') := fun c => (hp c).bind hk

theorem steady_pure (a : α) : Steady b b (pure a) (pure a) := fun _ d hd => ⟨d, rfl, hd⟩

theorem steady_refuse (cause : Token → Cause) :
    Steady b b' (refuse cause : Parse α) (refuse cause) := fun c d hd => by
  rw [refuse, refuse, hd.current]
  exact ⟨d, rfl⟩

theorem steady_complain (complaint : Complaint) :
    Steady b b' (complain complaint : Parse α) (complain complaint) := steady_refuse _

theorem steady_lastEnd : Steady true b lastEnd lastEnd := fun c d hd =>
  ⟨d, by rw [lastEnd, hd.lastEnd], hd.of_tight⟩

theorem steadyAt_current {k k' : Token → Parse β}
    (h : SteadyAt b b' c (k c.current) (k' c.current)) :
    SteadyAt b b' c (current >>= k) (current >>= k') := fun d hd => by
  rw [current_bind, current_bind, ← hd.current]
  exact h d hd

theorem steady_current {k k' : Token → Parse β} (h : ∀ t, Steady b b' (k t) (k' t)) :
    Steady b b' (current >>= k) (current >>= k') := fun c => steadyAt_current (h c.current c)

theorem steadyAt_advance (hc : c.current.Plain) : SteadyAt b true c advance advance :=
  fun d hd => ⟨d.next, by rw [advance, hd.current], hd.next hc⟩

/-- How many ends of lines are skipped may differ, so nothing may depend on it. -/
theorem steady_skip {k k' : Nat → Parse β} (h : ∀ n n', Steady false b' (k n) (k' n')) :
    Steady b b' (skip .newLine >>= k) (skip .newLine >>= k') := fun c d hd => by
  rw [skip_bind, skip_bind]
  exact h _ _ _ _ hd.skip

theorem steadyAt_advanceLine (hc : c.current.Plain) :
    SteadyAt b false c advanceLine advanceLine :=
  (steadyAt_advance hc).bind fun t => steady_skip fun _ _ => steady_pure t

theorem steady_atSymbol (text : String) : Steady b b (atSymbol text) (atSymbol text) :=
  steady_current fun _ => steady_pure _

theorem steadyAt_atSymbol {k k' : Bool → Parse β} {text : String}
    (h : SteadyAt b b' c (k (c.current.isSymbol text)) (k' (c.current.isSymbol text))) :
    SteadyAt b b' c (atSymbol text >>= k) (atSymbol text >>= k') := fun d hd => by
  rw [atSymbol_bind, atSymbol_bind, ← hd.current]
  exact h d hd

theorem steady_atToken : Steady b b atToken atToken := steady_current fun _ => steady_pure _

theorem steady_expect {test : Token → Bool} (ht : ∀ t, test t = true → t.Plain) (k : Complaint) :
    Steady b true (expect test k) (expect test k) := fun c => by
  refine steadyAt_current ?_
  split
  · next hc => exact steadyAt_advance (ht _ hc)
  · exact steady_complain k c

theorem steady_expectSymbol (text : String) :
    Steady b true (expectSymbol text) (expectSymbol text) :=
  steady_expect (fun _ => plain_of_isSymbol) _

theorem steady_expectName (role : NameRole) : Steady b true (expectName role) (expectName role) :=
  (steady_expect (fun t ht => by simp [Token.Plain, of_decide_eq_true ht]) _).bind fun _ =>
    steady_pure _

theorem steady_accept {test : Token → Bool} (ht : ∀ t, test t = true → t.Plain) :
    Steady b b (accept test) (accept test) := fun c => by
  refine steadyAt_current ?_
  split
  · next hc =>
    exact (steadyAt_advance (ht _ hc)).bind fun _ d => (steady_pure true).loosen d
  · exact steady_pure false c

theorem steady_acceptSymbol (text : String) : Steady b b (acceptSymbol text) (acceptSymbol text) :=
  steady_accept fun _ => plain_of_isSymbol

theorem steady_acceptKeyword (word : Keyword) :
    Steady b b (acceptKeyword word) (acceptKeyword word) :=
  steady_accept fun _ => plain_of_isKeyword

/-- Where the second loop always ends, each of its rounds consumes something, as those of the first
one do wherever that has a result. -/
theorem steady_iterate {round round' : α → Parse (ForInStep α)}
    (h : ∀ a, Steady b b (round a) (round' a)) (hends : ∀ a d, iterate round' a d ≠ .endless)
    (a : α) : Steady b b (iterate round a) (iterate round' a) := fun c d hd => by
  induction hn : c.remaining using Nat.strong_induction_on generalizing a c d with
  | _ n ih =>
    have hround := h a c d hd
    have hend := hends a d
    rw [iterate]
    rw [iterate] at hend ⊢
    cases hc : round a c with
    | done step c' =>
      rw [hc] at hround
      obtain ⟨d', hd', hsync⟩ := hround
      rw [hd'] at hend ⊢
      cases step with
      | done x => exact ⟨d', rfl, hsync⟩
      | yield x =>
        dsimp only at hend ⊢
        split
        · next hlt =>
          split at hend
          · next hlt' =>
            rw [if_pos hlt']
            exact ih c'.remaining (hn ▸ hlt) x c' d' hsync rfl
          · exact absurd rfl hend
        · trivial
    | failed e c' =>
      rw [hc] at hround
      obtain ⟨d', hd'⟩ := hround
      rw [hd']
      exact ⟨d', rfl⟩
    | endless => trivial

theorem steady_collect {round round' : Parse (ForInStep (List α))} (h : Steady b b round round')
    (hends : ∀ d, collect round' d ≠ .endless) :
    Steady b b (collect round) (collect round') := fun c d hd => by
  induction hn : c.remaining using Nat.strong_induction_on generalizing c d with
  | _ n ih =>
    have hround := h c d hd
    cases hc : round c with
    | done step c' =>
      rw [hc] at hround
      obtain ⟨d', hd', hsync⟩ := hround
      cases step with
      | done items =>
        rw [collect_of_done hc, collect_of_done hd']
        exact ⟨d', rfl, hsync⟩
      | yield items =>
        by_cases hlt : c'.remaining < c.remaining
        · have hlt' : d'.remaining < d.remaining := by
            by_contra hge
            refine hends d ?_
            rw [collect, hd']
            exact if_neg hge
          rw [collect_of_yield hc hlt, collect_of_yield hd' hlt']
          exact Outcome.Steady.prepend (ih c'.remaining (hn ▸ hlt) c' d' hsync rfl) items
        · rw [collect, hc]
          dsimp only
          rw [if_neg hlt]
          trivial
    | failed e c' =>
      rw [hc] at hround
      obtain ⟨d', hd'⟩ := hround
      rw [collect_of_failed hc, collect_of_failed hd']
      exact ⟨d', rfl⟩
    | endless =>
      rw [collect, hc]
      trivial

theorem steady_commaSeparated {item item' : Parse α} (h : Steady false true item item')
    (hends : ∀ d, Parse.commaSeparated item' d ≠ .endless) :
    Steady false false (commaSeparated item) (commaSeparated item') := by
  refine steady_collect ((steady_atSymbol _).bind fun b => ?_) hends
  cases b with
  | true => exact steady_pure _
  | false =>
    refine h.bind fun a => steady_skip fun _ _ => (steady_acceptSymbol _).bind fun b => ?_
    cases b with
    | true => exact steady_skip fun _ _ => steady_pure _
    | false => exact steady_pure _

end Parse

open Grammar (script)

/-- Readers that do what those of the language do, wherever they have a result. -/
structure Readers.Steady (r : Readers) : Prop where
  typeExpr : ∀ power, Parse.Steady false true (r.typeExpr power) (script.readers.typeExpr power)
  expr : ∀ power, Parse.Steady false true (r.expr power) (script.readers.expr power)
  statement : Parse.Steady false true r.statement script.readers.statement
  moves : r.Moves

namespace Readers.Steady
variable {r : Readers} (h : r.Steady)
include h

theorem typeAfter (symbol : String) :
    Parse.Steady b b (r.typeAfter symbol) (script.readers.typeAfter symbol) := by
  refine (steady_acceptSymbol _).bind fun b => ?_
  cases b with
  | true => exact (h.typeExpr _).loosen.of_loose
  | false => exact steady_pure _

/-- A block reads on from the end of a line as from the last of its blank lines. -/
theorem collect_blockRound :
    Parse.Steady b true (collect r.blockRound) (collect script.readers.blockRound) := by
  intro c d hd
  induction hn : c.remaining using Nat.strong_induction_on generalizing b c d with
  | _ n ih =>
    have hsync := hd.skip
    have hfirst := hsync.current
    have hline : (c.skip .newLine).current.kind ≠ .newLine := c.current_skip_ne (by simp)
    rw [collect_blockRound_skip, collect_blockRound_skip _ d]
    by_cases hend : (c.skip .newLine).current.kind = .endOfInput
    · rw [collect_blockRound_end hend, collect_blockRound_end (hfirst ▸ hend)]
      exact steady_complain _ _ _ hsync
    by_cases hbrace : (c.skip .newLine).current.isSymbol "\x7d" = true
    · rw [collect_blockRound_brace hbrace, collect_blockRound_brace (hfirst ▸ hbrace)]
      exact ⟨_, rfl, hsync.next ⟨hline, hend⟩⟩
    rw [collect_blockRound_statement h.moves hend hbrace hline,
      collect_blockRound_statement Grammar.script_moves (hfirst ▸ hend) (hfirst ▸ hbrace)
        (hfirst ▸ hline)]
    refine steady_bind (h.statement _ _ hsync) fun s c₁ d₁ hs hsync₁ => ?_
    have hfirst₁ := hsync₁.current
    by_cases hline₁ : c₁.current.kind = .newLine
    · have hlt : c₁.remaining < n := by
        have h₁ := h.moves hs
        have h₂ := c.remaining_skip .newLine
        omega
      rw [blockRest_line hline₁, blockRest_line (hfirst₁ ▸ hline₁),
        ← collect_blockRound_line hline₁, ← collect_blockRound_line (hfirst₁ ▸ hline₁)]
      exact (ih _ hlt c₁ d₁ hsync₁ rfl).prepend [s]
    by_cases hbrace₁ : c₁.current.isSymbol "\x7d" = true
    · rw [blockRest_brace hbrace₁, blockRest_brace (hfirst₁ ▸ hbrace₁)]
      exact ⟨_, rfl, hsync₁.next (plain_of_isSymbol hbrace₁)⟩
    · rw [blockRest_other hline₁ hbrace₁, blockRest_other (hfirst₁ ▸ hline₁) (hfirst₁ ▸ hbrace₁)]
      exact steady_complain _ _ _ hsync₁

theorem block : Parse.Steady b true r.block script.readers.block :=
  (steady_expectSymbol _).bind fun _ => h.collect_blockRound.bind fun _ =>
    steady_lastEnd.bind fun _ => steady_pure _

theorem parameters : Parse.Steady b true r.parameters script.readers.parameters := by
  have hparameter : Parse.Steady false true r.parameter script.readers.parameter :=
    (steady_expectName _).bind fun _ => (h.typeAfter _).bind fun _ => steady_pure _
  have hends : ∀ d, Parse.commaSeparated script.readers.parameter d ≠ .endless :=
    ne_endless_of_agree fun n => agree_commaSeparated ((agree_expectName _).bind fun _ =>
      ((Grammar.readers_agree n).typeAfter _).bind fun _ => agree_pure _ rfl)
  exact (steady_expectSymbol _).bind fun _ => steady_skip fun _ _ =>
    (steady_commaSeparated hparameter hends).bind fun _ => (steady_expectSymbol _).bind fun _ =>
      steady_pure _

theorem signature : Parse.Steady b true r.signature script.readers.signature :=
  h.parameters.bind fun _ => (h.typeAfter _).bind fun _ => steady_pure _

theorem exprStart (start : ExprStart) (hc : c.current.Plain) :
    Parse.SteadyAt b true c (start.read r) (start.read script.readers) := by
  cases start with
  | literal =>
    refine steadyAt_current ?_
    cases c.current.kind with
    | number =>
      dsimp only
      cases Double.ofText? c.current.text with
      | some _ => exact (steadyAt_advance hc).bind fun _ => steady_pure _
      | none => exact steady_refuse _ c
    | name | string => exact (steadyAt_advance hc).bind fun _ => steady_pure _
    | symbol | keyword _ | newLine | endOfInput => exact steady_complain _ c
  | prefixed =>
    exact (steadyAt_advance hc).bind fun _ => (h.expr _).of_loose.bind fun _ => steady_pure _
  | grouping =>
    exact (steadyAt_advanceLine hc).bind fun _ => (h.expr _).bind fun _ => steady_skip fun _ _ =>
      (steady_expectSymbol _).bind fun _ => steady_pure _
  | closure =>
    exact (steadyAt_advance hc).bind fun _ => h.signature.bind fun _ => h.block.bind fun _ =>
      steady_lastEnd.bind fun _ => steady_pure _

theorem exprTail (tail : ExprTail) (left : Expr) (power : BindingPower) (hc : c.current.Plain) :
    Parse.SteadyAt b true c (tail.read r left power) (tail.read script.readers left power) := by
  cases tail with
  | assignment | binary =>
    exact (steadyAt_advanceLine hc).bind fun _ => (h.expr _).bind fun _ => steady_pure _
  | call =>
    have hends : ∀ d, Parse.commaSeparated (script.readers.expr .default) d ≠ .endless :=
      ne_endless_of_agree fun n => agree_commaSeparated ((Grammar.readers_agree n).expr _)
    exact (steadyAt_advanceLine hc).bind fun _ => (steady_commaSeparated (h.expr _) hends).bind
      fun _ => (steady_expectSymbol _).bind fun _ => steady_lastEnd.bind fun _ => steady_pure _
  | member =>
    exact (steadyAt_advance hc).bind fun _ => (steady_expectName _).bind fun _ =>
      steady_lastEnd.bind fun _ => steady_pure _

theorem initializer (name : String) :
    Parse.Steady true true (r.initializer name) (script.readers.initializer name) := fun c => by
  refine steadyAt_atSymbol ?_
  by_cases hc : c.current.isSymbol "=" = true
  · rw [hc]
    exact (steadyAt_advanceLine (plain_of_isSymbol hc)).bind fun _ => (h.expr _).bind fun _ =>
      steady_pure _
  · rw [Bool.eq_false_iff.2 hc]
    exact (steady_lastEnd.bind fun _ => steady_pure _) c

theorem elseBlock : Parse.Steady true true r.elseBlock script.readers.elseBlock := by
  refine (steady_acceptKeyword _).bind fun b => ?_
  cases b with
  | true => exact h.block.bind fun _ => steady_pure _
  | false => exact steady_pure _

theorem loopRound : Parse.Steady false false r.loopRound script.readers.loopRound := by
  refine steady_skip fun _ _ => (steady_atSymbol _).bind fun b => ?_
  cases b with
  | true => exact steady_pure _
  | false =>
    refine steady_atToken.bind fun b => ?_
    cases b with
    | true => exact h.statement.loosen.bind fun _ => steady_pure _
    | false => exact steady_pure _

omit h in
theorem loopVariables : Parse.Steady b b Readers.loopVariables Readers.loopVariables := by
  refine (steady_acceptKeyword _).bind fun b => ?_
  cases b with
  | true =>
    refine steady_collect ((steady_expectName _).bind fun _ =>
      (steady_acceptSymbol _).bind fun b => ?_) (ne_endless_of_agree fun n => agree_collect
        ((agree_expectName _).bind fun _ => (agree_acceptSymbol _).bind fun b => ?_))
    · cases b <;> exact (steady_pure _).loosen
    · cases b <;> exact agree_pure _ rfl
  | false => exact steady_pure _

omit h in
theorem superclass : Parse.Steady b b Readers.superclass Readers.superclass := by
  refine (steady_acceptSymbol _).bind fun b => ?_
  cases b with
  | true => exact (steady_expectName _).loosen.bind fun _ => steady_pure _
  | false => exact steady_pure _

theorem statementForm (form : StatementForm) (hany : form ≠ .any) (hc : c.current.Plain) :
    Parse.SteadyAt b true c (form.read r) (form.read script.readers) := by
  cases form with
  | any => exact absurd rfl hany
  | block => exact (h.block.bind fun _ => steady_pure _) c
  | declaration =>
    exact (steadyAt_advance hc).bind fun _ => (steady_expectName _).bind fun _ =>
      (h.typeAfter _).bind fun _ => (h.initializer _).bind fun _ => steady_lastEnd.bind fun _ =>
        steady_pure _
  | conditional =>
    exact (steadyAt_advance hc).bind fun _ => (h.expr _).of_loose.bind fun _ =>
      h.block.bind fun _ => h.elseBlock.bind fun _ => steady_lastEnd.bind fun _ => steady_pure _
  | result =>
    exact (steadyAt_advance hc).bind fun _ => (h.expr _).of_loose.bind fun _ =>
      steady_lastEnd.bind fun _ => steady_pure _
  | loop =>
    have hends : ∀ d, collect script.readers.loopRound d ≠ .endless :=
      ne_endless_of_agree fun n => agree_collect (Grammar.readers_agree n).loopRound
    exact (steadyAt_advance hc).bind fun _ => (h.expr _).of_loose.bind fun _ =>
      (steady_expectSymbol _).bind fun _ => steady_skip fun _ _ => loopVariables.bind fun _ =>
        (steady_collect h.loopRound hends).bind fun _ => (steady_expectSymbol _).bind fun _ =>
          steady_lastEnd.bind fun _ => steady_pure _
  | function =>
    exact (steadyAt_advance hc).bind fun _ => (steady_expectName _).bind fun _ =>
      h.signature.bind fun _ => h.block.bind fun _ => steady_lastEnd.bind fun _ => steady_pure _
  | classDefinition =>
    exact (steadyAt_advance hc).bind fun _ => (steady_expectName _).bind fun _ =>
      superclass.bind fun _ => h.block.bind fun _ => steady_lastEnd.bind fun _ => steady_pure _

end Readers.Steady

namespace Grammar
variable {r : Readers}

/-- No table has an entry for the end of a line or of the input. -/
theorem plain_of_get? {table : Table α} {a : α} (h : table.get? t.key = some a)
    (hline : table.get? "<newline>" = none) (hend : table.get? "<eof>" = none) : t.Plain := by
  constructor <;> intro hk <;> simp [Token.key, hk, hline, hend] at h

theorem plain_of_rule {rule : StatementRule}
    (h : script.rules.find? (·.test t) = some rule) : t.Plain := by
  refine ⟨fun hline => ?_, (script_rule h).1⟩
  have hmem : rule ∈ scriptRules := List.mem_of_find?_eq_some h
  have hpass : rule.test t = true := by simpa using List.find?_some h
  simp only [scriptRules, List.mem_cons, List.not_mem_nil, or_false] at hmem
  rcases hmem with rfl | rfl | rfl | rfl | rfl | rfl | rfl | rfl <;>
    simp [TokenTest.symbol, TokenTest.keyword, Token.isSymbol, Token.isKeyword, hline] at hpass

theorem steady_typeStart (start : TypeStart) : Steady b true start.read start.read := by
  cases start with
  | name =>
    exact (steady_expect (fun t ht => by simp [Token.Plain, of_decide_eq_true ht]) _).bind
      fun _ => steady_pure _

theorem steady_typeTail (tail : TypeTail) (left : TypeExpr) :
    Steady b true (tail.read left) (tail.read left) := by
  cases tail with
  | array =>
    exact (steady_expectSymbol _).bind fun _ => (steady_expectSymbol _).bind fun _ => steady_pure _

theorem steady_typeExpr (power : BindingPower) :
    Steady b true (script.typeExpr power) (script.typeExpr power) := by
  have hround : ∀ left,
      Steady true true (script.typeRound power left) (script.typeRound power left) := fun left => by
    refine steady_current fun t => ?_
    dsimp only
    cases script.typePowers.get? t.key with
    | none => exact steady_pure _
    | some next =>
      dsimp only
      split
      · cases script.typeTails.get? t.key with
        | none => exact steady_complain _
        | some tail => exact (steady_typeTail tail left).bind fun _ => steady_pure _
      · exact steady_pure _
  refine steady_current fun t => ?_
  cases script.typeStarts.get? t.key with
  | none => exact steady_complain _
  | some start =>
    have hends : ∀ a d, iterate (script.typeRound power) a d ≠ .endless := fun a =>
      ne_endless_of_agree fun n => agree_iterate (agree_typeRound power) a
    exact (steady_typeStart start).bind fun a => steady_iterate hround hends a

theorem steady_exprRound (h : r.Steady) (power : BindingPower) (left : Expr) :
    Steady true true (script.exprRound r power left)
      (script.exprRound script.readers power left) := fun c => by
  refine steadyAt_current ?_
  dsimp only
  split
  · cases htail : script.tails.get? c.current.key with
    | none => exact steady_complain _ c
    | some tail =>
      have hc : c.current.Plain := plain_of_get? htail (by decide) (by decide)
      exact (h.exprTail tail left _ hc).bind fun _ => steady_pure _
  · exact steady_pure _ c

theorem steady_exprOver (h : r.Steady) (power : BindingPower) :
    Steady b true (script.exprOver r power) (script.exprOver script.readers power) := fun c => by
  refine steadyAt_current ?_
  cases hstart : script.starts.get? c.current.key with
  | none => exact steady_complain _ c
  | some start =>
    have hc : c.current.Plain := plain_of_get? hstart (by decide) (by decide)
    have hends : ∀ a d, iterate (script.exprRound script.readers power) a d ≠ .endless := fun a =>
      ne_endless_of_agree fun n => agree_iterate (agree_exprRound (readers_agree n) power) a
    exact (h.exprStart start hc).bind fun a => steady_iterate (steady_exprRound h power) hends a

theorem steady_statementOver (h : r.Steady) :
    Steady b true (script.statementOver r) (script.statementOver script.readers) := fun c => by
  refine steadyAt_current ?_
  cases hrule : script.rules.find? (·.test c.current) with
  | none => exact ((h.expr _).of_loose.bind fun _ => steady_pure _) c
  | some rule =>
    exact h.statementForm rule.form (script_rule hrule).2 (plain_of_rule hrule)

/-- A parser with a check in front, which has no result where the check fails. -/
theorem steady_checked {p q : Parse α} (passed : Cursor → Prop) [DecidablePred passed]
    (h : ∀ c, passed c → SteadyAt b b' c p q) :
    Steady b b' (fun c => if passed c then p c else .endless) q := by
  intro c
  by_cases hc : passed c
  · exact (h c hc).congr (if_pos hc)
  · have hendless : (if passed c then p c else .endless) = .endless := if_neg hc
    intro d _
    dsimp only
    rw [hendless]
    trivial

theorem checked_moves (exprs statements : Cursor → Prop) [DecidablePred exprs]
    [DecidablePred statements] : (checked exprs statements).Moves := by
  intro c s d hs
  rw [checked] at hs
  dsimp only at hs
  split at hs
  · exact remaining_statement hs
  · cases hs

/-- The step is from the constructs that have fewer tokens left to the one at hand. -/
private theorem steady_below (n : Nat) : ∀ c : Cursor, c.remaining < n →
    (∀ power, SteadyAt false true c (script.expr power) (script.expr power)) ∧
      SteadyAt false true c script.statement script.statement := by
  induction n with
  | zero => exact fun _ hc => absurd hc (Nat.not_lt_zero _)
  | succ n ih =>
    have hexpr : ∀ c : Cursor, c.remaining < n + 1 → ∀ power,
        SteadyAt false true c (script.expr power) (script.expr power) := by
      intro c hc power
      have hr : (checked (·.remaining < c.remaining) (·.remaining < c.remaining)).Steady :=
        ⟨fun power => steady_typeExpr power,
          fun power => steady_checked _ fun d hd => (ih d (by omega)).1 power,
          steady_checked _ fun d hd => (ih d (by omega)).2, checked_moves _ _⟩
      have hover : SteadyAt false true c (script.expr power)
          (script.exprOver script.readers power) :=
        (steady_exprOver hr power c).congr (Grammar.expr.eq_1 _ _ _)
      rwa [← script_expr] at hover
    refine fun c hc => ⟨hexpr c hc, ?_⟩
    have hr : (checked (·.remaining ≤ c.remaining) (·.remaining < c.remaining)).Steady :=
      ⟨fun power => steady_typeExpr power,
        fun power => steady_checked _ fun d hd => hexpr d (by omega) power,
        steady_checked _ fun d hd => (ih d (by omega)).2, checked_moves _ _⟩
    have hover : SteadyAt false true c script.statement
        (script.statementOver script.readers) :=
      (steady_statementOver hr c).congr (Grammar.statement.eq_1 _ _)
    rwa [← script_statement] at hover

theorem steady_statement : Steady b true script.statement script.statement := fun c =>
  (steady_below (c.remaining + 1) c (Nat.lt_succ_self _)).2.of_loose

theorem steady_programRound :
    Steady b false (collect script.programRound) (collect script.programRound) := fun c d hd => by
  induction hn : c.remaining using Nat.strong_induction_on generalizing b c d with
  | _ n ih =>
    have hsync := hd.skip
    have hfirst := hsync.current
    rw [collect_programRound, collect_programRound d]
    by_cases hend : (c.skip .newLine).current.kind = .endOfInput
    · rw [if_pos hend, if_pos (hfirst ▸ hend)]
      exact ⟨_, rfl, hsync⟩
    rw [if_neg hend, if_neg (hfirst ▸ hend)]
    refine steady_bind (steady_statement _ _ hsync) fun s c₁ d₁ hs hsync₁ => ?_
    have hfirst₁ := hsync₁.current
    by_cases hlast : c₁.current.kind = .endOfInput
    · rw [programRest_end hlast, programRest_end (hfirst₁ ▸ hlast)]
      exact ⟨d₁, rfl, hsync₁.loose⟩
    by_cases hline : c₁.current.kind = .newLine
    · have hlt : c₁.remaining < n := by
        have h₁ := remaining_statement hs
        have h₂ := c.remaining_skip .newLine
        omega
      rw [programRest_line hline, programRest_line (hfirst₁ ▸ hline),
        ← collect_programRound_line hline, ← collect_programRound_line (hfirst₁ ▸ hline)]
      exact (ih _ hlt c₁ d₁ hsync₁ rfl).prepend [s]
    · rw [programRest_other hlast hline, programRest_other (hfirst₁ ▸ hlast) (hfirst₁ ▸ hline)]
      exact steady_complain _ _ _ hsync₁

end Grammar

/-- Some tokens are accepted where others are, with the same statements, and refused where these
are, with the same error. -/
def ParsedAlike (file : String) (ts us : List Token) : Prop :=
  (∀ b stop, parse ts file = .done b stop →
    ∃ b' stop', parse us file = .done b' stop' ∧ b'.statements = b.statements) ∧
  ∀ e stop, parse ts file = .failed e stop → ∃ stop', parse us file = .failed e stop'

theorem parsedAlike_of_steady {file : String}
    (h : (collect script.programRound (Cursor.start ts file)).Steady false
      (collect script.programRound (Cursor.start us file))) : ParsedAlike file ts us := by
  constructor
  · intro b stop hp
    rw [(parse_done_iff.1 hp).1] at h
    obtain ⟨d, hd, -⟩ := h
    exact ⟨⟨b.statements, ⟨0, file⟩, d.lastEnd⟩, d, parse_done_iff.2 ⟨hd, rfl⟩, rfl⟩
  · intro e stop hp
    rw [parse_failed_iff.1 hp] at h
    obtain ⟨d, hd⟩ := h
    exact ⟨d, parse_failed_iff.2 hd⟩

/-- Cursors made from tokens with the same end have it ahead. -/
theorem Cursor.start_finish {last : Token} (hlast : last.kind = .endOfInput) (ts : List Token)
    (file : String) : (start (ts ++ [last]) file).finish = ⟨last.text, last.span⟩ := by
  simp [start, hlast]

/-- Blank lines carry no meaning. With one more end of a line behind one that is there, or with any
number of them in front, the same tokens are accepted, with the same statements down to their spans,
and the others are refused with the same error at the same place. -/
theorem blank_lines_carry_no_meaning {before after lines : List Token} {n n' last : Token}
    (hn : n.kind = .newLine) (hn' : n'.kind = .newLine) (hlines : ∀ t ∈ lines, t.kind = .newLine)
    (hlast : last.kind = .endOfInput) (file : String) :
    ParsedAlike file (before ++ n :: after ++ [last]) (before ++ n :: n' :: after ++ [last]) ∧
    ∀ ts, ParsedAlike file (ts ++ [last]) (lines ++ ts ++ [last]) := by
  have hfinish (us : List Token) := Cursor.start_finish hlast us file
  have hup (us : List Token) := (Cursor.start_closed hlast us file).2.1
  refine ⟨parsedAlike_of_steady ?_, fun ts => parsedAlike_of_steady ?_⟩
  · have hsync : (Cursor.start (before ++ n :: after ++ [last]) file).Synced false
        (Cursor.start (before ++ n :: n' :: after ++ [last]) file) := by
      refine ⟨?_, by rw [hfinish, hfinish], nofun⟩
      rw [hup, hup, squeeze_insert hn hn']
    exact Grammar.steady_programRound _ _ hsync
  · -- In front of the tokens nothing is squeezed, so these lines are passed.
    have hkinds : ∀ t ∈ lines, t.kind ≠ .endOfInput := fun t ht => by simp [hlines t ht]
    obtain ⟨d, hd, hrest⟩ := Cursor.passes_of_upcoming (hup (lines ++ ts)) hkinds
    have hsync : (Cursor.start (ts ++ [last]) file).Synced false d := by
      refine ⟨by rw [hup, hrest], ?_, nofun⟩
      rw [hd.lists.2.2, hfinish, hfinish]
    rw [Grammar.collect_programRound_lines hd hlines]
    exact Grammar.steady_programRound _ _ hsync

/-- Two names on lines of their own, then with an empty line between them. -/
theorem blank_lines_carry_no_meaning_names :
    let span : UInt32 → Span := fun i => ⟨⟨i, "shell"⟩, ⟨i + 1, "shell"⟩⟩
    let a : Token := ⟨.name, "a", span 0⟩
    let b : Token := ⟨.name, "b", span 2⟩
    let line : Token := ⟨.newLine, "\n", span 1⟩
    let last : Token := ⟨.endOfInput, "EOF", span 3⟩
    ∃ p q r stop stop' stop'', parse [a, line, b, last] "shell" = .done p stop ∧
      parse [a, line, line, b, last] "shell" = .done q stop' ∧ q.statements = p.statements ∧
      parse [line, line, a, line, b, last] "shell" = .done r stop'' ∧
        r.statements = p.statements := by
  intro span a b line last
  have hline : line.kind = .newLine := rfl
  have hlines : ∀ t ∈ [line, line], t.kind = .newLine := by simp [hline]
  have hlast : last.kind = .endOfInput := rfl
  obtain ⟨⟨hinsert, -⟩, hfront⟩ :=
    @blank_lines_carry_no_meaning [a] [b] _ _ _ _ hline hline hlines hlast "shell"
  have herror : (parse [a, line, b, last] "shell").error? = none := by decide +kernel
  obtain ⟨p, stop, hp⟩ := parse_accepts herror
  obtain ⟨q, stop', hq, hsame⟩ := hinsert p stop hp
  obtain ⟨r, stop'', hr, hsame'⟩ := (hfront [a, line, b]).1 p stop hp
  exact ⟨p, q, r, stop, stop', stop'', hp, hq, hsame, hr, hsame'⟩

end ScriptSyntax
