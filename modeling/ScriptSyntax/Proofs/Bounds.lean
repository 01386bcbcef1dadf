import ScriptSyntax.Proofs.Precedence
import ScriptSyntax.Proofs.Tables

/-! Looser and tighter bounds. A looser bound reads an expression as a tighter one does and then
goes on, tail by tail, from where that one stopped. -/
namespace ScriptSyntax

/-- Going on with an expression: while the current token binds more tightly than a bound, its tail
takes the place of what stands before it. The tail is read with the token's own power. -/
inductive ReadsOn (bound : BindingPower) : Expr → Cursor → Outcome Expr → Prop
  | stop {e : Expr} {c : Cursor} (h : ¬ bound < c.current.power) : ReadsOn bound e c (.done e c)
  | tail {left e : Expr} {c d : Cursor} {tail : ExprTail} {o : Outcome Expr}
    (hlt : bound < c.current.power) (ht : Grammar.script.tails.get? c.current.key = some tail)
    (hread : tail.read Grammar.script.readers left c.current.power c = .done e d)
    (hrest : ReadsOn bound e d o) : ReadsOn bound left c o
  | failed {left : Expr} {c stop : Cursor} {tail : ExprTail} {e : Error}
    (hlt : bound < c.current.power) (ht : Grammar.script.tails.get? c.current.key = some tail)
    (hread : tail.read Grammar.script.readers left c.current.power c = .failed e stop) :
    ReadsOn bound left c (.failed e stop)

/-- A token that binds more tightly than anything has a tail. -/
theorem Token.exists_tail {t : Token} {bound : BindingPower} (h : bound < t.power) :
    ∃ tail, Grammar.script.tails.get? t.key = some tail := by
  refine Grammar.inStep_script.exists_tail fun hnone => ?_
  rw [power, hnone] at h
  exact Nat.not_lt_zero _ h

/-- Where going on ends, nothing binds more tightly than the bound. -/
theorem ReadsOn.not_lt {bound : BindingPower} {left e : Expr} {c d : Cursor} {o : Outcome Expr}
    (h : ReadsOn bound left c o) (ho : o = .done e d) : ¬ bound < d.current.power := by
  induction h with
  | stop hstop =>
    cases ho
    exact hstop
  | tail _ _ _ _ ih => exact ih ho
  | failed => cases ho

namespace Grammar
open Parse
variable {lo hi bound : BindingPower} {c d stop q : Cursor} {e left : Expr} {o : Outcome Expr}
  {tail : ExprTail}

/-- A tail consumes its first token at least, and it always has an end. -/
theorem tail_ends (tail : ExprTail) (left : Expr) (power : BindingPower) (c : Cursor) :
    (tail.read script.readers left power c).Ends c fun _ => 1 :=
  ((readers_agree (c.next.remaining + 1)).exprTail tail left power (Nat.lt_succ_self _)).2

/-- A round over a tail that can be read, on to the rounds after it. -/
theorem iterate_tail (hlt : bound < c.current.power)
    (ht : script.tails.get? c.current.key = some tail)
    (hread : tail.read script.readers left c.current.power c = .done e d) :
    iterate (script.exprRound script.readers bound) left c =
      iterate (script.exprRound script.readers bound) e d := by
  have hend := tail_ends tail left c.current.power c
  rw [hread] at hend
  refine iterate_yield ?_ hend
  rw [exprRound_of_lt hlt, ht]
  exact bind_done _ hread

theorem iterate_tail_failed {f : Error} (hlt : bound < c.current.power)
    (ht : script.tails.get? c.current.key = some tail)
    (hread : tail.read script.readers left c.current.power c = .failed f stop) :
    iterate (script.exprRound script.readers bound) left c = .failed f stop := by
  rw [iterate, exprRound_of_lt hlt, ht]
  dsimp only
  rw [bind_failed _ hread]

theorem iterate_of_readsOn (h : ReadsOn bound left c o) :
    iterate (script.exprRound script.readers bound) left c = o := by
  induction h with
  | stop hstop => exact iterate_done (exprRound_of_not_lt hstop)
  | tail hlt ht hread _ ih => exact (iterate_tail hlt ht hread).trans ih
  | failed hlt ht hread => exact iterate_tail_failed hlt ht hread

/-- However many tails there are, one can go on up to an end: each consumes a token. -/
theorem exists_readsOn (bound : BindingPower) (left : Expr) (c : Cursor) :
    ∃ o, ReadsOn bound left c o := by
  induction hn : c.remaining using Nat.strong_induction_on generalizing left c with
  | _ n ih =>
    by_cases hlt : bound < c.current.power
    · obtain ⟨tail, ht⟩ := Token.exists_tail hlt
      have hend := tail_ends tail left c.current.power c
      cases hread : tail.read script.readers left c.current.power c with
      | done e d =>
        rw [hread] at hend
        obtain ⟨o, hrest⟩ := ih d.remaining (hn ▸ hend) e d rfl
        exact ⟨o, .tail hlt ht hread hrest⟩
      | failed f stop => exact ⟨_, .failed hlt ht hread⟩
      | endless =>
        rw [hread] at hend
        exact hend.elim
    · exact ⟨_, .stop hlt⟩

/-- The rounds over an expression are one way to go on with it, and the only one. -/
theorem readsOn_iff :
    ReadsOn bound left c o ↔ iterate (script.exprRound script.readers bound) left c = o := by
  refine ⟨iterate_of_readsOn, fun h => ?_⟩
  obtain ⟨o', ho'⟩ := exists_readsOn bound left c
  rwa [← h, iterate_of_readsOn ho']

/-- What a bound reads, it stops at. -/
theorem power_le_of_expr (h : script.expr hi c = .done e q) {power : BindingPower}
    (hq : script.powers.get? q.current.key = some power) : power ≤ hi := by
  have hreads : ReadsOn hi e q (.done e q) :=
    readsOn_iff.2 ((expr_of_operand (Nat.le_refl _) h).symm.trans h)
  have hstop := hreads.not_lt rfl
  rw [Token.power, hq] at hstop
  exact Nat.le_of_not_lt hstop

/-- A looser bound only reads on where a tighter one stops. Where the tighter one fails, the looser
one fails in the same way. Where it ends, no token that binds more tightly follows, and the looser
one goes on from there with what was read. The tighter one always ends or fails. -/
theorem expr_looser (h : lo ≤ hi) (c : Cursor) :
    match script.expr hi c with
    | .done e q =>
      (∀ power, script.powers.get? q.current.key = some power → power ≤ hi) ∧
      ∀ o, ReadsOn lo e q o ↔ script.expr lo c = o
    | .failed e stop => script.expr lo c = .failed e stop
    | .endless => False := by
  have hend := ((readers_agree (c.remaining + 1)).expr hi c (Nat.lt_succ_self _)).2
  cases hread : script.expr hi c with
  | done e q =>
    refine ⟨fun _ hq => power_le_of_expr hread hq, fun o => ?_⟩
    rw [expr_of_operand h hread]
    exact readsOn_iff
  | failed f stop =>
    dsimp only
    rw [expr_resume h, bind_failed _ hread]
  | endless =>
    rw [show script.readers.expr hi c = .endless from hread] at hend
    exact hend

/-- With the bound of the sums, a product is read up to the `+`. The bound of a statement goes on
with the sum, whose right operand is read with the power of the `+`. -/
theorem expr_looser_sum :
    let span (i j : UInt32) : Span := ⟨⟨i, "shell"⟩, ⟨j, "shell"⟩⟩
    let name (x : String) (i : UInt32) : Token := ⟨.name, x, span i (i + 1)⟩
    let symbol (x : String) (i : UInt32) : Token := ⟨.symbol, x, span i (i + 1)⟩
    let c := Cursor.start [name "a" 0, symbol "*" 1, name "b" 2, symbol "+" 3, name "c" 4] "shell"
    let product := Expr.binary "*" (.name "a" (span 0 1)) (.name "b" (span 2 3)) (span 0 3)
    BindingPower.default ≤ .additive ∧
    ∃ q stop, script.expr .additive c = .done product q ∧ q.current.text = "+" ∧
      script.expr .default c = .done (.binary "+" product (.name "c" (span 4 5)) (span 0 5)) stop ∧
      stop.current.kind = .endOfInput := by
  intro span name symbol c product
  have hproduct : script.expr .additive c = .done product c.next.next.next :=
    (expr_of_operand (by decide : BindingPower.additive ≤ .multiplicative)
      (expr_name rfl (by decide +kernel))).trans
      ((iterate_binary (by decide +kernel) (by decide +kernel)
        (expr_name rfl (by decide +kernel))).trans
        (iterate_done (exprRound_of_not_lt (by decide +kernel))))
  have hplus : ExprTail.binary.read script.readers product .additive c.next.next.next =
      .done (.binary "+" product (.name "c" (span 4 5)) (span 0 5)) c.next.next.next.next.next :=
    bind_done _ (expr_name rfl (by decide +kernel))
  have hlooser := expr_looser (by decide : BindingPower.default ≤ .additive) c
  rw [hproduct] at hlooser
  exact ⟨by decide, _, _, hproduct, rfl, (hlooser.2 _).1
    (.tail (by decide +kernel) (by decide +kernel) hplus (.stop (by decide +kernel))), rfl⟩

end Grammar
end ScriptSyntax
