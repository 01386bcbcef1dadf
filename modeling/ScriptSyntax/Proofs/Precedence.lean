import Mathlib.Data.List.TakeWhile
import ScriptSyntax.Proofs.Accepting

/-! How operators group. An expression is read from left to right, bound by bound; the tree is that
of a split from the outside in: at the first assignment operator, or else at the last one of the
loosest binary operators. -/
namespace ScriptSyntax

/-- The binary operators by how tightly they bind, the loosest first. -/
def Grammar.precedence : List (List String) :=
  [["&&", "||"], ["<", "<=", ">", ">=", "==", "!="], ["+", "-"], ["*", "/", "%"]]

namespace Token

/-- The level of a binary operator, counted from the loosest. -/
def level? (t : Token) : Option Nat := Grammar.precedence.findIdx? (t.key ∈ ·)

def Assigns (t : Token) : Prop := t.key ∈ Grammar.assignmentOperators

instance (t : Token) : Decidable t.Assigns :=
  inferInstanceAs (Decidable (t.key ∈ Grammar.assignmentOperators))

/-- Whether a token is registered as a binary operator or as an assignment operator. -/
def Operates (t : Token) : Prop :=
  Grammar.script.tails.get? t.key = some .binary ∨
    Grammar.script.tails.get? t.key = some .assignment

/-- How tightly a token binds what stands before it. -/
def power (t : Token) : BindingPower := (Grammar.script.powers.get? t.key).getD .default

end Token

/-- An operand with operators and operands after it as one tree. -/
inductive Groups : Expr → List (Token × Expr) → Expr → Prop
  | operand (e : Expr) : Groups e [] e
  | assignment {first second target value : Expr} {before after : List (Token × Expr)} {t : Token}
    (ht : t.Assigns) (hbefore : ∀ o ∈ before, ¬ o.1.Assigns)
    (left : Groups first before target) (right : Groups second after value) :
    Groups first (before ++ (t, second) :: after)
      (.assignment t.text target value (target.span.to value.span))
  | binary {first second left right : Expr} {before after : List (Token × Expr)} {t : Token}
    {level : Nat} (ht : t.level? = some level)
    (hbefore : ∀ o ∈ before, ∃ other, o.1.level? = some other ∧ level ≤ other)
    (hafter : ∀ o ∈ after, ∃ other, o.1.level? = some other ∧ level < other)
    (hleft : Groups first before left) (hright : Groups second after right) :
    Groups first (before ++ (t, second) :: after)
      (.binary t.text left right (left.span.to right.span))

/-- Operators with operands after them, from one cursor to another. Lines may end after an operator,
and an operand is all that can be read with the bound of the prefix operators. -/
inductive Operands : Cursor → List (Token × Expr) → Cursor → Prop
  | nil (c : Cursor) : Operands c [] c
  | cons {c d stop : Cursor} {e : Expr} {rest : List (Token × Expr)} (ht : c.current.Operates)
    (he : Grammar.script.expr .unary (c.next.skip .newLine) = .done e d)
    (hrest : Operands d rest stop) : Operands c ((c.current, e) :: rest) stop

theorem Table.mem_of_get? {α : Type} {table : Table α} {key : String} {a : α}
    (h : table.get? key = some a) : (key, a) ∈ table.entries := by
  rw [get?, List.lookup_eq_some_iff] at h
  obtain ⟨before, after, hentries, -⟩ := h
  rw [hentries]
  simp

namespace Token
variable {t u : Token} {n : Nat}

theorem level_of_binary (h : Grammar.script.tails.get? t.key = some .binary) :
    ∃ n, t.level? = some n := by
  have hall : ∀ entry ∈ Grammar.script.tails.entries, entry.2 = .binary →
      (Grammar.precedence.findIdx? (entry.1 ∈ ·)).isSome := by decide +kernel
  exact Option.isSome_iff_exists.1 (hall _ (Table.mem_of_get? h) rfl)

/-- The tables give the binary operators the powers of their levels. -/
theorem power_of_level (h : t.level? = some n) : t.power.rank = n + 3 ∧ t.power ≤ .unary := by
  obtain ⟨hlt, hmem, -⟩ := List.findIdx?_eq_some_iff_getElem.1 h
  have hall : ∀ n (h : n < Grammar.precedence.length), ∀ key ∈ Grammar.precedence[n],
      ((Grammar.script.powers.get? key).getD .default).rank = n + 3 ∧
        (Grammar.script.powers.get? key).getD .default ≤ .unary := by decide +kernel
  exact hall n hlt _ (of_decide_eq_true hmem)

theorem assigns_of_tail (h : Grammar.script.tails.get? t.key = some .assignment) : t.Assigns := by
  have hall : ∀ entry ∈ Grammar.script.tails.entries, entry.2 = .assignment →
      entry.1 ∈ Grammar.assignmentOperators := by decide +kernel
  exact hall _ (Table.mem_of_get? h) rfl

theorem power_of_assigns (h : t.Assigns) : t.power = .assignment := by
  have hall : ∀ key ∈ Grammar.assignmentOperators,
      (Grammar.script.powers.get? key).getD .default = .assignment := by decide +kernel
  exact hall _ h

theorem not_assigns (h : t.level? = some n) : ¬ t.Assigns := by
  intro ht
  have hrank := (power_of_level h).1
  rw [power_of_assigns ht, BindingPower.rank] at hrank
  omega

/-- An assignment operator binds more loosely than the binary operators do. -/
theorem Operates.assignment_le (h : t.Operates) : .assignment ≤ t.power := by
  rcases h with hbinary | hassign
  · obtain ⟨n, hn⟩ := level_of_binary hbinary
    have hrank := (power_of_level hn).1
    change 2 ≤ t.power.rank
    omega
  · rw [power_of_assigns (assigns_of_tail hassign)]
    decide

theorem level_le {m : Nat} (ht : t.level? = some m) (hu : u.level? = some n)
    (h : t.power ≤ u.power) : m ≤ n := by
  have hm := (power_of_level ht).1
  have hn := (power_of_level hu).1
  have hrank : t.power.rank ≤ u.power.rank := h
  omega

/-- What binds more tightly than a binary operator is a binary operator of a later level. -/
theorem Operates.level_lt (h : u.Operates) (ht : t.level? = some n) (hlt : t.power < u.power) :
    ∃ m, u.level? = some m ∧ n < m := by
  have hn := (power_of_level ht).1
  have hrank : t.power.rank < u.power.rank := hlt
  rcases h with hbinary | hassign
  · obtain ⟨m, hm⟩ := level_of_binary hbinary
    have hm' := (power_of_level hm).1
    exact ⟨m, hm, by omega⟩
  · rw [power_of_assigns (assigns_of_tail hassign), BindingPower.rank] at hrank
    omega

end Token

/-! There is one way to split. -/

section
variable {α : Type} {xs ys xs' ys' : List α} {a b : α}

/-- Two splits of a list are the same if neither element can stand on the other side. -/
theorem split_unique (h : xs ++ a :: ys = xs' ++ b :: ys') (hleft : a ∈ xs' → b ∉ ys)
    (hright : b ∈ xs → a ∉ ys') : xs = xs' ∧ a = b ∧ ys = ys' := by
  rcases List.append_eq_append_iff.1 h with ⟨mid, rfl, hmid⟩ | ⟨mid, rfl, hmid⟩
  · cases mid with
    | nil =>
      obtain ⟨rfl, rfl⟩ := List.cons.inj hmid
      exact ⟨(List.append_nil _).symm, rfl, rfl⟩
    | cons x mid =>
      obtain ⟨rfl, rfl⟩ := List.cons.inj hmid
      exact absurd (by simp) (hleft (by simp))
  · cases mid with
    | nil =>
      obtain ⟨rfl, rfl⟩ := List.cons.inj hmid
      exact ⟨List.append_nil _, rfl, rfl⟩
    | cons x mid =>
      obtain ⟨rfl, rfl⟩ := List.cons.inj hmid
      exact absurd (by simp) (hright (by simp))

end

namespace Groups
variable {first e e' : Expr} {rest : List (Token × Expr)}

/-- Where a split is at a binary operator, no operator assigns. -/
theorem binary_not_assigns {second : Expr} {before after : List (Token × Expr)} {t : Token}
    {level : Nat} (ht : t.level? = some level)
    (hbefore : ∀ o ∈ before, ∃ other, o.1.level? = some other ∧ level ≤ other)
    (hafter : ∀ o ∈ after, ∃ other, o.1.level? = some other ∧ level < other) :
    ∀ o ∈ before ++ (t, second) :: after, ¬ o.1.Assigns := by
  intro o ho
  rcases List.mem_append.1 ho with ho | ho
  · obtain ⟨n, hn, -⟩ := hbefore o ho
    exact Token.not_assigns hn
  · rcases List.mem_cons.1 ho with rfl | ho
    · exact Token.not_assigns ht
    · obtain ⟨n, hn, -⟩ := hafter o ho
      exact Token.not_assigns hn

/-- Of two binary operators, one cannot be the last of the loosest and the other, further on, be
loose enough for the split as well. -/
theorem level_absurd {t u : Token} {m n : Nat} (ht : t.level? = some m) (hu : u.level? = some n)
    (hle : ∃ k, t.level? = some k ∧ n ≤ k) (hlt : ∃ k, u.level? = some k ∧ m < k) : False := by
  obtain ⟨k, hk, hle⟩ := hle
  obtain ⟨k', hk', hlt⟩ := hlt
  obtain rfl := Option.some.inj (ht.symm.trans hk)
  obtain rfl := Option.some.inj (hu.symm.trans hk')
  omega

/-- There is one way to split. -/
theorem unique (h : Groups first rest e) (h' : Groups first rest e') : e = e' := by
  induction h generalizing e' with
  | operand e =>
    generalize hrest : [] = rest at h'
    cases h' with
    | operand => rfl
    | assignment | binary => simp at hrest
  | @assignment first second target value before after t ht hbefore left right ihl ihr =>
    generalize hrest : before ++ (t, second) :: after = rest at h'
    cases h' with
    | operand => simp at hrest
    | assignment ht' hbefore' left' right' =>
      obtain ⟨rfl, heq, rfl⟩ := split_unique hrest (fun hmem => absurd ht (hbefore' _ hmem))
        fun hmem => absurd ht' (hbefore _ hmem)
      obtain ⟨rfl, rfl⟩ := Prod.mk.inj heq
      rw [ihl left', ihr right']
    | binary hu hbefore' hafter' =>
      have hmem : (t, second) ∈ before ++ (t, second) :: after := by simp
      rw [hrest] at hmem
      exact absurd ht (binary_not_assigns hu hbefore' hafter' _ hmem)
  | @binary first second left right before after t level ht hbefore hafter hleft hright ihl ihr =>
    generalize hrest : before ++ (t, second) :: after = rest at h'
    cases h' with
    | operand => simp at hrest
    | @assignment _ second' _ _ before' after' u hu =>
      have hmem : (u, second') ∈ before' ++ (u, second') :: after' := by simp
      rw [← hrest] at hmem
      exact absurd hu (binary_not_assigns ht hbefore hafter _ hmem)
    | binary hu hbefore' hafter' left' right' =>
      obtain ⟨rfl, heq, rfl⟩ := split_unique hrest
        (fun hmem hmem' => level_absurd ht hu (hbefore' _ hmem) (hafter _ hmem'))
        fun hmem hmem' => level_absurd hu ht (hbefore _ hmem) (hafter' _ hmem')
      obtain ⟨rfl, rfl⟩ := Prod.mk.inj heq
      rw [ihl left', ihr right']

end Groups

namespace Grammar
open Parse
variable {lo hi p : BindingPower} {c d stop : Cursor} {r : Readers} {left : Expr}

/-- What binds tightly enough is read, and the bound has no more to say about it. -/
theorem exprRound_of_lt (hlt : p < c.current.power) :
    script.exprRound r p left c = match script.tails.get? c.current.key with
      | none => complain .strayInExpression c
      | some tail => (tail.read r left c.current.power >>= fun e => pure (.yield e)) c := by
  rw [exprRound, current_bind]
  refine (congrFun (if_pos hlt) c).trans ?_
  cases script.tails.get? c.current.key <;> rfl

/-- Rounds with a tighter bound are the first ones of those with a looser bound. -/
theorem iterate_resume (h : lo ≤ hi) (left : Expr) (c : Cursor) :
    iterate (script.exprRound r lo) left c =
      (iterate (script.exprRound r hi) left >>= iterate (script.exprRound r lo)) c := by
  induction hn : c.remaining using Nat.strong_induction_on generalizing left c with
  | _ n ih =>
    by_cases hlt : hi < c.current.power
    · have hlo : lo < c.current.power := Nat.lt_of_le_of_lt h hlt
      rw [bind_apply, iterate, iterate, exprRound_of_lt hlo, exprRound_of_lt hlt]
      cases script.tails.get? c.current.key with
      | none => rfl
      | some tail =>
        dsimp only
        rw [bind_apply]
        cases tail.read r left c.current.power c with
        | done e d =>
          by_cases hd : d.remaining < c.remaining
          · simp only [pure_apply, if_pos hd]
            exact ih d.remaining (hn ▸ hd) e d rfl
          · simp only [pure_apply, if_neg hd]
        | failed | endless => rfl
    · rw [bind_done _ (iterate_done (exprRound_of_not_lt hlt))]

/-- A looser bound reads an expression as a tighter one does, and then goes on. -/
theorem expr_resume (h : lo ≤ hi) : script.expr lo =
    script.expr hi >>= iterate (script.exprRound script.readers lo) := by
  funext c
  rw [script_expr, script_expr, exprOver, exprOver, bind_assoc, current_bind, current_bind]
  cases script.starts.get? c.current.key with
  | none => rfl
  | some start =>
    dsimp only
    rw [bind_assoc, bind_apply, bind_apply]
    cases start.read script.readers c with
    | done left d => exact iterate_resume h left d
    | failed | endless => rfl

theorem expr_of_operand (h : lo ≤ hi) {e : Expr} (he : script.expr hi c = .done e d) :
    script.expr lo c = iterate (script.exprRound script.readers lo) e d := by
  rw [expr_resume h, bind_done _ he]

theorem remaining_expr {e : Expr} (h : script.expr p c = .done e d) :
    d.remaining < c.remaining := by
  have hend := ((readers_agree (c.remaining + 1)).expr p c (Nat.lt_succ_self _)).2
  rw [show script.readers.expr p c = .done e d from h] at hend
  exact hend

/-- A round over an assignment operator, on to the rounds after it. -/
theorem iterate_assignment {value : Expr}
    (ht : script.tails.get? c.current.key = some .assignment) (hlt : p < c.current.power)
    (hvalue : script.expr .comma (c.next.skip .newLine) = .done value d) :
    iterate (script.exprRound script.readers p) left c =
      iterate (script.exprRound script.readers p)
        (.assignment c.current.text left value (left.span.to value.span)) d := by
  have hread : (Readers.assignment script.readers left) c =
      .done (.assignment c.current.text left value (left.span.to value.span)) d := by
    rw [Readers.assignment, advanceLine]
    simp only [bind_assoc, advance_bind, skip_bind, pure_bind]
    exact bind_done _ hvalue
  refine iterate_yield ?_ (Nat.lt_of_lt_of_le (remaining_expr hvalue)
    (Nat.le_trans (c.next.remaining_skip _) c.remaining_next_le))
  rw [exprRound_of_lt hlt, ht]
  exact bind_done _ hread

theorem iterate_binary {right : Expr} (ht : script.tails.get? c.current.key = some .binary)
    (hlt : p < c.current.power)
    (hright : script.expr c.current.power (c.next.skip .newLine) = .done right d) :
    iterate (script.exprRound script.readers p) left c =
      iterate (script.exprRound script.readers p)
        (.binary c.current.text left right (left.span.to right.span)) d := by
  have hread : (Readers.binary script.readers left c.current.power) c =
      .done (.binary c.current.text left right (left.span.to right.span)) d := by
    rw [Readers.binary, advanceLine]
    simp only [bind_assoc, advance_bind, skip_bind, pure_bind]
    exact bind_done _ hright
  refine iterate_yield ?_ (Nat.lt_of_lt_of_le (remaining_expr hright)
    (Nat.le_trans (c.next.remaining_skip _) c.remaining_next_le))
  rw [exprRound_of_lt hlt, ht]
  exact bind_done _ hread

end Grammar

theorem Operands.operates {c stop : Cursor} {rest : List (Token × Expr)}
    (h : Operands c rest stop) : ∀ o ∈ rest, o.1.Operates := by
  induction h with
  | nil => simp
  | cons ht _ _ ih => exact List.forall_mem_cons.2 ⟨ht, ih⟩

/-- What a tighter bound takes is the beginning of what a looser one takes. -/
theorem takeWhile_tighter {p q : BindingPower} (h : p < q) (rest : List (Token × Expr)) :
    rest.takeWhile (p < ·.1.power) = rest.takeWhile (q < ·.1.power) ++
        (rest.dropWhile (q < ·.1.power)).takeWhile (p < ·.1.power) ∧
      rest.dropWhile (p < ·.1.power) =
        (rest.dropWhile (q < ·.1.power)).dropWhile (p < ·.1.power) := by
  induction rest with
  | nil => simp
  | cons o rest ih =>
    by_cases hq : q < o.1.power
    · have hp : p < o.1.power := Nat.lt_trans h hq
      simp [hp, hq, ih]
    · simp [hq]

namespace Grammar
open Parse
variable {p : BindingPower} {d stop : Cursor} {first left : Expr}
  {before rest : List (Token × Expr)}

/-- What a loop has taken when it meets the rest: binary operators, none of them looser than the
next one. -/
def Settled (before rest : List (Token × Expr)) : Prop :=
  ∀ o ∈ before, (∃ n, o.1.level? = some n) ∧ ∀ next ∈ rest.head?, next.1.power ≤ o.1.power

theorem settled_nil (rest : List (Token × Expr)) : Settled [] rest :=
  fun _ ho => absurd ho List.not_mem_nil

theorem Settled.levels {t : Token} {second : Expr} {n : Nat}
    (h : Settled before ((t, second) :: rest)) (ht : t.level? = some n) :
    ∀ o ∈ before, ∃ m, o.1.level? = some m ∧ n ≤ m := by
  intro o ho
  obtain ⟨⟨m, hm⟩, hle⟩ := h o ho
  exact ⟨m, hm, Token.level_le ht hm (hle (t, second) rfl)⟩

theorem Settled.not_assigns (h : Settled before rest) : ∀ o ∈ before, ¬ o.1.Assigns := by
  intro o ho
  obtain ⟨⟨n, hn⟩, -⟩ := h o ho
  exact Token.not_assigns hn

theorem tighter_of_mem {o : Token × Expr} (ho : o ∈ rest.takeWhile (p < ·.1.power)) :
    o ∈ rest ∧ p < o.1.power :=
  ⟨(List.takeWhile_sublist _).subset ho, by simpa using List.mem_takeWhile_imp ho⟩

/-- A binary operator takes the tighter ones after it with it, and is settled together with them. -/
theorem Settled.binary {t : Token} {second : Expr} {n : Nat}
    (h : Settled before ((t, second) :: rest)) (ht : t.level? = some n)
    (hrest : ∀ o ∈ rest, o.1.Operates) :
    Settled (before ++ (t, second) :: rest.takeWhile (t.power < ·.1.power))
      (rest.dropWhile (t.power < ·.1.power)) := by
  have hloose : ∀ next ∈ (rest.dropWhile (t.power < ·.1.power)).head?, next.1.power ≤ t.power := by
    intro next hnext
    have hnot :=
      List.head?_dropWhile_not (fun o : Token × Expr => decide (t.power < o.1.power)) rest
    rw [Option.mem_def.1 hnext] at hnot
    exact BindingPower.not_lt.1 (of_decide_eq_false hnot)
  intro o ho
  rcases List.mem_append.1 ho with ho | ho
  · obtain ⟨hlevel, hle⟩ := h o ho
    exact ⟨hlevel, fun next hnext => BindingPower.le_trans (hloose next hnext) (hle _ rfl)⟩
  · rcases List.mem_cons.1 ho with rfl | ho
    · exact ⟨⟨n, ht⟩, hloose⟩
    · obtain ⟨hmem, hlt⟩ := tighter_of_mem ho
      obtain ⟨m, hm, -⟩ := (hrest o hmem).level_lt ht hlt
      exact ⟨⟨m, hm⟩, fun next hnext =>
        BindingPower.le_trans (hloose next hnext) (Nat.le_of_lt hlt)⟩

/-- The rounds of a bound take the operators up to the first one that is too loose, and what they
make groups them with those that were taken before. -/
theorem iterate_operands (p : BindingPower) (hleft : Groups first before left)
    (hrest : Operands d rest stop) (hstop : stop.current.power = .default)
    (hbefore : Settled before rest) :
    ∃ e d', iterate (script.exprRound script.readers p) left d = .done e d' ∧
      Groups first (before ++ rest.takeWhile (p < ·.1.power)) e ∧
      Operands d' (rest.dropWhile (p < ·.1.power)) stop := by
  induction hn : rest.length using Nat.strong_induction_on
    generalizing p first before left rest d with
  | _ n ih =>
    have hend (q : BindingPower) (e : Expr) :
        iterate (script.exprRound script.readers q) e stop = .done e stop := by
      refine iterate_done (exprRound_of_not_lt ?_)
      change ¬ q < stop.current.power
      rw [hstop]
      exact Nat.not_lt_zero _
    cases hrest with
    | nil => exact ⟨left, stop, hend p left, by simpa using hleft, .nil stop⟩
    | @cons d d₁ _ second rest ht he hrest =>
      by_cases hlt : p < d.current.power
      · have hlength : rest.length < n := hn ▸ Nat.lt_succ_self _
        rcases ht with hbinary | hassign
        · obtain ⟨level, hlevel⟩ := Token.level_of_binary hbinary
          obtain ⟨right, d₂, hiter, hright, hmore⟩ :=
            ih _ hlength d.current.power (.operand second) hrest (settled_nil rest) rfl
          rw [← expr_of_operand (Token.power_of_level hlevel).2 he] at hiter
          have hafter : ∀ o ∈ rest.takeWhile (d.current.power < ·.1.power),
              ∃ m, o.1.level? = some m ∧ level < m := fun o ho =>
            (hrest.operates o (tighter_of_mem ho).1).level_lt hlevel (tighter_of_mem ho).2
          have hgroups := Groups.binary hlevel (hbefore.levels hlevel) hafter hleft hright
          have hshorter : (rest.dropWhile (d.current.power < ·.1.power)).length ≤ rest.length :=
            (List.dropWhile_sublist _).length_le
          obtain ⟨e, d₃, hiter', he', hmore'⟩ := ih _ (Nat.lt_of_le_of_lt hshorter hlength) p
            hgroups hmore (hbefore.binary hlevel hrest.operates) rfl
          obtain ⟨htake, hdrop⟩ := takeWhile_tighter hlt rest
          refine ⟨e, d₃, (iterate_binary hbinary hlt hiter).trans hiter', ?_, ?_⟩
          · simpa [hlt, htake] using he'
          · simpa [hlt, hdrop] using hmore'
        · have hassigns := Token.assigns_of_tail hassign
          have hall (q : BindingPower) (hq : q < .assignment) :
              ∀ o ∈ rest, decide (q < o.1.power) = true := fun o ho =>
            decide_eq_true (BindingPower.lt_of_lt_of_le hq (hrest.operates o ho).assignment_le)
          obtain ⟨value, d₂, hiter, hvalue, hmore⟩ :=
            ih _ hlength .comma (.operand second) hrest (settled_nil rest) rfl
          rw [List.takeWhile_eq_self_iff.2 (hall .comma (by decide))] at hvalue
          rw [List.dropWhile_eq_nil_iff.2 (hall .comma (by decide))] at hmore
          rw [← expr_of_operand (by decide) he] at hiter
          cases hmore
          have hp := hall p (Token.power_of_assigns hassigns ▸ hlt)
          have hgroups := Groups.assignment hassigns hbefore.not_assigns hleft hvalue
          refine ⟨_, stop, (iterate_assignment hassign hlt hiter).trans (hend p _), ?_, ?_⟩
          · simpa [hlt, List.takeWhile_eq_self_iff.2 hp] using hgroups
          · simpa [hlt, List.dropWhile_eq_nil_iff.2 hp] using Operands.nil stop
      · refine ⟨left, d, iterate_done (exprRound_of_not_lt hlt), ?_, ?_⟩
        · simpa [hlt] using hleft
        · simpa [hlt] using Operands.cons ht he hrest

/-- Operands with operators between them are read as a whole up to a token that binds nothing, and
the tree is the one that groups them. -/
theorem expr_groups {c : Cursor} (hfirst : script.expr .unary c = .done first d)
    (hrest : Operands d rest stop) (hstop : script.powers.get? stop.current.key = none) :
    ∃ e, script.expr .default c = .done e stop ∧ ∀ tree, Groups first rest tree ↔ tree = e := by
  have hnone : stop.current.power = .default := by rw [Token.power, hstop, Option.getD_none]
  obtain ⟨e, d', hiter, he, hmore⟩ :=
    iterate_operands .default (.operand first) hrest hnone (settled_nil rest)
  have hall : ∀ o ∈ rest, decide (BindingPower.default < o.1.power) = true := fun o ho =>
    decide_eq_true (BindingPower.lt_of_lt_of_le (by decide) (hrest.operates o ho).assignment_le)
  rw [List.takeWhile_eq_self_iff.2 hall] at he
  rw [List.dropWhile_eq_nil_iff.2 hall] at hmore
  cases hmore
  refine ⟨e, (expr_of_operand (by decide) hfirst).trans hiter,
    fun tree => ⟨fun h => h.unique he, ?_⟩⟩
  rintro rfl
  exact he

/-- A name that no tighter tail follows is an operand. -/
theorem expr_name {c : Cursor} (hc : c.current.kind = .name) (hp : ¬ p < c.next.current.power) :
    script.expr p c = .done (.name c.current.text c.current.span) c.next := by
  have hkey : c.current.key = "<identifier>" := by simp only [Token.key, hc]
  have hread : Parse.literal c = .done (.name c.current.text c.current.span) c.next := by
    rw [Parse.literal, current_bind, hc]
    rfl
  rw [script_expr, exprOver, current_bind, hkey,
    show script.starts.get? "<identifier>" = some .literal by decide +kernel]
  exact (bind_done _ hread).trans (iterate_done (exprRound_of_not_lt hp))

/-- A sum with a product in it is assigned what stands on the next line. -/
theorem expr_groups_assignment :
    let span (i j : UInt32) : Span := ⟨⟨i, "shell"⟩, ⟨j, "shell"⟩⟩
    let name (x : String) (i : UInt32) : Token := ⟨.name, x, span i (i + 1)⟩
    let symbol (x : String) (i : UInt32) : Token := ⟨.symbol, x, span i (i + 1)⟩
    let c := Cursor.start [name "a" 0, symbol "+" 1, name "b" 2, symbol "*" 3, name "c" 4,
      symbol "=" 5, ⟨.newLine, "\n", span 6 7⟩, name "d" 7] "shell"
    ∃ stop, stop.current.kind = .endOfInput ∧ script.expr .default c = .done
      (.assignment "="
        (.binary "+" (.name "a" (span 0 1))
          (.binary "*" (.name "b" (span 2 3)) (.name "c" (span 4 5)) (span 2 5)) (span 0 5))
        (.name "d" (span 7 8)) (span 0 8)) stop := by
  intro span name symbol c
  have hrest : Operands c.next _ _ :=
    .cons (.inl (by decide +kernel)) (expr_name rfl (by decide +kernel))
      (.cons (.inl (by decide +kernel)) (expr_name rfl (by decide +kernel))
        (.cons (.inr (by decide +kernel)) (expr_name rfl (by decide +kernel)) (.nil _)))
  obtain ⟨e, he, htree⟩ := expr_groups (expr_name rfl (by decide +kernel)) hrest (by decide +kernel)
  have htimes : (symbol "*" 3).level? = some 3 := by decide +kernel
  have hplus : (symbol "+" 1).level? = some 2 := by decide +kernel
  have hproduct : Groups (.name "b" (span 2 3)) ([] ++ [(symbol "*" 3, .name "c" (span 4 5))]) _ :=
    .binary htimes (by simp) (by simp) (.operand _) (.operand _)
  have hsum : Groups (.name "a" (span 0 1)) ([] ++ (symbol "+" 1, .name "b" (span 2 3)) ::
      [(symbol "*" 3, .name "c" (span 4 5))]) _ :=
    .binary hplus (by simp) (List.forall_mem_singleton.2 ⟨3, htimes, by decide⟩) (.operand _)
      hproduct
  have hall : Groups (.name "a" (span 0 1)) ([(symbol "+" 1, .name "b" (span 2 3)),
      (symbol "*" 3, .name "c" (span 4 5))] ++ [(symbol "=" 5, .name "d" (span 7 8))]) _ :=
    .assignment (by decide +kernel) (by decide +kernel) hsum (.operand _)
  obtain rfl := (htree _).1 hall
  exact ⟨_, rfl, he⟩

end Grammar
end ScriptSyntax
