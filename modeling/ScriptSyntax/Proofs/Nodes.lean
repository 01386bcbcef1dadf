import Mathlib.Order.Nat
import ScriptSyntax.Tree

/-! The nodes of a tree, with the nodes below each one, and spans that lie one behind the other. -/
namespace ScriptSyntax

/-- A node of a tree. -/
inductive Node where
  | expr (e : Expr)
  | statement (s : Statement)
  | block (b : Block)

namespace Node

def span : Node → Span
  | expr e => e.span
  | statement s => s.span
  | block b => b.span

/-- The nodes right below a node, in the order of the source. -/
def children : Node → List Node
  | expr (.binary _ left right _) => [expr left, expr right]
  | expr (.prefixed _ operand _) => [expr operand]
  | expr (.assignment _ target value _) => [expr target, expr value]
  | expr (.call callee arguments _) => expr callee :: arguments.map expr
  | expr (.member object _ _) => [expr object]
  | expr (.closure _ _ body _) => [block body]
  | expr (.number ..) | expr (.string ..) | expr (.name ..) | expr (.unassigned _) => []
  | statement (.expression value _) | statement (.result value _)
  | statement (.declaration _ _ _ value _) => [expr value]
  | statement (.conditional condition thenBody elseBody _) =>
    expr condition :: block thenBody :: elseBody.toList.map block
  | statement (.loop iterable _ body _) => [expr iterable, block body]
  | statement (.block body) | statement (.function _ _ body _)
  | statement (.classDefinition _ _ body _) => [block body]
  | block body => body.statements.map statement

/-- One node is another one or stands somewhere below it. -/
inductive Within : Node → Node → Prop where
  | refl (n : Node) : Within n n
  | child {m c n : Node} (hc : c ∈ n.children) (h : Within m c) : Within m n

/-- The name that is bound to a closure is no part of what its node is made of. -/
theorem children_named (name : String) (e : Expr) :
    (expr (e.named name)).children = (expr e).children := by
  cases e <;> rfl

end Node

theorem Expr.span_named (name : String) (e : Expr) : (e.named name).span = e.span := by
  cases e <;> rfl

/-- Spans one behind the other between two offsets. None of them ends before it begins. -/
def Along : Nat → List Span → Nat → Prop
  | lo, [], hi => lo ≤ hi
  | lo, s :: ss, hi => lo ≤ s.start.offset.toNat ∧ s.start.offset.toNat ≤ s.stop.offset.toNat ∧
      Along s.stop.offset.toNat ss hi

namespace Along
variable {lo lo' hi hi' : Nat} {s first last : Span} {ss ss' between : List Span}

theorem le (h : Along lo ss hi) : lo ≤ hi := by
  induction ss generalizing lo with
  | nil => exact h
  | cons s ss ih =>
    obtain ⟨hlo, hs, h⟩ := h
    exact hlo.trans (hs.trans (ih h))

theorem mono (h : Along lo ss hi) (hlo : lo' ≤ lo) (hhi : hi ≤ hi') : Along lo' ss hi' := by
  induction ss generalizing lo lo' with
  | nil => exact hlo.trans (Nat.le_trans h hhi)
  | cons s ss ih => exact ⟨hlo.trans h.1, h.2.1, ih h.2.2 (Nat.le_refl _)⟩

theorem append_iff : Along lo (ss ++ ss') hi ↔ ∃ mid, Along lo ss mid ∧ Along mid ss' hi := by
  induction ss generalizing lo with
  | nil => exact ⟨fun h => ⟨lo, Nat.le_refl lo, h⟩, fun ⟨_, hlo, h⟩ => h.mono hlo (Nat.le_refl hi)⟩
  | cons s ss ih =>
    simp only [List.cons_append, Along, ih]
    constructor
    · rintro ⟨hlo, hs, mid, h, h'⟩
      exact ⟨mid, ⟨hlo, hs, h⟩, h'⟩
    · rintro ⟨mid, ⟨hlo, hs, h⟩, h'⟩
      exact ⟨hlo, hs, mid, h, h'⟩

theorem sublist (h : Along lo ss hi) (hsub : List.Sublist ss' ss) : Along lo ss' hi := by
  induction hsub generalizing lo with
  | slnil => exact h
  | cons s _ ih => exact ih (h.2.2.mono (h.1.trans h.2.1) (Nat.le_refl hi))
  | cons_cons s _ ih => exact ⟨h.1, h.2.1, ih h.2.2⟩

theorem mem (h : Along lo ss hi) (hs : s ∈ ss) : lo ≤ s.start.offset.toNat ∧
    s.start.offset.toNat ≤ s.stop.offset.toNat ∧ s.stop.offset.toNat ≤ hi := by
  obtain ⟨hlo, hs, hhi⟩ : Along lo [s] hi := h.sublist (List.singleton_sublist.2 hs)
  exact ⟨hlo, hs, hhi⟩

theorem pairwise (h : Along lo ss hi) :
    ss.Pairwise fun s s' => s.stop.offset.toNat ≤ s'.start.offset.toNat := by
  induction ss generalizing lo with
  | nil => exact .nil
  | cons s ss ih => exact List.pairwise_cons.2 ⟨fun s' hs' => (h.2.2.mem hs').1, ih h.2.2⟩

/-- The spans from one to another one behind it can be taken together. -/
theorem enclose (h : Along lo (ss ++ first :: (between ++ [last])) hi) :
    Along lo (ss ++ [first.to last]) hi ∧
      Along first.start.offset.toNat (first :: (between ++ [last])) last.stop.offset.toNat := by
  obtain ⟨mid, hss, hlo, hfirst, hrest⟩ := append_iff.1 h
  obtain ⟨mid', hbetween, hmid', hlast, hhi⟩ := append_iff.1 hrest
  refine ⟨append_iff.2 ⟨mid, hss, hlo, ?_, hhi⟩, Nat.le_refl _, hfirst, append_iff.2 ⟨mid', ?_⟩⟩
  · exact hfirst.trans (hbetween.le.trans (hmid'.trans hlast))
  · exact ⟨hbetween, hmid', hlast, Nat.le_refl _⟩

end Along
end ScriptSyntax
