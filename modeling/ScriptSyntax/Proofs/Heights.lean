import ScriptSyntax.Proofs.Formation
import ScriptSyntax.Proofs.Joining
import ScriptSyntax.Proofs.Rendering

/-! How deep the lists of a rendered tree are in each other. Each list has a token of its own, so
that the depth of a statement is bounded by the size of its source. -/
namespace ScriptSyntax
open Text
variable {ws : List Terminal} {s : Shape} {ss ts : List Shape} {n : Nat}

mutual
/-- How many lists are in each other in a part. -/
def Shape.height : Shape → Nat
  | .word _ | .quoted _ | .names _ => 0
  | .node _ items => heights items + 1
def heights : List Shape → Nat
  | [] => 0
  | s :: ss => max s.height (heights ss)
end

theorem height_le_heights (h : s ∈ ss) : s.height ≤ heights ss := by
  induction ss with
  | nil => cases h
  | cons t ss ih =>
    rw [heights]
    rcases List.mem_cons.1 h with rfl | h
    · exact Nat.le_max_left _ _
    · exact (ih h).trans (Nat.le_max_right _ _)

theorem heights_le (h : ∀ s ∈ ss, s.height ≤ n) : heights ss ≤ n := by
  induction ss with
  | nil => exact Nat.zero_le n
  | cons s ss ih =>
    obtain ⟨hs, hss⟩ := List.forall_mem_cons.1 h
    exact Nat.max_le.2 ⟨hs, ih hss⟩

theorem heights_append : heights (ss ++ ts) = max (heights ss) (heights ts) := by
  induction ss with
  | nil => exact (Nat.zero_max _).symm
  | cons s ss ih => rw [List.cons_append, heights, heights, ih, Nat.max_assoc]

theorem exprShapes_eq (es : List Expr) : exprShapes es = es.map Expr.shape := by
  induction es with
  | nil => rfl
  | cons e es ih => rw [exprShapes, ih, List.map_cons]

theorem statementShapes_eq (ss : List Statement) : statementShapes ss = ss.map Statement.shape := by
  induction ss with
  | nil => rfl
  | cons s ss ih => rw [statementShapes, ih, List.map_cons]

theorem Expr.height_named (x : String) (e : Expr) :
    (e.named x).shape.height = e.shape.height := by
  cases e <;> rfl

theorem Signature.heights_shapes_le (s : Signature) : heights s.shapes ≤ 1 := by
  have hparameters : heights (s.parameters.map Parameter.shape) ≤ 0 :=
    heights_le (List.forall_mem_map.2 fun _ _ => Nat.le_refl 0)
  simp only [shapes, heights, Shape.height]
  omega

theorem SignatureText.length_pos {s : Signature} (h : SignatureText s ws) : 0 < ws.length := by
  cases h with
  | intro _ hlayout _ =>
    cases hlayout
    exact Nat.succ_pos _

/-! Trees are no higher than they are long. -/

def Phrase.shape : Phrase → Shape
  | expr _ value => value.shape
  | block body => body.shape
  | statement value => value.shape

/-- Pieces of a layout that are no higher than they are long make up no higher a list. -/
theorem heights_pieces_le {α : Type} {items : List (α × List Terminal)} {shape : α → Shape}
    (h : ∀ i ∈ items, (shape i.1).height ≤ i.2.length) (hws : ∀ i ∈ items, i.2 <:+: ws) :
    heights ((items.map (·.1)).map shape) ≤ ws.length := by
  refine heights_le (List.forall_mem_map.2 (List.forall_mem_map.2 fun i hi => ?_))
  exact (h i hi).trans (hws i hi).length_le

/-- Each list of a tree has a word of its own. -/
theorem Derives.height_le {fits : Statement → List Terminal → Prop} {p : Phrase}
    (h : Derives fits p ws) : p.shape.height ≤ ws.length := by
  induction h with
  | number | string | name => exact Nat.zero_le _
  | grouping _ _ _ ih =>
    simp only [Phrase.shape, List.length_cons, List.length_append] at ih ⊢
    omega
  | @closure s _ _ _ _ hsig _ ih =>
    have hlength := hsig.length_pos
    have hshapes := s.heights_shapes_le
    simp only [Phrase.shape, Expr.shape, Shape.height, heights, heights_append, List.length_cons,
      List.length_append] at ih ⊢
    omega
  | @call _ items _ vs _ hcallee _ hlayout ih iha =>
    have harguments : heights (exprShapes (items.map (·.1))) ≤ vs.length := by
      rw [exprShapes_eq]
      exact heights_pieces_le iha fun i hi => hlayout.isInfix (List.mem_map_of_mem hi)
    have hlength : 0 < vs.length := by
      cases hlayout
      exact Nat.succ_pos _
    obtain ⟨_, _, rfl, -⟩ := hcallee.begins
    simp only [Phrase.shape, Expr.shape, Shape.height, heights, List.length_cons,
      List.length_append] at ih ⊢
    omega
  | member _ _ _ ih | prefixed _ _ _ ih =>
    simp only [Phrase.shape, Expr.shape, Shape.height, heights, List.length_cons,
      List.length_append, List.length_nil] at ih ⊢
    omega
  | binary _ _ _ _ _ _ ihl ihr | assignment _ _ _ _ _ ihl ihr =>
    simp only [Phrase.shape, Expr.shape, Shape.height, heights, List.length_cons,
      List.length_append] at ihl ihr ⊢
    omega
  | tighter _ _ ih | nested _ ih | expression _ _ _ ih => exact ih
  | @block items us _ _ hlayout ih =>
    have hitems : heights (statementShapes (items.map (·.1))) ≤ us.length := by
      rw [statementShapes_eq]
      exact heights_pieces_le ih fun i hi => hlayout.isInfix (List.mem_map_of_mem hi)
    simp only [Phrase.shape, Block.shape, Shape.height, heights, List.length_cons,
      List.length_append]
    omega
  | conditional _ _ _ ihc ihb =>
    simp only [Phrase.shape, Statement.shape, elseShapes, Shape.height, heights, List.length_cons,
      List.length_append] at ihc ihb ⊢
    omega
  | alternative _ _ _ _ ihc ihb ihe =>
    simp only [Phrase.shape, Statement.shape, elseShapes, Shape.height, heights, List.length_cons,
      List.length_append] at ihc ihb ihe ⊢
    omega
  | @function s _ _ _ _ _ hsig _ ih =>
    have hlength := hsig.length_pos
    have hshapes := s.heights_shapes_le
    simp only [Phrase.shape, Statement.shape, Shape.height, heights, heights_append,
      List.length_cons, List.length_append] at ih ⊢
    omega
  | result _ _ ih | classDefinition _ _ _ _ ih =>
    simp only [Phrase.shape, Statement.shape, Shape.height, heights, List.length_cons,
      List.length_append] at ih ⊢
    omega
  | @loop _ items _ _ vs _ _ _ _ _ _ hlayout ihe ihs =>
    have hitems : heights (statementShapes (items.map (·.1))) ≤ vs.length := by
      rw [statementShapes_eq]
      exact heights_pieces_le ihs fun i hi => hlayout.isInfix hi
    simp only [Phrase.shape, Statement.shape, Block.shape, Shape.height, heights,
      List.length_cons, List.length_append] at ihe ⊢
    omega
  | unassigned =>
    simp only [Phrase.shape, Statement.shape, Expr.shape, Shape.height, heights, List.length_cons]
    omega
  | declaration _ _ _ _ _ _ ih =>
    simp only [Phrase.shape, Statement.shape, Shape.height, heights, Expr.height_named,
      List.length_cons, List.length_append] at ih ⊢
    omega

/-- The end of the input has no list of its own. -/
theorem DerivesProgram.height_lt {fits : Statement → List Terminal → Prop} {ss : List Statement}
    (h : DerivesProgram fits ss ws) : ∀ s ∈ ss, s.shape.height < ws.length := by
  cases h with
  | @intro items us hitems hlayout =>
    rw [List.length_append]
    refine List.forall_mem_map.2 fun i hi => Nat.lt_succ_of_le ?_
    exact (hitems i hi).height_le.trans (hlayout.isInfix (List.mem_map_of_mem hi)).length_le

/-- No statement of a program is so high that 32 bits could not tell the depths in it apart. -/
theorem Accepted.height_le {source : String} {origin : Option String} {name : String} {b : Block}
    (h : Accepted source origin name b) : ∀ s ∈ b.statements, s.shape.height ≤ maxOffset := by
  obtain ⟨tokens, stop, htokens, hparse⟩ := h
  have hlength := (tokenize_length_le htokens).trans
    (Nat.succ_le_succ (tiles_of_tokenize htokens).1)
  obtain ⟨before, t, rfl, ht, hbefore⟩ := scan_tokens (scan_of_tokenize htokens)
  obtain ⟨hderives, -⟩ := parse_sound ht hbefore hparse
  rw [← List.length_map (f := Token.terminal)] at hlength
  exact fun s hs => Nat.le_of_lt_succ ((hderives.height_lt s hs).trans_le hlength)

end ScriptSyntax
